import CenDB.Spatial.Decimals

/-! # GeoJSON

The writer prints a geometry as an object with its type and a nested array of numbers, or of geometries
for a collection.  The reader parses any JSON value first and takes the geometry from it afterwards, so the
round trip has two halves: `reads_geometry` for the text and `jsonToGeometry_geometryJson` for the value.

The parser recurses on fuel; a value takes a character or more, so that the number of characters is
enough. -/

namespace CenDB.Spatial

open Reader Text List

section GeoJson

variable {F : Type} (num : Decimals F)

/-! ### Writing -/

/-- A text in brackets. -/
def brackets (text : List Char) : List Char := '[' :: (text ++ [']'])

def jsonPoint (p : Point F) : List Char := brackets (fmtNum num p.x ++ ',' :: fmtNum num p.y)

def writeJsonPts (pts : List (Point F)) : List Char := joined [','] (pts.map (jsonPoint num))

/-- An array of rings or linestrings. -/
def writeJsonRings (rings : List (LineString F)) : List Char :=
  joined [','] (rings.map fun r => brackets (writeJsonPts num r.points))

/-- An object with a type and an array. -/
def writeObject (ty field : String) (array : List Char) : List Char :=
  "\x7b\"type\":\"".toList ++ (ty.toList ++ ("\",\"".toList ++ (field.toList ++ ("\":".toList ++
    (array ++ "\x7d".toList)))))

mutual

def writeGeojson : Geometry F → List Char
  | .point p => writeObject "Point" "coordinates" (jsonPoint num p)
  | .lineString ls => writeObject "LineString" "coordinates" (brackets (writeJsonPts num ls.points))
  | .polygon poly => writeObject "Polygon" "coordinates" (brackets (writeJsonRings num poly.rings))
  | .multiPoint mp => writeObject "MultiPoint" "coordinates" (brackets (writeJsonPts num mp.points))
  | .multiLineString mls =>
    writeObject "MultiLineString" "coordinates" (brackets (writeJsonRings num mls.linestrings))
  | .multiPolygon mp =>
    writeObject "MultiPolygon" "coordinates"
      (brackets (joined [','] (mp.polygons.map fun poly => brackets (writeJsonRings num poly.rings))))
  | .geometryCollection gs =>
    writeObject "GeometryCollection" "geometries" (brackets (joined [','] (writeGeojsonAll gs)))

def writeGeojsonAll : List (Geometry F) → List (List Char)
  | [] => []
  | g :: gs => writeGeojson g :: writeGeojsonAll gs

end

def toGeojson (geom : Geometry F) : List Char := writeGeojson num geom

/-! ### Values -/

inductive JsonValue (F : Type) where
  | null
  | bool (b : Bool)
  | number (f : F)
  | string (s : List Char)
  | array (items : List (JsonValue F))
  | object (entries : List (List Char × JsonValue F))

/-- The first entry of an object with the key. -/
def JsonValue.get (v : JsonValue F) (key : String) : Option (JsonValue F) :=
  match v with
  | .object entries => (entries.find? fun e => e.1 == key.toList).map Prod.snd
  | _ => none

variable {v : JsonValue F} {s : List Char}

theorem JsonValue.sizeOf_get {w : JsonValue F} {key : String} (h : v.get key = some w) :
    sizeOf w < sizeOf v := by
  cases v with
  | object entries =>
    rw [get, Option.map_eq_some_iff] at h
    obtain ⟨⟨k, w'⟩, hfind, rfl⟩ := h
    have hentry := List.sizeOf_lt_of_mem (mem_of_find?_eq_some hfind)
    simp only [Prod.mk.sizeOf_spec] at hentry
    simp only [JsonValue.object.sizeOf_spec]
    omega
  | _ => cases h

/-- Why a text or a value is rejected, with what is left of the text. -/
inductive JsonError where
  | unexpected (rest : List Char)
  | expectedColon (rest : List Char)
  | expectedEntryEnd (rest : List Char)
  | expectedItemEnd (rest : List Char)
  | expectedQuote (rest : List Char)
  | trailingBackslash
  | badUnicodeEscape
  | badHex (rest : List Char)
  | badEscape (c : Char)
  | unterminated
  | badNumber (text : List Char)
  | badLiteral (rest : List Char)
  | trailing (rest : List Char)
  | invalid (message : String)
  | panicked
  | outOfFuel
deriving DecidableEq, Repr

abbrev JsonReader := Reader Char JsonError

/-! ### Reading texts -/

/-- What an escape of one letter stands for. -/
def simpleEscape (c : Char) : Option Char :=
  match c with
  | '"' => some '"'
  | '\\' => some '\\'
  | '/' => some '/'
  | 'b' => some (Char.ofNat 8)
  | 'f' => some (Char.ofNat 12)
  | 'n' => some '\n'
  | 'r' => some '\r'
  | 't' => some '\t'
  | _ => none

/-- The bytes of a text in UTF-8. -/
def utf8Len (text : List Char) : ℕ := (text.map Char.utf8Size).sum

/-- The text has a character boundary after so many bytes. -/
def isBoundary : ℕ → List Char → Bool
  | 0, _ => true
  | _, [] => false
  | n, c :: text => if c.utf8Size ≤ n then isBoundary (n - c.utf8Size) text else false

/-- The rest of a string after its quote. -/
def stringBody (s : List Char) : List Char → Except JsonError (List Char × List Char)
  | [] => .error .unterminated
  | c :: rest =>
    if c = '"' then .ok (s, rest)
    else if c = '\\' then
      match rest with
      | [] => .error .trailingBackslash
      | esc :: rest =>
        match simpleEscape esc with
        | some c => stringBody (s ++ [c]) rest
        | none =>
          if esc ≠ 'u' then .error (.badEscape esc)
          else if utf8Len rest < 4 then .error .badUnicodeEscape
          else if !isBoundary 4 rest then .error .panicked
          else
            match rest with
            | h₁ :: h₂ :: h₃ :: h₄ :: rest' =>
              match fromStrRadix16 [h₁, h₂, h₃, h₄] with
              | some code =>
                stringBody (if code.isValidChar then s ++ [Char.ofNat code] else s) rest'
              | none => .error (.badHex rest)
            | _ => .error (.badHex rest)
    else stringBody (s ++ [c]) rest

def parseString : JsonReader (List Char) := do
  skipWhile isWhitespace
  if (← peek) = some '"' then do
    bump
    stringBody []
  else failWith .expectedQuote

/-- A sign or none. -/
def takeSign : JsonReader (List Char) := fun rest =>
  match rest with
  | '-' :: rest => .ok (['-'], rest)
  | '+' :: rest => .ok (['+'], rest)
  | rest => .ok ([], rest)

/-- A point and digits, or nothing. -/
def takeFraction : JsonReader (List Char) := do
  if (← peek) = some '.' then do
    bump
    let digits ← takeWhile Char.isDigit
    return '.' :: digits
  else return []

/-- An exponent, or nothing. -/
def takeExponent : JsonReader (List Char) := do
  match ← peek with
  | some e =>
    if e = 'e' || e = 'E' then do
      bump
      let sign ← takeSign
      let digits ← takeWhile Char.isDigit
      return e :: (sign ++ digits)
    else return []
  | none => return []

def parseNumber : JsonReader F := do
  let sign ← takeSign
  let whole ← takeWhile Char.isDigit
  let fraction ← takeFraction
  let exponent ← takeExponent
  let text := sign ++ (whole ++ (fraction ++ exponent))
  match num.parse text with
  | some f => return f
  | none => throw (.badNumber text)

/-- A word of the language, or an error. -/
def literal (word : String) (v : JsonValue F) (otherwise : JsonReader (JsonValue F)) :
    JsonReader (JsonValue F) := fun rest =>
  if word.toList.isPrefixOf rest then .ok (v, rest.drop word.length) else otherwise rest

def parseBool : JsonReader (JsonValue F) :=
  literal "true" (.bool true) (literal "false" (.bool false) (failWith .badLiteral))

def parseNull : JsonReader (JsonValue F) := literal "null" .null (failWith .badLiteral)

/-- A key, a colon and a value. -/
def parseEntry (value : JsonReader (JsonValue F)) : JsonReader (List Char × JsonValue F) := do
  skipWhile isWhitespace
  let key ← parseString
  skipWhile isWhitespace
  if (← peek) = some ':' then do
    bump
    let v ← value
    return (key, v)
  else failWith .expectedColon

/-- A value that begins with `c`; `value` reads what is nested in it. -/
def valueFrom (value : JsonReader (JsonValue F)) (c : Char) : JsonReader (JsonValue F) :=
  if c = '\x7b' then do
    bump
    .object <$> separated (parseEntry value) isWhitespace ',' '\x7d' .expectedEntryEnd
  else if c = '[' then do
    bump
    .array <$> separated value isWhitespace ',' ']' .expectedItemEnd
  else if c = '"' then .string <$> parseString
  else if c = 't' || c = 'f' then parseBool
  else if c = 'n' then parseNull
  else if c = '-' || c = '+' || c.isDigit then .number <$> parseNumber num
  else failWith .unexpected

def parseValue : ℕ → JsonReader (JsonValue F)
  | 0 => throw .outOfFuel
  | fuel + 1 => do
    skipWhile isWhitespace
    match ← peek with
    | some c => valueFrom num (parseValue fuel) c
    | none => failWith .unexpected

/-! ### Reading values -/

def jsonAsCoordArray : JsonValue F → Except JsonError (Point F)
  | .array (x :: y :: _) => do
    let x ← match x with
      | .number f => .ok f
      | _ => .error (.invalid "x coordinate not a number")
    let y ← match y with
      | .number f => .ok f
      | _ => .error (.invalid "y coordinate not a number")
    return ⟨x, y⟩
  | .array _ => .error (.invalid "coordinate array must have at least 2 elements")
  | _ => .error (.invalid "expected coordinate array")

def jsonAsCoordList : JsonValue F → Except JsonError (List (Point F))
  | .array items => items.mapM jsonAsCoordArray
  | _ => .error (.invalid "expected coordinates array")

def jsonAsRingList : JsonValue F → Except JsonError (List (LineString F))
  | .array items => items.mapM fun item => LineString.mk <$> jsonAsCoordList item
  | _ => .error (.invalid "expected rings array")

/-- The rings of a polygon, the exterior one first. -/
def polygonOfList (message : String) : List (LineString F) → Except JsonError (Polygon F)
  | [] => .error (.invalid message)
  | exterior :: interiors => .ok ⟨exterior, interiors⟩

def jsonToGeometry (v : JsonValue F) : Except JsonError (Geometry F) :=
  let coordinates (message : String) : Except JsonError (JsonValue F) :=
    match v.get "coordinates" with
    | some c => .ok c
    | none => .error (.invalid message)
  match v.get "type" with
  | some (.string ty) =>
    if ty = "Point".toList then
      .point <$> (coordinates "Point missing coordinates" >>= jsonAsCoordArray)
    else if ty = "LineString".toList then
      (.lineString ⟨·⟩) <$> (coordinates "LineString missing coordinates" >>= jsonAsCoordList)
    else if ty = "Polygon".toList then
      .polygon <$> (coordinates "Polygon missing coordinates" >>= jsonAsRingList >>=
        polygonOfList "Polygon has no rings")
    else if ty = "MultiPoint".toList then
      (.multiPoint ⟨·⟩) <$> (coordinates "MultiPoint missing coordinates" >>= jsonAsCoordList)
    else if ty = "MultiLineString".toList then
      (.multiLineString ⟨·⟩) <$> (coordinates "MultiLineString missing coordinates" >>= jsonAsRingList)
    else if ty = "MultiPolygon".toList then
      match v.get "coordinates" with
      | some (.array items) =>
        (.multiPolygon ⟨·⟩) <$> items.mapM fun item =>
          jsonAsRingList item >>= polygonOfList "MultiPolygon child has no rings"
      | _ => .error (.invalid "MultiPolygon missing coordinates")
    else if ty = "GeometryCollection".toList then
      match _h : v.get "geometries" with
      | some (.array items) => .geometryCollection <$> items.attach.mapM fun item => jsonToGeometry item.1
      | _ => .error (.invalid "GeometryCollection missing 'geometries' field")
    else .error (.invalid ("unknown GeoJSON geometry type: " ++ String.ofList ty))
  | _ => .error (.invalid "GeoJSON missing 'type' field")
termination_by sizeOf v
decreasing_by
  have hitem := List.sizeOf_lt_of_mem item.2
  have hget := JsonValue.sizeOf_get _h
  simp only [JsonValue.array.sizeOf_spec] at hget
  omega

def fromGeojson (input : List Char) : Except JsonError (Geometry F) :=
  match (do
    skipWhile isWhitespace
    let v ← parseValue num (input.length + 1)
    skipWhile isWhitespace
    return v : JsonReader (JsonValue F)) input with
  | .ok (v, []) => jsonToGeometry v
  | .ok (_, rest) => .error (.trailing rest)
  | .error e => .error e

/-! ### Values of geometries -/

def pointJson (p : Point F) : JsonValue F := .array [.number p.x, .number p.y]

def ptsJson (pts : List (Point F)) : JsonValue F := .array (pts.map pointJson)

def ringsJson (rings : List (LineString F)) : JsonValue F := .array (rings.map fun r => ptsJson r.points)

/-- An object with a type and a value. -/
def typedJson (ty field : String) (v : JsonValue F) : JsonValue F :=
  .object [("type".toList, .string ty.toList), (field.toList, v)]

mutual

/-- The value that the text of a geometry stands for. -/
def geometryJson : Geometry F → JsonValue F
  | .point p => typedJson "Point" "coordinates" (pointJson p)
  | .lineString ls => typedJson "LineString" "coordinates" (ptsJson ls.points)
  | .polygon poly => typedJson "Polygon" "coordinates" (ringsJson poly.rings)
  | .multiPoint mp => typedJson "MultiPoint" "coordinates" (ptsJson mp.points)
  | .multiLineString mls => typedJson "MultiLineString" "coordinates" (ringsJson mls.linestrings)
  | .multiPolygon mp =>
    typedJson "MultiPolygon" "coordinates" (.array (mp.polygons.map fun poly => ringsJson poly.rings))
  | .geometryCollection gs => typedJson "GeometryCollection" "geometries" (.array (geometryJsonAll gs))

def geometryJsonAll : List (Geometry F) → List (JsonValue F)
  | [] => []
  | g :: gs => geometryJson g :: geometryJsonAll gs

end

theorem geometryJsonAll_eq (gs : List (Geometry F)) : geometryJsonAll gs = gs.map geometryJson := by
  induction gs with
  | nil => rfl
  | cons g gs ih => rw [geometryJsonAll, ih, map_cons]

variable {α : Type} {field : String} {c : Char} {text rest : List Char} {fuel : ℕ} {f : F}

theorem mapM_map_ok {β ε : Type} {f : α → Except ε β} {k : β → α} {l : List β} (h : ∀ b ∈ l, f (k b) = .ok b) :
    (l.map k).mapM f = .ok l := by
  induction l with
  | nil => rfl
  | cons b l ih =>
    rw [forall_mem_cons] at h
    rw [map_cons, mapM_cons, h.1, ih h.2]
    rfl

theorem jsonAsCoordArray_pointJson (p : Point F) : jsonAsCoordArray (pointJson p) = .ok p := rfl

theorem jsonAsCoordList_ptsJson (pts : List (Point F)) : jsonAsCoordList (ptsJson pts) = .ok pts :=
  mapM_map_ok fun p _ => jsonAsCoordArray_pointJson p

theorem jsonAsRingList_ringsJson (rings : List (LineString F)) :
    jsonAsRingList (ringsJson rings) = .ok rings := by
  refine mapM_map_ok fun r _ => ?_
  rw [jsonAsCoordList_ptsJson]
  rfl

theorem get_typedJson_type (ty field : String) (v : JsonValue F) :
    (typedJson ty field v).get "type" = some (.string ty.toList) := rfl

theorem get_typedJson (hfield : field ≠ "type") (ty : String) (v : JsonValue F) :
    (typedJson ty field v).get field = some v := by
  have hne : ("type".toList == field.toList) = false := by
    rw [beq_eq_false_iff_ne]
    exact fun h => hfield (String.toList_injective h).symm
  rw [typedJson, JsonValue.get, find?_cons, hne, find?_cons, beq_self_eq_true]
  rfl

/-- **The geometry is taken from its value.** -/
theorem jsonToGeometry_geometryJson (g : Geometry F) : jsonToGeometry (geometryJson g) = .ok g := by
  have hfield : ∀ (ty : String) (v : JsonValue F), (typedJson ty "coordinates" v).get "coordinates" = some v :=
    get_typedJson (by decide)
  induction g using Geometry.induction with
  | point p =>
    rw [geometryJson, jsonToGeometry]
    simp only [get_typedJson_type, hfield]
    rfl
  | lineString ls =>
    rw [geometryJson, jsonToGeometry]
    simp only [get_typedJson_type, hfield]
    rw [if_neg (by decide), if_pos trivial]
    simp only [bind, Except.bind, jsonAsCoordList_ptsJson]
    rfl
  | polygon poly =>
    rw [geometryJson, jsonToGeometry]
    simp only [get_typedJson_type, hfield]
    rw [if_neg (by decide), if_neg (by decide), if_pos trivial]
    simp only [bind, Except.bind, jsonAsRingList_ringsJson]
    rfl
  | multiPoint mp =>
    rw [geometryJson, jsonToGeometry]
    simp only [get_typedJson_type, hfield]
    rw [if_neg (by decide), if_neg (by decide), if_neg (by decide), if_pos trivial]
    simp only [bind, Except.bind, jsonAsCoordList_ptsJson]
    rfl
  | multiLineString mls =>
    rw [geometryJson, jsonToGeometry]
    simp only [get_typedJson_type, hfield]
    rw [if_neg (by decide), if_neg (by decide), if_neg (by decide), if_neg (by decide), if_pos trivial]
    simp only [bind, Except.bind, jsonAsRingList_ringsJson]
    rfl
  | multiPolygon mp =>
    rw [geometryJson, jsonToGeometry]
    simp only [get_typedJson_type, hfield]
    rw [if_neg (by decide), if_neg (by decide), if_neg (by decide), if_neg (by decide),
      if_neg (by decide), if_pos trivial]
    have hpolygons : (mp.polygons.map fun poly => ringsJson poly.rings).mapM (fun item =>
        jsonAsRingList item >>= polygonOfList "MultiPolygon child has no rings") = .ok mp.polygons := by
      refine mapM_map_ok fun poly _ => ?_
      rw [jsonAsRingList_ringsJson]
      rfl
    rw [hpolygons]
    rfl
  | geometryCollection gs ih =>
    rw [geometryJson, jsonToGeometry, geometryJsonAll_eq]
    simp only [get_typedJson_type]
    rw [if_neg (by decide), if_neg (by decide), if_neg (by decide), if_neg (by decide),
      if_neg (by decide), if_neg (by decide), if_pos trivial]
    have hgeometries : (typedJson "GeometryCollection" "geometries"
        (.array (gs.map geometryJson)) : JsonValue F).get "geometries" = some (.array (gs.map geometryJson)) :=
      get_typedJson (by decide) _ _
    split
    · rename_i items hitems
      rw [hgeometries] at hitems
      cases hitems
      rw [mapM_subtype (g := jsonToGeometry) fun _ _ => rfl, unattach_attach, mapM_map_ok ih]
      rfl
    · rename_i hnone
      exact absurd hgeometries (hnone _)

/-! ### Texts of values -/

variable {num} {finite : F → Prop} {ofI64 : ℤ → F} (h : num.Lawful finite ofI64)

/-- The text is read as the value, in front of what does not go on with a number; it begins with neither a
blank nor a bracket that closes. -/
structure Reads (num : Decimals F) (text : List Char) (v : JsonValue F) : Prop where
  head : ∃ c t, text = c :: t ∧ isWhitespace c = false ∧ c ≠ ']'
  takes : ∀ fuel, text.length ≤ fuel → Takes (parseValue num fuel) (Until numberChar) text v

/-- A value is read by what its first character says. -/
theorem takes_parseValue {Q : List Char → Prop} (hblank : isWhitespace c = false)
    (hread : Takes (valueFrom num (parseValue num fuel) c) Q (c :: text) v) :
    Takes (parseValue num (fuel + 1)) Q (c :: text) v := by
  intro rest hrest
  have hskip := skipWhile_cons (ε := JsonError) hblank (text ++ rest)
  rw [parseValue]
  simp only [bind, StateT.bind, Except.bind, cons_append, hskip]
  exact hread rest hrest

/-- A text is read with one level of nesting for its first character. -/
theorem reads_of_valueFrom {t : List Char} (hblank : isWhitespace c = false) (hc : c ≠ ']')
    (hread : ∀ fuel, t.length ≤ fuel → Takes (valueFrom num (parseValue num fuel) c) (Until numberChar) (c :: t) v) :
    Reads num (c :: t) v where
  head := ⟨c, t, rfl, hblank, hc⟩
  takes fuel hfuel := by
    cases fuel with
    | zero => cases hfuel
    | succ fuel => exact takes_parseValue hblank (hread fuel (Nat.le_of_succ_le_succ hfuel))

theorem until_isDigit (hrest : Until numberChar rest) : Until Char.isDigit rest := by
  intro c hc
  have hc' := hrest c hc
  simp only [numberChar, Bool.or_eq_false_iff] at hc'
  exact hc'.1.1.1

/-- The sign of a numeral, in front of its digits. -/
theorem takeSign_eq {sign : List Char} (hsign : sign = [] ∨ sign = ['-']) (hc : c.isDigit = true)
    (rest : List Char) : takeSign (sign ++ c :: rest) = .ok (sign, c :: rest) := by
  rcases hsign with rfl | rfl
  · rw [List.nil_append]
    unfold takeSign
    split
    · rename_i heq
      rw [(List.cons.inj heq).1] at hc
      cases hc
    · rename_i heq
      rw [(List.cons.inj heq).1] at hc
      cases hc
    · rfl
  · rfl

theorem takes_takeFraction {frac : List Char}
    (hfrac : frac = [] ∨ ∃ ds, frac = '.' :: ds ∧ ∀ c ∈ ds, c.isDigit = true) :
    Takes takeFraction (Until numberChar) frac frac := by
  rcases hfrac with rfl | ⟨ds, rfl, hds⟩
  · intro rest hrest
    have hdot : rest.head? ≠ some '.' := fun hhead => by cases hrest '.' hhead
    simp only [takeFraction, bind, StateT.bind, Except.bind, peek, List.nil_append]
    rw [if_neg hdot]
    rfl
  · refine takes_peek ?_
    rw [if_pos rfl]
    have hdigits := ((takes_takeWhile hds).mono fun _ => until_isDigit).bind_pure (ε := JsonError)
      fun digits => '.' :: digits
    exact (takes_bump '.').andThen hdigits

theorem takeExponent_eq (hrest : Until numberChar rest) :
    takeExponent rest = .ok ([], rest) := by
  cases rest with
  | nil => rfl
  | cons c rest =>
    have hc := until_cons.mp hrest
    simp only [numberChar, Bool.or_eq_false_iff] at hc
    simp only [takeExponent, bind, StateT.bind, Except.bind, peek, head?_cons]
    rw [if_neg (by simp only [hc, Bool.or_false, Bool.false_eq_true, not_false_eq_true])]
    rfl

theorem takes_parseNumber (hs : Numeral s) (hparse : num.parse s = some f) :
    Takes (parseNumber num) (Until numberChar) s f := by
  obtain ⟨sign, whole, frac, rfl, hsign, hne, hwhole, hfrac⟩ := hs
  intro rest hrest
  obtain ⟨c, t, rfl⟩ := exists_cons_of_ne_nil hne
  have hfracStop : Until Char.isDigit (frac ++ rest) := by
    rcases hfrac with rfl | ⟨ds, rfl, -⟩
    · exact until_isDigit hrest
    · exact until_cons.mpr rfl
  have hsignRead := takeSign_eq hsign (hwhole c mem_cons_self) (t ++ (frac ++ rest))
  have hwholeRead := takes_takeWhile (ε := JsonError) hwhole (frac ++ rest) hfracStop
  have hfracRead := takes_takeFraction hfrac rest hrest
  have hexponent := takeExponent_eq hrest
  have happend : sign ++ (c :: t ++ frac) ++ rest = sign ++ c :: (t ++ (frac ++ rest)) := by simp
  rw [cons_append] at hwholeRead
  rw [happend]
  simp only [parseNumber, bind, StateT.bind, Except.bind, hsignRead, hwholeRead, hfracRead, hexponent,
    append_nil, hparse]
  rfl

include h in
theorem reads_number (hf : finite f) : Reads num (fmtNum num f) (.number (num.reread ofI64 f)) := by
  have hnumeral := h.numeral_fmtNum hf
  obtain ⟨c, t, htext, hc⟩ := hnumeral.head
  have hblank : isWhitespace c = false := by
    obtain ⟨c', t', htext', hc'⟩ := hnumeral.solid
    rw [htext] at htext'
    rwa [(List.cons.inj htext').1]
  have hnumber := (takes_parseNumber hnumeral (h.parse_fmtNum hf)).map JsonValue.number
  rw [htext] at hnumber ⊢
  refine reads_of_valueFrom hblank ?_ fun fuel _ => ?_
  · rintro rfl
    rcases hc with hc | hc <;> cases hc
  · have hfrom : valueFrom num (parseValue num fuel) c = .number <$> parseNumber num := by
      rcases hc with rfl | hc
      · rfl
      · have hne : ∀ d : Char, d.isDigit = false → c ≠ d := fun d hd heq => by
          rw [heq, hd] at hc
          cases hc
        rw [valueFrom, if_neg (hne _ rfl), if_neg (hne _ rfl), if_neg (hne _ rfl),
          if_neg (by simp [hne 't' rfl, hne 'f' rfl]), if_neg (hne _ rfl), if_pos (by simp [hc])]
    rw [hfrom]
    exact hnumber

/-- **An array is read as its items are.** -/
theorem reads_array {text : α → List Char} {val : α → JsonValue F} {as : List α}
    (hitems : ∀ a ∈ as, Reads num (text a) (val a)) :
    Reads num (brackets (joined [','] (as.map text))) (.array (as.map val)) := by
  refine reads_of_valueFrom rfl (by decide) fun fuel hfuel => ?_
  have hread : ∀ a ∈ as, Takes (parseValue num fuel) (Ends ',' ']') (text a) (val a) := by
    intro a ha
    have hle : (text a).length ≤ (joined [','] (as.map text)).length := length_le_joined (mem_map_of_mem ha)
    rw [length_append] at hfuel
    exact ((hitems a ha).takes fuel (by omega)).mono fun _ => until_numberChar_of_ends rfl rfl
  have hlist : Takes (separated (parseValue num fuel) isWhitespace ',' ']' .expectedItemEnd) Any
      (joined [','] (as.map text) ++ [']']) (as.map val) :=
    takes_separated rfl rfl (by decide) (fun a ha => (hitems a ha).head) hread hread
  exact ((takes_bump '[').andThen (hlist.map JsonValue.array)).mono fun _ _ => trivial

/-- A string without quotes or backslashes. -/
def Plain (s : List Char) : Prop := ∀ c ∈ s, c ≠ '"' ∧ c ≠ '\\'

instance (s : List Char) : Decidable (Plain s) := inferInstanceAs (Decidable (∀ c ∈ s, _))

def jsonString (s : List Char) : List Char := '"' :: (s ++ ['"'])

theorem stringBody_plain (hs : Plain s) (acc rest : List Char) :
    stringBody acc (s ++ '"' :: rest) = .ok (acc ++ s, rest) := by
  induction s generalizing acc with
  | nil =>
    unfold stringBody
    simp
  | cons c s ih =>
    have hc := hs c mem_cons_self
    have hrest := ih (fun d hd => hs d (mem_cons_of_mem c hd)) (acc ++ [c])
    rw [cons_append]
    unfold stringBody
    rw [if_neg hc.1, if_neg hc.2, hrest, append_assoc]
    rfl

theorem takes_parseString (hs : Plain s) : Takes parseString Any (jsonString s) s := by
  intro rest _
  have hbody := stringBody_plain hs [] rest
  simp only [parseString, jsonString, bind, StateT.bind, Except.bind, cons_append, append_assoc]
  exact hbody

theorem reads_string (hs : Plain s) : Reads num (jsonString s) (.string s) :=
  reads_of_valueFrom rfl (by decide) fun _ _ =>
    ((takes_parseString hs).map JsonValue.string).mono fun _ _ => trivial

/-- A key, a colon and a text. -/
def entryText (key text : List Char) : List Char := jsonString key ++ ':' :: text

theorem takes_parseEntry {key : List Char} (hkey : Plain key) (hv : Reads num text v)
    (hfuel : text.length ≤ fuel) :
    Takes (parseEntry (parseValue num fuel)) (Ends ',' '\x7d') (entryText key text) (key, v) := by
  intro rest hrest
  have hskip := skipWhile_cons (ε := JsonError) (p := isWhitespace) (b := '"') rfl
    (key ++ '"' :: ':' :: (text ++ rest))
  have hcolon := skipWhile_cons (ε := JsonError) (p := isWhitespace) (b := ':') rfl (text ++ rest)
  have hkeyRead := takes_parseString hkey (':' :: (text ++ rest)) trivial
  have hvalue := hv.takes fuel hfuel rest (until_numberChar_of_ends rfl rfl hrest)
  have htext : entryText key text ++ rest = '"' :: (key ++ '"' :: ':' :: (text ++ rest)) := by
    simp [entryText, jsonString]
  have hkeyText : jsonString key ++ ':' :: (text ++ rest) = '"' :: (key ++ '"' :: ':' :: (text ++ rest)) := by
    simp [jsonString]
  rw [hkeyText] at hkeyRead
  rw [htext]
  simp only [parseEntry, bind, StateT.bind, Except.bind, hskip, hkeyRead, hcolon, peek, head?_cons]
  rw [if_pos trivial]
  simp only [StateT.bind, bind, Except.bind, bump, tail_cons, hvalue]
  rfl

theorem objectHead : "\x7b\"type\":\"".toList = '\x7b' :: (jsonString "type".toList ++ [':', '"']) := by
  decide

theorem objectMiddle : "\",\"".toList = ['"', ',', '"'] := by decide

theorem objectColon : "\":".toList = ['"', ':'] := by decide

theorem objectClose : "\x7d".toList = ['\x7d'] := by decide

/-- The two entries of an object. -/
theorem entries_eq (key ty field array : List Char) : ('\x7b' :: (jsonString key ++ [':', '"'])) ++
      (ty ++ (['"', ',', '"'] ++ (field ++ (['"', ':'] ++ (array ++ ['\x7d']))))) =
    '\x7b' :: (joined [','] [entryText key (jsonString ty), entryText field array] ++ ['\x7d']) := by
  simp only [joined, entryText, jsonString, cons_append, append_assoc, flatMap_cons,
    flatMap_nil, List.nil_append, append_nil]

theorem writeObject_eq (ty field : String) (array : List Char) :
    writeObject ty field array = '\x7b' :: (joined [',']
      [entryText "type".toList (jsonString ty.toList), entryText field.toList array] ++ ['\x7d']) := by
  rw [← entries_eq, ← objectHead, ← objectMiddle, ← objectColon, ← objectClose]
  exact rfl

theorem plain_type : Plain "type".toList := by decide

/-- **An object is read as its value is.** -/
theorem reads_object {ty : String} (hty : Plain ty.toList) (hfield : Plain field.toList) (hv : Reads num text v) :
    Reads num (writeObject ty field text) (typedJson ty field v) := by
  rw [writeObject_eq]
  refine reads_of_valueFrom rfl (by decide) fun fuel hfuel => ?_
  -- the entries by their key, text and value
  let entries : List (List Char × List Char × JsonValue F) :=
    [("type".toList, jsonString ty.toList, .string ty.toList), (field.toList, text, v)]
  have hentry : ∀ e ∈ entries, Plain e.1 ∧ Reads num e.2.1 e.2.2 := by
    intro e he
    rcases mem_cons.mp he with rfl | he
    · exact ⟨plain_type, reads_string hty⟩
    · rw [mem_singleton.mp he]
      exact ⟨hfield, hv⟩
  have hread : ∀ e ∈ entries, Takes (parseEntry (parseValue num fuel)) (Ends ',' '\x7d')
      (entryText e.1 e.2.1) (e.1, e.2.2) := by
    intro e he
    obtain ⟨hkey, hval⟩ := hentry e he
    have hle : (entryText e.1 e.2.1).length ≤
        (joined [','] (entries.map fun e => entryText e.1 e.2.1)).length :=
      length_le_joined (mem_map_of_mem (f := fun e => entryText e.1 e.2.1) he)
    have htext : e.2.1.length ≤ (entryText e.1 e.2.1).length := by
      rw [entryText, length_append, length_cons]
      omega
    rw [length_append] at hfuel
    exact takes_parseEntry hkey hval (htext.trans (hle.trans ((Nat.le_add_right _ _).trans hfuel)))
  have hlist : Takes (separated (parseEntry (parseValue num fuel)) isWhitespace ',' '\x7d' .expectedEntryEnd) Any
      (joined [','] (entries.map fun e => entryText e.1 e.2.1) ++ ['\x7d']) (entries.map fun e => (e.1, e.2.2)) :=
    takes_separated rfl rfl (by decide) (fun e _ => ⟨'"', _, rfl, rfl, by decide⟩) hread hread
  exact ((takes_bump '\x7b').andThen (hlist.map JsonValue.object)).mono fun _ _ => trivial

/-! ### Texts of geometries -/

theorem writeGeojsonAll_eq (gs : List (Geometry F)) : writeGeojsonAll num gs = gs.map (writeGeojson num) := by
  induction gs with
  | nil => rfl
  | cons g gs ih => rw [writeGeojsonAll, ih, map_cons]

theorem jsonPoint_eq (p : Point F) :
    jsonPoint num p = brackets (joined [','] (p.coordinates.map (fmtNum num))) := by
  simp [jsonPoint, Point.coordinates, joined]

include h in
theorem reads_point {p : Point F} (hp : ∀ f ∈ p.coordinates, finite f) :
    Reads num (jsonPoint num p) (pointJson (p.map (num.reread ofI64))) := by
  rw [jsonPoint_eq]
  have hcoordinates : ∀ f ∈ p.coordinates, Reads num (fmtNum num f) (.number (num.reread ofI64 f)) :=
    fun f hf => reads_number h (hp f hf)
  exact reads_array hcoordinates

include h in
theorem reads_pts {pts : List (Point F)} (hpts : ∀ f ∈ pts.flatMap Point.coordinates, finite f) :
    Reads num (brackets (writeJsonPts num pts)) (ptsJson (pts.map (Point.map (num.reread ofI64)))) := by
  rw [ptsJson, map_map]
  exact reads_array fun p hp => reads_point h fun f hf => hpts f (mem_flatMap.mpr ⟨p, hp, hf⟩)

include h in
theorem reads_rings {rings : List (LineString F)} (hrings : ∀ f ∈ rings.flatMap LineString.coordinates, finite f) :
    Reads num (brackets (writeJsonRings num rings))
      (ringsJson (rings.map (LineString.map (num.reread ofI64)))) := by
  rw [ringsJson, map_map]
  exact reads_array fun r hr => reads_pts h fun f hf => hrings f (mem_flatMap.mpr ⟨r, hr, hf⟩)

include h in
/-- **The text of a geometry is read as its value.** -/
theorem reads_geometry (g : Geometry F) (hg : ∀ f ∈ g.coordinates, finite f) :
    Reads num (writeGeojson num g) (geometryJson (g.map (num.reread ofI64))) := by
  have hcoordinates : Plain "coordinates".toList := by decide
  induction g using Geometry.induction with
  | point p => exact reads_object (by decide) hcoordinates (reads_point h hg)
  | lineString ls | multiPoint mp => exact reads_object (by decide) hcoordinates (reads_pts h hg)
  | polygon poly | multiLineString mls => exact reads_object (by decide) hcoordinates (reads_rings h hg)
  | multiPolygon mp =>
    have hpolygons : ∀ poly ∈ mp.polygons, Reads num (brackets (writeJsonRings num poly.rings))
        (ringsJson (poly.map (num.reread ofI64)).rings) := fun poly hpoly =>
      reads_rings h fun f hf => hg f (mem_flatMap.mpr ⟨poly, hpoly, hf⟩)
    have harray := reads_array hpolygons
    refine reads_object (by decide) hcoordinates ?_
    rw [map_map]
    exact harray
  | geometryCollection gs ih =>
    rw [Geometry.coordinates, Geometry.allCoordinates_eq] at hg
    have hitems : ∀ g ∈ gs, Reads num (writeGeojson num g) (geometryJson (g.map (num.reread ofI64))) :=
      fun g hmem => ih g hmem fun f hf => hg f (mem_flatMap.mpr ⟨g, hmem, hf⟩)
    have harray := reads_array hitems
    rw [writeGeojson, writeGeojsonAll_eq, Geometry.map, Geometry.mapAll_eq, geometryJson, geometryJsonAll_eq,
      map_map]
    exact reads_object (by decide) (by decide) harray

include h in
/-- **The text of a geometry is read back**, up to the sign of zeros. -/
theorem fromGeojson_toGeojson_eq {g : Geometry F} (hg : ∀ f ∈ g.coordinates, finite f) :
    fromGeojson num (toGeojson num g) = .ok (g.map (num.reread ofI64)) := by
  have hread := reads_geometry h g hg
  obtain ⟨c, t, htext, hblank, -⟩ := hread.head
  have hvalue := (hread.takes ((writeGeojson num g).length + 1) (Nat.le_succ _)).run_eq (until_nil _)
  have hskip := skipWhile_cons (ε := JsonError) hblank t
  rw [← htext] at hskip
  unfold fromGeojson toGeojson
  simp only [bind, StateT.bind, Except.bind, hskip, hvalue]
  exact jsonToGeometry_geometryJson _

end GeoJson

end CenDB.Spatial
