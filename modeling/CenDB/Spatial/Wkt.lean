import CenDB.Spatial.Decimals

/-! # Well-known text

A text is its list of characters; the position of the parser is what is left of it, and an error says at
what it stopped.  Every geometry is a keyword and a list in parentheses, so one reader of lists serves
points, rings, polygons and geometries.

The parser recurses on fuel; a geometry takes a character or more, so that the number of characters is
enough.  `takes_writeWkt` is the round trip. -/

namespace CenDB.Spatial

open Reader Text List

section Wkt

variable {F : Type} (num : Decimals F)

/-! ### Writing -/

def writePointText (p : Point F) : List Char := fmtNum num p.x ++ ' ' :: fmtNum num p.y

def writeCoordList (pts : List (Point F)) : List Char := joined [',', ' '] (pts.map (writePointText num))

/-- A text in parentheses. -/
def parens (text : List Char) : List Char := '(' :: (text ++ [')'])

def writeRingList (rings : List (LineString F)) : List Char :=
  joined [',', ' '] (rings.map fun r => parens (writeCoordList num r.points))

/-- A keyword, a blank and a text in parentheses. -/
def tagged (kw : String) (text : List Char) : List Char := kw.toList ++ ' ' :: parens text

mutual

def writeWkt : Geometry F → List Char
  | .point p => tagged "POINT" (writePointText num p)
  | .lineString ls => tagged "LINESTRING" (writeCoordList num ls.points)
  | .polygon poly => tagged "POLYGON" (writeRingList num poly.rings)
  | .multiPoint mp =>
    tagged "MULTIPOINT" (joined [',', ' '] (mp.points.map fun p => parens (writePointText num p)))
  | .multiLineString mls => tagged "MULTILINESTRING" (writeRingList num mls.linestrings)
  | .multiPolygon mp =>
    tagged "MULTIPOLYGON"
      (joined [',', ' '] (mp.polygons.map fun poly => parens (writeRingList num poly.rings)))
  | .geometryCollection gs => tagged "GEOMETRYCOLLECTION" (joined [',', ' '] (writeWktAll gs))

def writeWktAll : List (Geometry F) → List (List Char)
  | [] => []
  | g :: gs => writeWkt g :: writeWktAll gs

end

def toWkt (geom : Geometry F) : List Char := writeWkt num geom

/-! ### Reading -/

/-- Why a text is rejected, with what is left of it. -/
inductive WktError where
  | expected (c : Char) (rest : List Char)
  | expectedIdent (rest : List Char)
  | expectedNumber (rest : List Char)
  | badNumber (text : List Char)
  | expectedSeparator (rest : List Char)
  | noRings
  | unknownType (ty : List Char)
  | trailing (rest : List Char)
  | outOfFuel
deriving DecidableEq, Repr

abbrev WktReader := Reader Char WktError

def skipWs : WktReader Unit := skipWhile isWhitespace

def eat (c : Char) : WktReader Unit := do
  skipWs
  if (← peek) = some c then bump
  else failWith (.expected c)

variable (alphabetic : Char → Bool)

def eatIdent : WktReader (List Char) := do
  skipWs
  match ← takeWhile alphabetic with
  | [] => failWith .expectedIdent
  | ident => return ident

/-- The characters of a number after its sign, what follows them, and whether there is a digit: digits, one
point before the exponent, and an exponent with a sign once there was a digit. -/
def scanNumber (seenDot seenE seenDigit : Bool) : List Char → List Char × List Char × Bool
  | [] => ([], [], seenDigit)
  | c :: rest =>
    let take (scanned : List Char × List Char × Bool) := (c :: scanned.1, scanned.2)
    if c.isDigit then take (scanNumber seenDot seenE true rest)
    else if c = '.' && !seenDot && !seenE then take (scanNumber true seenE seenDigit rest)
    else if (c = 'e' || c = 'E') && !seenE && seenDigit then
      match rest with
      | [] => take ([], [], seenDigit)
      | s :: rest' =>
        if s = '-' || s = '+' then
          let scanned := scanNumber seenDot true seenDigit rest'
          (c :: s :: scanned.1, scanned.2)
        else take (scanNumber seenDot true seenDigit (s :: rest'))
    else ([], c :: rest, seenDigit)

/-- A sign or none. -/
def sign : List Char → List Char × List Char
  | '-' :: rest => (['-'], rest)
  | '+' :: rest => (['+'], rest)
  | rest => ([], rest)

def eatNumber : WktReader F := do
  skipWs
  fun start =>
    let (signed, rest) := sign start
    let (digits, rest, seenDigit) := scanNumber false false false rest
    if !seenDigit then .error (.expectedNumber start)
    else
      match num.parse (signed ++ digits) with
      | some f => .ok (f, rest)
      | none => .error (.badNumber (signed ++ digits))

def eatPoint : WktReader (Point F) := do
  let x ← eatNumber num
  let y ← eatNumber num
  return ⟨x, y⟩

/-- A list in parentheses. -/
def eatList {α : Type} (item : WktReader α) : WktReader (List α) := do
  eat '('
  separated item isWhitespace ',' ')' .expectedSeparator

def eatCoordList : WktReader (List (Point F)) := eatList (eatPoint num)

/-- A point in parentheses or without. -/
def eatPointToken : WktReader (Point F) := do
  skipWs
  if (← peek) = some '(' then do
    eat '('
    let p ← eatPoint num
    eat ')'
    return p
  else eatPoint num

def eatRingList : WktReader (List (LineString F)) := eatList (LineString.mk <$> eatCoordList num)

/-- The rings of a polygon, the exterior one first. -/
def polygonOfRings : List (LineString F) → WktReader (Polygon F)
  | [] => throw .noRings
  | exterior :: interiors => pure ⟨exterior, interiors⟩

def eatPolygonList : WktReader (List (Polygon F)) := eatList (eatRingList num >>= polygonOfRings)

def emptyGeometry (ty : List Char) : Geometry F :=
  if ty = "POINT".toList then .point ⟨num.nan, num.nan⟩
  else if ty = "LINESTRING".toList then .lineString ⟨[]⟩
  else if ty = "POLYGON".toList then .polygon ⟨⟨[]⟩, []⟩
  else if ty = "MULTIPOINT".toList then .multiPoint ⟨[]⟩
  else if ty = "MULTILINESTRING".toList then .multiLineString ⟨[]⟩
  else if ty = "MULTIPOLYGON".toList then .multiPolygon ⟨[]⟩
  else .geometryCollection []

/-- The markers of more dimensions are ignored. -/
def dimensionMarker : WktReader Unit := do
  skipWs
  match ← peek with
  | some c => if c = 'Z' || c = 'M' then discard (eatIdent alphabetic) else return ()
  | none => return ()

/-- Step over the word `EMPTY`, if it is there. -/
def emptyMark : WktReader Bool := do
  skipWs
  fun rest =>
    if rest.head? = some 'E' then
      match eatIdent alphabetic rest with
      | .ok (ident, rest') => if ident.map Char.toUpper = "EMPTY".toList then .ok (true, rest') else .ok (false, rest)
      | .error _ => .ok (false, rest)
    else .ok (false, rest)

/-- What may stand between a keyword and its list; whether the geometry is empty. -/
def marks : WktReader Bool := do
  dimensionMarker alphabetic
  emptyMark alphabetic

/-- What follows the keyword; `child` reads a geometry with a keyword of its own. -/
def parseBody (child : WktReader (Geometry F)) (ty : List Char) : WktReader (Geometry F) :=
  if ty = "POINT".toList then do
    eat '('
    let p ← eatPoint num
    eat ')'
    return .point p
  else if ty = "LINESTRING".toList then (.lineString ⟨·⟩) <$> eatCoordList num
  else if ty = "POLYGON".toList then .polygon <$> (eatRingList num >>= polygonOfRings)
  else if ty = "MULTIPOINT".toList then (.multiPoint ⟨·⟩) <$> eatList (eatPointToken num)
  else if ty = "MULTILINESTRING".toList then (.multiLineString ⟨·⟩) <$> eatRingList num
  else if ty = "MULTIPOLYGON".toList then (.multiPolygon ⟨·⟩) <$> eatPolygonList num
  else if ty = "GEOMETRYCOLLECTION".toList then .geometryCollection <$> eatList child
  else throw (.unknownType ty)

def parseGeometry : ℕ → WktReader (Geometry F)
  | 0 => throw .outOfFuel
  | fuel + 1 => do
    let ty := (← eatIdent alphabetic).map Char.toUpper
    if ← marks alphabetic then return emptyGeometry num ty
    else parseBody num (parseGeometry fuel) ty

def fromWkt (input : List Char) : Except WktError (Geometry F) :=
  match (do skipWs; let g ← parseGeometry num alphabetic (input.length + 1); skipWs; return g :
    WktReader (Geometry F)) input with
  | .ok (g, []) => .ok g
  | .ok (_, rest) => .error (.trailing rest)
  | .error e => .error e

/-! ### Blanks and numbers -/

variable {α : Type} {pad : List Char} {g : Geometry F}

variable {a : α} {c : Char} {seenDot seenE seenDigit : Bool} {rest kw : List Char} {p : Point F} {β : Type}
  {text : α → List Char} {item : WktReader β} {val : α → β} {fuel : ℕ}

/-- Blanks before a text are skipped. -/
theorem takes_skipWs {f : Unit → WktReader α} {Q : List Char → Prop} {text : List Char}
    (hpad : ∀ c ∈ pad, isWhitespace c = true) (hsolid : Solid text) (h : Takes (f ()) Q text a) :
    Takes (skipWs >>= f) Q (pad ++ text) a := by
  obtain ⟨c, t, rfl, hc⟩ := hsolid
  exact (takes_skipWhile hpad).bind h fun rest _ => until_cons.mpr hc

theorem takes_eat (hpad : ∀ c ∈ pad, isWhitespace c = true) (hc : isWhitespace c = false) :
    Takes (eat c) Any (pad ++ [c]) () := by
  refine takes_skipWs hpad ⟨c, [], rfl, hc⟩ (takes_peek ?_)
  rw [if_pos rfl]
  exact takes_bump c

theorem sign_eq_self (hminus : rest.head? ≠ some '-') (hplus : rest.head? ≠ some '+') : sign rest = ([], rest) := by
  unfold sign
  split
  · exact absurd rfl hminus
  · exact absurd rfl hplus
  · rfl

/-- One character of a number, an exponent with its sign. -/
theorem scanNumber_cons (c : Char) (rest : List Char) : scanNumber seenDot seenE seenDigit (c :: rest) =
    if c.isDigit then
      (c :: (scanNumber seenDot seenE true rest).1, (scanNumber seenDot seenE true rest).2)
    else if c = '.' && !seenDot && !seenE then
      (c :: (scanNumber true seenE seenDigit rest).1, (scanNumber true seenE seenDigit rest).2)
    else if (c = 'e' || c = 'E') && !seenE && seenDigit then
      (c :: ((sign rest).1 ++ (scanNumber seenDot true seenDigit (sign rest).2).1),
        (scanNumber seenDot true seenDigit (sign rest).2).2)
    else ([], c :: rest, seenDigit) := by
  conv_lhs => unfold scanNumber
  cases rest with
  | nil => rfl
  | cons s rest =>
    dsimp only
    by_cases hsign : s = '-' ∨ s = '+'
    · rcases hsign with rfl | rfl <;> rfl
    · have hnone : ¬ (s = '-' || s = '+') = true := by simpa using hsign
      rw [not_or] at hsign
      have hself : sign (s :: rest) = ([], s :: rest) :=
        sign_eq_self (fun h => hsign.1 (Option.some.inj h)) fun h => hsign.2 (Option.some.inj h)
      rw [if_neg hnone, hself]
      rfl

theorem scanNumber_stop (h : Until numberChar rest) :
    scanNumber seenDot seenE seenDigit rest = ([], rest, seenDigit) := by
  cases rest with
  | nil => rfl
  | cons c rest =>
    have hc := until_cons.mp h
    simp only [numberChar, Bool.or_eq_false_iff, decide_eq_false_iff_not] at hc
    obtain ⟨⟨⟨hdigit, hdot⟩, he⟩, hE⟩ := hc
    rw [scanNumber_cons, if_neg (by simp [hdigit]), if_neg (by simp [hdot]), if_neg (by simp [he, hE])]

theorem scanNumber_digit (hc : c.isDigit = true) (rest : List Char) :
    scanNumber seenDot seenE seenDigit (c :: rest) =
      (c :: (scanNumber seenDot seenE true rest).1, (scanNumber seenDot seenE true rest).2) := by
  rw [scanNumber_cons, if_pos hc]

theorem scanNumber_dot (rest : List Char) : scanNumber false false seenDigit ('.' :: rest) =
      ('.' :: (scanNumber true false seenDigit rest).1, (scanNumber true false seenDigit rest).2) := by
  rw [scanNumber_cons, if_neg (by decide)]
  rfl

theorem scanNumber_digits {ds : List Char} (hds : ∀ c ∈ ds, c.isDigit = true) (seenDigit : Bool)
    (rest : List Char) :
    scanNumber seenDot seenE seenDigit (ds ++ rest) =
      (ds ++ (scanNumber seenDot seenE (seenDigit || !ds.isEmpty) rest).1,
        (scanNumber seenDot seenE (seenDigit || !ds.isEmpty) rest).2) := by
  induction ds generalizing seenDigit with
  | nil => simp
  | cons c ds ih =>
    rw [forall_mem_cons] at hds
    rw [cons_append, scanNumber_digit hds.1, ih hds.2]
    simp

/-- A numeral is scanned after its sign. -/
theorem scan_numeral {s : List Char} (h : Numeral s) (hrest : Until numberChar rest) :
    ∃ signed digits, s = signed ++ digits ∧ sign (s ++ rest) = (signed, digits ++ rest) ∧
      scanNumber false false false (digits ++ rest) = (digits, rest, true) := by
  obtain ⟨sg, whole, frac, rfl, hsign, hne, hwhole, hfrac⟩ := h
  refine ⟨sg, whole ++ frac, rfl, ?_, ?_⟩
  · rcases hsign with rfl | rfl
    · obtain ⟨c, t, rfl⟩ := exists_cons_of_ne_nil hne
      have hc := hwhole c mem_cons_self
      have hminus : c ≠ '-' := by rintro rfl; cases hc
      have hplus : c ≠ '+' := by rintro rfl; cases hc
      simp only [List.nil_append, cons_append]
      unfold sign
      split
      · rename_i heq
        exact absurd (List.cons.inj heq).1 hminus
      · rename_i heq
        exact absurd (List.cons.inj heq).1 hplus
      · simp
    · rfl
  · have hempty : whole.isEmpty = false := isEmpty_eq_false_iff.mpr hne
    rw [append_assoc, scanNumber_digits hwhole, hempty]
    rcases hfrac with rfl | ⟨ds, rfl, hds⟩
    · rw [List.nil_append, scanNumber_stop hrest]
      rfl
    · simp only [Bool.not_false, Bool.or_true]
      rw [cons_append, scanNumber_dot, scanNumber_digits hds, Bool.true_or, scanNumber_stop hrest]
      simp

/-! ### The round trip -/

variable {num} {alphabetic} {finite : F → Prop} {ofI64 : ℤ → F} (h : num.Lawful finite ofI64)

include h in
theorem takes_eatNumber {f : F} (hf : finite f) (hpad : ∀ c ∈ pad, isWhitespace c = true) :
    Takes (eatNumber num) (Until numberChar) (pad ++ fmtNum num f) (num.reread ofI64 f) := by
  have hnumeral := h.numeral_fmtNum hf
  refine takes_skipWs hpad hnumeral.solid fun rest hrest => ?_
  obtain ⟨signed, digits, hsplit, hsign, hscan⟩ := scan_numeral hnumeral hrest
  simp only [hsign, hscan]
  rw [← hsplit, h.parse_fmtNum hf]
  rfl

theorem blank_space : ∀ c ∈ [' '], isWhitespace c = true := by decide

theorem blank_nil : ∀ c ∈ ([] : List Char), isWhitespace c = true := by decide

include h in
theorem takes_eatPoint (hp : ∀ f ∈ p.coordinates, finite f) (hpad : ∀ c ∈ pad, isWhitespace c = true) :
    Takes (eatPoint num) (Until numberChar) (pad ++ writePointText num p) (p.map (num.reread ofI64)) := by
  have hx := takes_eatNumber h (hp p.x (by simp [Point.coordinates])) hpad
  have hy := takes_eatNumber h (hp p.y (by simp [Point.coordinates])) blank_space
  have hstop : ∀ rest, Until numberChar rest → Until numberChar ([' '] ++ fmtNum num p.y ++ rest) :=
    fun _ _ => until_cons.mpr rfl
  have hpoint := hx.bind (f := fun x => do let y ← eatNumber num; return (⟨x, y⟩ : Point F))
    (hy.bind_pure fun y => (⟨num.reread ofI64 p.x, y⟩ : Point F)) hstop
  rw [append_assoc] at hpoint
  exact hpoint

theorem solid_parens (text : List Char) : Solid (parens text) := ⟨'(', _, rfl, rfl⟩

/-- What one reader reads, in parentheses. -/
theorem takes_parens (g : α → β) {r : WktReader α} {P : List Char → Prop} {text : List Char}
    (hr : Takes r P text a) (hstop : ∀ rest, P (')' :: rest)) (hpad : ∀ c ∈ pad, isWhitespace c = true) :
    Takes (do eat '('; let a ← r; eat ')'; return g a) Any (pad ++ parens text) (g a) := by
  have hopen : Takes (eat '(') Any (pad ++ ['(']) () := takes_eat hpad rfl
  have hclose : Takes (eat ')') Any ([] ++ [')']) () := takes_eat blank_nil rfl
  have hinner := hr.bind (f := fun a => do eat ')'; return g a) (hclose.bind_pure fun _ => g a)
    fun rest _ => hstop rest
  have hall := hopen.andThen (f := fun _ => do let a ← r; eat ')'; return g a) hinner
  rwa [append_assoc] at hall

/-- An item of a list: it begins with neither a blank nor the end of the list, and is read after blanks. -/
structure IsItem {α β : Type} (item : WktReader β) (text : α → List Char) (val : α → β) (a : α) : Prop where
  head : ∃ c t, text a = c :: t ∧ isWhitespace c = false ∧ c ≠ ')'
  takes : ∀ pad, (∀ c ∈ pad, isWhitespace c = true) → Takes item (Ends ',' ')') (pad ++ text a) (val a)

/-- **A list in parentheses is read as its items are.** -/
theorem takes_eatList {as : List α} (hitems : ∀ a ∈ as, IsItem item text val a)
    (hpad : ∀ c ∈ pad, isWhitespace c = true) :
    Takes (eatList item) Any (pad ++ parens (joined [',', ' '] (as.map text))) (as.map val) := by
  have hlist : Takes (separated item isWhitespace ',' ')' WktError.expectedSeparator) Any
      (joined [',', ' '] (as.map text) ++ [')']) (as.map val) :=
    takes_separated rfl rfl (by decide) (fun a ha => (hitems a ha).head)
      (fun a ha => (hitems a ha).takes [] blank_nil) fun a ha => (hitems a ha).takes [' '] blank_space
  have hopen : Takes (eat '(') Any (pad ++ ['(']) () := takes_eat hpad rfl
  have hall := hopen.andThen (f := fun _ => separated item isWhitespace ',' ')' .expectedSeparator) hlist
  rwa [append_assoc] at hall

/-- What is in parentheses is an item of a list. -/
theorem isItem_parens
    (htakes : ∀ pad, (∀ c ∈ pad, isWhitespace c = true) → Takes item Any (pad ++ parens (text a)) (val a)) :
    IsItem item (fun a => parens (text a)) val a where
  head := ⟨'(', _, rfl, rfl, by decide⟩
  takes pad hpad := (htakes pad hpad).mono fun _ _ => trivial

include h in
theorem isItem_point (hp : ∀ f ∈ p.coordinates, finite f) :
    IsItem (eatPoint num) (writePointText num) (Point.map (num.reread ofI64)) p where
  head := by
    obtain ⟨c, t, htext, hc⟩ := (h.numeral_fmtNum (hp p.x (by simp [Point.coordinates]))).head
    refine ⟨c, t ++ ' ' :: fmtNum num p.y, by rw [writePointText, htext]; rfl, ?_, ?_⟩
    · obtain ⟨c', t', htext', hc'⟩ := (h.numeral_fmtNum (hp p.x (by simp [Point.coordinates]))).solid
      rw [htext] at htext'
      rwa [(List.cons.inj htext').1]
    · rintro rfl
      rcases hc with hc | hc <;> cases hc
  takes pad hpad := (takes_eatPoint h hp hpad).mono fun _ => until_numberChar_of_ends rfl rfl

include h in
theorem takes_eatCoordList {pts : List (Point F)} (hpts : ∀ f ∈ pts.flatMap Point.coordinates, finite f)
    (hpad : ∀ c ∈ pad, isWhitespace c = true) :
    Takes (eatCoordList num) Any (pad ++ parens (writeCoordList num pts))
      (pts.map (Point.map (num.reread ofI64))) :=
  takes_eatList (fun p hp => isItem_point h fun f hf => hpts f (mem_flatMap.mpr ⟨p, hp, hf⟩)) hpad

include h in
theorem takes_eatRingList {rings : List (LineString F)}
    (hrings : ∀ f ∈ rings.flatMap LineString.coordinates, finite f) (hpad : ∀ c ∈ pad, isWhitespace c = true) :
    Takes (eatRingList num) Any (pad ++ parens (writeRingList num rings))
      (rings.map (LineString.map (num.reread ofI64))) := by
  refine takes_eatList (fun ring hring => isItem_parens fun pad hpad => ?_) hpad
  exact (takes_eatCoordList h (fun f hf => hrings f (mem_flatMap.mpr ⟨ring, hring, hf⟩)) hpad).map LineString.mk

include h in
theorem takes_eatPolygon {poly : Polygon F} (hpoly : ∀ f ∈ poly.coordinates, finite f)
    (hpad : ∀ c ∈ pad, isWhitespace c = true) :
    Takes (eatRingList num >>= polygonOfRings) Any (pad ++ parens (writeRingList num poly.rings))
      (poly.map (num.reread ofI64)) := by
  have hrings := (takes_eatRingList h hpoly hpad).andThen (f := polygonOfRings)
    (Takes.pure (poly.map (num.reread ofI64)))
  rwa [append_nil] at hrings

include h in
theorem takes_eatPointToken (hp : ∀ f ∈ p.coordinates, finite f) (hpad : ∀ c ∈ pad, isWhitespace c = true) :
    Takes (eatPointToken num) Any (pad ++ parens (writePointText num p)) (p.map (num.reread ofI64)) := by
  refine takes_skipWs hpad (solid_parens _) (takes_peek ?_)
  rw [if_pos rfl]
  exact takes_parens id (takes_eatPoint h hp blank_nil) (fun _ => until_cons.mpr rfl) blank_nil

/-! ### Geometries -/

/-- A keyword is read as it is, whichever letters beyond ASCII are alphabetic. -/
structure IsKeyword (alphabetic : Char → Bool) (kw : List Char) : Prop where
  ne_nil : kw ≠ []
  alphabetic : ∀ c ∈ kw, alphabetic c = true
  solid : Solid kw
  upper : kw.map Char.toUpper = kw

/-- Keywords are capital letters. -/
theorem isKeyword (halpha : ∀ c : Char, c.toNat < 128 → alphabetic c = c.isAlpha)
    (hkw : kw ≠ [] ∧ ∀ c ∈ kw, c.toNat < 128 ∧ c.isAlpha = true ∧ isWhitespace c = false ∧ c.toUpper = c) :
    IsKeyword alphabetic kw where
  ne_nil := hkw.1
  alphabetic c hc := by
    obtain ⟨hlt, hc, -⟩ := hkw.2 c hc
    rw [halpha c hlt, hc]
  solid := by
    obtain ⟨c, t, rfl⟩ := exists_cons_of_ne_nil hkw.1
    exact ⟨c, t, rfl, (hkw.2 c mem_cons_self).2.2.1⟩
  upper := by
    conv_rhs => rw [← map_id kw]
    exact map_congr_left fun c hc => (hkw.2 c hc).2.2.2

theorem takes_eatIdent (hkw : IsKeyword alphabetic kw) (hpad : ∀ c ∈ pad, isWhitespace c = true) :
    Takes (eatIdent alphabetic) (Until alphabetic) (pad ++ kw) kw := by
  refine takes_skipWs hpad hkw.solid fun rest hrest => ?_
  obtain ⟨c, t, hcons⟩ := exists_cons_of_ne_nil hkw.ne_nil
  have htake := takes_takeWhile (ε := WktError) hkw.alphabetic rest hrest
  simp only [bind, StateT.bind, Except.bind, htake]
  rw [hcons]
  rfl

/-- A blank and a parenthesis follow the keyword: there is neither a marker nor the word for an empty
geometry. -/
theorem takes_marks (alphabetic : Char → Bool) :
    Takes (marks alphabetic) (fun rest => rest.head? = some '(') [' '] false := by
  intro rest hrest
  obtain ⟨t, rfl⟩ := head?_eq_some_iff.mp hrest
  rfl

/-- **A keyword and what is read after it.** -/
theorem takes_parseGeometry {kw : String} {inner : List Char}
    (halpha : ∀ c : Char, c.toNat < 128 → alphabetic c = c.isAlpha) (hkw : IsKeyword alphabetic kw.toList)
    (hbody : Takes (parseBody num (parseGeometry num alphabetic fuel) kw.toList) Any (parens inner) g)
    (hpad : ∀ c ∈ pad, isWhitespace c = true) :
    Takes (parseGeometry num alphabetic (fuel + 1)) Any (pad ++ tagged kw inner) g := by
  have hspace : alphabetic ' ' = false := (halpha ' ' (by decide)).trans rfl
  have hrest := (takes_marks alphabetic).bind (f := fun empty => if empty then
    return emptyGeometry num kw.toList else parseBody num (parseGeometry num alphabetic fuel) kw.toList) hbody
    fun _ _ => rfl
  have hall := (takes_eatIdent hkw hpad).bind (f := fun ident => do
    if ← marks alphabetic then return emptyGeometry num (ident.map Char.toUpper)
    else parseBody num (parseGeometry num alphabetic fuel) (ident.map Char.toUpper))
    (by rw [hkw.upper]; exact hrest) fun rest _ => until_cons.mpr hspace
  rwa [append_assoc] at hall

theorem writeWktAll_eq (gs : List (Geometry F)) : writeWktAll num gs = gs.map (writeWkt num) := by
  induction gs with
  | nil => rfl
  | cons g gs ih => rw [writeWktAll, ih, map_cons]

/-- The keywords of the geometries. -/
def keywords : List String :=
  ["POINT", "LINESTRING", "POLYGON", "MULTIPOINT", "MULTILINESTRING", "MULTIPOLYGON", "GEOMETRYCOLLECTION"]

theorem keywords_capital : ∀ kw ∈ keywords, kw.toList ≠ [] ∧ ∀ c ∈ kw.toList,
    c.toNat < 128 ∧ c.isAlpha = true ∧ isWhitespace c = false ∧ c.toUpper = c := by decide

/-- A geometry is tagged with one of the keywords. -/
theorem writeWkt_tagged (num : Decimals F) (g : Geometry F) : ∃ kw ∈ keywords, ∃ inner, writeWkt num g = tagged kw inner := by
  cases g <;> exact ⟨_, by decide, _, rfl⟩

theorem writeWkt_head (num : Decimals F) (g : Geometry F) :
    ∃ c t, writeWkt num g = c :: t ∧ isWhitespace c = false ∧ c ≠ ')' := by
  obtain ⟨kw, hkw, inner, htagged⟩ := writeWkt_tagged num g
  obtain ⟨hne, hcapital⟩ := keywords_capital kw hkw
  obtain ⟨c, t, hcons⟩ := exists_cons_of_ne_nil hne
  obtain ⟨-, halpha, hblank, -⟩ := hcapital c (by rw [hcons]; exact mem_cons_self)
  refine ⟨c, _, by rw [htagged, tagged, hcons]; rfl, hblank, ?_⟩
  rintro rfl
  cases halpha

/-- A member of a collection is shorter than the collection. -/
theorem length_lt_collection {gs : List (Geometry F)} (hg : g ∈ gs) :
    (writeWkt num g).length < (writeWkt num (.geometryCollection gs)).length := by
  have hle : (writeWkt num g).length ≤ (joined [',', ' '] (writeWktAll num gs)).length := by
    rw [writeWktAll_eq]
    exact length_le_joined (mem_map_of_mem hg)
  rw [writeWkt, tagged, parens]
  simp only [length_append, length_cons]
  omega

/-- There is fuel for the keyword. -/
theorem exists_fuel (hfuel : (writeWkt num g).length ≤ fuel) : ∃ n, fuel = n + 1 := by
  obtain ⟨c, t, htext, -⟩ := writeWkt_head num g
  refine Nat.exists_eq_succ_of_ne_zero ?_
  rintro rfl
  rw [htext] at hfuel
  cases hfuel

include h in
/-- **A geometry is read back, whatever follows it**, with fuel for each of its characters. -/
theorem takes_writeWkt (halpha : ∀ c : Char, c.toNat < 128 → alphabetic c = c.isAlpha) (g : Geometry F)
    (hg : ∀ f ∈ g.coordinates, finite f) (hfuel : (writeWkt num g).length ≤ fuel)
    (hpad : ∀ c ∈ pad, isWhitespace c = true) :
    Takes (parseGeometry num alphabetic fuel) Any (pad ++ writeWkt num g) (g.map (num.reread ofI64)) := by
  have hkeyword : ∀ kw ∈ keywords, IsKeyword alphabetic kw.toList := fun kw hkw =>
    isKeyword halpha (keywords_capital kw hkw)
  induction g using Geometry.induction generalizing fuel pad with
  | point p =>
    obtain ⟨fuel, rfl⟩ := exists_fuel hfuel
    refine takes_parseGeometry halpha (hkeyword "POINT" (by decide)) ?_ hpad
    rw [parseBody, if_pos rfl]
    exact takes_parens Geometry.point (takes_eatPoint h hg blank_nil) (fun _ => until_cons.mpr rfl) blank_nil
  | lineString ls =>
    obtain ⟨fuel, rfl⟩ := exists_fuel hfuel
    refine takes_parseGeometry halpha (hkeyword "LINESTRING" (by decide)) ?_ hpad
    exact (takes_eatCoordList h hg blank_nil).map (Geometry.lineString ⟨·⟩)
  | polygon poly =>
    obtain ⟨fuel, rfl⟩ := exists_fuel hfuel
    refine takes_parseGeometry halpha (hkeyword "POLYGON" (by decide)) ?_ hpad
    exact (takes_eatPolygon h hg blank_nil).map Geometry.polygon
  | multiPoint mp =>
    obtain ⟨fuel, rfl⟩ := exists_fuel hfuel
    refine takes_parseGeometry halpha (hkeyword "MULTIPOINT" (by decide)) ?_ hpad
    have hitems : ∀ p ∈ mp.points, IsItem (eatPointToken num)
        (fun p => parens (writePointText num p)) (Point.map (num.reread ofI64)) p := fun p hp =>
      isItem_parens fun pad hpad =>
        takes_eatPointToken h (fun f hf => hg f (mem_flatMap.mpr ⟨p, hp, hf⟩)) hpad
    exact (takes_eatList hitems blank_nil).map (Geometry.multiPoint ⟨·⟩)
  | multiLineString mls =>
    obtain ⟨fuel, rfl⟩ := exists_fuel hfuel
    refine takes_parseGeometry halpha (hkeyword "MULTILINESTRING" (by decide)) ?_ hpad
    exact (takes_eatRingList h hg blank_nil).map (Geometry.multiLineString ⟨·⟩)
  | multiPolygon mp =>
    obtain ⟨fuel, rfl⟩ := exists_fuel hfuel
    refine takes_parseGeometry halpha (hkeyword "MULTIPOLYGON" (by decide)) ?_ hpad
    have hitems : ∀ poly ∈ mp.polygons, IsItem (eatRingList num >>= polygonOfRings)
        (fun poly => parens (writeRingList num poly.rings)) (Polygon.map (num.reread ofI64)) poly :=
      fun poly hpoly => isItem_parens fun pad hpad =>
        takes_eatPolygon h (fun f hf => hg f (mem_flatMap.mpr ⟨poly, hpoly, hf⟩)) hpad
    exact (takes_eatList hitems blank_nil).map (Geometry.multiPolygon ⟨·⟩)
  | geometryCollection gs ih =>
    obtain ⟨fuel, rfl⟩ := exists_fuel hfuel
    refine takes_parseGeometry halpha (hkeyword "GEOMETRYCOLLECTION" (by decide)) ?_ hpad
    have hitems : ∀ g ∈ gs, IsItem (parseGeometry num alphabetic fuel) (writeWkt num)
        (Geometry.map (num.reread ofI64)) g := fun g hmem =>
      { head := writeWkt_head num g
        takes := fun pad hpad => by
          have hlt : (writeWkt num g).length < _ := length_lt_collection hmem
          refine (ih g hmem (fun f hf => hg f ?_) (by omega) hpad).mono fun _ _ => trivial
          rw [Geometry.coordinates, Geometry.allCoordinates_eq]
          exact mem_flatMap.mpr ⟨g, hmem, hf⟩ }
    rw [writeWktAll_eq, Geometry.map, Geometry.mapAll_eq]
    exact (takes_eatList hitems blank_nil).map Geometry.geometryCollection

include h in
/-- **The text of a geometry is read back**, up to the sign of zeros. -/
theorem fromWkt_toWkt_eq (halpha : ∀ c : Char, c.toNat < 128 → alphabetic c = c.isAlpha)
    (hg : ∀ f ∈ g.coordinates, finite f) :
    fromWkt num alphabetic (toWkt num g) = .ok (g.map (num.reread ofI64)) := by
  obtain ⟨c, t, htext, hc, -⟩ := writeWkt_head num g
  have hend : Takes (do skipWs; return g.map (num.reread ofI64) : WktReader (Geometry F))
      (fun rest => rest = []) [] (g.map (num.reread ofI64)) := by
    rintro rest rfl
    rfl
  have hread := (takes_writeWkt h halpha g hg (Nat.le_succ _) blank_nil).bind
    (f := fun g => do skipWs; return g) hend fun _ _ => trivial
  rw [append_nil] at hread
  have hall := (takes_skipWs (f := fun _ => do
    let g ← parseGeometry num alphabetic ((writeWkt num g).length + 1)
    skipWs
    return g) blank_nil ⟨c, t, htext, hc⟩ hread).run_eq rfl
  rw [List.nil_append] at hall
  unfold fromWkt toWkt
  rw [hall]

end Wkt

end CenDB.Spatial
