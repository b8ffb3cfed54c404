import CenDB.Lib.Json
import CenDB.Lib.Numerals
import CenDB.Lib.Text
import CenDB.Storage.Header

/-! # JSON and NDJSON

The exporter puts the texts together by hand.  A reader of the format gets back the names of the columns and
the values of each row, from one array and line by line (`parse_export`). -/

namespace CenDB.Export

open Reader (joined)
open Utf8 List
open Storage (Value ValueKind TextFormat)

/-! ### The exporter -/

/-- `{:04x}` -/
def hex4 (n : ℕ) : List Char := List.replicate (4 - (Nat.toDigits 16 n).length) '0' ++ Nat.toDigits 16 n

def escapeChar (c : Char) : List Char :=
  if c = '"' then ['\\', '"']
  else if c = '\\' then ['\\', '\\']
  else if c = '\n' then ['\\', 'n']
  else if c = '\r' then ['\\', 'r']
  else if c = '\t' then ['\\', 't']
  else if c < ' ' then '\\' :: 'u' :: hex4 c.toNat
  else [c]

def escapeJson (s : List Char) : List Char := s.flatMap escapeChar

/-- `f64::is_finite`: some bit of the exponent is not set. -/
def isFinite (bits : UInt64) : Bool := bits &&& 0x7FF0000000000000 != 0x7FF0000000000000

def valueToJson (fmt : TextFormat) : Value → List Char
  | .null => "null".toList
  | .bool b => (toString b).toList
  | .i64 n => Text.i64Text n.toInt
  | .u64 n => Nat.toDigits 10 n.toNat
  | .f64 x => if isFinite x then (fmt.displayF64 x).toList else "null".toList
  | .bytes b => '"' :: (escapeJson (lossy b) ++ ['"'])
  | .timestamp ts => Text.i64Text ts.toInt

/-- The parts of a loop, which puts a comma in front of each but the first. -/
def commaLoop (parts : List (List Char)) : List Char :=
  (parts.mapIdx fun i part => if 0 < i then ',' :: part else part).flatten

/-- A value behind the name of its column, if there is one. -/
def memberJson (fmt : TextFormat) (columnNames : List (List Char)) (j : ℕ) (val : Value) : List Char :=
  (match columnNames[j]? with
    | some name => '"' :: (escapeJson name ++ ['"', ':'])
    | none => []) ++ valueToJson fmt val

def rowJson (fmt : TextFormat) (columnNames : List (List Char)) (row : List Value) : List Char :=
  '\x7b' :: (commaLoop (row.mapIdx (memberJson fmt columnNames)) ++ ['\x7d'])

def exportJson (fmt : TextFormat) (rows : List (List Value)) (columnNames : List (List Char)) : List Char :=
  '[' :: (commaLoop (rows.map (rowJson fmt columnNames)) ++ [']'])

def exportNdjson (fmt : TextFormat) (rows : List (List Value)) (columnNames : List (List Char)) : List Char :=
  rows.flatMap fun row => rowJson fmt columnNames row ++ ['\n']

/-! ### Reading a row -/

def readI64 (text : List Char) : Option Int64 := (Numerals.parseSigned 64 text).map Int64.ofInt

def readU64 (text : List Char) : Option UInt64 := (Numerals.parseUnsigned 64 text).map UInt64.ofNat

/-- The value that a reader takes for one of a kind. -/
def readValue (readF64 : List Char → Option UInt64) : ValueKind → Json.Value → Option Value
  | _, .null => some .null
  | .bool, .bool b => some (.bool b)
  | .i64, .number text => (readI64 text).map .i64
  | .u64, .number text => (readU64 text).map .u64
  | .f64, .number text => (readF64 text).map .f64
  | .bytes, .string s => some (.bytes (encode s))
  | .timestamp, .number text => (readI64 text).map .timestamp
  | _, _ => none

def readMembers (readF64 : List Char → Option UInt64) :
    List ValueKind → List (List Char × Json.Value) → Option (List (List Char × Value))
  | [], [] => some []
  | kind :: kinds, (name, v) :: members => do
    let val ← readValue readF64 kind v
    let rest ← readMembers readF64 kinds members
    return (name, val) :: rest
  | _, _ => none

/-- The names and the values of an object that stands for a row of these kinds. -/
def readRow (readF64 : List Char → Option UInt64) (kinds : List ValueKind) :
    Json.Value → Option (List (List Char × Value))
  | .object members => readMembers readF64 kinds members
  | _ => none

/-- The format has no infinities and no NaN. -/
def readBack : Value → Value
  | .f64 x => if isFinite x then .f64 x else .null
  | val => val

/-- A finite float is printed as a number of JSON and read back. -/
def FloatsRead (fmt : TextFormat) (readF64 : List Char → Option UInt64) : Prop :=
  ∀ x, isFinite x = true → Json.NumberText (fmt.displayF64 x).toList ∧ readF64 (fmt.displayF64 x).toList = some x

/-- The bytes are a text. -/
def IsText : Value → Prop
  | .bytes b => ∃ s, b = encode s
  | _ => True

/-! ### Strings -/

theorem hexUnit_hex4 {n : ℕ} (h : n < 0x20) (rest : List Char) : Json.hexUnit (hex4 n ++ rest) = some (n, rest) := by
  interval_cases n <;> rfl

theorem body_escapeChar (c : Char) (text : List Char) :
    Json.body (escapeChar c ++ text) = (Json.body text).map (Prod.map (c :: ·) id) := by
  rw [escapeChar]
  split_ifs with hquote hslash hfeed hreturn htab hcontrol
  · subst hquote
    exact Json.body_letter rfl text
  · subst hslash
    exact Json.body_letter rfl text
  · subst hfeed
    exact Json.body_letter rfl text
  · subst hreturn
    exact Json.body_letter rfl text
  · subst htab
    exact Json.body_letter rfl text
  · have hlt : c.toNat < 0x20 := hcontrol
    rw [cons_append, cons_append]
    refine Json.body_escape ?_
    rw [Json.escape, if_pos rfl, Json.unicodeEscape, hexUnit_hex4 hlt]
    simp only [Option.bind_eq_bind, Option.bind_some]
    rw [if_pos (.inl (by omega)), Char.ofNat_toNat]
    rfl
  · exact Json.body_plain hquote hslash (Nat.not_lt.mp hcontrol) text

theorem spells_escapeJson (s : List Char) : Json.Spells (escapeJson s) s :=
  Json.spells_flatMap fun c _ => body_escapeChar c

/-! ### Values -/

section
variable {fmt : TextFormat} {readF64 : List Char → Option UInt64}

/-- What a reader of the format sees. -/
def jsonValue (fmt : TextFormat) : Value → Json.Value
  | .null => .null
  | .bool b => .bool b
  | .bytes b => .string (lossy b)
  | .f64 x => if isFinite x then .number (fmt.displayF64 x).toList else .null
  | val => .number (valueToJson fmt val)

theorem numberText_i64Text (n : ℤ) : Json.NumberText (Text.i64Text n) := by
  unfold Text.i64Text
  split
  · exact Json.numberText_integer (.inr rfl) _
  · exact Json.numberText_integer (.inl rfl) _

theorem readI64_i64Text (n : Int64) : readI64 (Text.i64Text n.toInt) = some n := by
  have hlow := Int64.le_toInt n
  have hhigh := Int64.toInt_lt n
  have hparse : Numerals.parseSigned 64 (Text.i64Text n.toInt) = some n.toInt := by
    unfold Text.i64Text
    split
    · rw [Numerals.parseSigned_minus_toDigits (by omega)]
      congr 1
      omega
    · rw [Numerals.parseSigned_toDigits (by omega)]
      congr 1
      omega
  rw [readI64, hparse, Option.map_some, Int64.ofInt_toInt]

theorem readU64_toDigits (n : UInt64) : readU64 (Nat.toDigits 10 n.toNat) = some n := by
  rw [readU64, Numerals.parseUnsigned_toDigits n.toNat_lt, Option.map_some, UInt64.ofNat_toNat]

theorem readsIff_value (hfloats : FloatsRead fmt readF64) (val : Value) :
    Json.ReadsIff (valueToJson fmt val) (jsonValue fmt val) True := by
  cases val with
  | null => exact Json.readsIff_null
  | bool b => exact Json.readsIff_bool b
  | i64 n => exact Json.readsIff_number (numberText_i64Text n.toInt)
  | u64 n => exact Json.readsIff_number (Json.numberText_integer (.inl rfl) n.toNat)
  | f64 x =>
    rw [valueToJson, jsonValue]
    split_ifs with hx
    · exact Json.readsIff_number (hfloats x hx).1
    · exact Json.readsIff_null
  | bytes b => exact Json.readsIff_spelled (spells_escapeJson (lossy b))
  | timestamp ts => exact Json.readsIff_number (numberText_i64Text ts.toInt)

theorem readValue_jsonValue (hfloats : FloatsRead fmt readF64) {val : Value} (htext : IsText val) :
    readValue readF64 val.kind (jsonValue fmt val) = some (readBack val) := by
  cases val with
  | null | bool b => rfl
  | i64 n => exact congrArg (Option.map Value.i64) (readI64_i64Text n)
  | u64 n => exact congrArg (Option.map Value.u64) (readU64_toDigits n)
  | f64 x =>
    rw [Value.kind, jsonValue, readBack]
    split_ifs with hx
    · rw [readValue, (hfloats x hx).2, Option.map_some]
    · rfl
  | bytes b =>
    obtain ⟨s, rfl⟩ := htext
    rw [Value.kind, jsonValue, readValue, lossy_encode]
    rfl
  | timestamp ts => exact congrArg (Option.map Value.timestamp) (readI64_i64Text ts)

/-! ### Rows -/

theorem commaLoop_eq (parts : List (List Char)) : commaLoop parts = joined [','] parts := by
  cases parts with
  | nil => rfl
  | cons part parts =>
    have hrest : parts.mapIdx (fun i part => if 0 < i + 1 then ',' :: part else part) =
        parts.map fun next => [','] ++ next :=
      ext_getElem (by simp) (by simp)
    rw [commaLoop, joined, mapIdx_cons, flatten_cons, if_neg (Nat.lt_irrefl 0), hrest, flatMap_def]

/-- The values with their names. -/
def cells (columnNames : List (List Char)) (row : List Value) : List (List Char × Value) := columnNames.zip row

variable {columnNames : List (List Char)} {row : List Value}

theorem rowJson_eq (h : row.length ≤ columnNames.length) :
    rowJson fmt columnNames row = '\x7b' :: (joined [','] ((cells columnNames row).map fun cell =>
      Json.memberText (escapeJson cell.1) (valueToJson fmt cell.2)) ++ ['\x7d']) := by
  have hcells : row.mapIdx (memberJson fmt columnNames) = (cells columnNames row).map fun cell =>
      Json.memberText (escapeJson cell.1) (valueToJson fmt cell.2) := by
    refine ext_getElem (by simp [cells, h]) fun j hj _ => ?_
    rw [length_mapIdx] at hj
    have hname := getElem?_eq_getElem (show j < columnNames.length by omega)
    simp [memberJson, hname, cells, Json.memberText]
  rw [rowJson, commaLoop_eq, hcells]

def rowValue (fmt : TextFormat) (columnNames : List (List Char)) (row : List Value) : Json.Value :=
  .object ((cells columnNames row).map fun cell => (cell.1, jsonValue fmt cell.2))

theorem readsIff_row (hfloats : FloatsRead fmt readF64) (h : row.length ≤ columnNames.length) :
    Json.ReadsIff (rowJson fmt columnNames row) (rowValue fmt columnNames row) True := by
  have hobject := @Json.readsIff_object _ (cells columnNames row) (fun cell => valueToJson fmt cell.2) Prod.fst
    (fun cell => jsonValue fmt cell.2) (fun _ => True) (fun cell => escapeJson cell.1) []
    (fun cell _ => spells_escapeJson cell.1) (fun cell _ => readsIff_value hfloats cell.2)
  rw [append_nil, ← rowJson_eq h] at hobject
  exact hobject.congr (by simp)

theorem readRow_rowValue (hfloats : FloatsRead fmt readF64) (htext : ∀ val ∈ row, IsText val)
    (h : row.length ≤ columnNames.length) :
    readRow readF64 (row.map Value.kind) (rowValue fmt columnNames row) =
      some (cells columnNames (row.map readBack)) := by
  rw [rowValue, readRow]
  induction row generalizing columnNames with
  | nil => simp [cells, readMembers]
  | cons val row ih =>
    cases columnNames with
    | nil => cases h
    | cons name columnNames =>
      rw [forall_mem_cons] at htext
      have hrest := ih htext.2 (Nat.le_of_succ_le_succ h)
      simp only [cells, zip_cons_cons, map_cons] at hrest ⊢
      rw [readMembers, readValue_jsonValue hfloats htext.1, hrest]
      rfl

/-! ### Lines -/

theorem newline_notMem_escapeJson (s : List Char) : '\n' ∉ escapeJson s := by
  have hhex : ∀ n < 0x20, '\n' ∉ hex4 n := by decide
  intro hmem
  obtain ⟨c, -, hc⟩ := mem_flatMap.mp hmem
  rw [escapeChar] at hc
  split_ifs at hc with hquote hslash hfeed hreturn htab hcontrol
  · simp at hc
  · simp at hc
  · simp at hc
  · simp at hc
  · simp at hc
  · have hlt : c.toNat < 0x20 := hcontrol
    simp [hhex c.toNat hlt] at hc
  · exact hfeed (mem_singleton.mp hc).symm

theorem newline_notMem_valueToJson (hfloats : FloatsRead fmt readF64) (val : Value) : '\n' ∉ valueToJson fmt val := by
  have hnumber : ∀ {text}, Json.NumberText text → '\n' ∉ text := fun h => h.notMem rfl (by decide)
  cases val with
  | null => simp [valueToJson]
  | bool b =>
    rw [valueToJson]
    cases b <;> decide
  | i64 n => exact hnumber (numberText_i64Text n.toInt)
  | u64 n => exact hnumber (Json.numberText_integer (.inl rfl) n.toNat)
  | f64 x =>
    rw [valueToJson]
    split_ifs with hx
    · exact hnumber (hfloats x hx).1
    · decide
  | bytes b => simp [valueToJson, newline_notMem_escapeJson]
  | timestamp ts => exact hnumber (numberText_i64Text ts.toInt)

theorem newline_notMem_rowJson (hfloats : FloatsRead fmt readF64) (columnNames : List (List Char)) (row : List Value) :
    '\n' ∉ rowJson fmt columnNames row := by
  have hmember : ∀ j val, '\n' ∉ memberJson fmt columnNames j val := by
    intro j val
    have hval := newline_notMem_valueToJson hfloats val
    rw [memberJson]
    split <;> simp [hval, newline_notMem_escapeJson]
  have hparts : '\n' ∉ commaLoop (row.mapIdx (memberJson fmt columnNames)) := by
    intro hmem
    obtain ⟨part, hpart, hin⟩ := mem_flatten.mp hmem
    obtain ⟨i, hi, rfl⟩ := mem_mapIdx.mp hpart
    rw [getElem_mapIdx] at hin
    split_ifs at hin
    · exact hmember _ _ (by simpa using hin)
    · exact hmember _ _ hin
  simp [rowJson, hparts]

/-- The lines of an export are its rows. -/
theorem lines_exportNdjson (hfloats : FloatsRead fmt readF64) (rows : List (List Value))
    (columnNames : List (List Char)) :
    Text.lines (exportNdjson fmt rows columnNames) = rows.map (rowJson fmt columnNames) := by
  induction rows with
  | nil => rfl
  | cons row rows ih =>
    have hstrip : Text.stripCr (rowJson fmt columnNames row) = rowJson fmt columnNames row := by
      rw [Text.stripCr, if_neg]
      simp [rowJson, getLast?_cons]
    have hline := Text.lines_append (newline_notMem_rowJson hfloats columnNames row)
      (exportNdjson fmt rows columnNames)
    rw [hstrip, ih] at hline
    rw [exportNdjson, flatMap_cons, append_assoc, singleton_append]
    exact hline

/-- **An export is JSON.**  An array and lines of objects are read back as the names of the columns with the values
of each row. -/
theorem parse_export (hfloats : FloatsRead fmt readF64) {rows : List (List Value)} {columnNames : List (List Char)}
    (htext : ∀ row ∈ rows, ∀ val ∈ row, IsText val) (h : ∀ row ∈ rows, row.length ≤ columnNames.length) :
    (∃ objects, Json.parse (exportJson fmt rows columnNames) = some (.array objects) ∧
        (Text.lines (exportNdjson fmt rows columnNames)).map Json.parse = objects.map some ∧
        List.Forall₂ (fun object row => readRow readF64 (row.map Value.kind) object =
          some (columnNames.zip (row.map readBack))) objects rows) ∧
      (Text.lines (exportNdjson fmt rows columnNames)).length = rows.length := by
  have hrows := lines_exportNdjson hfloats rows columnNames
  refine ⟨⟨rows.map (rowValue fmt columnNames), ?_, ?_, ?_⟩, by rw [hrows, length_map]⟩
  · have harray := Json.readsIff_array [] (Or.inl rfl) fun row hrow => readsIff_row hfloats (h row hrow)
    rw [exportJson, commaLoop_eq]
    exact (Json.parse_iff harray).mpr fun _ _ => trivial
  · rw [hrows, map_map, map_map]
    exact map_congr_left fun row hrow => (Json.parse_iff (readsIff_row hfloats (h row hrow))).mpr trivial
  · rw [forall₂_map_left_iff, forall₂_same]
    exact fun row hrow => readRow_rowValue hfloats (htext row hrow) (h row hrow)

end

/-- A format that has a point for one half, and for other floats the number of the bits. -/
def halfFormat : TextFormat :=
  ⟨fun x => if x = 0x3FE0000000000000 then "0.5" else Nat.repr x.toNat, fun _ => "", fun _ => ""⟩

def readHalf (text : List Char) : Option UInt64 :=
  if text = ['0', '.', '5'] then some 0x3FE0000000000000 else readU64 text

theorem floatsRead_half : FloatsRead halfFormat readHalf := by
  intro x _
  have hdigits : (Nat.repr x.toNat).toList = Nat.toDigits 10 x.toNat := by simp [Nat.repr]
  by_cases hx : x = 0x3FE0000000000000
  · have htext : (halfFormat.displayF64 x).toList = ['0', '.', '5'] := by simp [halfFormat, hx]
    rw [htext, hx]
    exact ⟨⟨[], ['0'], ['.', '5'], [], rfl, .inl rfl, fun _ => rfl, ⟨by simp, by simp⟩,
      .inr ⟨['5'], rfl, by simp, by simp⟩, .inl rfl⟩, rfl⟩
  · have htext : (halfFormat.displayF64 x).toList = Nat.toDigits 10 x.toNat := by
      simp only [halfFormat, if_neg hx, hdigits]
    have hpoint : Nat.toDigits 10 x.toNat ≠ ['0', '.', '5'] := by
      intro heq
      have hdot : '.' ∈ Nat.toDigits 10 x.toNat := by simp [heq]
      cases Numerals.isDigit_of_mem_toDigits hdot
    rw [htext, readHalf, if_neg hpoint, readU64_toDigits]
    exact ⟨Json.numberText_integer (.inl rfl) x.toNat, rfl⟩

/-- A quote, a control character and an infinity in two rows of different lengths. -/
theorem parse_export_half : (∃ objects, Json.parse (exportJson halfFormat
          [[.bytes (encode ['"', Char.ofNat 1]), .f64 0x3FE0000000000000], [.f64 0x7FF0000000000000]] [['a'], ['\\']]) =
          some (.array objects) ∧
        (Text.lines (exportNdjson halfFormat
          [[.bytes (encode ['"', Char.ofNat 1]), .f64 0x3FE0000000000000], [.f64 0x7FF0000000000000]]
          [['a'], ['\\']])).map Json.parse = objects.map some ∧
        List.Forall₂ (fun object row => readRow readHalf (row.map Value.kind) object =
            some ([['a'], ['\\']].zip (row.map readBack))) objects
          [[.bytes (encode ['"', Char.ofNat 1]), .f64 0x3FE0000000000000], [.f64 0x7FF0000000000000]]) ∧
      (Text.lines (exportNdjson halfFormat
        [[.bytes (encode ['"', Char.ofNat 1]), .f64 0x3FE0000000000000], [.f64 0x7FF0000000000000]]
        [['a'], ['\\']])).length = 2 := by
  refine parse_export floatsRead_half ?_ ?_
  · simp [IsText]
  · simp

end CenDB.Export
