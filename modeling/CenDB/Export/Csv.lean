import CenDB.Lib.Reader
import CenDB.Lib.Utf8
import CenDB.Storage.Header

/-! # CSV

The exporter quotes a field with a comma, a quote or a line break and doubles its quotes; the parser skips
blanks in front of a field and ends a quoted field at the first quote.  So an export is read back exactly if
no field has a quote and none that stands unquoted begins with a blank (`parse_export_iff`). -/

namespace CenDB.Export

open Utf8 List
open Storage (Value TextFormat)

/-! ### The exporter -/

def valueToCsv (fmt : TextFormat) : Value → List Char
  | .null => []
  | .bool b => (toString b).toList
  | .i64 n => (toString n).toList
  | .u64 n => (toString n).toList
  | .f64 x => (fmt.displayF64 x).toList
  | .bytes b => lossy b
  | .timestamp ts => (toString ts).toList

def needsQuoting (s : List Char) : Bool := s.contains ',' || s.contains '"' || s.contains '\n' || s.contains '\r'

/-- `s.replace('"', "\"\"")` -/
def doubleQuotes (s : List Char) : List Char := s.flatMap fun c => if c = '"' then ['"', '"'] else [c]

def escapeCsvField (s : List Char) : List Char :=
  if !needsQuoting s then s else '"' :: doubleQuotes s ++ ['"']

/-- A line of fields, with a comma in front of each but the first. -/
def csvLine (fields : List (List Char)) : List Char := [','].intercalate (fields.map escapeCsvField) ++ ['\n']

def exportCsv (fmt : TextFormat) (rows : List (List Value)) (columnNames : Option (List (List Char))) : List Char :=
  (match columnNames with
    | some names => csvLine names
    | none => []) ++ rows.flatMap fun row => csvLine (row.map (valueToCsv fmt))

/-! ### The parser -/

structure CsvRecord where
  fields : List (List UInt8)
deriving DecidableEq, Repr

/-- `rest` is the input from the position on. -/
structure CsvParser where
  input : List UInt8
  rest : List UInt8
  delimiter : UInt8
  hasHeader : Bool
  headerConsumed : Bool

namespace CsvParser

def new (input : List UInt8) : CsvParser := ⟨input, input, 44, true, false⟩

def withDelimiter (p : CsvParser) (delimiter : UInt8) : CsvParser := { p with delimiter }

def noHeader (p : CsvParser) : CsvParser := { p with hasHeader := false }

/-- A space or a tab. -/
def blank (b : UInt8) : Bool := b == 32 || b == 9

/-- What is neither the delimiter nor a line break. -/
def inside (delimiter b : UInt8) : Bool := b != delimiter && b != 10 && b != 13

/-- A field, and the input from the byte on that ends it. -/
def parseField (delimiter : UInt8) (rest : List UInt8) : List UInt8 × List UInt8 :=
  let field := rest.dropWhile blank
  if field.head? = some 34 then
    let content := field.tail
    -- the content ends at the first quote, and what follows it is skipped
    (content.takeWhile (· != 34), ((content.dropWhile (· != 34)).drop 1).dropWhile (inside delimiter))
  else (field.takeWhile (inside delimiter), field.dropWhile (inside delimiter))

/-- Behind `\n`, `\r` or `\r\n`. -/
def skipNewline : List UInt8 → List UInt8
  | [] => []
  | b :: rest =>
    if b = 13 then if rest.head? = some 10 then rest.tail else rest
    else if b = 10 then rest
    else b :: rest

theorem parseField_suffix (delimiter : UInt8) (rest : List UInt8) : (parseField delimiter rest).2 <:+ rest := by
  have hfield : rest.dropWhile blank <:+ rest := dropWhile_suffix _
  simp only [parseField]
  split_ifs
  · have hcontent : (rest.dropWhile blank).tail <:+ rest := (tail_suffix _).trans hfield
    exact (dropWhile_suffix _).trans ((drop_suffix _ _).trans ((dropWhile_suffix _).trans hcontent))
  · exact (dropWhile_suffix _).trans hfield

/-- The fields up to the end of the line, behind those that were read. -/
def parseFields (delimiter : UInt8) (fields : List (List UInt8)) (rest : List UInt8) :
    List (List UInt8) × List UInt8 :=
  let field := parseField delimiter rest
  match _h : field.2 with
  | [] => (fields ++ [field.1], [])
  | b :: behind =>
    if b = delimiter then parseFields delimiter (fields ++ [field.1]) behind
    else (fields ++ [field.1], skipNewline (b :: behind))
termination_by rest.length
decreasing_by
  have hle := (parseField_suffix delimiter rest).length_le
  rw [_h, List.length_cons] at hle
  omega

def parseRecord (p : CsvParser) : Option (CsvRecord × CsvParser) :=
  if p.rest.isEmpty then none
  else
    let record := parseFields p.delimiter [] p.rest
    -- there is always a field
    if record.1.isEmpty && record.2.length == p.input.length then none
    else some (⟨record.1⟩, { p with rest := record.2 })

def parseHeader (p : CsvParser) : Option (CsvRecord × CsvParser) :=
  if !p.hasHeader || p.headerConsumed then none else { p with headerConsumed := true }.parseRecord

def nextRecord (p : CsvParser) : Option (CsvRecord × CsvParser) :=
  if p.hasHeader && !p.headerConsumed then
    let p := { p with headerConsumed := true }
    -- the header is skipped
    ((p.parseRecord.map Prod.snd).getD p).parseRecord
  else p.parseRecord

/-! ### Termination -/

variable {b : UInt8} {p : CsvParser} {s : List Char}

variable {delimiter : UInt8} {rest behind : List UInt8} {p' : CsvParser} {r : CsvRecord}

/-- What ends a field is the delimiter or a line break. -/
theorem inside_parseField (h : (parseField delimiter rest).2 = b :: behind) : inside delimiter b = false := by
  have hhead : ∀ bytes : List UInt8, bytes.dropWhile (inside delimiter) = b :: behind → inside delimiter b = false :=
    fun bytes hbytes => by
      have hnot := head_dropWhile_not (inside delimiter) (l := bytes) (by rw [hbytes]; simp)
      simpa only [hbytes, head_cons] using hnot
  simp only [parseField] at h
  split_ifs at h
  · exact hhead _ h
  · exact hhead _ h

theorem skipNewline_suffix (h : inside delimiter b = false) (hb : b ≠ delimiter) :
    skipNewline (b :: rest) <:+ rest := by
  rw [skipNewline]
  split_ifs with hreturn hfeed hfeed'
  · exact tail_suffix rest
  · simp
  · simp
  · simp [inside, hb, hreturn, hfeed'] at h

theorem length_parseFields_le (delimiter : UInt8) (fields : List (List UInt8)) (rest : List UInt8) :
    (parseFields delimiter fields rest).2.length ≤ rest.length - 1 := by
  fun_induction parseFields delimiter fields rest with
  | case1 fields rest field h => exact Nat.zero_le _
  | case2 fields rest field behind h ih =>
    have hle := (parseField_suffix delimiter rest).length_le
    rw [h, List.length_cons] at hle
    omega
  | case3 fields rest field b behind h hb =>
    have hle := (parseField_suffix delimiter rest).length_le
    have hskip : (skipNewline (b :: behind)).length ≤ behind.length :=
      (skipNewline_suffix (inside_parseField h) hb).length_le
    rw [h, List.length_cons] at hle
    dsimp only
    omega

theorem length_parseRecord_lt (h : p.parseRecord = some (r, p')) :
    p'.rest.length < p.rest.length := by
  rw [parseRecord] at h
  split_ifs at h with hend
  have hle := length_parseFields_le p.delimiter [] p.rest
  have hpos : p.rest.length ≠ 0 := by simpa using hend
  simp only [Option.ite_none_left_eq_some, Option.some.injEq, Prod.mk.injEq] at h
  rw [← h.2.2]
  exact Nat.lt_of_le_pred (Nat.pos_of_ne_zero hpos) hle

theorem length_nextRecord_lt (h : p.nextRecord = some (r, p')) :
    p'.rest.length < p.rest.length := by
  rw [nextRecord] at h
  split_ifs at h
  · dsimp only at h
    cases hheader : parseRecord { p with headerConsumed := true } with
    | none =>
      rw [hheader] at h
      exact length_parseRecord_lt (p := { p with headerConsumed := true }) h
    | some header =>
      rw [hheader] at h
      have hlt : header.2.rest.length < p.rest.length :=
        length_parseRecord_lt (p := { p with headerConsumed := true }) (r := header.1) hheader
      exact (length_parseRecord_lt h).trans hlt
  · exact length_parseRecord_lt h

/-- All the records that are left. -/
def collectAll (p : CsvParser) : List CsvRecord :=
  match _h : p.nextRecord with
  | none => []
  | some next => next.1 :: collectAll next.2
termination_by p.rest.length
decreasing_by exact length_nextRecord_lt _h

/-! ### Fields -/

/-- A field that is read as it was written: it has no quote, and if it is not quoted no blank in front. -/
def Survives (s : List Char) : Prop := '"' ∉ s ∧ (needsQuoting s = false → ∀ c ∈ s.head?, c ≠ ' ' ∧ c ≠ '\t')

theorem needsQuoting_eq_false : needsQuoting s = false ↔ ',' ∉ s ∧ '"' ∉ s ∧ '\n' ∉ s ∧ '\r' ∉ s := by
  simp [needsQuoting, and_assoc]

/-- The byte of a character that a text does not have. -/
theorem byte_notMem {c : Char} (hc : Ascii c) (h : c ∉ s) : UInt8.ofNat c.toNat ∉ encode s := by
  have hbyte : (UInt8.ofNat c.toNat).toNat = c.toNat := by
    rw [UInt8.toNat_ofNat']
    exact Nat.mod_eq_of_lt (Nat.lt_trans hc (by decide))
  intro hmem
  obtain ⟨c', hc', heq⟩ := mem_of_mem_encode hmem (UInt8.lt_iff_toNat_lt.mpr (hbyte.symm ▸ hc))
  rw [hbyte] at heq
  exact h (Char.toNat_inj.mp heq ▸ hc')

/-- A quoted field ends at the first quote. -/
theorem parseField_quoted (h : '"' ∉ s) (rest : List UInt8) :
    parseField 44 (34 :: encode s ++ 34 :: rest) = (encode s, rest.dropWhile (inside 44)) := by
  have hbody : ∀ b ∈ encode s, (b != 34) = true := fun b hb => by
    have hne : b ≠ 34 := by
      rintro rfl
      exact byte_notMem (by decide) h hb
    simpa using hne
  have hdrop : (34 :: encode s ++ 34 :: rest).dropWhile blank = 34 :: (encode s ++ 34 :: rest) := rfl
  simp only [parseField, hdrop, head?_cons, if_true, tail_cons]
  rw [Reader.takeWhile_append hbody (Reader.until_cons.mpr rfl),
    Reader.dropWhile_append hbody (Reader.until_cons.mpr rfl)]
  rfl

/-- An unquoted field is read up to its end without the blanks in front. -/
theorem parseField_unquoted (h : needsQuoting s = false) (hb : b = 44 ∨ b = 10) (behind : List UInt8) :
    parseField 44 (encode s ++ b :: behind) = ((encode s).dropWhile blank, b :: behind) := by
  obtain ⟨hcomma, hquote, hfeed, hreturn⟩ := needsQuoting_eq_false.mp h
  have hfield : (encode s ++ b :: behind).dropWhile blank = (encode s).dropWhile blank ++ b :: behind := by
    rw [List.dropWhile_append]
    split_ifs with hempty
    · rw [List.isEmpty_iff.mp hempty, List.nil_append, dropWhile_cons_of_neg]
      rcases hb with rfl | rfl <;> decide
    · rfl
  have hbody : ∀ x ∈ (encode s).dropWhile blank, inside 44 x = true ∧ x ≠ 34 := fun x hx => by
    have hmem := (dropWhile_suffix blank).subset hx
    have hne : ∀ c : Char, Ascii c → c ∉ s → x ≠ UInt8.ofNat c.toNat := fun c hc hnot heq =>
      byte_notMem hc hnot (heq ▸ hmem)
    have hcomma' : x ≠ 44 := hne ',' (by decide) hcomma
    have hfeed' : x ≠ 10 := hne '\n' (by decide) hfeed
    have hreturn' : x ≠ 13 := hne '\r' (by decide) hreturn
    exact ⟨by simp [inside, hcomma', hfeed', hreturn'], hne '"' (by decide) hquote⟩
  have hhead : ((encode s).dropWhile blank ++ b :: behind).head? ≠ some 34 := by
    cases hdrop : (encode s).dropWhile blank with
    | nil => rcases hb with rfl | rfl <;> simp
    | cons x xs => simpa using (hbody x (hdrop ▸ mem_cons_self)).2
  have hstop : Reader.Until (inside 44) (b :: behind) := by
    rw [Reader.until_cons]
    rcases hb with rfl | rfl <;> rfl
  simp only [parseField, hfield, if_neg hhead]
  rw [Reader.takeWhile_append (fun x hx => (hbody x hx).1) hstop,
    Reader.dropWhile_append (fun x hx => (hbody x hx).1) hstop]

theorem encode_quote : encode ['"'] = [34] := rfl

/-- An exported field in quotes. -/
theorem encode_quoted (h : needsQuoting s = true) (rest : List UInt8) :
    encode (escapeCsvField s) ++ rest = 34 :: encode (doubleQuotes s) ++ 34 :: rest := by
  rw [escapeCsvField, h, Bool.not_true, if_neg Bool.false_ne_true, cons_append, ← singleton_append,
    encode_append, encode_append, encode_quote]
  simp

theorem doubleQuotes_eq_self (h : '"' ∉ s) : doubleQuotes s = s := by
  have hone : ∀ c ∈ s, (if c = '"' then ['"', '"'] else [c]) = [c] := by
    intro c hc
    rw [if_neg]
    rintro rfl
    exact h hc
  rw [doubleQuotes, flatMap_congr hone, flatMap_singleton']

/-- A quoted field without a quote is read as it was written. -/
theorem parseField_escape_quoted (h : needsQuoting s = true) (hquote : '"' ∉ s) (hb : b = 44 ∨ b = 10)
    (behind : List UInt8) :
    parseField 44 (encode (escapeCsvField s) ++ b :: behind) = (encode s, b :: behind) := by
  rw [encode_quoted h, doubleQuotes_eq_self hquote, parseField_quoted hquote, dropWhile_cons_of_neg]
  rcases hb with rfl | rfl <;> decide

/-- A quote in a field ends it. -/
theorem fst_parseField_quote (h : '"' ∈ s) (rest : List UInt8) :
    (parseField 44 (encode (escapeCsvField s) ++ rest)).1 ≠ encode s := by
  have hneeds : needsQuoting s = true := by simp [needsQuoting, h]
  obtain ⟨front, back, rfl, hfront⟩ := eq_append_cons_of_mem h
  have hdouble : doubleQuotes (front ++ '"' :: back) = front ++ ['"'] ++ '"' :: doubleQuotes back := by
    have hself := doubleQuotes_eq_self hfront
    rw [doubleQuotes] at hself ⊢
    rw [flatMap_append, hself]
    simp [doubleQuotes]
  have hsplit : 34 :: encode (front ++ ['"'] ++ '"' :: doubleQuotes back) ++ 34 :: rest =
      34 :: encode front ++ 34 :: (encode ('"' :: doubleQuotes back) ++ 34 :: rest) := by
    rw [encode_append, encode_append, encode_quote]
    simp
  rw [encode_quoted hneeds, hdouble, hsplit, parseField_quoted hfront]
  intro heq
  have hlength := congrArg List.length (encode_injective heq)
  simp at hlength

theorem dropWhile_blank_iff : (encode s).dropWhile blank = encode s ↔ ∀ c ∈ s.head?, c ≠ ' ' ∧ c ≠ '\t' := by
  cases s with
  | nil => exact iff_of_true rfl (by simp)
  | cons c s =>
    obtain ⟨b, bs, hbytes, -⟩ := encodeChar_eq_cons c
    have hfront : encode (c :: s) = b :: (bs ++ encode s) := by rw [encode_cons, hbytes, cons_append]
    have hc : c = ' ' ∨ c = '\t' ↔ blank b = true := by
      constructor
      · rintro (rfl | rfl)
        · obtain rfl := (List.cons.inj hbytes).1
          decide
        · obtain rfl := (List.cons.inj hbytes).1
          decide
      · intro hblank
        have hb : b = 32 ∨ b = 9 := by simpa [blank] using hblank
        rcases hb with rfl | rfl
        · exact .inl (Char.toNat_inj.mp (toNat_of_encode_cons hfront (by decide)))
        · exact .inr (Char.toNat_inj.mp (toNat_of_encode_cons hfront (by decide)))
    rw [hfront]
    simp only [head?_cons, Option.mem_def, Option.some.injEq, forall_eq', ← not_or, hc]
    cases hblank : blank b with
    | true =>
      rw [dropWhile_cons_of_pos hblank]
      refine iff_of_false (fun h => ?_) (not_not_intro rfl)
      have hle := (dropWhile_suffix blank (l := bs ++ encode s)).length_le
      rw [h, List.length_cons] at hle
      omega
    | false =>
      rw [dropWhile_cons_of_neg (by simp [hblank])]
      simp

/-- **A field is read as it was written exactly if it survives.** -/
theorem parseField_escape_iff (hb : b = 44 ∨ b = 10) (behind : List UInt8) :
    (parseField 44 (encode (escapeCsvField s) ++ b :: behind)).1 = encode s ↔ Survives s := by
  by_cases hquote : '"' ∈ s
  · exact iff_of_false (fst_parseField_quote hquote _) fun h => h.1 hquote
  · cases hneeds : needsQuoting s with
    | true =>
      rw [parseField_escape_quoted hneeds hquote hb]
      exact iff_of_true rfl ⟨hquote, fun h => by simp [h] at hneeds⟩
    | false =>
      rw [escapeCsvField, hneeds, Bool.not_false, if_pos rfl, parseField_unquoted hneeds hb, dropWhile_blank_iff]
      exact ⟨fun h => ⟨hquote, fun _ => h⟩, fun h => h.2 hneeds⟩

theorem parseField_escape (h : Survives s) (hb : b = 44 ∨ b = 10) (behind : List UInt8) :
    parseField 44 (encode (escapeCsvField s) ++ b :: behind) = (encode s, b :: behind) := by
  cases hneeds : needsQuoting s with
  | true => exact parseField_escape_quoted hneeds h.1 hb behind
  | false =>
    rw [escapeCsvField, hneeds, Bool.not_false, if_pos rfl, parseField_unquoted hneeds hb,
      dropWhile_blank_iff.mpr (h.2 hneeds)]

/-! ### Lines -/

theorem parseFields_eq {field : List UInt8} (fields : List (List UInt8))
    (h : parseField delimiter rest = (field, b :: behind)) : parseFields delimiter fields rest =
      if b = delimiter then parseFields delimiter (fields ++ [field]) behind
      else (fields ++ [field], skipNewline (b :: behind)) := by
  rw [parseFields]
  split
  · rename_i hend
    rw [h] at hend
    cases hend
  · rename_i b' behind' hend
    rw [h] at hend
    cases hend
    rw [h]

/-- The field that is read first stays behind those read before. -/
theorem parseFields_extends (delimiter : UInt8) (fields : List (List UInt8)) (rest : List UInt8) :
    fields ++ [(parseField delimiter rest).1] <+: (parseFields delimiter fields rest).1 := by
  fun_induction parseFields delimiter fields rest with
  | case1 | case3 => exact prefix_rfl
  | case2 fields rest field behind h ih => exact (prefix_append _ _).trans ih

/-- A line of fields, as bytes. -/
theorem encode_csvLine_cons (field : List Char) (fields : List (List Char)) (rest : List UInt8) :
    encode (csvLine (field :: fields)) ++ rest = encode (escapeCsvField field) ++
      if fields = [] then 10 :: rest else 44 :: (encode (csvLine fields) ++ rest) := by
  have hcomma : encode [','] = [44] := rfl
  have hfeed : encode ['\n'] = [10] := rfl
  cases fields with
  | nil => simp [csvLine, encode_append, hfeed]
  | cons next fields =>
    rw [if_neg (cons_ne_nil _ _), csvLine, csvLine, map_cons, map_cons, intercalate_cons_cons]
    simp only [encode_append, hcomma, append_assoc]
    rfl

/-- **A line is read as it was written exactly if all its fields survive**, and then up to its end. -/
theorem parseFields_csvLine {fields : List (List Char)} (h : fields ≠ []) (before : List (List UInt8))
    (rest : List UInt8) :
    ((parseFields 44 before (encode (csvLine fields) ++ rest)).1 = before ++ fields.map encode ↔
        ∀ field ∈ fields, Survives field) ∧
      ((∀ field ∈ fields, Survives field) → (parseFields 44 before (encode (csvLine fields) ++ rest)).2 = rest) := by
  induction fields generalizing before with
  | nil => exact absurd rfl h
  | cons field fields ih =>
    rw [encode_csvLine_cons, forall_mem_cons]
    by_cases hfield : Survives field
    · by_cases hlast : fields = []
      · subst hlast
        rw [if_pos rfl, parseFields_eq before (parseField_escape hfield (.inr rfl) rest), if_neg (by decide)]
        simp [hfield, skipNewline]
      · rw [if_neg hlast, parseFields_eq before (parseField_escape hfield (.inl rfl) _), if_pos rfl]
        obtain ⟨hfields, hrest⟩ := ih hlast (before ++ [encode field])
        simp only [hfield, true_and]
        refine ⟨?_, hrest⟩
        rw [← hfields, append_assoc]
        rfl
    · refine ⟨iff_of_false (fun heq => hfield ?_) fun hall => hfield hall.1, fun hall => absurd hall.1 hfield⟩
      have hextends := parseFields_extends 44 before (encode (escapeCsvField field) ++
        if fields = [] then 10 :: rest else 44 :: (encode (csvLine fields) ++ rest))
      rw [heq, prefix_append_right_inj, map_cons, cons_prefix_cons] at hextends
      split_ifs at hextends
      · exact (parseField_escape_iff (.inr rfl) _).mp hextends.1
      · exact (parseField_escape_iff (.inl rfl) _).mp hextends.1

/-! ### Records -/

theorem nextRecord_eq (hheader : p.hasHeader = false) (hrest : p.rest ≠ []) :
    p.nextRecord = some (⟨(parseFields p.delimiter [] p.rest).1⟩,
      { p with rest := (parseFields p.delimiter [] p.rest).2 }) := by
  have hfield : (parseFields p.delimiter [] p.rest).1.isEmpty = false := by
    have hle := (parseFields_extends p.delimiter [] p.rest).length_le
    rw [List.nil_append, length_singleton] at hle
    cases hfields : (parseFields p.delimiter [] p.rest).1 with
    | nil => simp [hfields] at hle
    | cons => rfl
  have hnext : p.nextRecord = p.parseRecord := by
    rw [nextRecord, hheader]
    rfl
  rw [hnext, parseRecord, if_neg (by simpa using hrest)]
  simp only [hfield, Bool.false_and]
  rfl

theorem collectAll_cons (h : p.nextRecord = some (r, p')) :
    p.collectAll = r :: p'.collectAll := by
  rw [collectAll]
  split
  · rename_i hnone
    rw [h] at hnone
    cases hnone
  · rename_i next hnext
    rw [h] at hnext
    cases hnext
    rfl

theorem collectAll_nil (hheader : p.hasHeader = false) (hrest : p.rest = []) : p.collectAll = [] := by
  have hnone : p.nextRecord = none := by simp [nextRecord, hheader, parseRecord, hrest]
  rw [collectAll]
  split
  · rfl
  · rename_i next hnext
    rw [hnone] at hnext
    cases hnext

/-- The records of some lines. -/
theorem collectAll_lines_iff {rows : List (List (List Char))} (h : ∀ row ∈ rows, row ≠ [])
    (hheader : p.hasHeader = false) (hdelimiter : p.delimiter = 44)
    (hrest : p.rest = encode (rows.flatMap csvLine)) :
    p.collectAll.map CsvRecord.fields = rows.map (·.map encode) ↔ ∀ row ∈ rows, ∀ field ∈ row, Survives field := by
  induction rows generalizing p with
  | nil =>
    rw [collectAll_nil hheader hrest]
    simp
  | cons row rows ih =>
    rw [forall_mem_cons] at h
    rw [flatMap_cons, encode_append] at hrest
    have hne : p.rest ≠ [] := by
      have hle := length_le_length_encode (csvLine row)
      rw [hrest]
      intro hempty
      rw [(append_eq_nil_iff.mp hempty).1] at hle
      simp [csvLine] at hle
    obtain ⟨hfields, hbehind⟩ := parseFields_csvLine h.1 [] (encode (rows.flatMap csvLine))
    rw [List.nil_append] at hfields
    rw [collectAll_cons (nextRecord_eq hheader hne), hdelimiter, hrest, map_cons, map_cons, List.cons.injEq,
      hfields, forall_mem_cons]
    refine and_congr_right fun hrow => ?_
    rw [hbehind hrow]
    exact ih h.2 hheader rfl rfl

end CsvParser

/-- A field with a text. -/
def text (s : List Char) : Value := .bytes (encode s)

theorem exportCsv_text (fmt : TextFormat) (rows : List (List (List Char))) :
    exportCsv fmt (rows.map (·.map text)) none = rows.flatMap csvLine := by
  have htext : ∀ s, valueToCsv fmt (text s) = s := lossy_encode
  rw [exportCsv, List.nil_append, flatMap_map]
  refine flatMap_congr fun row _ => ?_
  have hrow : row.map (valueToCsv fmt ∘ text) = row := (map_congr_left fun s _ => htext s).trans (map_id row)
  rw [map_map, hrow]

/-- **An export is read back exactly if no field has a quote and none that is not quoted begins with a
blank.** -/
theorem parse_export_iff (fmt : TextFormat) {rows : List (List (List Char))} (h : ∀ row ∈ rows, row ≠ []) :
    (CsvParser.new (encode (exportCsv fmt (rows.map (·.map text)) none))).noHeader.collectAll.map CsvRecord.fields =
        rows.map (·.map encode) ↔
      ∀ row ∈ rows, ∀ field ∈ row, CsvParser.Survives field := by
  rw [exportCsv_text]
  exact CsvParser.collectAll_lines_iff h rfl rfl rfl

/-- A format for texts, which prints no numbers. -/
def noFormat : TextFormat := ⟨fun _ => "", fun _ => "", fun _ => ""⟩

/-- A row with a comma, an empty field and a line break. -/
theorem parse_export_iff_plain :
    (CsvParser.new (encode (exportCsv noFormat ([[['a', ','], [], ['\n', 'b']]].map (·.map text))
      none))).noHeader.collectAll.map CsvRecord.fields = [[[97, 44], [], [10, 98]]] := by
  have h := @parse_export_iff noFormat [[['a', ','], [], ['\n', 'b']]] (by simp)
  rw [h.mpr (by simp [CsvParser.Survives, needsQuoting])]
  decide

/-- **A quote ends the field that it is in.** -/
theorem export_loses_quote :
    (CsvParser.new (encode (exportCsv noFormat [[text ['a', '"', 'b']]] none))).noHeader.collectAll = [⟨[[97]]⟩] ∧
      ¬∀ (width : ℕ) (rows : List (List (List Char))), 0 < width → (∀ row ∈ rows, row.length = width) →
        (CsvParser.new (encode (exportCsv noFormat (rows.map (·.map text)) none))).noHeader.collectAll.map
          CsvRecord.fields = rows.map (·.map encode) := by
  have hparse : (CsvParser.new (encode (exportCsv noFormat [[text ['a', '"', 'b']]] none))).noHeader.collectAll =
      [⟨[[97]]⟩] := by decide +kernel
  refine ⟨hparse, fun h => ?_⟩
  have hrows := h 1 [[['a', '"', 'b']]] Nat.one_pos (by simp)
  rw [map_singleton, map_singleton, hparse] at hrows
  exact absurd hrows (by decide)

end CenDB.Export
