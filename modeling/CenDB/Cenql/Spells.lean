import CenDB.Cenql.Coverage
import CenDB.Cenql.Rendering

/-! # Texts of tokens

`Spells text sp` says that the tokenizer reads a text, wherever it stands at the end of its input, as tokens
spelled `sp`.  Such texts are put together from the end: a word in front of one, that what follows does not go
on, is one more token. -/

namespace CenDB.Cenql

open Utf8 Tokenizer

/-- Behind anything, the rest of the input is read as tokens with these spellings. -/
def Spells (text : List Char) (sp : List Spelling) : Prop :=
  ∀ (done : List Char) (fuel : ℕ), text.length < fuel →
    ∃ ts, tokenizeFrom (encode (done ++ text)) fuel (encode done).length = .ok ts ∧ ts.map Token.spelling = sp

theorem spells_nil : Spells [] [(.eof, "")] := by
  intro done fuel hfuel
  obtain ⟨fuel, rfl⟩ := Nat.exists_eq_succ_of_ne_zero (Nat.ne_zero_of_lt hfuel)
  refine ⟨[⟨.eof, "", (encode (done ++ [])).length⟩], ?_, rfl⟩
  rw [tokenizeFrom, nextToken_eof rfl]
  rfl

/-- A text that spells some tokens is tokenized as them. -/
theorem Spells.tokenize {text : List Char} {sp : List Spelling} (h : Spells text sp) :
    ∃ ts, tokenize (String.ofList text) = .ok ts ∧ ts.map Token.spelling = sp := by
  rw [Tokenizer.tokenize, String.toList_ofList]
  exact h [] _ (Nat.lt_succ_of_le (length_le_length_encode text))

theorem Covers.lexical {done cs : List Char} {ts : List Token} (h : Covers done cs ts) :
    ∀ t ∈ ts, Lexical t.kind t.text := by
  induction h with
  | eof hgap => exact List.forall_mem_singleton.mpr trivial
  | token hgap hoffset hkind hword hlexical h ih => exact List.forall_mem_cons.mpr ⟨hlexical, ih⟩

theorem Covers.closed {done cs : List Char} {ts : List Token} (h : Covers done cs ts) : Closed ts := by
  induction h with
  | eof hgap => exact ⟨[], _, rfl, rfl⟩
  | @token done gap rest t ts hgap hoffset hkind hword hlexical h ih =>
    obtain ⟨front, eof, rfl, heof⟩ := ih
    exact ⟨t :: front, eof, rfl, heof⟩

section words

variable {text word rest : List Char} {sp : List Spelling}

/-- A space is passed over. -/
theorem Spells.space (h : Spells text sp) : Spells (' ' :: text) sp := by
  intro done fuel hfuel
  obtain ⟨fuel, rfl⟩ := Nat.exists_eq_succ_of_ne_zero (Nat.ne_zero_of_lt hfuel)
  obtain ⟨ts, hts, hsp⟩ := h (done ++ [' ']) (fuel + 1) (Nat.lt_of_succ_lt hfuel)
  refine ⟨ts, ?_, hsp⟩
  have hsplit : done ++ ' ' :: text = done ++ [' '] ++ text := by simp
  have hstart : (encode (done ++ [' '])).length = (encode done).length + 1 := by
    rw [length_encode_append]
    rfl
  have hblank : blankLength false (encode (' ' :: text)) = blankLength false (encode text) + 1 := by rfl
  have hpos : (encode done).length + blankLength false ((encode (done ++ ' ' :: text)).drop (encode done).length) =
      (encode (done ++ [' '])).length +
        blankLength false ((encode (done ++ ' ' :: text)).drop (encode (done ++ [' '])).length) := by
    rw [drop_encode, hblank, hsplit, drop_encode, hstart]
    omega
  rw [← hts, tokenizeFrom, tokenizeFrom, nextToken, nextToken, hpos, hsplit]

/-- A word that is a token in front of the rest. -/
theorem Spells.token {kind : TokenKind} {name : String} (hword : word ≠ []) (hkind : kind ≠ .eof)
    (hnext : ∀ done, nextToken (encode (done ++ (word ++ rest))) (encode done).length =
      .ok (⟨kind, name, (encode done).length⟩, (encode (done ++ word)).length))
    (h : Spells rest sp) : Spells (word ++ rest) ((kind, name) :: sp) := by
  intro done fuel hfuel
  obtain ⟨fuel, rfl⟩ := Nat.exists_eq_succ_of_ne_zero (Nat.ne_zero_of_lt hfuel)
  have hpos := List.length_pos_iff.mpr hword
  rw [List.length_append] at hfuel
  obtain ⟨ts, hts, rfl⟩ := h (done ++ word) fuel (by omega)
  refine ⟨⟨kind, name, (encode done).length⟩ :: ts, ?_, rfl⟩
  rw [List.append_assoc] at hts
  rw [tokenizeFrom, hnext]
  simp only [bind, Except.bind, if_neg hkind, hts]
  rfl

/-- What comes at once is told by its first byte. -/
theorem nextToken_word (done : List Char) {b : UInt8} {bytes : List UInt8} (htext : encode text = b :: bytes)
    (hblank : blankLength false (b :: bytes) = 0) :
    nextToken (encode (done ++ text)) (encode done).length =
      if isIdentStart b then lexIdent (encode (done ++ text)) (encode done).length
      else if isAsciiDigit b then lexNumber (encode (done ++ text)) (encode done).length
      else if b = byte '"' then lexString (encode (done ++ text)) (encode done).length
      else do
        let (kind, len) ← punctuation (Char.ofNat b.toNat) bytes.head? (encode done).length
        let text ← sliceText (encode (done ++ text)) (encode done).length ((encode done).length + len)
        return (⟨kind, text, (encode done).length⟩, (encode done).length + len) := by
  have hnext := @nextToken_eq [] done text b bytes htext (by rw [List.nil_append, htext, hblank]; rfl)
  rwa [List.append_nil] at hnext

/-- Neither white space nor a comment begins with such a byte. -/
theorem blankLength_ident {b : UInt8} (h : isIdentByte b = true) (bytes : List UInt8) :
    blankLength false (b :: bytes) = 0 := by
  obtain ⟨c, hc, rfl⟩ := exists_byte (lt_of_isIdentByte h)
  have hblank : isIdentByte (byte c) = true → isAsciiWhitespace (byte c) = false ∧ byte c ≠ byte '-' := by
    exact ofNat_ascii (P := fun c => isIdentByte (byte c) = true →
      isAsciiWhitespace (byte c) = false ∧ byte c ≠ byte '-') (by decide) hc
  obtain ⟨hspace, hdash⟩ := hblank h
  rw [blankLength_cons, hspace, if_neg Bool.false_ne_true, if_neg fun h => hdash h.1]

/-! ### Names and numbers -/

/-- The text is over, or goes on with a byte that continues neither a name nor a number. -/
def Ends (rest : List Char) : Prop := ∀ b ∈ (encode rest).head?, isIdentByte b = false ∧ b ≠ byte '.'

theorem ends_nil : Ends [] := fun _ h => by cases h

theorem ends_cons {c : Char} (hc : c ∈ [' ', ',', '(', ')']) (rest : List Char) : Ends (c :: rest) := by
  have hall : ∀ c ∈ [' ', ',', '(', ')'], Ascii c ∧ isIdentByte (byte c) = false ∧ byte c ≠ byte '.' := by decide
  obtain ⟨hascii, hbyte⟩ := hall c hc
  rw [Ends, encode_cons_of_ascii hascii]
  rintro b ⟨⟩
  exact hbyte

/-- A name or a keyword. -/
theorem Spells.lexIdent (h : Spells rest sp) (hword : ∃ b bs, encode word = b :: bs ∧ isIdentStart b = true)
    (hbytes : ∀ b ∈ encode word, isIdentByte b = true) (hrest : ∀ b ∈ (encode rest).head?, isIdentByte b = false) :
    Spells (word ++ rest) ((keyword (String.ofList word), String.ofList word) :: sp) := by
  obtain ⟨b, bs, hb, hstart⟩ := hword
  have htext : encode (word ++ rest) = b :: (bs ++ encode rest) := by rw [encode_append, hb, List.cons_append]
  have htake : (encode (word ++ rest)).takeWhile isIdentByte = encode word := by
    rw [encode_append, List.takeWhile_append_of_pos hbytes, List.append_right_eq_self]
    cases hbs : encode rest with
    | nil => rfl
    | cons b' bs' =>
      rw [hbs] at hrest
      exact List.takeWhile_cons_of_neg (by rw [hrest b' rfl]; exact Bool.false_ne_true)
  have hkind : keyword (String.ofList word) ≠ .eof := by
    have hnot : ∀ kind ∈ keywords.map Prod.snd, kind ≠ .eof := by decide
    rcases keyword_eq (String.ofList word) with heq | hmem
    · rw [heq]
      decide
    · exact hnot _ hmem
  refine h.token ?_ hkind fun done => ?_
  · rintro rfl
    cases hb
  · rw [nextToken_word done htext (blankLength_ident (isIdentByte_of_isIdentStart hstart) _), if_pos hstart,
      lexIdent_eq htake, length_encode_append]

theorem Spells.ident (h : Spells rest sp) {name : String} (hname : IdentText name)
    (hrest : ∀ b ∈ (encode rest).head?, isIdentByte b = false) :
    Spells (name.toList ++ rest) ((.ident, name) :: sp) := by
  have hspells := h.lexIdent hname.start hname.bytes hrest
  rwa [String.ofList_toList, hname.keyword] at hspells

/-! ### Numbers -/

theorem byte_of_isDigit {c : Char} (h : c.isDigit = true) : Ascii c ∧ isAsciiDigit (byte c) = true := by
  have hc : Ascii c := (Char.isDigit_iff_toNat.mp h).2.trans_lt (by decide)
  refine ⟨hc, ?_⟩
  revert h
  exact ofNat_ascii (P := fun c => c.isDigit = true → isAsciiDigit (byte c) = true) (by decide) hc

theorem numberLength_digits {digits : List Char} (h : ∀ c ∈ digits, c.isDigit = true) (isFloat : Bool)
    (rest : List Char) : numberLength isFloat (encode (digits ++ rest)) =
      (numberLength isFloat (encode rest)).map id (· + (encode digits).length) := by
  induction digits with
  | nil => rfl
  | cons c digits ih =>
    rw [List.forall_mem_cons] at h
    obtain ⟨hc, hdigit⟩ := byte_of_isDigit h.1
    rw [List.cons_append, encode_cons_of_ascii hc, numberLength, if_pos hdigit, ih h.2, encode_cons_of_ascii hc]
    rfl

theorem isIdentByte_of_isAsciiDigit {b : UInt8} (h : isAsciiDigit b = true) : isIdentByte b = true := by
  rw [isIdentByte, isAsciiAlphanumeric, h, Bool.or_true, Bool.true_or]

theorem not_isIdentStart_of_isAsciiDigit {b : UInt8} (h : isAsciiDigit b = true) : ¬isIdentStart b = true := by
  obtain ⟨c, hc, rfl⟩ := exists_byte (lt_of_isAsciiDigit h)
  revert h
  exact ofNat_ascii (P := fun c => isAsciiDigit (byte c) = true → ¬isIdentStart (byte c) = true) (by decide) hc

theorem Ends.numberLength (h : Ends rest) (isFloat : Bool) :
    numberLength isFloat (encode rest) = (isFloat, 0) := by
  unfold Ends at h
  cases hbytes : encode rest with
  | nil => rfl
  | cons b bytes =>
    rw [hbytes] at h
    obtain ⟨hident, hpoint⟩ := h b rfl
    have hdigit : ¬isAsciiDigit b = true := fun hdigit => by
      rw [isIdentByte_of_isAsciiDigit hdigit] at hident
      cases hident
    rw [Tokenizer.numberLength, if_neg hdigit, if_neg fun h => hpoint h.1]

theorem Ends.not_isDurationSuffix (h : Ends rest) : ¬isDurationSuffix (encode rest) = true := by
  unfold Ends at h
  cases hbytes : encode rest with
  | nil => exact Bool.false_ne_true
  | cons b bytes =>
    rw [hbytes] at h
    obtain ⟨hident, -⟩ := h b rfl
    rw [isDurationSuffix, Bool.and_eq_true, Bool.or_eq_true, Bool.or_eq_true, Bool.or_eq_true]
    simp only [decide_eq_true_eq]
    rintro ⟨((rfl | rfl) | rfl) | rfl, -⟩ <;> exact absurd hident (by decide)

/-- Digits, and points with digits behind them. -/
theorem Spells.number (h : Spells rest sp) {isFloat : Bool} {c : Char} (hc : c.isDigit = true)
    (hnumber : numberLength false (encode (c :: word ++ rest)) = (isFloat, (encode (c :: word)).length))
    (hrest : Ends rest) : Spells (c :: word ++ rest) ((if isFloat then .f64 else .i64, String.ofList (c :: word)) :: sp) := by
  obtain ⟨hascii, hdigit⟩ := byte_of_isDigit hc
  have htext : encode (c :: word ++ rest) = byte c :: encode (word ++ rest) := encode_cons_of_ascii hascii _
  refine h.token (List.cons_ne_nil c word) (by cases isFloat <;> decide) fun done => ?_
  rw [nextToken_word done htext (blankLength_ident (isIdentByte_of_isAsciiDigit hdigit) _),
    if_neg (not_isIdentStart_of_isAsciiDigit hdigit), if_pos hdigit, lexNumber_eq hnumber hrest.not_isDurationSuffix,
    length_encode_append]

theorem Spells.i64 (h : Spells rest sp) (hrest : Ends rest) (hne : word ≠ []) (hword : ∀ c ∈ word, c.isDigit = true) :
    Spells (word ++ rest) ((.i64, String.ofList word) :: sp) := by
  obtain ⟨c, word, rfl⟩ := List.exists_cons_of_ne_nil hne
  refine @Spells.number word rest sp h false c (hword c List.mem_cons_self) ?_ hrest
  rw [numberLength_digits hword, hrest.numberLength, Prod.map_apply, Nat.zero_add]
  rfl

theorem Spells.f64 (h : Spells rest sp) (hrest : Ends rest) {whole frac : List Char} (hwhole : whole ≠ [])
    (hfrac : frac ≠ []) (hdigits : ∀ c ∈ whole, c.isDigit = true) (hdigits' : ∀ c ∈ frac, c.isDigit = true) :
    Spells (whole ++ '.' :: frac ++ rest) ((.f64, String.ofList (whole ++ '.' :: frac)) :: sp) := by
  have hpoint : numberLength false (encode ('.' :: (frac ++ rest))) = (true, (encode ('.' :: frac)).length) := by
    obtain ⟨d, frac, rfl⟩ := List.exists_cons_of_ne_nil hfrac
    obtain ⟨hascii, hdigit⟩ := byte_of_isDigit (hdigits' d List.mem_cons_self)
    have hhead : (encode (d :: frac ++ rest)).head?.any isAsciiDigit = true := by
      rw [List.cons_append, encode_cons_of_ascii hascii]
      exact hdigit
    rw [encode_cons_of_ascii (by decide), numberLength, if_neg (by decide), if_pos ⟨rfl, hhead⟩,
      numberLength_digits hdigits', hrest.numberLength, encode_cons_of_ascii (c := '.') (by decide)]
    simp
  obtain ⟨c, whole, rfl⟩ := List.exists_cons_of_ne_nil hwhole
  refine @Spells.number (whole ++ '.' :: frac) rest sp h true c (hdigits c List.mem_cons_self) ?_ hrest
  have hsplit : c :: (whole ++ '.' :: frac) ++ rest = c :: whole ++ '.' :: (frac ++ rest) := by simp
  rw [hsplit, numberLength_digits hdigits, hpoint, ← List.cons_append, length_encode_append (c :: whole)]
  exact Prod.ext rfl (Nat.add_comm _ _)

/-! ### Strings, operators and marks -/

theorem Spells.str (h : Spells rest sp) {s : String} (hs : StringBody s.toList) :
    Spells ('"' :: (s.toList ++ ['"']) ++ rest) ((.str, s) :: sp) := by
  refine h.token (List.cons_ne_nil _ _) (by decide) fun done => ?_
  have htext : encode ('"' :: (s.toList ++ ['"']) ++ rest) = byte '"' :: encode (s.toList ++ ['"'] ++ rest) :=
    encode_cons_of_ascii (by decide) _
  have hsplit : '"' :: (s.toList ++ ['"']) ++ rest = '"' :: (s.toList ++ '"' :: rest) := by simp
  rw [nextToken_word done htext rfl, if_neg (by decide),
    if_neg (by decide), if_pos rfl, hsplit, lexString_eq hs, String.ofList_toList]

/-- The first characters of the operators that are no words, and of the marks. -/
def signs : List Char := ['=', '!', '<', '>', '+', '-', '*', '/', '(', ')', ',', '.']

/-- An operator or a mark. -/
theorem Spells.sign (h : Spells rest sp) (c : Char) (word : List Char) {kind : TokenKind} (hc : c ∈ signs)
    (hkind : kind ≠ .eof) (hblank : blankLength false (encode (c :: word ++ rest)) = 0)
    (hpunctuation : ∀ start, punctuation c (encode (word ++ rest)).head? start = .ok (kind, (encode (c :: word)).length)) :
    Spells (c :: word ++ rest) ((kind, String.ofList (c :: word)) :: sp) := by
  have hall : ∀ c ∈ signs, Ascii c ∧ Char.ofNat (byte c).toNat = c ∧ ¬isIdentStart (byte c) = true ∧
      ¬isAsciiDigit (byte c) = true ∧ byte c ≠ byte '"' := by decide
  obtain ⟨hascii, hchar, hstart, hdigit, hquote⟩ := hall c hc
  have htext : encode (c :: word ++ rest) = byte c :: encode (word ++ rest) := encode_cons_of_ascii hascii _
  refine h.token (List.cons_ne_nil c word) hkind fun done => ?_
  rw [htext] at hblank
  rw [nextToken_word done htext hblank, if_neg hstart, if_neg hdigit, if_neg hquote, hchar, hpunctuation]
  simp only [bind, Except.bind]
  rw [sliceText_encode, length_encode_append]
  rfl

/-- An operator in front of a space. -/
theorem Spells.operator (h : Spells rest sp) (op : BinaryOp) :
    Spells (op.text.toList ++ ' ' :: rest) ((op.kind, op.text) :: sp) := by
  have hspace : ∀ b ∈ (encode (' ' :: rest)).head?, isIdentByte b = false := fun b hb =>
    (ends_cons (by decide) rest b hb).1
  cases op with
  | eq => exact h.space.sign '=' ['='] (by decide) (by decide) rfl fun _ => rfl
  | ne => exact h.space.sign '!' ['='] (by decide) (by decide) rfl fun _ => rfl
  | lt => exact h.space.sign '<' [] (by decide) (by decide) rfl fun _ => rfl
  | le => exact h.space.sign '<' ['='] (by decide) (by decide) rfl fun _ => rfl
  | gt => exact h.space.sign '>' [] (by decide) (by decide) rfl fun _ => rfl
  | ge => exact h.space.sign '>' ['='] (by decide) (by decide) rfl fun _ => rfl
  | and | or => exact h.space.lexIdent ⟨_, _, rfl, rfl⟩ (List.all_eq_true.mp rfl) hspace
  | add => exact h.space.sign '+' [] (by decide) (by decide) rfl fun _ => rfl
  | sub => exact h.space.sign '-' [] (by decide) (by decide) rfl fun _ => rfl
  | mul => exact h.space.sign '*' [] (by decide) (by decide) rfl fun _ => rfl
  | div => exact h.space.sign '/' [] (by decide) (by decide) rfl fun _ => rfl

/-! ### Paths -/

theorem Spells.names (h : Spells rest sp) (hrest : Ends rest) {first : String} {more : List String}
    (hfirst : IdentText first) (hmore : ∀ next ∈ more, IdentText next) :
    Spells (first.toList ++ (more.flatMap (fun next => '.' :: next.toList) ++ rest))
      ((.ident, first) :: (more.flatMap (fun next => [(.dot, "."), (.ident, next)]) ++ sp)) := by
  induction more generalizing first with
  | nil => exact h.ident hfirst fun b hb => (hrest b hb).1
  | cons next more ih =>
    rw [List.forall_mem_cons] at hmore
    have hdot := (ih hmore.1 hmore.2).sign '.' [] (by decide) (by decide) rfl fun _ => rfl
    have hspells := hdot.ident hfirst fun b hb => by
      rw [List.singleton_append, encode_cons_of_ascii (by decide)] at hb
      cases hb
      decide
    simpa using hspells

theorem dot_not_mem {name : String} (h : IdentText name) : '.' ∉ name.toList := by
  intro hmem
  have hbyte := h.bytes (byte '.') (List.mem_flatMap.mpr ⟨'.', hmem, by decide⟩)
  revert hbyte
  decide

/-- The names of a path are what its dots separate. -/
theorem pathTokens_pathName {first : String} {more : List String} (hfirst : IdentText first)
    (hmore : ∀ next ∈ more, IdentText next) : pathTokens (pathName first more) =
      (.ident, first) :: more.flatMap fun next => [(.dot, "."), (.ident, next)] := by
  have hparts : ∀ part ∈ first.toList :: more.map String.toList, '.' ∉ part := by
    rw [List.forall_mem_cons, List.forall_mem_map]
    exact ⟨dot_not_mem hfirst, fun next hnext => dot_not_mem (hmore next hnext)⟩
  have hname : (pathName first more).toList = ['.'].intercalate (first.toList :: more.map String.toList) := by
    rw [toList_pathName, intercalate_cons, List.flatMap_map]
    rfl
  rw [pathTokens, hname, List.splitOn_intercalate '.' hparts (List.cons_ne_nil _ _)]
  simp [Function.comp_def]

end words

end CenDB.Cenql
