import CenDB.Cenql.Lexer

/-! # What the tokens cover

A text is read from left to right as white space and comments, a word, white space and comments again, and
so on.  `At` says that the tokenizer stands between two characters; every scan of it keeps to that, since it
only stops in front of the text's end or beside an ASCII byte. -/

namespace CenDB.Cenql

open Guarded Utf8 List Nat

/-- The text that a token stands for. -/
def Token.word (t : Token) : List Char := if t.kind = .str then '"' :: (t.text.toList ++ ['"']) else t.text.toList

/-- The position after a token. -/
def Token.stop (t : Token) : ℕ := t.offset + (encode t.word).length

def asciiWhitespace : List Char := [' ', '\t', '\n', '\x0c', '\r']

/-- White space and comments, in front of some text.  A comment reaches to the end of its line. -/
inductive Blank (after : List Char) : List Char → Prop
  | nil : Blank after []
  | space {c : Char} {gap : List Char} (hc : c ∈ asciiWhitespace) (h : Blank after gap) : Blank after (c :: gap)
  | comment {body gap : List Char} (hbody : '\n' ∉ body) (hend : ∀ c ∈ (gap ++ after).head?, c = '\n')
    (h : Blank after gap) : Blank after ('-' :: '-' :: (body ++ gap))

/-- The inside of a string: a backslash stands in front of any character, a quote behind a backslash only. -/
inductive StringBody : List Char → Prop
  | nil : StringBody []
  | escape {c : Char} {body : List Char} (h : StringBody body) : StringBody ('\\' :: c :: body)
  | plain {c : Char} {body : List Char} (hquote : c ≠ '"') (hescape : c ≠ '\\') (h : StringBody body) :
    StringBody (c :: body)

/-- A name that is no keyword. -/
structure IdentText (text : String) : Prop where
  start : ∃ b bs, encode text.toList = b :: bs ∧ Tokenizer.isIdentStart b = true
  bytes : ∀ b ∈ encode text.toList, Tokenizer.isIdentByte b = true
  keyword : Tokenizer.keyword text = .ident

/-- The texts of names, numbers and strings. -/
def Lexical (kind : TokenKind) (text : String) : Prop :=
  match kind with
  | .ident => IdentText text
  | .i64 => ∀ c ∈ text.toList, c.isDigit = true
  | .f64 => ∀ c ∈ text.toList, c.isDigit = true ∨ c = '.'
  | .str => StringBody text.toList
  | _ => True

theorem word_of_kind {t : Token} (h : t.kind ≠ .str) : t.word = t.text.toList := if_neg h

namespace Tokenizer

/-! ### Bytes of characters -/

variable {c : Char} {cs done rest : List Char} {b : UInt8} {bytes : List UInt8}

theorem encode_cons_of_ascii (hc : Ascii c) (cs : List Char) : encode (c :: cs) = byte c :: encode cs := by
  rw [encode_cons, encodeChar_of_ascii hc]
  rfl

theorem byte_inj {d : Char} (hc : Ascii c) (hd : Ascii d) (h : byte c = byte d) : c = d := by
  have hlt : c.toNat < 2 ^ 8 := lt_of_lt_of_le hc (by decide)
  have hlt' : d.toNat < 2 ^ 8 := lt_of_lt_of_le hd (by decide)
  have heq := congrArg UInt8.toNat h
  rw [byte, byte, UInt8.toNat_ofNat', UInt8.toNat_ofNat', mod_eq_of_lt hlt, mod_eq_of_lt hlt'] at heq
  rw [← Char.ofNat_toNat c, heq, Char.ofNat_toNat]

/-- An ASCII byte in front of a text is the first character. -/
theorem exists_of_byte (hc : Ascii c) {rest : List UInt8} (h : encode cs = byte c :: rest) :
    ∃ ds, cs = c :: ds ∧ encode ds = rest := by
  have hlt : byte c < 128 := by
    rw [UInt8.lt_iff_toNat_lt, byte, UInt8.toNat_ofNat', mod_eq_of_lt (hc.trans (by decide))]
    exact hc
  obtain ⟨d, ds, rfl, hd, hbyte, hrest⟩ := exists_of_encode_cons h hlt
  exact ⟨ds, by rw [byte_inj hd hc hbyte], hrest⟩

theorem mem_asciiWhitespace (hc : Ascii c) (h : isAsciiWhitespace (byte c) = true) : c ∈ asciiWhitespace := by
  revert h
  exact ofNat_ascii (P := fun c => isAsciiWhitespace (byte c) = true → c ∈ asciiWhitespace) (by decide) hc

theorem isDigit_of_byte (hc : Ascii c) (h : isAsciiDigit (byte c) = true) : c.isDigit = true := by
  revert h
  exact ofNat_ascii (P := fun c => isAsciiDigit (byte c) = true → c.isDigit = true) (by decide) hc

/-- A byte below 128 is the byte of an ASCII character. -/
theorem exists_byte (h : b < 128) : ∃ c, Ascii c ∧ byte c = b := by
  have hlt : b.toNat < 128 := UInt8.lt_iff_toNat_lt.mp h
  refine ⟨Char.ofNat b.toNat, ?_, ?_⟩
  · rw [Ascii, toNat_ofNat_byte]
    exact hlt
  · simp [byte, toNat_ofNat_byte]

theorem lt_of_isAsciiDigit (h : isAsciiDigit b = true) : b < 128 := by
  simp only [isAsciiDigit, Bool.and_eq_true, decide_eq_true_eq] at h
  exact UInt8.lt_of_le_of_lt h.2 (by decide)

theorem lt_of_isAsciiAlphanumeric (h : isAsciiAlphanumeric b = true) : b < 128 := by
  simp only [isAsciiAlphanumeric, isAsciiAlphabetic, Bool.or_eq_true, Bool.and_eq_true, decide_eq_true_eq] at h
  rcases h with (h | h) | h
  · exact UInt8.lt_of_le_of_lt h.2 (by decide)
  · exact UInt8.lt_of_le_of_lt h.2 (by decide)
  · exact lt_of_isAsciiDigit h

theorem lt_of_isIdentByte (h : isIdentByte b = true) : b < 128 := by
  rw [isIdentByte, Bool.or_eq_true, decide_eq_true_eq] at h
  rcases h with h | rfl
  · exact lt_of_isAsciiAlphanumeric h
  · decide

theorem isIdentByte_of_isIdentStart (h : isIdentStart b = true) : isIdentByte b = true := by
  rw [isIdentStart, Bool.or_eq_true] at h
  rw [isIdentByte, isAsciiAlphanumeric, Bool.or_eq_true, Bool.or_eq_true]
  exact h.imp_left .inl

/-! ### White space and comments -/

/-- Inside a comment, everything up to the end of the line is passed over. -/
theorem blankLength_comment {taken : List UInt8} (h : byte '\n' ∉ taken) (rest : List UInt8) :
    blankLength true (taken ++ rest) = taken.length + blankLength true rest := by
  induction taken with
  | nil => rw [List.nil_append, length_nil, Nat.zero_add]
  | cons b taken ih =>
    rw [mem_cons, not_or] at h
    rw [cons_append, blankLength_comment_cons, if_neg fun heq => h.1 heq.symm, ih h.2, length_cons]
    omega

theorem newline_not_mem_encodeChar (h : c ≠ '\n') : byte '\n' ∉ String.utf8EncodeChar c := by
  intro hmem
  by_cases hc : Ascii c
  · rw [encodeChar_of_ascii hc, mem_singleton] at hmem
    exact h (byte_inj hc (by decide) hmem.symm)
  · exact absurd (le_of_mem_encodeChar hc hmem) (by decide)

/-- The rest of a comment. -/
theorem exists_commentBody (cs : List Char) : ∃ body rest, cs = body ++ rest ∧ '\n' ∉ body ∧
    (∀ c ∈ rest.head?, c = '\n') ∧
    blankLength true (encode cs) = (encode body).length + blankLength false (encode rest) := by
  induction cs with
  | nil => exact ⟨[], [], rfl, not_mem_nil, by simp, rfl⟩
  | cons c cs ih =>
    by_cases hc : c = '\n'
    · subst hc
      refine ⟨[], '\n' :: cs, rfl, not_mem_nil, by simp, ?_⟩
      rw [encode_cons_of_ascii (by decide)]
      exact (Nat.zero_add _).symm
    · obtain ⟨body, rest, rfl, hbody, hrest, hlength⟩ := ih
      refine ⟨c :: body, rest, rfl, ?_, hrest, ?_⟩
      · rw [mem_cons, not_or]
        exact ⟨fun heq => hc heq.symm, hbody⟩
      · rw [encode_cons, blankLength_comment (newline_not_mem_encodeChar hc), hlength, encode_cons,
          length_append, Nat.add_assoc]

/-- **What the tokenizer passes over is blank.** -/
theorem exists_blank (cs : List Char) : ∃ gap rest, cs = gap ++ rest ∧ Blank rest gap ∧
    blankLength false (encode cs) = (encode gap).length := by
  induction hn : cs.length using Nat.strong_induction_on generalizing cs with
  | h n ih =>
    cases cs with
    | nil => exact ⟨[], [], rfl, .nil, rfl⟩
    | cons c cs =>
      subst hn
      by_cases hc : Ascii c
      · rw [encode_cons_of_ascii hc, blankLength_cons]
        split_ifs with hspace hcomment
        · obtain ⟨gap, rest, rfl, hgap, hlength⟩ := ih cs.length (Nat.lt_succ_self _) cs rfl
          refine ⟨c :: gap, rest, rfl, .space (mem_asciiWhitespace hc hspace) hgap, ?_⟩
          rw [hlength, encode_cons_of_ascii hc, length_cons]
        · obtain rfl := byte_inj hc (by decide) hcomment.1
          obtain ⟨bytes, hbytes⟩ := head?_eq_some_iff.mp hcomment.2
          obtain ⟨ds, rfl, -⟩ := exists_of_byte (by decide) hbytes
          obtain ⟨body, after, rfl, hbody, hafter, hlength⟩ := exists_commentBody ds
          have hshort : after.length < ('-' :: '-' :: (body ++ after)).length := by
            simp only [length_cons, length_append]
            omega
          obtain ⟨gap, rest, rfl, hgap, hlength'⟩ := ih after.length hshort after rfl
          refine ⟨'-' :: '-' :: (body ++ gap), rest, by simp, .comment hbody hafter hgap, ?_⟩
          rw [encode_cons_of_ascii (by decide), blankLength_comment_cons, if_neg (by decide), hlength, hlength',
            encode_cons_of_ascii (by decide), encode_cons_of_ascii (by decide), encode_append]
          simp only [length_cons, length_append]
        · exact ⟨[], c :: cs, rfl, .nil, rfl⟩
      · obtain ⟨b, bytes, hbytes, hb⟩ := head_encodeChar hc
        refine ⟨[], c :: cs, rfl, .nil, ?_⟩
        have hspace : isAsciiWhitespace b = false := by
          rw [UInt8.le_iff_toNat_le] at hb
          simp only [isAsciiWhitespace, Bool.or_eq_false_iff, decide_eq_false_iff_not]
          refine ⟨⟨⟨⟨?_, ?_⟩, ?_⟩, ?_⟩, ?_⟩ <;> rintro rfl <;> revert hb <;> decide
        have hdash : b ≠ byte '-' := by
          rintro rfl
          revert hb
          decide
        rw [encode_cons, hbytes, cons_append, blankLength_cons, if_neg (by rw [hspace]; decide), if_neg fun h => hdash h.1]
        rfl

/-! ### Strings -/

/-- Neither a quote nor a backslash. -/
def PlainByte (b : UInt8) : Prop := b ≠ byte '"' ∧ b ≠ byte '\\'

theorem stringLength_quote (rest : List UInt8) : stringLength (byte '"' :: rest) = some 0 := by
  cases rest <;> rfl

theorem stringLength_cons (h : PlainByte b) (rest : List UInt8) :
    stringLength (b :: rest) = (stringLength rest).map (· + 1) := by
  rw [stringLength.eq_def]
  simp only [if_neg h.1, if_neg h.2]

theorem stringLength_append {taken : List UInt8} (h : ∀ b ∈ taken, PlainByte b) (rest : List UInt8) :
    stringLength (taken ++ rest) = (stringLength rest).map (· + taken.length) := by
  induction taken with
  | nil => simp
  | cons b taken ih =>
    rw [forall_mem_cons] at h
    rw [cons_append, stringLength_cons h.1, ih h.2, Option.map_map]
    rfl

theorem plainByte_of_le (h : 128 ≤ b) : PlainByte b := by
  constructor
  · rintro rfl
    revert h
    decide
  · rintro rfl
    revert h
    decide

theorem plainByte_encodeChar (hquote : c ≠ '"') (hescape : c ≠ '\\') :
    ∀ b ∈ String.utf8EncodeChar c, PlainByte b := by
  intro b hb
  by_cases hc : Ascii c
  · rw [encodeChar_of_ascii hc, mem_singleton] at hb
    subst hb
    exact ⟨fun h => hquote (byte_inj hc (by decide) h), fun h => hescape (byte_inj hc (by decide) h)⟩
  · exact plainByte_of_le (le_of_mem_encodeChar hc hb)

theorem stringLength_plain (hquote : c ≠ '"') (hescape : c ≠ '\\') (rest : List UInt8) :
    stringLength (String.utf8EncodeChar c ++ rest) = (stringLength rest).map (· + (String.utf8EncodeChar c).length) :=
  stringLength_append (plainByte_encodeChar hquote hescape) rest

/-- A backslash and the character after it, of which the tokenizer passes over the first byte unseen. -/
theorem stringLength_escape (c : Char) (rest : List UInt8) :
    stringLength (byte '\\' :: (String.utf8EncodeChar c ++ rest)) =
      (stringLength rest).map (· + ((String.utf8EncodeChar c).length + 1)) := by
  have hrest : ∃ b bytes, String.utf8EncodeChar c = b :: bytes ∧ ∀ x ∈ bytes, PlainByte x := by
    by_cases hc : Ascii c
    · exact ⟨_, [], encodeChar_of_ascii hc, forall_mem_nil _⟩
    · obtain ⟨b, bytes, hbytes, -⟩ := head_encodeChar hc
      refine ⟨b, bytes, hbytes, fun x hx => plainByte_of_le (le_of_mem_encodeChar hc ?_)⟩
      rw [hbytes]
      exact mem_cons_of_mem b hx
  obtain ⟨b, bytes, hbytes, hplain⟩ := hrest
  rw [hbytes, cons_append]
  change (stringLength _).map _ = _
  simp only [stringLength_append hplain, Option.map_map, length_cons]
  rfl

variable {body taken gap : List Char} {kind : TokenKind}

theorem stringLength_of_body (h : StringBody body) (rest : List UInt8) :
    stringLength (encode body ++ byte '"' :: rest) = some (encode body).length := by
  induction h with
  | nil => exact stringLength_quote rest
  | @escape c body h ih =>
    rw [encode_cons_of_ascii (by decide), encode_cons, cons_append, append_assoc, stringLength_escape,
      ih, Option.map_some, length_cons, length_append]
    congr 1
    omega
  | @plain c body hquote hescape h ih =>
    rw [encode_cons, append_assoc, stringLength_plain hquote hescape, ih, Option.map_some,
      length_append, Nat.add_comm]

/-- The inside of a string is found exactly. -/
theorem exists_stringBody {n : ℕ} (h : stringLength (encode cs) = some n) :
    ∃ body rest, cs = body ++ '"' :: rest ∧ StringBody body ∧ n = (encode body).length := by
  induction hlen : cs.length using Nat.strong_induction_on generalizing cs n with
  | h k ih =>
    cases cs with
    | nil => cases h
    | cons c cs =>
      subst hlen
      by_cases hquote : c = '"'
      · subst hquote
        rw [encode_cons_of_ascii (by decide), stringLength_quote] at h
        exact ⟨[], cs, rfl, .nil, (Option.some.inj h).symm⟩
      by_cases hescape : c = '\\'
      · subst hescape
        cases cs with
        | nil => cases h
        | cons d cs =>
          rw [encode_cons_of_ascii (by decide), encode_cons, stringLength_escape] at h
          obtain ⟨m, hm, rfl⟩ := Option.map_eq_some_iff.mp h
          obtain ⟨body, rest, rfl, hbody, rfl⟩ := ih cs.length (by simp only [length_cons]; omega) hm rfl
          refine ⟨'\\' :: d :: body, rest, rfl, .escape hbody, ?_⟩
          rw [encode_cons_of_ascii (by decide), encode_cons, length_cons, length_append]
          omega
      · rw [encode_cons, stringLength_plain hquote hescape] at h
        obtain ⟨m, hm, rfl⟩ := Option.map_eq_some_iff.mp h
        obtain ⟨body, rest, rfl, hbody, rfl⟩ := ih cs.length (Nat.lt_succ_self _) hm rfl
        exact ⟨c :: body, rest, rfl, .plain hquote hescape hbody, by
          rw [encode_cons, length_append, Nat.add_comm]⟩

/-! ### Numbers -/

/-- Digits and points; without points the number is no float. -/
theorem exists_number (isFloat : Bool) (bytes : List UInt8) : ∃ taken rest, bytes = taken ++ rest ∧
    (numberLength isFloat bytes).2 = taken.length ∧ (∀ b ∈ taken, isAsciiDigit b = true ∨ b = byte '.') ∧
    ((numberLength isFloat bytes).1 = false → isFloat = false ∧ ∀ b ∈ taken, isAsciiDigit b = true) := by
  induction bytes generalizing isFloat with
  | nil => exact ⟨[], [], rfl, rfl, forall_mem_nil _, fun h => ⟨h, forall_mem_nil _⟩⟩
  | cons b bytes ih =>
    rw [numberLength]
    split_ifs with hdigit hpoint
    · obtain ⟨taken, rest, hbytes, hlength, htaken, hfloat⟩ := ih isFloat
      refine ⟨b :: taken, rest, by rw [hbytes, cons_append], congrArg (· + 1) hlength, ?_, fun h => ?_⟩
      · exact forall_mem_cons.mpr ⟨.inl hdigit, htaken⟩
      · exact ⟨(hfloat h).1, forall_mem_cons.mpr ⟨hdigit, (hfloat h).2⟩⟩
    · obtain ⟨taken, rest, hbytes, hlength, htaken, hfloat⟩ := ih true
      refine ⟨b :: taken, rest, by rw [hbytes, cons_append], congrArg (· + 1) hlength, ?_, fun h => ?_⟩
      · exact forall_mem_cons.mpr ⟨.inr hpoint.1, htaken⟩
      · cases (hfloat h).1
    · exact ⟨[], b :: bytes, rfl, rfl, forall_mem_nil _, fun h => ⟨h, forall_mem_nil _⟩⟩

/-- A byte in front of a point is a digit or a point, and so is its character. -/
theorem forall_of_bytes {p : Char → Prop} (hp : ∀ c, Ascii c → byte c ∈ encode cs → p c)
    (hbytes : ∀ b ∈ encode cs, b < 128) : ∀ c ∈ cs, p c := by
  intro c hc
  by_cases hascii : Ascii c
  · refine hp c hascii (mem_flatMap.mpr ⟨c, hc, ?_⟩)
    rw [encodeChar_of_ascii hascii]
    exact mem_singleton_self _
  · obtain ⟨b, bytes, hchar, hb⟩ := head_encodeChar hascii
    have hmem : b ∈ encode cs := mem_flatMap.mpr ⟨c, hc, by rw [hchar]; exact mem_cons_self⟩
    exact absurd (UInt8.lt_trans (hbytes b hmem) (by decide)) (UInt8.not_lt.mpr hb)

/-! ### Tokens -/

theorem drop_encode (done cs : List Char) : (encode (done ++ cs)).drop (encode done).length = encode cs := by
  rw [encode_append, drop_left]

/-- A slice from one character to another is text. -/
theorem sliceText_encode (done taken rest : List Char) :
    sliceText (encode (done ++ (taken ++ rest))) (encode done).length ((encode done).length + (encode taken).length) =
      .ok (String.ofList taken) := by
  have hle : (encode done).length + (encode taken).length ≤ (encode (done ++ (taken ++ rest))).length := by
    simp [length_encode_append]
  have hslice : Words.slice (encode (done ++ (taken ++ rest))) (encode done).length
      ((encode done).length + (encode taken).length) = encode taken := by
    rw [Words.slice, drop_encode, encode_append, Nat.add_sub_cancel_left, take_left]
  rw [sliceText, slice_of_le (Nat.le_add_right _ _) hle, hslice]
  simp only [bind, Except.bind, decode_encode]
  rfl

/-- An error, or a token that begins with the text, and the position after it. -/
inductive Lexes (done cs : List Char) : Except LexFailure (Token × ℕ) → Prop
  | error (e : LexError) : Lexes done cs (.error (.lexErr e))
  | ok {t : Token} (rest : List Char) (hcs : cs = t.word ++ rest) (hoffset : t.offset = (encode done).length)
    (hkind : t.kind ≠ .eof) (hword : t.word ≠ []) (hlexical : Lexical t.kind t.text) :
    Lexes done cs (.ok (t, t.stop))

theorem lexes_text (kind : TokenKind) (hne : taken ≠ []) (hkind : kind ≠ .eof) (hstr : kind ≠ .str)
    (hlexical : Lexical kind (String.ofList taken)) (rest : List Char) :
    Lexes done (taken ++ rest)
      (.ok (⟨kind, String.ofList taken, (encode done).length⟩, (encode done).length + (encode taken).length)) := by
  have hword : Token.word ⟨kind, String.ofList taken, (encode done).length⟩ = taken := by
    simp [word_of_kind, hstr]
  have hlexes : Lexes done (taken ++ rest) (.ok (⟨kind, String.ofList taken, (encode done).length⟩,
      Token.stop ⟨kind, String.ofList taken, (encode done).length⟩)) :=
    .ok rest (by rw [hword]) rfl hkind (by rwa [hword]) hlexical
  rwa [Token.stop, hword] at hlexes

theorem lexical_of_kind (hident : kind ≠ .ident) (hi64 : kind ≠ .i64) (hf64 : kind ≠ .f64) (hstr : kind ≠ .str)
    (text : String) : Lexical kind text := by simp [Lexical]

/-- A word is a name, or its kind is one of the keywords'. -/
theorem keyword_eq (text : String) : keyword text = .ident ∨ keyword text ∈ keywords.map Prod.snd := by
  unfold keyword
  cases h : keywords.lookup text with
  | none => exact .inl rfl
  | some kind =>
    obtain ⟨before, after, hkeywords, -⟩ := lookup_eq_some_iff.mp h
    refine .inr (List.mem_map.mpr ⟨(text, kind), ?_, rfl⟩)
    rw [hkeywords]
    exact mem_append_right before mem_cons_self

/-- A name or a keyword. -/
theorem lexIdent_eq (htaken : (encode (taken ++ rest)).takeWhile isIdentByte = encode taken) :
    lexIdent (encode (done ++ (taken ++ rest))) (encode done).length =
      .ok (⟨keyword (String.ofList taken), String.ofList taken, (encode done).length⟩,
        (encode done).length + (encode taken).length) := by
  rw [lexIdent, drop_encode, htaken, sliceText_encode]
  rfl

/-- A number in front of what is no unit. -/
theorem lexNumber_eq {isFloat : Bool}
    (hnumber : numberLength false (encode (taken ++ rest)) = (isFloat, (encode taken).length))
    (hunit : ¬isDurationSuffix (encode rest) = true) :
    lexNumber (encode (done ++ (taken ++ rest))) (encode done).length =
      .ok (⟨if isFloat then .f64 else .i64, String.ofList taken, (encode done).length⟩,
        (encode done).length + (encode taken).length) := by
  have hdrop : (encode (done ++ (taken ++ rest))).drop ((encode done).length + (encode taken).length) = encode rest := by
    rw [← length_encode_append, ← append_assoc, drop_encode]
  rw [lexNumber, drop_encode]
  simp only [hnumber, hdrop, if_neg hunit]
  rw [sliceText_encode]
  rfl

theorem lexString_eq (hbody : StringBody body) (rest : List Char) :
    lexString (encode (done ++ '"' :: (body ++ '"' :: rest))) (encode done).length =
      .ok (⟨.str, String.ofList body, (encode done).length⟩, (encode (done ++ '"' :: (body ++ ['"']))).length) := by
  have hquote : (encode ['"']).length = 1 := rfl
  have hsplit (cs : List Char) : done ++ '"' :: cs = done ++ ['"'] ++ cs := by simp
  have hstart : (encode done).length + 1 = (encode (done ++ ['"'])).length := by
    rw [length_encode_append, hquote]
  have hstop : (encode (done ++ ['"'])).length + (encode body).length + 1 =
      (encode (done ++ '"' :: (body ++ ['"']))).length := by
    rw [hsplit (body ++ _), length_encode_append _ (body ++ _), length_encode_append body, hquote, Nat.add_assoc]
  have hlength : stringLength (encode (body ++ '"' :: rest)) = some (encode body).length := by
    rw [encode_append, encode_cons_of_ascii (by decide)]
    exact stringLength_of_body hbody _
  unfold lexString
  simp only [hstart]
  rw [hsplit (body ++ '"' :: rest)]
  simp only [drop_encode, hlength]
  rw [sliceText_encode, hstop]
  rfl

theorem lexes_lexIdent (hcs : encode cs = b :: bytes) (hstart : isIdentStart b = true) :
    Lexes done cs (lexIdent (encode (done ++ cs)) (encode done).length) := by
  have hall : ∀ x ∈ (encode cs).takeWhile isIdentByte, isIdentByte x = true := fun x hx =>
    all_eq_true.mp all_takeWhile x hx
  obtain ⟨taken, rest, rfl, htaken, -⟩ :=
    exists_of_encode_append takeWhile_append_dropWhile.symm fun x hx => lt_of_isIdentByte (hall x hx)
  have hfirst : ∃ bytes', encode taken = b :: bytes' := by
    rw [htaken, hcs, takeWhile_cons_of_pos (isIdentByte_of_isIdentStart hstart)]
    exact ⟨_, rfl⟩
  have hne : taken ≠ [] := by
    rintro rfl
    obtain ⟨bytes', hbytes'⟩ := hfirst
    cases hbytes'
  rw [lexIdent_eq htaken.symm]
  rcases keyword_eq (String.ofList taken) with hkind | hkind
  · obtain ⟨bytes', hbytes'⟩ := hfirst
    have hident : IdentText (String.ofList taken) := by
      refine ⟨⟨b, bytes', by rw [String.toList_ofList, hbytes'], hstart⟩, fun x hx => ?_, hkind⟩
      rw [String.toList_ofList, htaken] at hx
      exact hall x hx
    rw [hkind]
    exact lexes_text .ident hne (by decide) (by decide) hident rest
  · have hnot : ∀ kind ∈ keywords.map Prod.snd, kind ≠ .eof ∧ kind ≠ .ident ∧ kind ≠ .i64 ∧ kind ≠ .f64 ∧
        kind ≠ .str := by decide
    obtain ⟨heof, hident, hi64, hf64, hstr⟩ := hnot _ hkind
    exact lexes_text _ hne heof hstr (lexical_of_kind hident hi64 hf64 hstr _) rest

theorem lexes_lexNumber (hcs : encode cs = b :: bytes) (hdigit : isAsciiDigit b = true) :
    Lexes done cs (lexNumber (encode (done ++ cs)) (encode done).length) := by
  obtain ⟨number, after, hbytes, hlength, hnumber, hfloat⟩ := exists_number false (encode cs)
  have hlt : ∀ x ∈ number, x < 128 := fun x hx => by
    rcases hnumber x hx with h | rfl
    · exact lt_of_isAsciiDigit h
    · decide
  obtain ⟨taken, rest, rfl, htaken, hrest⟩ := exists_of_encode_append hbytes hlt
  have hne : taken ≠ [] := by
    rintro rfl
    rw [hcs, numberLength, if_pos hdigit] at hlength
    rw [← htaken] at hlength
    cases hlength
  by_cases hduration : isDurationSuffix (encode rest) = true
  · have hpos : (encode done).length + number.length = (encode (done ++ taken)).length := by
      rw [← htaken, length_encode_append]
    have hdrop : (encode (done ++ (taken ++ rest))).drop (encode (done ++ taken)).length = encode rest := by
      rw [← append_assoc, drop_encode]
    rw [lexNumber, drop_encode]
    simp only [hlength, hpos, hdrop, if_pos hduration]
    obtain ⟨unit, bytes', hunit⟩ : ∃ unit bytes', encode rest = unit :: bytes' := by
      cases hrest : encode rest with
      | nil =>
        rw [hrest] at hduration
        cases hduration
      | cons unit bytes' => exact ⟨unit, bytes', rfl⟩
    have hlt' : unit < 128 := by
      rw [hunit, isDurationSuffix, Bool.and_eq_true] at hduration
      simp only [Bool.or_eq_true, decide_eq_true_eq] at hduration
      rcases hduration.1 with ((rfl | rfl) | rfl) | rfl <;> decide
    obtain ⟨c, rest, rfl, hc, -, -⟩ := exists_of_encode_cons hunit hlt'
    have hstop : (encode (done ++ taken)).length + 1 = (encode done).length + (encode (taken ++ [c])).length := by
      rw [length_encode_append, length_encode_append, encode_cons_of_ascii hc]
      exact Nat.add_assoc _ _ _
    have hsplit : taken ++ c :: rest = taken ++ [c] ++ rest := by simp
    rw [hstop, hsplit, sliceText_encode]
    exact lexes_text .duration (by simp) (by decide) (by decide) trivial rest
  · rw [← htaken] at hlength
    have hdigits : ∀ c ∈ (String.ofList taken).toList, c.isDigit = true ∨ c = '.' := by
      rw [String.toList_ofList]
      refine forall_of_bytes (fun c hc hmem => ?_) fun x hx => ?_
      · rw [htaken] at hmem
        exact (hnumber _ hmem).imp (isDigit_of_byte hc) fun h => byte_inj hc (by decide) h
      · rw [htaken] at hx
        exact hlt x hx
    cases hkind : (numberLength false (encode (taken ++ rest))).1 with
    | true =>
      rw [lexNumber_eq (Prod.ext hkind hlength) hduration]
      exact lexes_text .f64 hne (by decide) (by decide) hdigits rest
    | false =>
      rw [lexNumber_eq (Prod.ext hkind hlength) hduration]
      refine lexes_text .i64 hne (by decide) (by decide) ?_ rest
      rw [Lexical, String.toList_ofList]
      refine forall_of_bytes (fun c hc hmem => ?_) fun x hx => ?_
      · rw [htaken] at hmem
        exact isDigit_of_byte hc ((hfloat hkind).2 _ hmem)
      · rw [htaken] at hx
        exact hlt x hx

theorem lexes_lexString (hcs : encode cs = byte '"' :: bytes) :
    Lexes done cs (lexString (encode (done ++ cs)) (encode done).length) := by
  obtain ⟨cs, rfl, -⟩ := exists_of_byte (by decide) hcs
  have hdrop : (encode (done ++ '"' :: cs)).drop ((encode done).length + 1) = encode cs := by
    rw [encode_append, encode_cons_of_ascii (by decide), ← drop_drop, drop_left]
    rfl
  cases hlength : stringLength (encode cs) with
  | none =>
    unfold lexString
    simp only [hdrop, hlength]
    exact .error _
  | some n =>
    obtain ⟨body, rest, rfl, hbody, -⟩ := exists_stringBody hlength
    rw [lexString_eq hbody]
    have hword : Token.word ⟨.str, String.ofList body, (encode done).length⟩ = '"' :: (body ++ ['"']) := by
      simp [Token.word]
    have hlexes : Lexes done ('"' :: (body ++ '"' :: rest)) (.ok (⟨.str, String.ofList body, (encode done).length⟩,
        Token.stop ⟨.str, String.ofList body, (encode done).length⟩)) :=
      .ok rest (by rw [hword]; simp) rfl (fun h => by cases h) (by rw [hword]; exact cons_ne_nil _ _)
        (by rwa [Lexical, String.toList_ofList])
    rwa [Token.stop, hword, ← length_encode_append] at hlexes

/-! ### The next token -/

/-- An error, or one or two ASCII characters. -/
inductive Punctuated (c : Char) (next : Option UInt8) : Except LexFailure (TokenKind × ℕ) → Prop
  | error (e : LexError) : Punctuated c next (.error (.lexErr e))
  | one {kind : TokenKind} (hc : Ascii c) (hkind : kind ∉ [.ident, .i64, .f64, .str, .eof]) :
    Punctuated c next (.ok (kind, 1))
  | two {kind : TokenKind} {d : Char} (hc : Ascii c) (hkind : kind ∉ [.ident, .i64, .f64, .str, .eof])
    (hnext : next = some (byte d)) (hd : Ascii d) : Punctuated c next (.ok (kind, 2))

theorem punctuated (c : Char) (next : Option UInt8) (start : ℕ) : Punctuated c next (punctuation c next start) := by
  unfold punctuation
  split
  all_goals try exact .one (by decide) (by decide)
  all_goals try exact .error _
  all_goals split_ifs
  all_goals first
    | exact .one (by decide) (by decide)
    | exact .error _
    | exact .two (by decide) (by decide) ‹_› (by decide)

/-- Some ASCII characters, as one token. -/
theorem lexes_plain (taken : List Char) {len : ℕ} (hne : taken ≠ []) (hlen : (encode taken).length = len)
    (hkind : kind ∉ [.ident, .i64, .f64, .str, .eof]) :
    Lexes done (taken ++ rest) (do
      let text ← sliceText (encode (done ++ (taken ++ rest))) (encode done).length ((encode done).length + len)
      return (⟨kind, text, (encode done).length⟩, (encode done).length + len)) := by
  simp only [mem_cons, not_mem_nil, or_false, not_or] at hkind
  obtain ⟨hident, hi64, hf64, hstr, heof⟩ := hkind
  rw [← hlen, sliceText_encode]
  exact lexes_text kind hne heof hstr (lexical_of_kind hident hi64 hf64 hstr _) rest

theorem lexes_punctuation (hcs : encode cs = b :: bytes) : Lexes done cs (do
      let (kind, len) ← punctuation (Char.ofNat b.toNat) bytes.head? (encode done).length
      let text ← sliceText (encode (done ++ cs)) (encode done).length ((encode done).length + len)
      return (⟨kind, text, (encode done).length⟩, (encode done).length + len)) := by
  have hfirst (hascii : Ascii (Char.ofNat b.toNat)) : ∃ rest, cs = Char.ofNat b.toNat :: rest ∧ encode rest = bytes := by
    refine exists_of_byte hascii ?_
    rw [hcs, byte, toNat_ofNat_byte, UInt8.ofNat_toNat]
  have hpunctuated := punctuated (Char.ofNat b.toNat) bytes.head? (encode done).length
  generalize punctuation (Char.ofNat b.toNat) bytes.head? (encode done).length = result at hpunctuated ⊢
  cases hpunctuated with
  | error e => exact .error e
  | one hc hkind =>
    obtain ⟨rest, rfl, -⟩ := hfirst hc
    refine lexes_plain [Char.ofNat b.toNat] (cons_ne_nil _ _) ?_ hkind
    rw [encode_cons_of_ascii hc, encode_nil, length_singleton]
  | @two kind d hc hkind hnext hd =>
    obtain ⟨rest, rfl, hrest⟩ := hfirst hc
    obtain ⟨bytes', rfl⟩ := head?_eq_some_iff.mp hnext
    obtain ⟨rest, rfl, -⟩ := exists_of_byte hd hrest
    refine lexes_plain [Char.ofNat b.toNat, d] (cons_ne_nil _ _) ?_ hkind
    rw [encode_cons_of_ascii hc, encode_cons_of_ascii hd, encode_nil]
    rfl

/-! ### The next token -/

/-- The end of the text, after blanks. -/
theorem nextToken_eof (hlength : blankLength false (encode gap) = (encode gap).length) :
    nextToken (encode (done ++ gap)) (encode done).length =
      .ok (⟨.eof, "", (encode (done ++ gap)).length⟩, (encode (done ++ gap)).length) := by
  have hstop : (encode done).length + (encode gap).length = (encode (done ++ gap)).length := by
    rw [length_encode_append]
  unfold nextToken
  simp only [drop_encode, hlength, hstop, le_refl, if_true]
  rfl

/-- What comes after blanks is told by its first byte. -/
theorem nextToken_eq (done : List Char) {rest : List Char} {b : UInt8} {bytes : List UInt8}
    (hrest : encode rest = b :: bytes)
    (hlength : blankLength false (encode (gap ++ rest)) = (encode gap).length) :
    nextToken (encode (done ++ (gap ++ rest))) (encode done).length =
      if isIdentStart b then lexIdent (encode (done ++ gap ++ rest)) (encode (done ++ gap)).length
      else if isAsciiDigit b then lexNumber (encode (done ++ gap ++ rest)) (encode (done ++ gap)).length
      else if b = byte '"' then lexString (encode (done ++ gap ++ rest)) (encode (done ++ gap)).length
      else do
        let (kind, len) ← punctuation (Char.ofNat b.toNat) bytes.head? (encode (done ++ gap)).length
        let text ← sliceText (encode (done ++ gap ++ rest)) (encode (done ++ gap)).length
          ((encode (done ++ gap)).length + len)
        return (⟨kind, text, (encode (done ++ gap)).length⟩, (encode (done ++ gap)).length + len) := by
  have hstop : (encode done).length + (encode gap).length = (encode (done ++ gap)).length := by
    rw [length_encode_append]
  have htext : encode (done ++ (gap ++ rest)) = encode (done ++ gap) ++ b :: bytes := by
    rw [← append_assoc, encode_append, hrest]
  have hlt : (encode (done ++ gap)).length < (encode (done ++ (gap ++ rest))).length := by simp [htext]
  have hindex : index LexFailure.panic (encode (done ++ (gap ++ rest))) (encode (done ++ gap)).length = .ok b := by
    simp [htext, index]
  have hnext : (encode (done ++ (gap ++ rest)))[(encode (done ++ gap)).length + 1]? = bytes.head? := by
    rw [htext, getElem?_append_right (Nat.le_add_right _ 1), Nat.add_sub_cancel_left, getElem?_cons_succ,
      head?_eq_getElem?]
  unfold nextToken
  simp only [drop_encode, hlength, hstop, if_neg (Nat.not_le.mpr hlt), hindex, hnext]
  rw [← append_assoc]
  rfl

/-- An error or a token, after blanks. -/
theorem lexes_nextToken (done : List Char) (hrest : rest ≠ [])
    (hlength : blankLength false (encode (gap ++ rest)) = (encode gap).length) :
    Lexes (done ++ gap) rest (nextToken (encode (done ++ (gap ++ rest))) (encode done).length) := by
  obtain ⟨b, bytes, hbytes⟩ : ∃ b bytes, encode rest = b :: bytes := by
    cases h : encode rest with
    | nil => exact absurd (encode_injective (h.trans encode_nil.symm)) hrest
    | cons b bytes => exact ⟨b, bytes, rfl⟩
  rw [nextToken_eq done hbytes hlength]
  split_ifs with hstart hdigit hquote
  · exact lexes_lexIdent hbytes hstart
  · exact lexes_lexNumber hbytes hdigit
  · rw [hquote] at hbytes
    exact lexes_lexString hbytes
  · exact lexes_punctuation hbytes

end Tokenizer

/-! ### All tokens -/

/-- Blanks and tokens by turns, up to the end of the text; some of it has been read before. -/
inductive Covers : List Char → List Char → List Token → Prop
  | eof {done gap : List Char} (hgap : Blank [] gap) :
    Covers done gap [⟨.eof, "", (encode (done ++ gap)).length⟩]
  | token {done gap rest : List Char} {t : Token} {ts : List Token} (hgap : Blank (t.word ++ rest) gap)
    (hoffset : t.offset = (encode (done ++ gap)).length) (hkind : t.kind ≠ .eof) (hword : t.word ≠ [])
    (hlexical : Lexical t.kind t.text) (h : Covers (done ++ gap ++ t.word) rest ts) :
    Covers done (gap ++ (t.word ++ rest)) (t :: ts)

namespace Tokenizer

/-- **The tokenizer returns an error, or tokens that cover the text.** -/
theorem covers_tokenizeFrom {done cs : List Char} {fuel : ℕ} (hfuel : cs.length < fuel) :
    (∃ e, tokenizeFrom (encode (done ++ cs)) fuel (encode done).length = .error (.lexErr e)) ∨
      ∃ ts, tokenizeFrom (encode (done ++ cs)) fuel (encode done).length = .ok ts ∧ Covers done cs ts := by
  induction fuel generalizing done cs with
  | zero => exact absurd hfuel (Nat.not_lt_zero _)
  | succ fuel ih =>
    obtain ⟨gap, rest, rfl, hgap, hlength⟩ := exists_blank cs
    by_cases hrest : rest = []
    · subst hrest
      rw [append_nil] at hlength ⊢
      refine .inr ⟨_, ?_, .eof hgap⟩
      rw [tokenizeFrom, nextToken_eof hlength]
      rfl
    · have hlexes := lexes_nextToken done hrest hlength
      rw [tokenizeFrom]
      generalize nextToken (encode (done ++ (gap ++ rest))) (encode done).length = result at hlexes ⊢
      cases hlexes with
      | error e => exact .inl ⟨e, rfl⟩
      | @ok t after hcs hoffset hkind hword hlexical =>
        subst hcs
        have hstop : t.stop = (encode (done ++ gap ++ t.word)).length := by
          rw [Token.stop, hoffset, length_encode_append (done ++ gap)]
        have htext : done ++ (gap ++ (t.word ++ after)) = done ++ gap ++ t.word ++ after := by simp
        have hpos := length_pos_iff.mpr hword
        have hshort : after.length < fuel := by
          simp only [length_append] at hfuel
          omega
        rcases @ih (done ++ gap ++ t.word) after hshort with ⟨e, he⟩ | ⟨ts, hts, hcovers⟩
        · refine .inl ⟨e, ?_⟩
          rw [htext]
          simp only [bind, Except.bind, if_neg hkind, hstop, he]
        · refine .inr ⟨t :: ts, ?_, .token hgap hoffset hkind hword hlexical hcovers⟩
          rw [htext]
          simp only [bind, Except.bind, if_neg hkind, hstop, hts]
          rfl

end Tokenizer

/-! ### Tokens, spans and blanks -/

/-- The position of a character is in the span of a token. -/
def Token.Spans (t : Token) (pos : ℕ) : Prop := t.offset ≤ pos ∧ pos < t.stop

/-- A character stands in a comment: behind two dashes on its line, and no token since. -/
def InComment (ts : List Token) (before : List Char) (c : Char) (after : List Char) : Prop :=
  ∃ front comment, before = front ++ comment ∧ ['-', '-'] <+: comment ++ c :: after ∧ '\n' ∉ comment ++ [c] ∧
    ∀ t ∈ ts, t.stop ≤ (encode front).length ∨ (encode before).length < t.offset

/-- Every token is a part of the text, the tokens come in the order of the text, and between them there are
only white space and comments. -/
structure Tokenized (text : List Char) (ts : List Token) : Prop where
  spans : ∀ t ∈ ts, ∃ before after, text = before ++ (t.word ++ after) ∧ t.offset = (encode before).length
  increasing : ts.Pairwise fun t t' => t.offset < t'.offset ∧ t.stop ≤ t'.offset
  rest : ∀ before c after, text = before ++ c :: after → (∀ t ∈ ts, ¬t.Spans (encode before).length) →
    c ∈ asciiWhitespace ∨ InComment ts before c after

variable {done cs : List Char} {ts : List Token}

theorem Covers.le_offset (h : Covers done cs ts) : ∀ t ∈ ts, (encode done).length ≤ t.offset := by
  induction h with
  | eof hgap =>
    intro t ht
    rw [mem_singleton.mp ht, length_encode_append]
    exact Nat.le_add_right _ _
  | token hgap hoffset hkind hword hlexical h ih =>
    rw [encode_append, encode_append, length_append, length_append] at ih
    rw [length_encode_append] at hoffset
    refine forall_mem_cons.mpr ⟨by omega, fun t ht => ?_⟩
    have hle := ih t ht
    omega

theorem Covers.spans (h : Covers done cs ts) :
    ∀ t ∈ ts, ∃ before after, done ++ cs = before ++ (t.word ++ after) ∧ t.offset = (encode before).length := by
  induction h with
  | @eof done gap hgap =>
    intro t ht
    rw [mem_singleton.mp ht]
    exact ⟨done ++ gap, [], by simp [word_of_kind], rfl⟩
  | @token done gap rest t ts hgap hoffset hkind hword hlexical h ih =>
    refine forall_mem_cons.mpr ⟨⟨done ++ gap, rest, by simp, hoffset⟩, fun t' ht' => ?_⟩
    obtain ⟨before, after, htext, hoffset'⟩ := ih t' ht'
    exact ⟨before, after, by rw [← htext]; simp, hoffset'⟩

theorem length_encode_pos (h : cs ≠ []) : 0 < (encode cs).length :=
  lt_of_lt_of_le (length_pos_iff.mpr h) (length_le_length_encode cs)

theorem Covers.increasing (h : Covers done cs ts) :
    ts.Pairwise fun t t' => t.offset < t'.offset ∧ t.stop ≤ t'.offset := by
  induction h with
  | eof hgap => exact pairwise_singleton _ _
  | @token done gap rest t ts hgap hoffset hkind hword hlexical h ih =>
    have hpos := length_encode_pos hword
    refine pairwise_cons.mpr ⟨fun t' ht' => ?_, ih⟩
    have hle := h.le_offset t' ht'
    rw [length_encode_append (done ++ gap), ← hoffset] at hle
    exact ⟨by omega, hle⟩

variable {before after : List Char} {c : Char}

/-- A character of a text of two parts is in one of them. -/
theorem mem_part {bs : List Char} (as : List Char) (h : as ++ bs = before ++ c :: after) :
    (∃ tail, as = before ++ c :: tail ∧ after = tail ++ bs) ∨ ∃ front, before = as ++ front ∧ bs = front ++ c :: after := by
  rcases append_eq_append_iff.mp h with ⟨front, hbefore, hbs⟩ | ⟨tail, has, hrest⟩
  · exact .inr ⟨front, hbefore, hbs⟩
  · cases tail with
    | nil => exact .inr ⟨[], by simpa using has.symm, hrest.symm⟩
    | cons d tail =>
      obtain ⟨rfl, hafter⟩ := List.cons.inj hrest
      exact .inl ⟨tail, has, hafter⟩

/-- A character of a blank is white space or stands in a comment. -/
theorem Blank.whitespace_or {gap rest : List Char} (h : Blank after gap) (hgap : gap = before ++ c :: rest) :
    c ∈ asciiWhitespace ∨ ∃ front comment, before = front ++ comment ∧
      ['-', '-'] <+: comment ++ c :: rest ∧ '\n' ∉ comment ++ [c] := by
  induction h generalizing before with
  | nil => exact absurd hgap.symm (by simp)
  | @space d gap hd h ih =>
    cases before with
    | nil =>
      cases hgap
      exact .inl hd
    | cons e before =>
      obtain ⟨rfl, hrest⟩ := List.cons.inj hgap
      refine (ih hrest).imp_right ?_
      rintro ⟨front, comment, rfl, hdashes, hline⟩
      exact ⟨d :: front, comment, rfl, hdashes, hline⟩
  | @comment body gap hbody hend h ih =>
    rcases mem_part ('-' :: '-' :: body) hgap with ⟨tail, hcomment, -⟩ | ⟨before, rfl, hbefore⟩
    · refine .inr ⟨[], before, rfl, ⟨body ++ gap, hgap⟩, fun hmem => ?_⟩
      have hline : '\n' ∈ '-' :: '-' :: body := by
        rw [hcomment]
        rcases mem_append.mp hmem with hmem | hmem
        · exact mem_append_left _ hmem
        · rw [mem_singleton.mp hmem]
          exact mem_append_right _ mem_cons_self
      rw [mem_cons, mem_cons] at hline
      rcases hline with hline | hline | hline
      · cases hline
      · cases hline
      · exact hbody hline
    · refine (ih hbefore).imp_right ?_
      rintro ⟨front, comment, rfl, hdashes, hline⟩
      exact ⟨'-' :: '-' :: body ++ front, comment, by simp, hdashes, hline⟩

theorem Covers.rest (h : Covers done cs ts) (hcs : cs = before ++ c :: after)
    (houtside : ∀ t ∈ ts, ¬t.Spans (encode (done ++ before)).length) :
    c ∈ asciiWhitespace ∨ ∃ front comment, before = front ++ comment ∧ ['-', '-'] <+: comment ++ c :: after ∧
      '\n' ∉ comment ++ [c] ∧
        ∀ t ∈ ts, t.stop ≤ (encode (done ++ front)).length ∨ (encode (done ++ before)).length < t.offset := by
  have hpos := length_encode_pos (cons_ne_nil c after)
  induction h generalizing before with
  | @eof done gap hgap =>
    refine (hgap.whitespace_or hcs).imp_right ?_
    rintro ⟨front, comment, rfl, hdashes, hline⟩
    refine ⟨front, comment, rfl, hdashes, hline, forall_mem_singleton.mpr (.inr ?_)⟩
    change _ < (encode (done ++ gap)).length
    rw [hcs]
    simp only [length_encode_append]
    omega
  | @token done gap rest t ts hgap hoffset hkind hword hlexical h ih =>
    rcases mem_part _ hcs with ⟨tail, hgap', rfl⟩ | ⟨before, rfl, hword'⟩
    · -- in the blank in front of the token
      have hlt : (encode (done ++ before)).length < (encode (done ++ gap)).length := by
        have htail := length_encode_pos (cons_ne_nil c tail)
        rw [hgap']
        simp only [length_encode_append]
        omega
      refine (hgap.whitespace_or hgap').imp_right ?_
      rintro ⟨front, comment, rfl, hdashes, hline⟩
      refine ⟨front, comment, rfl, hdashes.trans ?_, hline, forall_mem_cons.mpr ⟨.inr ?_, fun t' ht' => ?_⟩⟩
      · simp
      · rwa [hoffset]
      · have hle := h.le_offset t' ht'
        rw [length_encode_append] at hle
        exact .inr (by omega)
    rcases mem_part _ hword' with ⟨tail, hword', -⟩ | ⟨before, rfl, hrest⟩
    · -- in the token
      refine absurd ?_ (houtside t mem_cons_self)
      have htail := length_encode_pos (cons_ne_nil c tail)
      rw [Token.Spans, Token.stop, hoffset, hword']
      simp only [length_encode_append]
      omega
    · have hstop : t.stop = (encode (done ++ gap ++ t.word)).length := by
        rw [Token.stop, hoffset, length_encode_append (done ++ gap)]
      have hassoc (cs : List Char) : done ++ (gap ++ (t.word ++ cs)) = done ++ gap ++ t.word ++ cs := by simp
      rw [hassoc] at houtside ⊢
      refine (ih hrest fun t' ht' => houtside t' (mem_cons_of_mem t ht')).imp_right ?_
      rintro ⟨front, comment, rfl, hdashes, hline, hspans⟩
      refine ⟨gap ++ (t.word ++ front), comment, by simp, hdashes, hline, ?_⟩
      rw [hassoc]
      refine forall_mem_cons.mpr ⟨.inl ?_, hspans⟩
      rw [hstop, length_encode_append _ front]
      exact Nat.le_add_right _ _

theorem Covers.toTokenized {text : List Char} (h : Covers [] text ts) : Tokenized text ts := by
  refine ⟨h.spans, h.increasing, fun before c after htext houtside => (h.rest htext houtside).imp_right ?_⟩
  rintro ⟨front, comment, hbefore, hdashes, hline, hspans⟩
  exact ⟨front, comment, hbefore, hdashes, hline, hspans⟩

theorem covers_tokenize (src : String) : (∃ e, Tokenizer.tokenize src = .error (.lexErr e)) ∨
    ∃ ts, Tokenizer.tokenize src = .ok ts ∧ Covers [] src.toList ts :=
  @Tokenizer.covers_tokenizeFrom [] src.toList _ (Nat.lt_succ_of_le (length_le_length_encode src.toList))

theorem covers_of_tokenize {src : String} (h : Tokenizer.tokenize src = .ok ts) : Covers [] src.toList ts := by
  rcases covers_tokenize src with ⟨e, he⟩ | ⟨ts', hts', hcovers⟩
  · rw [h] at he
    cases he
  · rw [h] at hts'
    cases hts'
    exact hcovers

/-- **The tokenizer stops with an error or with tokens between white space and comments.** -/
theorem tokenized_tokenize (src : String) : (∃ e, Tokenizer.tokenize src = .error (.lexErr e)) ∨
    ∃ ts, Tokenizer.tokenize src = .ok ts ∧ Tokenized src.toList ts := by
  refine (covers_tokenize src).imp_right ?_
  rintro ⟨ts, hts, hcovers⟩
  exact ⟨ts, hts, hcovers.toTokenized⟩

end CenDB.Cenql
