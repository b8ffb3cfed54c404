import CenDB.Spatial.GeoJson
import CenDB.Spatial.WktParser

/-! # The parser of GeoJSON

The parser keeps a byte offset, as the one of well-known text does.  It is the reader of characters in front
of the rest of the text (`fromGeojson_eq`); the one cut that may go wrong is that of the four bytes behind a
`\u`, where the reader says that it panics. -/

namespace CenDB.Spatial

open Text ByteCursor List

/-- Why a text is rejected, with the byte offset. -/
inductive JsonErr where
  | unexpected (next : Option Char) (offset : ℕ)
  | expectedColon (offset : ℕ)
  | expectedEntryEnd (offset : ℕ)
  | expectedItemEnd (offset : ℕ)
  | expectedQuote (offset : ℕ)
  | trailingBackslash
  | badUnicodeEscape
  | badHex (hex : List Char)
  | badEscape (c : Char)
  | unterminated
  | badNumber (text : List Char)
  | badLiteral (offset : ℕ)
  | trailing (offset : ℕ)
  | invalid (message : String)
deriving DecidableEq, Repr

/-- The error of the parser where the reader has this one. -/
def JsonError.stop (input : List Char) : JsonError → Stop JsonErr
  | .unexpected rest => .err (.unexpected rest.head? (offset input rest))
  | .expectedColon rest => .err (.expectedColon (offset input rest))
  | .expectedEntryEnd rest => .err (.expectedEntryEnd (offset input rest))
  | .expectedItemEnd rest => .err (.expectedItemEnd (offset input rest))
  | .expectedQuote rest => .err (.expectedQuote (offset input rest))
  | .trailingBackslash => .err .trailingBackslash
  | .badUnicodeEscape => .err .badUnicodeEscape
  | .badHex rest => .err (.badHex ((takeBytes 4 rest).getD []))
  | .badEscape c => .err (.badEscape c)
  | .unterminated => .err .unterminated
  | .badNumber text => .err (.badNumber text)
  | .badLiteral rest => .err (.badLiteral (offset input rest))
  | .trailing rest => .err (.trailing (offset input rest))
  | .invalid message => .err (.invalid message)
  | .panicked => .panic
  | .outOfFuel => .outOfFuel

namespace JsonParser

variable {F : Type} (num : Decimals F)

abbrev JsonCursor := ByteCursor JsonErr

def skipWs : JsonCursor Unit := skipWhile isWhitespace Char.utf8Size

/-- The rest of a string after its quote. -/
def stringLoop : ℕ → List Char → JsonCursor (List Char)
  | 0, _ => throw .outOfFuel
  | fuel + 1, s => do
    match ← peek with
    | none => throw (.err .unterminated)
    | some c => do
      advance c.utf8Size
      if c = '"' then return s
      else if c = '\\' then do
        match ← peek with
        | none => throw (.err .trailingBackslash)
        | some esc => do
          advance esc.utf8Size
          match simpleEscape esc with
          | some ch => stringLoop fuel (s ++ [ch])
          | none =>
            if esc ≠ 'u' then throw (.err (.badEscape esc))
            else do
              let start ← pos
              if (← len) < start + 4 then throw (.err .badUnicodeEscape)
              else do
                let hex ← slice start (start + 4)
                advance 4
                match fromStrRadix16 hex with
                | some code => stringLoop fuel (if code.isValidChar then s ++ [Char.ofNat code] else s)
                | none => throw (.err (.badHex hex))
      else stringLoop fuel (s ++ [c])

def parseString : JsonCursor (List Char) := do
  skipWs
  if (← peek) = some '"' then do
    advance 1
    fun input => stringLoop (input.length + 1) [] input
  else fail .expectedQuote

def skipDigits : JsonCursor Unit := skipWhile Char.isDigit fun _ => 1

/-- A point and digits, or nothing. -/
def skipFraction : JsonCursor Unit := do
  if (← peek) = some '.' then do
    advance 1
    skipDigits
  else return ()

/-- An exponent, or nothing. -/
def skipExponent : JsonCursor Unit := do
  let next ← peek
  if next = some 'e' ∨ next = some 'E' then do
    advance 1
    WktParser.takeSign
    skipDigits
  else return ()

/-- What may be a number. -/
def skipNumeral : JsonCursor Unit := do
  WktParser.takeSign
  skipDigits
  skipFraction
  skipExponent

def parseNumber : JsonCursor F := do
  let start ← pos
  skipNumeral
  let s ← sliceFrom start
  match num.parse s with
  | some f => return f
  | none => throw (.err (.badNumber s))

/-- A word of the language, or an error. -/
def literal (word : String) (v : JsonValue F) (otherwise : JsonCursor (JsonValue F)) : JsonCursor (JsonValue F) := do
  if word.toList.isPrefixOf (← remaining) then do
    advance word.length
    return v
  else otherwise

def parseBool : JsonCursor (JsonValue F) :=
  literal "true" (.bool true) (literal "false" (.bool false) (fail .badLiteral))

def parseNull : JsonCursor (JsonValue F) := literal "null" .null (fail .badLiteral)

/-- A key, a colon and a value. -/
def parseEntry (value : JsonCursor (JsonValue F)) : JsonCursor (List Char × JsonValue F) := do
  skipWs
  let key ← parseString
  skipWs
  if (← peek) = some ':' then do
    advance 1
    let v ← value
    return (key, v)
  else fail .expectedColon

/-- A value that begins with `c`; `value` reads what is nested in it. -/
def valueFrom (value : JsonCursor (JsonValue F)) (c : Char) : JsonCursor (JsonValue F) :=
  if c = '\x7b' then do
    advance 1
    .object <$> separated (parseEntry value) isWhitespace ',' '\x7d' .expectedEntryEnd
  else if c = '[' then do
    advance 1
    .array <$> separated value isWhitespace ',' ']' .expectedItemEnd
  else if c = '"' then .string <$> parseString
  else if c = 't' || c = 'f' then parseBool
  else if c = 'n' then parseNull
  else if c = '-' || c = '+' || c.isDigit then .number <$> parseNumber num
  else fail (.unexpected (some c))

def parseValue : ℕ → JsonCursor (JsonValue F)
  | 0 => throw .outOfFuel
  | fuel + 1 => do
    skipWs
    match ← peek with
    | some c => valueFrom num (parseValue fuel) c
    | none => fail (.unexpected none)

/-- A value takes a character or more, so that the number of characters bounds the nesting. -/
def fromGeojson (input : List Char) : Except (Stop JsonErr) (Geometry F) :=
  match whole (do
    skipWs
    let v ← parseValue num (input.length + 1)
    skipWs
    return v) .trailing input with
  | .ok v =>
    match jsonToGeometry v with
    | .ok g => .ok g
    | .error e => .error (e.stop input)
  | .error stop => .error stop

/-! ### Strings -/

variable {num} {input rest : List Char}

theorem isBoundary_eq (n : ℕ) (text : List Char) : isBoundary n text = (takeBytes n text).isSome := by
  induction text generalizing n with
  | nil => cases n <;> rfl
  | cons c text ih =>
    cases n with
    | zero => rfl
    | succ n =>
      rw [takeBytes_cons (Nat.succ_ne_zero n), isBoundary]
      · split_ifs
        · simp [ih]
        · rfl
      · omega

theorem stringBody_char {c : Char} (hquote : c ≠ '"') (hescape : c ≠ '\\') (s rest : List Char) :
    stringBody s (c :: rest) = stringBody (s ++ [c]) rest := by
  conv_lhs => unfold stringBody
  rw [if_neg hquote, if_neg hescape]

theorem stringBody_escape {esc c : Char} (h : simpleEscape esc = some c) (s rest : List Char) :
    stringBody s ('\\' :: esc :: rest) = stringBody (s ++ [c]) rest := by
  conv_lhs => unfold stringBody
  simp only [h]
  rfl

theorem stringBody_badEscape {esc : Char} (h : simpleEscape esc = none) (hu : esc ≠ 'u') (s rest : List Char) :
    stringBody s ('\\' :: esc :: rest) = .error (.badEscape esc) := by
  conv_lhs => unfold stringBody
  simp only [h, if_pos hu]
  rfl

theorem length_of_byteLen {text : List Char} (h : ∀ c ∈ text, Utf8.Ascii c) : byteLen text = text.length := by
  induction text with
  | nil => rfl
  | cons c text ih =>
    rw [forall_mem_cons] at h
    rw [byteLen_cons, ih h.2, Utf8.utf8Size_eq_one.mpr h.1, length_cons, Nat.add_comm]

/-- Four hexadecimal digits take four bytes. -/
theorem takeBytes_of_hex {hex rest : List Char} {code : ℕ} (h : fromStrRadix16 hex = some code)
    (hlen : hex.length = 4) : takeBytes 4 (hex ++ rest) = some hex := by
  rw [← hlen, ← length_of_byteLen (ascii_of_fromStrRadix16 h), takeBytes_append]

/-- A `\u` escape, by the four bytes behind it. -/
theorem stringBody_unicode (s rest : List Char) : stringBody s ('\\' :: 'u' :: rest) =
    if byteLen rest < 4 then .error .badUnicodeEscape
    else
      match takeBytes 4 rest with
      | none => .error .panicked
      | some hex =>
        match fromStrRadix16 hex with
        | some code => stringBody (if code.isValidChar then s ++ [Char.ofNat code] else s) (rest.drop 4)
        | none => .error (.badHex rest) := by
  have hnone : simpleEscape 'u' = none := rfl
  have hlen : utf8Len rest = byteLen rest := rfl
  conv_lhs => unfold stringBody
  simp only [hnone, ne_eq, not_true_eq_false, if_false, hlen, isBoundary_eq]
  rw [if_neg (by decide), if_pos trivial]
  refine if_congr Iff.rfl rfl ?_
  cases htake : takeBytes 4 rest with
  | none => rfl
  | some hex =>
    obtain ⟨after, rfl, hbytes⟩ := eq_append_of_takeBytes htake
    simp only [Option.isSome_some, Bool.not_true, Bool.false_eq_true, if_false]
    cases hcode : fromStrRadix16 hex with
    | some code =>
      rw [length_of_byteLen (ascii_of_fromStrRadix16 hcode)] at hbytes
      obtain ⟨h₁, h₂, h₃, h₄, rfl⟩ := length_eq_four.mp hbytes
      simp only [cons_append, List.nil_append, hcode, drop_succ_cons, drop_zero]
    | none =>
      split
      · rename_i h₁ h₂ h₃ h₄ rest' hrest
        cases hfour : fromStrRadix16 [h₁, h₂, h₃, h₄] with
        | none => rfl
        | some code =>
          have htaken : takeBytes 4 (h₁ :: h₂ :: h₃ :: h₄ :: rest') = some [h₁, h₂, h₃, h₄] :=
            takeBytes_of_hex hfour rfl
          rw [hrest, htaken] at htake
          cases htake
          rw [hfour] at hcode
          cases hcode
      · rfl

/-- Behind a `\u`. -/
theorem at_unicode {fuel : ℕ} (s : List Char) (ih : ∀ s' {bs : List Char}, bs.length < fuel → bs <:+ input →
      At JsonError.stop (stringLoop fuel s') (stringBody s') input bs)
    (hfuel : rest.length < fuel) (h : rest <:+ input) :
    At JsonError.stop (do
      let start ← pos
      if (← len) < start + 4 then throw (.err .badUnicodeEscape)
      else do
        let hex ← slice start (start + 4)
        advance 4
        match fromStrRadix16 hex with
        | some code => stringLoop fuel (if code.isValidChar then s ++ [Char.ofNat code] else s)
        | none => throw (.err (.badHex hex)))
      (fun rest => stringBody s ('\\' :: 'u' :: rest)) input rest := by
  have hbytes : byteLen input < offset input rest + 4 ↔ byteLen rest < 4 := by
    obtain ⟨front, rfl⟩ := h
    rw [offset_append, byteLen_append]
    omega
  have hread := stringBody_unicode s rest
  by_cases hshort : byteLen rest < 4
  · rw [if_pos hshort] at hread
    refine At.of_error ?_ hread rfl
    simp only [bind_apply, pos_apply, len_apply, Except.bind, if_pos (hbytes.mpr hshort)]
    rfl
  rw [if_neg hshort] at hread
  have hslice := slice_eq (ε := JsonErr) h 4
  cases htake : takeBytes 4 rest with
  | none =>
    simp only [htake] at hread
    refine At.of_stop ?_ hread nofun
    simp only [bind_apply, pos_apply, len_apply, Except.bind, if_neg (mt hbytes.mp hshort), hslice, htake]
    rfl
  | some hex =>
    simp only [htake] at hread
    obtain ⟨after, rfl, hlen⟩ := eq_append_of_takeBytes htake
    have hadvance : (advance 4 : JsonCursor Unit) input (offset input (hex ++ after)) =
        .ok ((), offset input after) := by
      rw [← offset_add h, hlen]
      rfl
    have hafter : after <:+ hex ++ after := suffix_append hex after
    cases hcode : fromStrRadix16 hex with
    | none =>
      simp only [hcode] at hread
      refine At.of_error ?_ hread (by rw [JsonError.stop, htake])
      simp only [bind_apply, pos_apply, len_apply, Except.bind, if_neg (mt hbytes.mp hshort), hslice, htake, cut,
        pure_apply, hadvance, hcode]
      rfl
    | some code =>
      have hdrop : (hex ++ after).drop 4 = after := by
        rw [length_of_byteLen (ascii_of_fromStrRadix16 hcode)] at hlen
        rw [← hlen, drop_left]
      simp only [hcode, hdrop] at hread
      have hrest := ih (if code.isValidChar then s ++ [Char.ofNat code] else s)
        (hafter.length_le.trans_lt hfuel) (hafter.trans h)
      constructor
      · simp only [bind_apply, pos_apply, len_apply, Except.bind, if_neg (mt hbytes.mp hshort), hslice, htake, cut,
          pure_apply, hadvance, hcode]
        rw [hread]
        exact hrest.eq
      · intro a rest' ha
        exact (hrest.suffix a rest' (hread ▸ ha)).trans hafter
      · exact fun e he => hrest.fueled e (hread ▸ he)

theorem at_stringLoop {fuel : ℕ} (s : List Char) (hfuel : rest.length < fuel) (h : rest <:+ input) :
    At JsonError.stop (stringLoop fuel s) (stringBody s) input rest := by
  induction fuel generalizing rest s with
  | zero => cases hfuel
  | succ fuel ih =>
    rw [stringLoop]
    refine At.peek h ?_
    cases rest with
    | nil => exact At.of_error rfl rfl (rfl : JsonError.stop input .unterminated = _)
    | cons c rest =>
      have hnext : rest <:+ input := (suffix_cons c rest).trans h
      have hlen : rest.length < fuel := Nat.lt_of_succ_lt_succ hfuel
      by_cases hquote : c = '"'
      · subst hquote
        have hread : stringBody s ('"' :: rest) = (pure s : JsonReader (List Char)) rest := by
          unfold stringBody
          rfl
        exact At.advance h rfl hread (At.pure s)
      by_cases hescape : c = '\\'
      · subst hescape
        refine At.advance (s := fun rest => stringBody s ('\\' :: rest)) h rfl rfl (At.peek hnext ?_)
        cases rest with
        | nil => exact At.of_error rfl rfl (rfl : JsonError.stop input .trailingBackslash = _)
        | cons esc rest =>
          have hbehind : rest <:+ input := (suffix_cons esc rest).trans hnext
          have hlen' : rest.length < fuel := Nat.lt_of_succ_lt hlen
          cases hesc : simpleEscape esc with
          | some ch =>
            refine At.advance hnext rfl (stringBody_escape hesc s rest) ?_
            rw [hesc]
            exact ih (s ++ [ch]) hlen' hbehind
          | none =>
            by_cases hu : esc = 'u'
            · subst hu
              exact At.advance (s := fun rest => stringBody s ('\\' :: 'u' :: rest)) hnext rfl rfl
                (at_unicode s (fun s' => ih s') hlen' hbehind)
            · refine At.advance (s := throw (.badEscape esc)) hnext rfl (stringBody_badEscape hesc hu s rest) ?_
              simp only [hesc, if_pos hu]
              exact at_throw rfl
      · refine At.advance h rfl (stringBody_char hquote hescape s rest) ?_
        simp only [if_neg hquote, if_neg hescape]
        exact ih (s ++ [c]) hlen hnext

theorem at_skipWs (h : rest <:+ input) : At JsonError.stop skipWs (Reader.skipWhile isWhitespace) input rest :=
  at_skipWhile (fun _ _ => rfl) h

theorem at_parseString (h : rest <:+ input) : At JsonError.stop parseString Spatial.parseString input rest := by
  refine (at_skipWs h).bind fun _ start hstart _ => at_peek (hstart.trans h) ?_
  have hinput := hstart.trans h
  split_ifs with hquote
  · obtain ⟨body, rfl⟩ := head?_eq_some_iff.mp hquote
    refine (at_bump hinput rfl).bind fun _ after hafter _ => ?_
    have hread := at_stringLoop [] (Nat.lt_succ_of_le (hafter.trans hinput).length_le) (hafter.trans hinput)
    exact ⟨hread.eq, hread.suffix, hread.fueled⟩
  · exact at_fail rfl

/-! ### Numbers -/

/-- A point and digits, and the rest. -/
def fraction (text : List Char) : List Char × List Char :=
  match text with
  | '.' :: rest => ('.' :: rest.takeWhile Char.isDigit, rest.dropWhile Char.isDigit)
  | rest => ([], rest)

/-- The letter of an exponent with its sign and digits, and the rest. -/
def exponent (text : List Char) : List Char × List Char :=
  match text with
  | [] => ([], [])
  | e :: rest =>
    if e = 'e' || e = 'E' then
      (e :: ((sign rest).1 ++ (sign rest).2.takeWhile Char.isDigit), (sign rest).2.dropWhile Char.isDigit)
    else ([], e :: rest)

/-- What may be a number, and the rest. -/
def numeral : List Char → List Char × List Char :=
  behind sign (behind (fun text => (text.takeWhile Char.isDigit, text.dropWhile Char.isDigit))
    (behind fraction exponent))

theorem passes_skipDigits :
    Passes skipDigits fun text => (text.takeWhile Char.isDigit, text.dropWhile Char.isDigit) :=
  passes_skipWhile fun _ => WktParser.utf8Size_of_isDigit

theorem fraction_eq_self (h : rest.head? ≠ some '.') : fraction rest = ([], rest) := by
  unfold fraction
  split
  · exact absurd rfl h
  · rfl

theorem passes_skipFraction : Passes skipFraction fraction := by
  intro input rest h
  rw [skipFraction, bind_apply, peek_eq h]
  simp only [Except.bind]
  split_ifs with hpoint
  · obtain ⟨digits, rfl⟩ := head?_eq_some_iff.mp hpoint
    obtain ⟨hread, hsplit⟩ := passes_skipDigits input digits ((suffix_cons _ _).trans h)
    have hsize : 1 = '.'.utf8Size := rfl
    rw [bind_apply, advance_eq h hsize]
    exact ⟨hread, congrArg ('.' :: ·) hsplit⟩
  · rw [fraction_eq_self hpoint]
    exact ⟨rfl, rfl⟩

theorem passes_skipExponent : Passes skipExponent exponent := by
  intro input rest h
  rw [skipExponent, bind_apply, peek_eq h]
  simp only [Except.bind]
  cases rest with
  | nil => exact ⟨rfl, rfl⟩
  | cons e rest =>
    have hnext := (suffix_cons e rest).trans h
    simp only [head?_cons, Option.some.injEq]
    split_ifs with he
    · obtain ⟨hread, hsplit⟩ := (WktParser.passes_takeSign.bind passes_skipDigits) input rest hnext
      have hsize : 1 = e.utf8Size := by rcases he with rfl | rfl <;> rfl
      have hself : exponent (e :: rest) = (e :: ((sign rest).1 ++ (sign rest).2.takeWhile Char.isDigit),
          (sign rest).2.dropWhile Char.isDigit) := if_pos (by simpa using he)
      rw [bind_apply, advance_eq h hsize, hself]
      exact ⟨hread, congrArg (e :: ·) hsplit⟩
    · have hself : exponent (e :: rest) = ([], e :: rest) := if_neg (by simpa using he)
      rw [hself]
      exact ⟨rfl, rfl⟩

/-- The reader of numbers takes the front of the text that may be one. -/
theorem parseNumber_eq (rest : List Char) : Spatial.parseNumber num rest = match num.parse (numeral rest).1 with
    | some f => .ok (f, (numeral rest).2)
    | none => .error (.badNumber (numeral rest).1) := by
  have hsign : ∀ text, (Spatial.takeSign : JsonReader (List Char)) text = .ok (sign text) := fun text => by
    by_cases hminus : text.head? = some '-'
    · obtain ⟨next, rfl⟩ := head?_eq_some_iff.mp hminus
      rfl
    by_cases hplus : text.head? = some '+'
    · obtain ⟨next, rfl⟩ := head?_eq_some_iff.mp hplus
      rfl
    rw [sign_eq_self hminus hplus]
    unfold Spatial.takeSign
    split
    · exact absurd rfl hminus
    · exact absurd rfl hplus
    · rfl
  have hfraction : ∀ text, (Spatial.takeFraction : JsonReader (List Char)) text = .ok (fraction text) := by
    intro text
    simp only [Spatial.takeFraction, bind, StateT.bind, Except.bind, Reader.peek]
    split_ifs with hpoint
    · obtain ⟨digits, rfl⟩ := head?_eq_some_iff.mp hpoint
      rfl
    · rw [fraction_eq_self hpoint]
      rfl
  have hexponent : ∀ text, (Spatial.takeExponent : JsonReader (List Char)) text = .ok (exponent text) := by
    intro text
    cases text with
    | nil => rfl
    | cons e text =>
      simp only [Spatial.takeExponent, exponent, bind, StateT.bind, Except.bind, Reader.peek, head?_cons]
      split_ifs with he
      · simp only [StateT.bind, bind, Except.bind, hsign]
        rfl
      · rfl
  simp only [Spatial.parseNumber, bind, StateT.bind, Except.bind, hsign, hfraction, hexponent, Reader.takeWhile]
  have hnumeral : (numeral rest).1 = (sign rest).1 ++ ((sign rest).2.takeWhile Char.isDigit ++
      ((fraction ((sign rest).2.dropWhile Char.isDigit)).1 ++
        (exponent (fraction ((sign rest).2.dropWhile Char.isDigit)).2).1)) := rfl
  rw [← hnumeral]
  cases num.parse (numeral rest).1 <;> rfl

theorem passes_skipNumeral : Passes skipNumeral numeral :=
  WktParser.passes_takeSign.bind (passes_skipDigits.bind (passes_skipFraction.bind passes_skipExponent))

theorem at_parseNumber (h : rest <:+ input) :
    At JsonError.stop (parseNumber num) (Spatial.parseNumber num) input rest := by
  obtain ⟨hread, hsplit⟩ := passes_skipNumeral input rest h
  have hslice := sliceFrom_eq (ε := JsonErr) (hsplit ▸ h)
  rw [← hsplit] at hslice
  have hreader := @parseNumber_eq _ num rest
  cases hparse : num.parse (numeral rest).1 with
  | none =>
    simp only [hparse] at hreader
    refine At.of_error ?_ hreader rfl
    simp only [parseNumber, bind_apply, pos_apply, Except.bind, hread, hslice, hparse]
    rfl
  | some f =>
    simp only [hparse] at hreader
    refine At.of_ok ?_ hreader ⟨(numeral rest).1, hsplit.symm⟩
    simp only [parseNumber, bind_apply, pos_apply, Except.bind, hread, hslice, hparse]
    rfl

/-! ### Values -/

theorem at_literal {word : String} (hword : byteLen word.toList = word.length) (v : JsonValue F)
    {otherwise : JsonCursor (JsonValue F)} {otherwise' : JsonReader (JsonValue F)} (h : rest <:+ input)
    (hother : At JsonError.stop otherwise otherwise' input rest) :
    At JsonError.stop (literal word v otherwise) (Spatial.literal word v otherwise') input rest := by
  have hcursor : literal word v otherwise input (offset input rest) = (if word.toList.isPrefixOf rest then do
        advance word.length
        return v
      else otherwise : JsonCursor (JsonValue F)) input (offset input rest) := by
    rw [literal, bind_apply, remaining_eq h]
    rfl
  cases hword' : word.toList.isPrefixOf rest with
  | true =>
    obtain ⟨after, rfl⟩ := isPrefixOf_iff_prefix.mp hword'
    refine At.of_ok (a := v) ?_ ?_ (suffix_append _ after)
    · have hadvance : (advance word.length : JsonCursor Unit) input (offset input (word.toList ++ after)) =
          .ok ((), offset input after) := by
        rw [← offset_add h, hword]
        rfl
      rw [hcursor, if_pos hword', bind_apply, hadvance]
      rfl
    · rw [Spatial.literal, if_pos hword', ← String.length_toList, drop_left]
  | false =>
    have hno : ¬word.toList.isPrefixOf rest = true := by simp [hword']
    rw [if_neg hno] at hcursor
    have hreader : Spatial.literal word v otherwise' rest = otherwise' rest := if_neg hno
    exact ⟨by rw [hcursor, hreader, hother.eq], fun a rest' ha => hother.suffix a rest' (hreader ▸ ha),
      fun e he => hother.fueled e (hreader ▸ he)⟩

theorem at_parseBool (h : rest <:+ input) :
    At JsonError.stop (parseBool : JsonCursor (JsonValue F)) Spatial.parseBool input rest :=
  at_literal rfl _ h (at_literal rfl _ h (at_fail rfl))

theorem at_parseNull (h : rest <:+ input) :
    At JsonError.stop (parseNull : JsonCursor (JsonValue F)) Spatial.parseNull input rest :=
  at_literal rfl _ h (at_fail rfl)

theorem at_parseEntry {value : JsonCursor (JsonValue F)} {value' : JsonReader (JsonValue F)}
    (hvalue : ∀ bs, bs <:+ rest → At JsonError.stop value value' input bs) (h : rest <:+ input) :
    At JsonError.stop (parseEntry value) (Spatial.parseEntry value') input rest := by
  refine (at_skipWs h).bind fun _ start hstart _ => ?_
  refine (at_parseString (hstart.trans h)).bind fun key mid hmid _ => ?_
  have hbehind := hmid.trans hstart
  refine (at_skipWs (hbehind.trans h)).bind fun _ colon hcolon _ => ?_
  have hsuffix := hcolon.trans hbehind
  refine at_peek (hsuffix.trans h) ?_
  split_ifs with hhead
  · obtain ⟨next, rfl⟩ := head?_eq_some_iff.mp hhead
    refine (at_bump (hsuffix.trans h) rfl).bind fun _ after hafter _ => ?_
    exact (hvalue after (hafter.trans hsuffix)).bind fun v _ _ _ => At.pure (key, v)
  · exact at_fail rfl

theorem at_valueFrom {value : JsonCursor (JsonValue F)} {value' : JsonReader (JsonValue F)} {c : Char}
    (hvalue : ∀ bs, bs <:+ rest → At JsonError.stop value value' input bs) (h : c :: rest <:+ input) :
    At JsonError.stop (valueFrom num value c) (Spatial.valueFrom num value' c) input (c :: rest) := by
  have hnext : rest <:+ input := (suffix_cons c rest).trans h
  unfold valueFrom Spatial.valueFrom
  split_ifs with hobject harray
  · subst hobject
    refine (at_bump h rfl).bind fun _ after _ hread => ?_
    cases hread
    exact (at_separated rfl rfl (fun _ => rfl) (fun bs hbs => at_parseEntry
      (fun bs' hbs' => hvalue bs' (hbs'.trans hbs)) (hbs.trans hnext)) hnext).map
  · subst harray
    refine (at_bump h rfl).bind fun _ after _ hread => ?_
    cases hread
    exact (at_separated rfl rfl (fun _ => rfl) hvalue hnext).map
  · exact (at_parseString h).map
  · exact at_parseBool h
  · exact at_parseNull h
  · exact (at_parseNumber h).map
  · exact at_fail rfl

theorem at_parseValue {fuel : ℕ} (hfuel : rest.length < fuel) (h : rest <:+ input) :
    At JsonError.stop (parseValue num fuel) (Spatial.parseValue num fuel) input rest := by
  induction fuel generalizing rest with
  | zero => cases hfuel
  | succ fuel ih =>
    rw [parseValue, Spatial.parseValue]
    refine (at_skipWs h).bind fun _ start hstart _ => at_peek (hstart.trans h) ?_
    cases start with
    | nil => exact at_fail rfl
    | cons c start =>
      have hlen := hstart.length_le
      rw [length_cons] at hlen
      exact at_valueFrom (fun bs hbs => ih (by have := hbs.length_le; omega)
        (hbs.trans ((suffix_cons c start).trans (hstart.trans h)))) (hstart.trans h)

variable (num input)

theorem at_whole : At JsonError.stop (do skipWs; let v ← parseValue num (input.length + 1); skipWs; return v)
    (do Reader.skipWhile isWhitespace; let v ← Spatial.parseValue num (input.length + 1); Reader.skipWhile isWhitespace
        return v) input input :=
  (at_skipWs suffix_rfl).bind fun _ _ hstart _ =>
    (at_parseValue (Nat.lt_succ_of_le hstart.length_le) hstart).bind fun v _ hbehind _ =>
      (at_skipWs (hbehind.trans hstart)).bind fun _ _ _ _ => At.pure v

/-- **The parser does what the reader does**, on every text. -/
theorem fromGeojson_eq : fromGeojson num input = match Spatial.fromGeojson num input with
    | .ok g => .ok g
    | .error e => .error (e.stop input) := by
  rw [fromGeojson, whole_eq (at_whole num input), Spatial.fromGeojson]
  cases (do Reader.skipWhile isWhitespace; let v ← Spatial.parseValue num (input.length + 1)
            Reader.skipWhile isWhitespace; return v : JsonReader (JsonValue F)) input with
  | error e => rfl
  | ok read =>
    obtain ⟨v, _ | ⟨c, rest⟩⟩ := read
    · rfl
    · rfl

/-! ### Geometries of values -/

/-- A result that is not an error, or the error that a value is invalid. -/
def Invalid {α : Type} (result : Except JsonError α) : Prop := ∀ e, result = .error e → ∃ message, e = .invalid message

variable {num input} {α β : Type}

theorem invalid_ok (a : α) : Invalid (.ok a) := nofun

theorem invalid_error (message : String) : Invalid (.error (.invalid message) : Except JsonError α) := by
  intro e he
  cases he
  exact ⟨message, rfl⟩

theorem Invalid.bind {x : Except JsonError α} {f : α → Except JsonError β} (hx : Invalid x) (hf : ∀ a, Invalid (f a)) :
    Invalid (x >>= f) := by
  cases x with
  | error e =>
    intro e' he
    cases he
    exact hx e rfl
  | ok a => exact hf a

theorem Invalid.map {x : Except JsonError α} (f : α → β) (hx : Invalid x) : Invalid (f <$> x) := by
  rw [← bind_pure_comp]
  exact hx.bind fun a => invalid_ok (f a)

theorem Invalid.mapM {f : α → Except JsonError β} {l : List α} (hf : ∀ a ∈ l, Invalid (f a)) : Invalid (l.mapM f) := by
  induction l with
  | nil => exact invalid_ok []
  | cons a l ih =>
    rw [forall_mem_cons] at hf
    rw [mapM_cons]
    exact hf.1.bind fun b => (ih hf.2).bind fun bs => invalid_ok (b :: bs)

theorem invalid_jsonAsCoordArray (v : JsonValue F) : Invalid (jsonAsCoordArray v) := by
  unfold jsonAsCoordArray
  split
  · rename_i x y _
    cases x with
    | number f =>
      cases y with
      | number g => exact invalid_ok _
      | _ => exact invalid_error _
    | _ => exact invalid_error _
  · exact invalid_error _
  · exact invalid_error _

theorem invalid_jsonAsCoordList (v : JsonValue F) : Invalid (jsonAsCoordList v) := by
  cases v with
  | array items => exact Invalid.mapM fun item _ => invalid_jsonAsCoordArray item
  | _ => exact invalid_error _

theorem invalid_jsonAsRingList (v : JsonValue F) : Invalid (jsonAsRingList v) := by
  cases v with
  | array items => exact Invalid.mapM fun item _ => (invalid_jsonAsCoordList item).map _
  | _ => exact invalid_error _

theorem invalid_polygonOfList (message : String) (rings : List (LineString F)) :
    Invalid (polygonOfList message rings) := by
  cases rings with
  | nil => exact invalid_error message
  | cons exterior interiors => exact invalid_ok _

theorem invalid_jsonToGeometry (v : JsonValue F) : Invalid (jsonToGeometry v) := by
  unfold jsonToGeometry
  extract_lets coordinates
  have hcoordinates : ∀ message, Invalid (coordinates message) := fun message => by
    simp only [coordinates]
    split
    · exact invalid_ok _
    · exact invalid_error _
  clear_value coordinates
  split
  · split_ifs
    · exact ((hcoordinates _).bind invalid_jsonAsCoordArray).map _
    · exact ((hcoordinates _).bind invalid_jsonAsCoordList).map _
    · exact (((hcoordinates _).bind invalid_jsonAsRingList).bind (invalid_polygonOfList _)).map _
    · exact ((hcoordinates _).bind invalid_jsonAsCoordList).map _
    · exact ((hcoordinates _).bind invalid_jsonAsRingList).map _
    · split
      · exact (Invalid.mapM fun item _ => (invalid_jsonAsRingList item).bind (invalid_polygonOfList _)).map _
      · exact invalid_error _
    · split
      · rename_i items hget
        refine (Invalid.mapM fun item _ => ?_).map _
        have hitem := sizeOf_lt_of_mem item.2
        have hsmaller := JsonValue.sizeOf_get hget
        exact invalid_jsonToGeometry item.1
      · exact invalid_error _
    · exact invalid_error _
  · exact invalid_error _
termination_by sizeOf v
decreasing_by
  simp only [JsonValue.array.sizeOf_spec] at hsmaller
  omega

end JsonParser

end CenDB.Spatial
