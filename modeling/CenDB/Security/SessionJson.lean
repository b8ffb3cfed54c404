import CenDB.Security.Hex
import CenDB.Security.SessionStore

/-! # Sessions as JSON lines

A session is written as one JSON object on a line of its own, with the token escaped.  The parser
takes the line byte by byte and makes a character of each byte.  It loops over the fields of the
object; the loop is on fuel, and the length of the line is enough, since every field takes a byte
or more. -/

namespace CenDB.Security

open List

/-! ### The serializer -/

/-- `{:04x}`. -/
def hex4 (n : ℕ) : List Char :=
  [Nat.digitChar (n / 4096 % 16), Nat.digitChar (n / 256 % 16), Nat.digitChar (n / 16 % 16),
    Nat.digitChar (n % 16)]

def escapeChar (c : Char) : List Char :=
  if c.toNat = 34 then "\\\"".toList
  else if c.toNat = 92 then "\\\\".toList
  else if c.toNat = 10 then "\\n".toList
  else if c.toNat = 13 then "\\r".toList
  else if c.toNat = 9 then "\\t".toList
  else if c.toNat = 8 then "\\b".toList
  else if c.toNat = 12 then "\\f".toList
  else if c.toNat < 32 then "\\u".toList ++ hex4 c.toNat
  else [c]

def escapeJsonString (cs : List Char) : List Char := cs.flatMap escapeChar

def serializeSessionJson (s : Session) : List Char :=
  "\x7b\"token\":\"".toList ++ escapeJsonString s.token.toList ++ "\",\"user_id\":".toList ++
    Nat.toDigits 10 s.userId.toNat ++ ",\"expires_at\":".toList ++ Nat.toDigits 10 s.expiresAt.toNat ++
    "\x7d".toList

/-! ### The parser -/

/-- Why a line is rejected, with what the message quotes. -/
inductive JsonError
  | expected (c : Char) (got : Option Char)
  | unterminatedString
  | unterminatedEscape
  | truncatedUnicode
  | badHexDigit (c : Char)
  | badCodepoint (code : ℕ)
  | badEscape (c : Char)
  | expectedNumber (got : Option Char)
  | badNumber (digits : List Char)
  | unknownField (name : List Char)
  | expectedCommaOrBrace (got : Option Char)
  | trailingInput (rest : Option (List Char))
  | missingField (name : String)
  | outOfFuel
  deriving DecidableEq

namespace JsonParser

def charOf (b : UInt8) : Char := Char.ofNat b.toNat

/-- The character at the cursor. -/
def peek (bytes : List UInt8) : Option Char := bytes.head?.map charOf

/-- `char::is_whitespace` below U+0100. -/
def isWhitespace (b : UInt8) : Bool := (9 ≤ b ∧ b ≤ 13) ∨ b = 32 ∨ b = 0x85 ∨ b = 0xA0

def skipWs (bytes : List UInt8) : List UInt8 := bytes.dropWhile isWhitespace

def expectChar (c : UInt8) : List UInt8 → Except JsonError (List UInt8)
  | [] => .error (.expected (charOf c) none)
  | b :: rest => if b = c then .ok rest else .error (.expected (charOf c) (some (charOf b)))

/-- Where the string loop is: between characters, after a backslash, or in a `\u` escape with some
digits read. -/
inductive StringState
  | plain
  | escape
  | unicode (read code : ℕ)

/-- The character of a one-letter escape. -/
def unescape (b : UInt8) : Option Char :=
  if b = 34 ∨ b = 92 ∨ b = 47 then some (charOf b)
  else if b = 110 then some (Char.ofNat 10)
  else if b = 116 then some (Char.ofNat 9)
  else if b = 114 then some (Char.ofNat 13)
  else if b = 98 then some (Char.ofNat 8)
  else if b = 102 then some (Char.ofNat 12)
  else none

/-- Adds a character to the front of a parsed string. -/
def push (c : Char) : Except JsonError (List Char × List UInt8) → Except JsonError (List Char × List UInt8) :=
  Except.map fun out => (c :: out.1, out.2)

/-- The rest of a string literal, up to its closing quote. -/
def parseStringFrom : StringState → List UInt8 → Except JsonError (List Char × List UInt8)
  | .plain, [] => .error .unterminatedString
  | .escape, [] => .error .unterminatedEscape
  | .unicode .., [] => .error .truncatedUnicode
  | .plain, b :: rest =>
    if b = 34 then .ok ([], rest)
    else if b = 92 then parseStringFrom .escape rest
    else push (charOf b) (parseStringFrom .plain rest)
  | .escape, b :: rest =>
    if b = 117 then parseStringFrom (.unicode 0 0) rest
    else
      match unescape b with
      | none => .error (.badEscape (charOf b))
      | some c => push c (parseStringFrom .plain rest)
  | .unicode read code, b :: rest =>
    match toDigit16 b with
    | none => .error (.badHexDigit (charOf b))
    | some d =>
      let code := code * 16 + d.toNat
      if read < 3 then parseStringFrom (.unicode (read + 1) code) rest
      else if code.isValidChar then push (Char.ofNat code) (parseStringFrom .plain rest)
      else .error (.badCodepoint code)

def parseString (bytes : List UInt8) : Except JsonError (List Char × List UInt8) := do
  let rest ← expectChar 34 bytes
  parseStringFrom .plain rest

def isDigit (b : UInt8) : Bool := 48 ≤ b ∧ b ≤ 57

def parseNumber (bytes : List UInt8) : Except JsonError (UInt64 × List UInt8) :=
  let digits := (bytes.takeWhile isDigit).map charOf
  let value := Nat.ofDigitChars 10 digits 0
  if digits = [] then .error (.expectedNumber (peek bytes))
  else if value < 2 ^ 64 then .ok (UInt64.ofNat value, bytes.dropWhile isDigit)
  else .error (.badNumber digits)

/-- The fields read so far. -/
structure Fields where
  token : Option (List Char)
  userId : Option UInt64
  expiresAt : Option UInt64

def parseField (fields : Fields) (bytes : List UInt8) : Except JsonError (Fields × List UInt8) := do
  let (key, bytes) ← parseString bytes
  let bytes ← expectChar 58 (skipWs bytes)
  let bytes := skipWs bytes
  if key = "token".toList then
    let (v, bytes) ← parseString bytes
    .ok ({ fields with token := some v }, bytes)
  else if key = "user_id".toList then
    let (v, bytes) ← parseNumber bytes
    .ok ({ fields with userId := some v }, bytes)
  else if key = "expires_at".toList then
    let (v, bytes) ← parseNumber bytes
    .ok ({ fields with expiresAt := some v }, bytes)
  else .error (.unknownField key)

/-- The field loop; it stops in front of the closing brace. -/
def parseFields : ℕ → Fields → List UInt8 → Except JsonError (Fields × List UInt8)
  | 0, _, _ => .error .outOfFuel
  | fuel + 1, fields, bytes =>
    let bytes := skipWs bytes
    if bytes.head? = some 125 then .ok (fields, bytes)
    else do
      let (fields, bytes) ← parseField fields bytes
      let bytes := skipWs bytes
      if bytes.head? = some 44 then parseFields fuel fields (skipWs bytes.tail)
      else if bytes.head? = some 125 then .ok (fields, bytes)
      else .error (.expectedCommaOrBrace (peek bytes))

/-- The object at the cursor, up to and with its closing brace. -/
def parseObject (fuel : ℕ) (bytes : List UInt8) : Except JsonError (Fields × List UInt8) := do
  let bytes ← expectChar 123 (skipWs bytes)
  let (fields, bytes) ← parseFields fuel ⟨none, none, none⟩ (skipWs bytes)
  let bytes ← expectChar 125 bytes
  .ok (fields, bytes)

def parseSessionJson (input : List UInt8) : Except JsonError Session := do
  let (fields, bytes) ← parseObject (input.length + 1) input
  let rest := skipWs bytes
  if rest ≠ [] then .error (.trailingInput (Utf8.decode rest))
  else
    let some token := fields.token | .error (.missingField "token")
    let some userId := fields.userId | .error (.missingField "user_id")
    let some expiresAt := fields.expiresAt | .error (.missingField "expires_at")
    .ok ⟨String.ofList token, userId, expiresAt⟩


/-! ### Strings -/

/-- Adds characters to the front of a parsed string. -/
def pushAll (cs : List Char) :
    Except JsonError (List Char × List UInt8) → Except JsonError (List Char × List UInt8) :=
  Except.map fun out => (cs ++ out.1, out.2)

theorem push_pushAll (c : Char) (cs : List Char) (r : Except JsonError (List Char × List UInt8)) :
    push c (pushAll cs r) = pushAll (c :: cs) r := by cases r <;> rfl

/-- Bytes that need no escape are read one by one. -/
theorem parseStringFrom_plain {bs : List UInt8} (hbs : ∀ b ∈ bs, b ≠ 34 ∧ b ≠ 92) (tail : List UInt8) :
    parseStringFrom .plain (bs ++ tail) = pushAll (Utf8.latin1 bs) (parseStringFrom .plain tail) := by
  induction bs with
  | nil => cases h : parseStringFrom .plain tail <;> simp [pushAll, Except.map, Utf8.latin1, h]
  | cons b bs ih =>
    obtain ⟨hb, hrest⟩ := forall_mem_cons.mp hbs
    rw [cons_append, parseStringFrom, if_neg hb.1, if_neg hb.2, ih hrest, push_pushAll]
    rfl

variable {b : UInt8} {c : Char}

/-- A one-letter escape. -/
theorem parseStringFrom_escape (hb : b ≠ 117) (hc : unescape b = some c) (tail : List UInt8) :
    parseStringFrom .plain (92 :: b :: tail) = pushAll [c] (parseStringFrom .plain tail) := by
  rw [parseStringFrom, if_neg (by decide), if_pos rfl, parseStringFrom, if_neg hb, hc]
  cases parseStringFrom .plain tail <;> rfl

variable {n fuel : ℕ} {name : String} {bytes tail : List UInt8} {fields fields' : Fields}

/-- A `\u` escape. -/
theorem parseStringFrom_unicode (hn : n < 65536) (hvalid : n.isValidChar) (tail : List UInt8) :
    parseStringFrom .plain (92 :: 117 :: (Utf8.encode (hex4 n) ++ tail)) =
      pushAll [Char.ofNat n] (parseStringFrom .plain tail) := by
  have hmod : ∀ m, m % 16 < 16 := fun m => Nat.mod_lt m (by decide)
  have htoNat : ∀ m, (UInt8.ofNat (m % 16)).toNat = m % 16 := fun m => by
    rw [UInt8.toNat_ofNat', Nat.mod_eq_of_lt ((hmod m).trans (by decide))]
  have hcode : (((0 * 16 + n / 4096 % 16) * 16 + n / 256 % 16) * 16 + n / 16 % 16) * 16 + n % 16 = n := by
    omega
  have hbytes : Utf8.encode (hex4 n) ++ tail = UInt8.ofNat (Nat.digitChar (n / 4096 % 16)).toNat ::
      UInt8.ofNat (Nat.digitChar (n / 256 % 16)).toNat ::
      UInt8.ofNat (Nat.digitChar (n / 16 % 16)).toNat ::
      UInt8.ofNat (Nat.digitChar (n % 16)).toNat :: tail := by
    simp [hex4, Utf8.encode, encode_digitChar (hmod _)]
  rw [hbytes, parseStringFrom, if_neg (by decide), if_pos rfl, parseStringFrom, if_pos rfl]
  simp only [parseStringFrom, toDigit16_digitChar (hmod _), htoNat, hcode]
  simp only [Nat.reduceLT, Nat.reduceAdd, if_true, if_false, hvalid]
  cases parseStringFrom .plain tail <;> rfl

theorem char_eq (h : c.toNat = n) : c = Char.ofNat n := by
  rw [← h, Char.ofNat_toNat]

/-- The bytes of a character that is not escaped are neither quotes nor backslashes. -/
theorem plain_bytes (hquote : c.toNat ≠ 34) (hbackslash : c.toNat ≠ 92) :
    ∀ b ∈ String.utf8EncodeChar c, b ≠ 34 ∧ b ≠ 92 := by
  intro b hb
  by_cases hascii : Utf8.Ascii c
  · rw [Utf8.encodeChar_of_ascii hascii, mem_singleton] at hb
    have htoNat : b.toNat = c.toNat := by
      rw [hb, UInt8.toNat_ofNat', Nat.mod_eq_of_lt]
      exact Nat.lt_of_lt_of_le hascii (by decide)
    constructor
    · rintro rfl
      exact hquote htoNat.symm
    · rintro rfl
      exact hbackslash htoNat.symm
  · have hle := Utf8.le_of_mem_encodeChar hascii hb
    constructor
    · rintro rfl
      exact absurd hle (by decide)
    · rintro rfl
      exact absurd hle (by decide)

/-- An escaped character is read back as its bytes. -/
theorem parseStringFrom_escapeChar (c : Char) (tail : List UInt8) :
    parseStringFrom .plain (Utf8.encode (escapeChar c) ++ tail) =
      pushAll (Utf8.latin1 (String.utf8EncodeChar c)) (parseStringFrom .plain tail) := by
  by_cases hascii : Utf8.Ascii c
  · rw [Utf8.latin1_encodeChar hascii]
    unfold escapeChar
    split_ifs with h₁ h₂ h₃ h₄ h₅ h₆ h₇ h₈
    · rw [char_eq h₁]
      exact parseStringFrom_escape (by decide) (by decide) tail
    · rw [char_eq h₂]
      exact parseStringFrom_escape (by decide) (by decide) tail
    · rw [char_eq h₃]
      exact parseStringFrom_escape (by decide) (by decide) tail
    · rw [char_eq h₄]
      exact parseStringFrom_escape (by decide) (by decide) tail
    · rw [char_eq h₅]
      exact parseStringFrom_escape (by decide) (by decide) tail
    · rw [char_eq h₆]
      exact parseStringFrom_escape (by decide) (by decide) tail
    · rw [char_eq h₇]
      exact parseStringFrom_escape (by decide) (by decide) tail
    · have hn : c.toNat < 65536 := h₈.trans (by decide)
      have h := parseStringFrom_unicode hn (.inl (h₈.trans (by decide))) tail
      rw [Char.ofNat_toNat] at h
      rw [Utf8.encode_append, append_assoc]
      exact h
    · rw [Utf8.encode_cons, Utf8.encode, flatMap_nil, append_nil,
        parseStringFrom_plain (plain_bytes h₁ h₂), Utf8.latin1_encodeChar hascii]
  · have hlarge : 128 ≤ c.toNat := Nat.le_of_not_lt hascii
    have hne : ∀ k < 128, c.toNat ≠ k := fun k hk => by omega
    have hplain : escapeChar c = [c] := by
      unfold escapeChar
      rw [if_neg (hne 34 (by decide)), if_neg (hne 92 (by decide)), if_neg (hne 10 (by decide)),
        if_neg (hne 13 (by decide)), if_neg (hne 9 (by decide)), if_neg (hne 8 (by decide)),
        if_neg (hne 12 (by decide)), if_neg (by omega)]
    rw [hplain, Utf8.encode_cons, Utf8.encode, flatMap_nil, append_nil,
      parseStringFrom_plain (plain_bytes (hne 34 (by decide)) (hne 92 (by decide)))]

/-- An escaped string is read back as its bytes, one character for each. -/
theorem parseString_escape (cs : List Char) (tail : List UInt8) :
    parseString (34 :: (Utf8.encode (escapeJsonString cs) ++ 34 :: tail)) =
      .ok (Utf8.latin1 (Utf8.encode cs), tail) := by
  have hfrom : ∀ ds, parseStringFrom .plain (Utf8.encode (escapeJsonString ds) ++ 34 :: tail) =
      .ok (Utf8.latin1 (Utf8.encode ds), tail) := by
    intro ds
    induction ds with
    | nil => rfl
    | cons c ds ih =>
      have hsplit : Utf8.encode (escapeJsonString (c :: ds)) ++ 34 :: tail =
          Utf8.encode (escapeChar c) ++ (Utf8.encode (escapeJsonString ds) ++ 34 :: tail) := by
        rw [escapeJsonString, flatMap_cons, Utf8.encode_append, append_assoc]
        rfl
      rw [hsplit, parseStringFrom_escapeChar, ih, Utf8.encode_cons, Utf8.latin1_append]
      rfl
  exact hfrom cs

/-- The name of a field is read back as it is. -/
theorem parseString_name (h : Utf8.encode (escapeJsonString name.toList) = bytes)
    (hascii : name.toList.all (fun c => Utf8.Ascii c) = true) (tail : List UInt8) :
    parseString (34 :: (bytes ++ 34 :: tail)) = .ok (name.toList, tail) := by
  have hall : ∀ c ∈ name.toList, Utf8.Ascii c := fun c hc =>
    of_decide_eq_true (all_eq_true.mp hascii c hc)
  rw [← h, parseString_escape, Utf8.latin1_encode_eq_self.mpr hall]

/-! ### Numbers -/

theorem ascii_of_isDigit (h : c.isDigit = true) : Utf8.Ascii c := by
  have hle : c.toNat ≤ 57 := (Char.isDigit_iff_toNat.mp h).2
  exact Nat.lt_of_le_of_lt hle (by decide)

theorem isDigit_of_mem_encode {cs : List Char} (h : ∀ c ∈ cs, c.isDigit = true) (hb : b ∈ Utf8.encode cs) :
    isDigit b = true := by
  have hlt := Utf8.lt_of_mem_encode (fun c hc => ascii_of_isDigit (h c hc)) hb
  obtain ⟨c, hc, heq⟩ := Utf8.mem_of_mem_encode hb hlt
  obtain ⟨hlow, hhigh⟩ := Char.isDigit_iff_toNat.mp (h c hc)
  refine decide_eq_true ⟨?_, ?_⟩
  · rw [UInt8.le_iff_toNat_le, ← heq]
    exact hlow
  · rw [UInt8.le_iff_toNat_le, ← heq]
    exact hhigh

/-- A printed number is read back. -/
theorem parseNumber_toDigits (n : UInt64) (hb : isDigit b = false) (tail : List UInt8) :
    parseNumber (Utf8.encode (Nat.toDigits 10 n.toNat) ++ b :: tail) = .ok (n, b :: tail) := by
  have hdigits : ∀ c ∈ Nat.toDigits 10 n.toNat, c.isDigit = true := fun c hc =>
    Nat.isDigit_of_mem_toDigits (by decide) (by decide) hc
  have hbytes : ∀ b' ∈ Utf8.encode (Nat.toDigits 10 n.toNat), isDigit b' = true := fun _ =>
    isDigit_of_mem_encode hdigits
  have htext : (Utf8.encode (Nat.toDigits 10 n.toNat)).map charOf = Nat.toDigits 10 n.toNat :=
    Utf8.latin1_encode_eq_self.mpr fun c hc => ascii_of_isDigit (hdigits c hc)
  have hstop : (b :: tail).takeWhile isDigit = [] := by rw [takeWhile_cons, hb]; rfl
  have hrest : (b :: tail).dropWhile isDigit = b :: tail := by rw [dropWhile_cons, hb]; rfl
  unfold parseNumber
  rw [takeWhile_append_of_pos hbytes, dropWhile_append_of_pos hbytes, hstop, hrest, append_nil, htext]
  dsimp only
  rw [if_neg Nat.toDigits_ne_nil, Nat.ofDigitChars_ten_toDigits, if_pos n.toNat_lt, UInt64.ofNat_toNat]

/-! ### The round trip -/

theorem skipWs_cons (h : isWhitespace b = false) (bytes : List UInt8) : skipWs (b :: bytes) = b :: bytes := by
  rw [skipWs, dropWhile_cons, h]
  rfl

theorem isWhitespace_of_isDigit (h : isDigit b = true) : isWhitespace b = false := by
  obtain ⟨hlow, hhigh⟩ := of_decide_eq_true h
  refine decide_eq_false ?_
  rintro (⟨-, hle⟩ | rfl | rfl | rfl)
  · exact absurd (UInt8.le_trans hlow hle) (by decide)
  · exact absurd hlow (by decide)
  · exact absurd hhigh (by decide)
  · exact absurd hhigh (by decide)

theorem skipWs_digits (n : ℕ) (tail : List UInt8) :
    skipWs (Utf8.encode (Nat.toDigits 10 n) ++ tail) = Utf8.encode (Nat.toDigits 10 n) ++ tail := by
  have hdigits : ∀ b ∈ Utf8.encode (Nat.toDigits 10 n), isDigit b = true := fun _ =>
    isDigit_of_mem_encode fun c hc => Nat.isDigit_of_mem_toDigits (by decide) (by decide) hc
  cases h : Utf8.encode (Nat.toDigits 10 n) with
  | nil =>
    have hlength := Utf8.length_le_length_encode (Nat.toDigits 10 n)
    rw [h] at hlength
    exact absurd (length_eq_zero_iff.mp (Nat.le_zero.mp hlength)) Nat.toDigits_ne_nil
  | cons b bs =>
    exact skipWs_cons (isWhitespace_of_isDigit (hdigits b (h ▸ mem_cons_self))) (bs ++ tail)

/-- A key with its colon. -/
theorem parseField_name (hname : escapeJsonString name.toList = name.toList)
    (hascii : name.toList.all (fun c => Utf8.Ascii c) = true) (tail : List UInt8) :
    parseField fields (34 :: (Utf8.encode name.toList ++ 34 :: 58 :: tail)) =
      (if name.toList = "token".toList then
        (parseString (skipWs tail)).map fun out => ({ fields with token := some out.1 }, out.2)
      else if name.toList = "user_id".toList then
        (parseNumber (skipWs tail)).map fun out => ({ fields with userId := some out.1 }, out.2)
      else if name.toList = "expires_at".toList then
        (parseNumber (skipWs tail)).map fun out => ({ fields with expiresAt := some out.1 }, out.2)
      else .error (.unknownField name.toList)) := by
  have hkey := parseString_name (congrArg Utf8.encode hname) hascii (58 :: tail)
  have hcolon : expectChar 58 (skipWs (58 :: tail)) = .ok tail := by rfl
  unfold parseField
  rw [hkey]
  dsimp only [bind, Except.bind]
  rw [hcolon]
  dsimp only
  split_ifs
  · rfl
  · rfl
  · rfl
  · rfl

/-- What a number in the object is followed by. -/
theorem parseNumber_field (n : UInt64) (hb : isDigit b = false) (tail : List UInt8) :
    parseNumber (skipWs (Utf8.encode (Nat.toDigits 10 n.toNat) ++ b :: tail)) = .ok (n, b :: tail) := by
  rw [skipWs_digits, parseNumber_toDigits n hb]

theorem parseField_token (fields : Fields) (cs : List Char) (tail : List UInt8) :
    parseField fields (34 :: (Utf8.encode "token".toList ++
        34 :: 58 :: 34 :: (Utf8.encode (escapeJsonString cs) ++ 34 :: tail))) =
      .ok ({ fields with token := some (Utf8.latin1 (Utf8.encode cs)) }, tail) := by
  rw [parseField_name (by decide) (by decide), if_pos rfl, skipWs_cons (by decide), parseString_escape]
  rfl

theorem parseField_userId (fields : Fields) (n : UInt64) (hb : isDigit b = false) (tail : List UInt8) :
    parseField fields (34 :: (Utf8.encode "user_id".toList ++
        34 :: 58 :: (Utf8.encode (Nat.toDigits 10 n.toNat) ++ b :: tail))) =
      .ok ({ fields with userId := some n }, b :: tail) := by
  rw [parseField_name (by decide) (by decide), if_neg (by decide), if_pos rfl, parseNumber_field n hb]
  rfl

theorem parseField_expiresAt (fields : Fields) (n : UInt64) (hb : isDigit b = false) (tail : List UInt8) :
    parseField fields (34 :: (Utf8.encode "expires_at".toList ++
        34 :: 58 :: (Utf8.encode (Nat.toDigits 10 n.toNat) ++ b :: tail))) =
      .ok ({ fields with expiresAt := some n }, b :: tail) := by
  rw [parseField_name (by decide) (by decide), if_neg (by decide), if_neg (by decide), if_pos rfl,
    parseNumber_field n hb]
  rfl

/-- One round of the field loop with another field to come. -/
theorem parseFields_comma (h : parseField fields (34 :: bytes) = .ok (fields', 44 :: tail)) :
    parseFields (fuel + 1) fields (34 :: bytes) = parseFields fuel fields' (skipWs tail) := by
  rw [parseFields, skipWs_cons (by decide), head?_cons, if_neg (by decide), h]
  dsimp only [bind, Except.bind]
  rw [skipWs_cons (by decide), head?_cons, if_pos rfl, tail_cons]

/-- The last round of the field loop. -/
theorem parseFields_last (h : parseField fields (34 :: bytes) = .ok (fields', 125 :: tail)) :
    parseFields (fuel + 1) fields (34 :: bytes) = .ok (fields', 125 :: tail) := by
  rw [parseFields, skipWs_cons (by decide), head?_cons, if_neg (by decide), h]
  dsimp only [bind, Except.bind]
  rw [skipWs_cons (by decide), head?_cons, if_neg (by decide), if_pos rfl]

end JsonParser

/-- A session as the parser reads it back: every byte of its token is a character. -/
def Session.asRead (s : Session) : Session :=
  { s with token := String.ofList (Utf8.latin1 (Utf8.encode s.token.toList)) }

/-- The line of a session, without its line break. -/
def jsonLine (s : Session) : List UInt8 := Utf8.encode (serializeSessionJson s)

open JsonParser

theorem jsonLine_eq (s : Session) : jsonLine s = 123 :: 34 :: (Utf8.encode "token".toList ++
      34 :: 58 :: 34 :: (Utf8.encode (escapeJsonString s.token.toList) ++
      34 :: 44 :: 34 :: (Utf8.encode "user_id".toList ++
      34 :: 58 :: (Utf8.encode (Nat.toDigits 10 s.userId.toNat) ++
      44 :: 34 :: (Utf8.encode "expires_at".toList ++
      34 :: 58 :: (Utf8.encode (Nat.toDigits 10 s.expiresAt.toNat) ++ [125])))))) := by
  have hopen : Utf8.encode "\x7b\"token\":\"".toList =
      123 :: 34 :: (Utf8.encode "token".toList ++ [34, 58, 34]) := by decide
  have huser : Utf8.encode "\",\"user_id\":".toList =
      34 :: 44 :: 34 :: (Utf8.encode "user_id".toList ++ [34, 58]) := by decide
  have hexpires : Utf8.encode ",\"expires_at\":".toList =
      44 :: 34 :: (Utf8.encode "expires_at".toList ++ [34, 58]) := by decide
  have hclose : Utf8.encode "\x7d".toList = [125] := by decide
  unfold jsonLine serializeSessionJson
  simp only [Utf8.encode_append]
  rw [hopen, huser, hexpires, hclose]
  generalize Utf8.encode "token".toList = token, Utf8.encode "user_id".toList = userId,
    Utf8.encode "expires_at".toList = expiresAt
  simp only [append_assoc, cons_append, List.nil_append]

/-- The object of a line, with whatever follows it. -/
theorem parseObject_jsonLine (s : Session) (fuel : ℕ) (tail : List UInt8) :
    parseObject (fuel + 3) (jsonLine s ++ tail) =
      .ok (⟨some (Utf8.latin1 (Utf8.encode s.token.toList)), some s.userId, some s.expiresAt⟩, tail) := by
  rw [jsonLine_eq]
  simp only [cons_append, append_assoc, List.nil_append]
  have hbrace : ∀ bytes, expectChar 123 (skipWs (123 :: bytes)) = .ok bytes := fun bytes => by rfl
  unfold parseObject
  rw [hbrace]
  dsimp only [bind, Except.bind]
  rw [skipWs_cons (by decide), parseFields_comma (parseField_token _ _ _), skipWs_cons (by decide),
    parseFields_comma (parseField_userId _ _ (by decide) _), skipWs_cons (by decide),
    parseFields_last (parseField_expiresAt _ _ (by decide) _)]
  rfl

/-- **The round trip**: a line is read back as the session with its token taken byte by byte. -/
theorem parseSessionJson_jsonLine (s : Session) : parseSessionJson (jsonLine s) = .ok s.asRead := by
  have hlength : ∃ fuel, (jsonLine s).length + 1 = fuel + 3 := by
    refine ⟨(jsonLine s).length - 2, ?_⟩
    rw [jsonLine_eq]
    simp only [length_cons]
    omega
  obtain ⟨fuel, hfuel⟩ := hlength
  have hobject := parseObject_jsonLine s fuel []
  rw [append_nil] at hobject
  unfold parseSessionJson
  rw [hfuel, hobject]
  rfl

end CenDB.Security
