import CenDB.Lib.Utf8

/-! # Hexadecimal text

Keys, tokens and password digests travel as hex text.  Decoding slices the text every two bytes, and
a slice inside a character panics: `none`. -/

namespace CenDB.Security

def hexDigits (b : UInt8) : List Char := [Nat.digitChar (b.toNat / 16), Nat.digitChar (b.toNat % 16)]

def bytesToHex (bytes : List UInt8) : String := String.ofList (bytes.flatMap hexDigits)

/-- `char::to_digit(16)` of an ASCII character. -/
def toDigit16 (c : UInt8) : Option UInt8 :=
  if 48 ≤ c ∧ c ≤ 57 then some (c - 48)
  else if 97 ≤ c ∧ c ≤ 102 then some (c - 87)
  else if 65 ≤ c ∧ c ≤ 70 then some (c - 55)
  else none

/-- `u8::from_str_radix(_, 16)` of two bytes; a leading plus sign is accepted. -/
def fromStrRadix16 (a b : UInt8) : Option UInt8 :=
  if a = 43 then toDigit16 b
  else (toDigit16 a).bind fun hi => (toDigit16 b).map fun lo => hi * 16 + lo

/-- Does a character end where these bytes start? -/
def isCharBoundary : List UInt8 → Bool
  | [] => true
  | b :: _ => b &&& 0xC0 ≠ 0x80

/-- Slicing a string inside a character panics. -/
def hexPairs : List UInt8 → Option (Option (List UInt8))
  | a :: b :: rest =>
    if isCharBoundary rest then
      match fromStrRadix16 a b with
      | none => some none
      | some v => (hexPairs rest).map (Option.map (v :: ·))
    else none
  | _ => some (some [])

def hexToBytes (hex : String) : Option (Option (List UInt8)) :=
  let bytes := hex.toUTF8.toList
  if bytes.length % 2 = 0 then hexPairs bytes else some none

/-! ### Hex digits as bytes -/

/-- The byte of a hex digit. -/
theorem toDigit16_digitChar {d : ℕ} (hd : d < 16) :
    toDigit16 (UInt8.ofNat (Nat.digitChar d).toNat) = some (UInt8.ofNat d) := by
  interval_cases d <;> decide

theorem ascii_digitChar {d : ℕ} (hd : d < 16) : Utf8.Ascii (Nat.digitChar d) := by
  interval_cases d <;> decide

theorem encode_digitChar {d : ℕ} (hd : d < 16) :
    String.utf8EncodeChar (Nat.digitChar d) = [UInt8.ofNat (Nat.digitChar d).toNat] :=
  Utf8.encodeChar_of_ascii (ascii_digitChar hd)

end CenDB.Security
