import CenDB.Security.Auth

/-! # The text of an API key

A key is read in pairs of bytes, from the left, until a pair is refused.  A pair may begin with a plus
sign, and it may end inside a character, where the slice panics. -/

namespace CenDB.Security

open Utf8 AuthManager List Option String

def isHexDigit (c : Char) : Bool := ('0' ≤ c && c ≤ '9') || ('a' ≤ c && c ≤ 'f') || ('A' ≤ c && c ≤ 'F')

/-- A text of hexadecimal digits in pairs, where the first of a pair may be a plus sign. -/
inductive Paired : List Char → Prop
  | nil : Paired []
  | pair {c d : Char} {rest : List Char} (hc : isHexDigit c ∨ c = '+') (hd : isHexDigit d)
    (hrest : Paired rest) : Paired (c :: d :: rest)

/-- Two bytes end inside the first or the second character. -/
def Splits : List Char → Prop
  | [] => False
  | [c] => 2 < c.utf8Size
  | c :: d :: _ => 2 < c.utf8Size ∨ Ascii c ∧ ¬Ascii d

/-- Behind pairs that are read comes one that ends inside a character. -/
inductive Broken : List Char → Prop
  | splits {text : List Char} (h : Splits text) : Broken text
  | pair {c d : Char} {rest : List Char} (hc : isHexDigit c ∨ c = '+') (hd : isHexDigit d)
    (hrest : Broken rest) : Broken (c :: d :: rest)

/-- The text has an even number of bytes, and a pair of them ends inside a character behind pairs that are
read, or all pairs are read and one begins with a plus sign. -/
def Misread (text : List Char) : Prop := (encode text).length % 2 = 0 ∧ (Broken text ∨ Paired text ∧ '+' ∈ text)

/-- Logins and revocations with the text return, and it is accepted if it is an even number of hexadecimal
digits. -/
def ParsedExactly (text : String) : Prop :=
  (∀ crypto now openedAt bytes m, (loginApiKey crypto text now openedAt bytes m).isSome) ∧
    (∀ crypto m, (revokeApiKey crypto text m).isSome) ∧
    ((∃ bytes, hexToBytes text = some (some bytes)) ↔
      text.toList.length % 2 = 0 ∧ ∀ c ∈ text.toList, isHexDigit c)

/-! ### Digits -/

variable {c d : Char}

theorem toDigit16_isSome (hc : Ascii c) : (toDigit16 (UInt8.ofNat c.toNat)).isSome = isHexDigit c := by
  have h : ∀ n < 128, (toDigit16 (UInt8.ofNat (Char.ofNat n).toNat)).isSome = isHexDigit (Char.ofNat n) := by
    decide
  exact @ofNat_ascii (fun c => (toDigit16 (UInt8.ofNat c.toNat)).isSome = isHexDigit c) h c hc

theorem eq_plus_iff (hc : Ascii c) : UInt8.ofNat c.toNat = 43 ↔ c = '+' := by
  have h : ∀ n < 128, UInt8.ofNat (Char.ofNat n).toNat = 43 ↔ Char.ofNat n = '+' := by decide
  exact @ofNat_ascii (fun c => UInt8.ofNat c.toNat = 43 ↔ c = '+') h c hc

theorem ascii_of_isHexDigit (h : isHexDigit c) : Ascii c := by
  rw [isHexDigit, Bool.or_eq_true, Bool.or_eq_true, Bool.and_eq_true, Bool.and_eq_true, Bool.and_eq_true,
    decide_eq_true_eq, decide_eq_true_eq, decide_eq_true_eq, decide_eq_true_eq, decide_eq_true_eq,
    decide_eq_true_eq] at h
  rcases h with (⟨-, h⟩ | ⟨-, h⟩) | ⟨-, h⟩ <;>
    exact Nat.lt_of_le_of_lt (UInt32.le_iff_toNat_le.mp h) (by decide)

theorem ascii_of_digit_or_plus (h : isHexDigit c ∨ c = '+') : Ascii c := by
  rcases h with h | rfl
  · exact ascii_of_isHexDigit h
  · decide

/-- A pair of ASCII characters is accepted if it is a digit behind a digit or a plus sign. -/
theorem fromStrRadix16_isSome (hc : Ascii c) (hd : Ascii d) :
    (fromStrRadix16 (UInt8.ofNat c.toNat) (UInt8.ofNat d.toNat)).isSome ↔
      (isHexDigit c ∨ c = '+') ∧ isHexDigit d := by
  rw [fromStrRadix16, ← toDigit16_isSome hd]
  by_cases hplus : c = '+'
  · rw [if_pos ((eq_plus_iff hc).mpr hplus)]
    exact (and_iff_right (Or.inr hplus)).symm
  · rw [if_neg (mt (eq_plus_iff hc).mp hplus), or_iff_left hplus, ← toDigit16_isSome hc]
    cases toDigit16 (UInt8.ofNat c.toNat) <;> simp

/-! ### Reading pairs -/

theorem isCharBoundary_encode (text : List Char) : isCharBoundary (encode text) = true := by
  cases text with
  | nil => rfl
  | cons c text =>
    obtain ⟨b, bs, hbytes, hb, -⟩ := encodeChar_eq_cons c
    rw [encode_cons, hbytes]
    exact decide_eq_true hb

theorem hexPairs_ascii (hc : Ascii c) (hd : Ascii d) (rest : List Char) : hexPairs (encode (c :: d :: rest)) =
      match fromStrRadix16 (UInt8.ofNat c.toNat) (UInt8.ofNat d.toNat) with
      | none => some none
      | some v => (hexPairs (encode rest)).map (Option.map (v :: ·)) := by
  rw [encode_cons, encode_cons, encodeChar_of_ascii hc, encodeChar_of_ascii hd]
  exact if_pos (isCharBoundary_encode rest)

variable {text rest : List Char}

/-- A pair that ends inside a character. -/
theorem hexPairs_splits (h : Splits text) : hexPairs (encode text) = none := by
  have hlong : ∀ {c : Char} {rest : List Char}, 2 < c.utf8Size → hexPairs (encode (c :: rest)) = none := by
    intro c rest hsize
    obtain ⟨b, bs, hbytes, -, hbs⟩ := encodeChar_eq_cons c
    rw [← length_utf8EncodeChar, hbytes] at hsize
    obtain _ | ⟨x, _ | ⟨y, bs⟩⟩ := bs
    · exact absurd hsize (by simp)
    · exact absurd hsize (by simp)
    · rw [encode_cons, hbytes]
      exact if_neg (by simp [isCharBoundary, hbs y (by simp)])
  obtain _ | ⟨c, _ | ⟨d, rest⟩⟩ := text
  · cases h
  · exact hlong h
  · rcases h with h | ⟨hc, hd⟩
    · exact hlong h
    · obtain ⟨b, bs, hbytes, -, hbs⟩ := encodeChar_eq_cons d
      have hsize := one_lt_length_encodeChar hd
      rw [hbytes] at hsize
      obtain _ | ⟨x, bs⟩ := bs
      · exact absurd hsize (Nat.lt_irrefl 1)
      · rw [encode_cons, encode_cons, encodeChar_of_ascii hc, hbytes]
        exact if_neg (by simp [isCharBoundary, hbs x (by simp)])

theorem toDigit16_of_le {b : UInt8} (h : 128 ≤ b) : toDigit16 b = none := by
  have hle : ∀ x : UInt8, x < 128 → ¬b ≤ x := fun x hx hb => UInt8.not_le.mpr hx (UInt8.le_trans h hb)
  rw [toDigit16, if_neg (fun hd => hle 57 (by decide) hd.2), if_neg (fun hd => hle 102 (by decide) hd.2),
    if_neg (fun hd => hle 70 (by decide) hd.2)]

/-- A pair that is one character is refused. -/
theorem hexPairs_two (hc : c.utf8Size = 2) (rest : List Char) : hexPairs (encode (c :: rest)) = some none := by
  have hascii : ¬Ascii c := fun h => by
    rw [utf8Size_eq_one.mpr h] at hc
    cases hc
  have hbytes : (String.utf8EncodeChar c).length = 2 := by rw [length_utf8EncodeChar, hc]
  obtain ⟨a, b, hab⟩ := length_eq_two.mp hbytes
  have ha : 128 ≤ a := le_of_mem_encodeChar hascii (by rw [hab]; exact mem_cons_self)
  have hrefused : fromStrRadix16 a b = none := by
    rw [fromStrRadix16, toDigit16_of_le ha, if_neg (fun h => absurd (h ▸ ha) (by decide))]
    rfl
  rw [encode_cons, hab]
  refine (if_pos (isCharBoundary_encode rest)).trans ?_
  rw [hrefused]

theorem not_paired_of_splits (h : Splits text) : ¬Paired text := by
  rintro (_ | ⟨hc, hd, -⟩)
  · exact h
  · rcases h with h | ⟨-, h⟩
    · rw [utf8Size_eq_one.mpr (ascii_of_digit_or_plus hc)] at h
      omega
    · exact h (ascii_of_isHexDigit hd)

theorem paired_cons : Paired (c :: d :: rest) ↔ ((isHexDigit c ∨ c = '+') ∧ isHexDigit d) ∧ Paired rest := by
  constructor
  · rintro (_ | ⟨hc, hd, hrest⟩)
    exact ⟨⟨hc, hd⟩, hrest⟩
  · rintro ⟨⟨hc, hd⟩, hrest⟩
    exact .pair hc hd hrest

theorem broken_cons (h : ¬Splits (c :: d :: rest)) :
    Broken (c :: d :: rest) ↔ ((isHexDigit c ∨ c = '+') ∧ isHexDigit d) ∧ Broken rest := by
  constructor
  · rintro (hsplits | ⟨hc, hd, hrest⟩)
    · exact absurd hsplits h
    · exact ⟨⟨hc, hd⟩, hrest⟩
  · rintro ⟨⟨hc, hd⟩, hrest⟩
    exact .pair hc hd hrest

/-- Nothing is read of a text that begins outside ASCII. -/
theorem ascii_of_read (hsplits : ¬Splits (c :: rest)) (h : Paired (c :: rest) ∨ Broken (c :: rest)) :
    Ascii c := by
  rcases h with (_ | ⟨hc, -, -⟩) | (hs | ⟨hc, -, -⟩)
  · exact ascii_of_digit_or_plus hc
  · exact absurd hs hsplits
  · exact ascii_of_digit_or_plus hc

/-- The text is read to its end exactly if it is paired, and the reading panics exactly if a pair ends
inside a character. -/
theorem hexPairs_encode (text : List Char) (heven : (encode text).length % 2 = 0) :
    ((∃ bytes, hexPairs (encode text) = some (some bytes)) ↔ Paired text) ∧
      (hexPairs (encode text) = none ↔ Broken text) := by
  by_cases hsplits : Splits text
  · rw [hexPairs_splits hsplits]
    exact ⟨iff_of_false nofun (not_paired_of_splits hsplits), iff_of_true rfl (.splits hsplits)⟩
  match text with
  | [] =>
    refine ⟨iff_of_true ⟨[], rfl⟩ .nil, iff_of_false nofun ?_⟩
    rintro ⟨h⟩
    exact h
  | c :: rest =>
    by_cases hc : Ascii c
    · match rest with
      | [] =>
        rw [encode_cons, encodeChar_of_ascii hc] at heven
        cases heven
      | d :: rest =>
        have hd : Ascii d := by
          by_contra hd
          exact hsplits (Or.inr ⟨hc, hd⟩)
        have hrest : (encode rest).length % 2 = 0 := by
          rw [encode_cons, encode_cons, encodeChar_of_ascii hc, encodeChar_of_ascii hd] at heven
          simp only [singleton_append, length_cons] at heven
          omega
        obtain ⟨hread, hbroken⟩ := hexPairs_encode rest hrest
        rw [paired_cons, broken_cons hsplits, ← fromStrRadix16_isSome hc hd, hexPairs_ascii hc hd,
          ← hread, ← hbroken]
        cases fromStrRadix16 (UInt8.ofNat c.toNat) (UInt8.ofNat d.toNat) with
        | none => simp
        | some v => simp [map_eq_some_iff]
    · have hsize : c.utf8Size = 2 := by
        have hlong : ¬2 < c.utf8Size := fun hsize => by
          cases rest with
          | nil => exact hsplits hsize
          | cons d rest => exact hsplits (Or.inl hsize)
        have hone := mt utf8Size_eq_one.mp hc
        have hpos := Char.utf8Size_pos c
        omega
      rw [hexPairs_two hsize]
      exact ⟨iff_of_false nofun fun h => hc (ascii_of_read hsplits (Or.inl h)),
        iff_of_false nofun fun h => hc (ascii_of_read hsplits (Or.inr h))⟩

/-- Where no pair begins with a plus sign, the pairs are of digits. -/
theorem paired_iff (text : List Char) :
    Paired text ∧ '+' ∉ text ↔ text.length % 2 = 0 ∧ ∀ c ∈ text, isHexDigit c := by
  match text with
  | [] => simp [Paired.nil]
  | [c] => exact iff_of_false (fun h => nomatch h.1) (fun h => nomatch h.1)
  | c :: d :: rest =>
    have hrest := paired_iff rest
    have hd : isHexDigit d → d ≠ '+' := by rintro h rfl; cases h
    have hc : isHexDigit c → c ≠ '+' := by rintro h rfl; cases h
    rw [paired_cons, forall_mem_cons, forall_mem_cons, length_cons, length_cons, mem_cons, mem_cons]
    grind

/-! ### Keys -/

theorem hexToBytes_eq (text : String) : hexToBytes text =
    if (encode text.toList).length % 2 = 0 then hexPairs (encode text.toList) else some none := by
  rw [hexToBytes, toUTF8_toList]

theorem fromStrRadix16_hexDigits {hi lo : ℕ} (hhi : hi < 16) (hlo : lo < 16) :
    fromStrRadix16 (UInt8.ofNat (Nat.digitChar hi).toNat) (UInt8.ofNat (Nat.digitChar lo).toNat) =
      some (UInt8.ofNat hi * 16 + UInt8.ofNat lo) := by
  have hplus : UInt8.ofNat (Nat.digitChar hi).toNat ≠ 43 := by interval_cases hi <;> decide
  rw [fromStrRadix16, if_neg hplus, toDigit16_digitChar hhi, toDigit16_digitChar hlo]
  rfl

theorem hexPairs_hexDigits (bytes : List UInt8) :
    hexPairs (encode (bytes.flatMap hexDigits)) = some (some bytes) := by
  induction bytes with
  | nil => rfl
  | cons b bytes ih =>
    have hhi : b.toNat / 16 < 16 := by
      have hb := b.toNat_lt
      omega
    have hlo : b.toNat % 16 < 16 := Nat.mod_lt _ (by decide)
    have hbyte : UInt8.ofNat (b.toNat / 16) * 16 + UInt8.ofNat (b.toNat % 16) = b := by
      have hb := b.toNat_lt
      rw [← UInt8.toNat_inj, UInt8.toNat_add, UInt8.toNat_mul, UInt8.toNat_ofNat', UInt8.toNat_ofNat',
        show (16 : UInt8).toNat = 16 from rfl]
      omega
    rw [flatMap_cons, hexDigits, cons_append, singleton_append,
      hexPairs_ascii (ascii_digitChar hhi) (ascii_digitChar hlo), fromStrRadix16_hexDigits hhi hlo, hbyte]
    simp only [ih, map_some]

theorem hexToBytes_bytesToHex (bytes : List UInt8) : hexToBytes (bytesToHex bytes) = some (some bytes) := by
  have heven : (encode (bytes.flatMap hexDigits)).length % 2 = 0 := by
    induction bytes with
    | nil => rfl
    | cons b bytes ih =>
      have hb := b.toNat_lt
      rw [flatMap_cons, encode_append, hexDigits, encode_cons, encode_cons, encode_nil,
        encode_digitChar (by omega), encode_digitChar (by omega), append_nil, singleton_append,
        cons_append, singleton_append, length_cons, length_cons]
      omega
  rw [hexToBytes_eq, bytesToHex, toList_ofList, if_pos heven, hexPairs_hexDigits]

/-- What a call does with the text of a key it learns from `hexToBytes`. -/
theorem calls_return_iff (text : String) :
    ((∀ crypto now openedAt bytes m, (loginApiKey crypto text now openedAt bytes m).isSome) ∧
      (∀ crypto m, (revokeApiKey crypto text m).isSome)) ↔ hexToBytes text ≠ none := by
  constructor
  · rintro ⟨-, hrevoke⟩ hnone
    have h := hrevoke ⟨fun _ _ => none, fun _ => Vector.replicate 32 0⟩ new
    simp [revokeApiKey, apiKeyHash, hnone] at h
  · intro hsome
    obtain ⟨raw, hraw⟩ := ne_none_iff_exists'.mp hsome
    refine ⟨fun crypto now openedAt bytes m => ?_, fun crypto m => ?_⟩
    · have hkey : apiKeyHash crypto text =
          some ((raw.filter fun bytes => bytes.length = 32).map crypto.blake3) := by simp [apiKeyHash, hraw]
      rw [loginApiKey, hkey]
      cases (raw.filter fun bytes => bytes.length = 32).map crypto.blake3 with
      | none => rfl
      | some keyHash =>
        simp only [bind_eq_bind, bind_some]
        split
        · rfl
        · split
          · rfl
          · split
            · rfl
            · split <;> rfl
    · rw [revokeApiKey, apiKeyHash, hraw, map_some]
      cases (raw.filter fun bytes => bytes.length = 32).map crypto.blake3 <;> rfl

/-- What is read has an even number of bytes. -/
theorem Paired.even (h : Paired text) : (encode text).length % 2 = 0 := by
  induction h with
  | nil => rfl
  | pair hc hd hrest ih =>
    rw [encode_cons, encode_cons, encodeChar_of_ascii (ascii_of_digit_or_plus hc),
      encodeChar_of_ascii (ascii_of_isHexDigit hd), singleton_append, singleton_append,
      length_cons, length_cons]
    omega

/-- **Keys are parsed exactly** unless they are misread: a login and a revocation with the text return, and
it is accepted exactly if it is an even number of hexadecimal digits.  The text of any bytes is read back. -/
theorem parsedExactly_iff (text : String) : (ParsedExactly text ↔ ¬Misread text.toList) ∧
      ∀ bytes : List UInt8, hexToBytes (bytesToHex bytes) = some (some bytes) := by
  refine ⟨?_, hexToBytes_bytesToHex⟩
  rw [ParsedExactly, ← and_assoc, calls_return_iff, ← paired_iff, Misread, hexToBytes_eq]
  split_ifs with heven
  · obtain ⟨hread, hbroken⟩ := hexPairs_encode text.toList heven
    rw [hread, Ne, hbroken]
    tauto
  · have hodd : ¬Paired text.toList := fun h => heven h.even
    simp [hodd, heven]

/-- A pair that ends inside a letter, and a plus sign read as part of a digit. -/
theorem misread_keys : ¬ParsedExactly "aéb" ∧ ¬ParsedExactly "+f" := by
  constructor
  · rintro ⟨-, hrevoke, -⟩
    have h := hrevoke ⟨fun _ _ => none, fun _ => Vector.replicate 32 0⟩ new
    have hpanic : hexToBytes "aéb" = none := by
      rw [hexToBytes_eq]
      decide
    rw [revokeApiKey, apiKeyHash, hpanic] at h
    cases h
  · rintro ⟨-, -, haccepted⟩
    have hread : hexToBytes "+f" = some (some [15]) := by
      rw [hexToBytes_eq]
      decide
    have hdigits := (haccepted.mp ⟨[15], hread⟩).2 '+' (by decide)
    cases hdigits

end CenDB.Security
