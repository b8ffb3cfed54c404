import Mathlib.Tactic

/-! # Decimal numerals

Reading of unsigned and signed integers from texts, as the standard library does it: digits after at most
one sign, with a value in the range.  Zeros in front do not matter (`ofDigitChars_padded`), so padded
numerals are read as well (`parseUnsigned_padded`). -/

namespace Numerals

open List

/-- The value of some digits. -/
def parseDigits (digits : List Char) : Option ℕ :=
  if digits = [] ∨ digits.any (fun c => !c.isDigit) then none else some (Nat.ofDigitChars 10 digits 0)

/-- An unsigned integer below `2 ^ w`: digits, after a plus sign or none. -/
def parseUnsigned (w : ℕ) (text : List Char) : Option ℕ :=
  let digits := match text with
    | '+' :: digits => digits
    | digits => digits
  (parseDigits digits).filter fun n => n < 2 ^ w

/-- A signed integer of `w` bits: digits, after at most one sign. -/
def parseSigned (w : ℕ) (text : List Char) : Option ℤ :=
  match text with
  | '-' :: digits => ((parseDigits digits).filter fun n => n ≤ 2 ^ (w - 1)).map fun n => -(n : ℤ)
  | '+' :: digits => ((parseDigits digits).filter fun n => n < 2 ^ (w - 1)).map Int.ofNat
  | digits => ((parseDigits digits).filter fun n => n < 2 ^ (w - 1)).map Int.ofNat

variable {n w : ℕ}

theorem isDigit_of_mem_toDigits {c : Char} (hc : c ∈ Nat.toDigits 10 n) : c.isDigit = true :=
  Nat.isDigit_of_mem_toDigits (by decide : 0 < 10) (by decide : 10 ≤ 10) hc

theorem parseDigits_eq_some {digits : List Char} : parseDigits digits = some n ↔
    digits ≠ [] ∧ (∀ c ∈ digits, c.isDigit = true) ∧ Nat.ofDigitChars 10 digits 0 = n := by
  unfold parseDigits
  split_ifs with h
  · refine iff_of_false nofun ?_
    rintro ⟨hne, hdigits, -⟩
    rcases h with h | h
    · exact hne h
    · obtain ⟨c, hc, hnot⟩ := any_eq_true.mp h
      rw [hdigits c hc] at hnot
      cases hnot
  · rw [not_or, Bool.not_eq_true, any_eq_false] at h
    have hdigits : ∀ c ∈ digits, c.isDigit = true := fun c hc => by simpa using h.2 c hc
    rw [Option.some.injEq, and_iff_right h.1, and_iff_right hdigits]

/-! ### Padding -/

/-- A numeral of at least `width` digits. -/
def padded (width n : ℕ) : List Char := List.replicate (width - (Nat.toDigits 10 n).length) '0' ++ Nat.toDigits 10 n

theorem ofDigitChars_padded (width n : ℕ) : Nat.ofDigitChars 10 (padded width n) 0 = n := by
  have hzeros (k : ℕ) : Nat.ofDigitChars 10 (List.replicate k '0') 0 = 0 := by
    induction k with
    | zero => rfl
    | succ k ih =>
      rw [replicate_succ, Nat.ofDigitChars_cons]
      exact ih
  rw [padded, Nat.ofDigitChars_append, hzeros, Nat.ofDigitChars_ten_toDigits]

theorem isDigit_of_mem_padded {width : ℕ} {c : Char} (hc : c ∈ padded width n) : c.isDigit = true := by
  rcases mem_append.mp hc with hc | hc
  · rw [eq_of_mem_replicate hc]
    rfl
  · exact isDigit_of_mem_toDigits hc

theorem parseDigits_padded (width n : ℕ) : parseDigits (padded width n) = some n :=
  parseDigits_eq_some.mpr ⟨append_ne_nil_of_right_ne_nil _ Nat.toDigits_ne_nil,
    fun _ => isDigit_of_mem_padded, ofDigitChars_padded width n⟩

/-- A text that begins with a digit has no sign. -/
theorem parseUnsigned_eq {text : List Char} (h : ∀ c ∈ text, c.isDigit = true) :
    parseUnsigned w text = (parseDigits text).filter fun n => n < 2 ^ w := by
  unfold parseUnsigned
  split
  · have hplus := h '+' mem_cons_self
    cases hplus
  · rfl

theorem parseSigned_eq {text : List Char} (h : ∀ c ∈ text, c.isDigit = true) :
    parseSigned w text = ((parseDigits text).filter fun n => n < 2 ^ (w - 1)).map Int.ofNat := by
  unfold parseSigned
  split
  · have hminus := h '-' mem_cons_self
    cases hminus
  · have hplus := h '+' mem_cons_self
    cases hplus
  · rfl

/-- **A padded numeral is read back.** -/
theorem parseUnsigned_padded (width : ℕ) (hn : n < 2 ^ w) : parseUnsigned w (padded width n) = some n := by
  rw [parseUnsigned_eq fun _ => isDigit_of_mem_padded, parseDigits_padded]
  exact Option.filter_eq_some_iff.mpr ⟨rfl, decide_eq_true hn⟩

/-! ### Numerals without padding -/

theorem parseDigits_toDigits (n : ℕ) : parseDigits (Nat.toDigits 10 n) = some n :=
  parseDigits_eq_some.mpr ⟨Nat.toDigits_ne_nil, fun _ => isDigit_of_mem_toDigits, Nat.ofDigitChars_ten_toDigits⟩

theorem parseUnsigned_toDigits (hn : n < 2 ^ w) : parseUnsigned w (Nat.toDigits 10 n) = some n := by
  rw [parseUnsigned_eq fun _ => isDigit_of_mem_toDigits, parseDigits_toDigits]
  exact Option.filter_eq_some_iff.mpr ⟨rfl, decide_eq_true hn⟩

theorem parseSigned_toDigits (hn : n < 2 ^ (w - 1)) : parseSigned w (Nat.toDigits 10 n) = some (n : ℤ) := by
  rw [parseSigned_eq fun _ => isDigit_of_mem_toDigits, parseDigits_toDigits,
    Option.filter_some, if_pos (decide_eq_true hn)]
  rfl

theorem parseSigned_minus_toDigits (hn : n ≤ 2 ^ (w - 1)) :
    parseSigned w ('-' :: Nat.toDigits 10 n) = some (-(n : ℤ)) := by
  rw [parseSigned, parseDigits_toDigits, Option.filter_some, if_pos (decide_eq_true hn)]
  rfl

end Numerals
