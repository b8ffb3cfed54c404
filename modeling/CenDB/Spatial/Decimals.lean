import CenDB.Lib.Reader
import CenDB.Lib.Text
import CenDB.Spatial.Geometry

/-! # Numbers in textual formats

Both textual formats print a coordinate with `fmtNum`: a whole number below 10^16 as a 64-bit integer,
any other number as the shortest decimal.  What they need of binary64 numbers and their texts is a
`Decimals`; `Decimals.Lawful` states what is assumed of it.  A coordinate is read back as `reread`, which
differs from it by the sign of a zero at most. -/

namespace CenDB.Spatial

open Text (isWhitespace i64Text)

/-- The operations on numbers that the formats use: comparisons, casts and texts. -/
structure Decimals (F : Type) where
  nan : F
  /-- `==` -/
  eq : F → F → Bool
  /-- `<` -/
  lt : F → F → Bool
  trunc : F → F
  abs : F → F
  /-- `1e16` -/
  e16 : F
  /-- `as i64` -/
  toI64 : F → ℤ
  /-- `format!("{}", f)` -/
  display : F → List Char
  /-- `parse::<f64>` -/
  parse : List Char → Option F

/-- Whole numbers are printed without a fraction. -/
def fmtNum {F : Type} (num : Decimals F) (f : F) : List Char :=
  if num.eq f (num.trunc f) && num.lt (num.abs f) num.e16 then i64Text (num.toI64 f) else num.display f

/-! ### Decimal texts -/

/-- Digits after a minus sign or none, and after them a point and digits or nothing. -/
def Numeral (s : List Char) : Prop :=
  ∃ sign whole frac : List Char, s = sign ++ (whole ++ frac) ∧ (sign = [] ∨ sign = ['-']) ∧ whole ≠ [] ∧
    (∀ c ∈ whole, c.isDigit = true) ∧
    (frac = [] ∨ ∃ ds, frac = '.' :: ds ∧ ∀ c ∈ ds, c.isDigit = true)

theorem numeral_i64Text (n : ℤ) : Numeral (i64Text n) := by
  have hdigits : ∀ c ∈ Nat.toDigits 10 n.natAbs, c.isDigit = true := fun c hc =>
    Nat.isDigit_of_mem_toDigits (by decide : 0 < 10) (by decide : 10 ≤ 10) hc
  unfold i64Text
  split
  · exact ⟨['-'], _, [], by simp, Or.inr rfl, Nat.toDigits_ne_nil, hdigits, Or.inl rfl⟩
  · exact ⟨[], _, [], by simp, Or.inl rfl, Nat.toDigits_ne_nil, hdigits, Or.inl rfl⟩

/-- A numeral begins with its sign or a digit. -/
theorem Numeral.head {s : List Char} (h : Numeral s) : ∃ c t, s = c :: t ∧ (c = '-' ∨ c.isDigit = true) := by
  obtain ⟨sign, whole, frac, rfl, hsign, hne, hwhole, -⟩ := h
  rcases hsign with rfl | rfl
  · obtain ⟨c, t, rfl⟩ := List.exists_cons_of_ne_nil hne
    exact ⟨c, t ++ frac, rfl, Or.inr (hwhole c List.mem_cons_self)⟩
  · simp

/-- A text that does not begin with a blank. -/
def Solid (text : List Char) : Prop := ∃ c t, text = c :: t ∧ isWhitespace c = false

theorem Numeral.solid {s : List Char} (hs : Numeral s) : Solid s := by
  obtain ⟨c, t, rfl, hc⟩ := hs.head
  refine ⟨c, t, rfl, ?_⟩
  rcases hc with rfl | hc
  · rfl
  · obtain ⟨hlow, hhigh⟩ := Char.isDigit_iff_toNat.mp hc
    have hzero : '0'.toNat = 48 := rfl
    have hnine : '9'.toNat = 57 := rfl
    unfold isWhitespace
    simp
    omega

/-- The characters that a number may have after its sign. -/
def numberChar (c : Char) : Bool := c.isDigit || c = '.' || c = 'e' || c = 'E'

/-- A number ends at a symbol of a list. -/
theorem until_numberChar_of_ends {sep close : Char} (hsep : numberChar sep = false)
    (hclose : numberChar close = false) {rest : List Char} (hrest : Reader.Ends sep close rest) :
    Reader.Until numberChar rest := by
  intro c hc
  rcases hrest with hrest | hrest
  · rw [hrest] at hc
    cases hc
    exact hsep
  · rw [hrest] at hc
    cases hc
    exact hclose

/-! ### What is assumed of numbers -/

namespace Decimals

variable {F : Type}

/-- The texts of finite numbers and of 64-bit integers are decimals that parse to the same number, and a
whole number below 10^16 equals the integer that it is cast to. -/
structure Lawful (num : Decimals F) (finite : F → Prop) (ofI64 : ℤ → F) : Prop where
  eq_refl : ∀ f, finite f → num.eq f f = true
  display_numeral : ∀ f, finite f → Numeral (num.display f)
  parse_display : ∀ f, finite f → num.parse (num.display f) = some f
  parse_i64 : ∀ n : ℤ, -2 ^ 63 ≤ n → n < 2 ^ 63 → num.parse (i64Text n) = some (ofI64 n)
  toI64_range : ∀ f, -2 ^ 63 ≤ num.toI64 f ∧ num.toI64 f < 2 ^ 63
  eq_ofI64 : ∀ f, finite f → num.eq f (num.trunc f) = true → num.lt (num.abs f) num.e16 = true →
    num.eq f (ofI64 (num.toI64 f)) = true

/-- The number that the text of a number parses to. -/
def reread (num : Decimals F) (ofI64 : ℤ → F) (f : F) : F :=
  if num.eq f (num.trunc f) && num.lt (num.abs f) num.e16 then ofI64 (num.toI64 f) else f

variable {num : Decimals F} {finite : F → Prop} {ofI64 : ℤ → F} {f : F}

theorem Lawful.numeral_fmtNum (h : num.Lawful finite ofI64) (hf : finite f) : Numeral (fmtNum num f) := by
  unfold fmtNum
  split
  · exact numeral_i64Text _
  · exact h.display_numeral f hf

theorem Lawful.parse_fmtNum (h : num.Lawful finite ofI64) (hf : finite f) :
    num.parse (fmtNum num f) = some (num.reread ofI64 f) := by
  unfold fmtNum reread
  split
  · obtain ⟨hlow, hhigh⟩ := h.toI64_range f
    exact h.parse_i64 _ hlow hhigh
  · exact h.parse_display f hf

theorem Lawful.eq_reread (h : num.Lawful finite ofI64) (hf : finite f) :
    num.eq f (num.reread ofI64 f) = true := by
  unfold reread
  split
  · rename_i hwhole
    rw [Bool.and_eq_true] at hwhole
    exact h.eq_ofI64 f hf hwhole.1 hwhole.2
  · exact h.eq_refl f hf

end Decimals

end CenDB.Spatial
