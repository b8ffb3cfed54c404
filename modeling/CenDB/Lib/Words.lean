import Mathlib.Data.List.GetD
import Mathlib.Tactic

/-! # Machine words: byte images and checked addition

`toLE n x` is the `n`-byte little-endian image of `x` (its value modulo `256 ^ n`), and
`fromLE` reads a byte string back as a number.  `fromLE_toLE` and `toLE_fromLE` are the two
round trips; the machine-word corollaries are stated for `UInt32` and `UInt64`.

`slice bs i j` is the half-open range `bs[i..j]` of a byte string; `slice_append_left` and
its companions compute a slice of a concatenation whose parts have known lengths.

`addU64` and `addU32` are addition on machine words that fails on overflow. -/

namespace Words

open List Nat

/-- The `n` low bytes of `x`, least significant first. -/
def toLE : ℕ → ℕ → List UInt8
  | 0, _ => []
  | n + 1, x => UInt8.ofNat x :: toLE n (x / 256)

/-- The number a byte string denotes, least significant byte first. -/
def fromLE : List UInt8 → ℕ
  | [] => 0
  | b :: bs => b.toNat + 256 * fromLE bs

@[simp] theorem toLE_length (n x : ℕ) : (toLE n x).length = n := by
  induction n generalizing x with
  | zero => rfl
  | succ n ih => simp [toLE, ih]

theorem fromLE_toLE (n x : ℕ) : fromLE (toLE n x) = x % 256 ^ n := by
  induction n generalizing x with
  | zero => simp [toLE, fromLE, Nat.mod_one]
  | succ n ih =>
    have hpow : 256 ^ (n + 1) = 256 * 256 ^ n := by rw [pow_succ, Nat.mul_comm]
    simp only [toLE, fromLE, ih]
    rw [hpow, Nat.mod_mul]
    simp

theorem fromLE_lt (bs : List UInt8) : fromLE bs < 256 ^ bs.length := by
  induction bs with
  | nil => simp [fromLE]
  | cons b bs ih =>
    have hb : b.toNat < 256 := b.toNat_lt
    simp only [fromLE, length_cons, pow_succ]
    omega

theorem toLE_fromLE (bs : List UInt8) : toLE bs.length (fromLE bs) = bs := by
  induction bs with
  | nil => rfl
  | cons b bs ih =>
    have hb : b.toNat < 256 := b.toNat_lt
    have hdiv : (b.toNat + 256 * fromLE bs) / 256 = fromLE bs := by omega
    simp only [fromLE, length_cons, toLE, hdiv, ih]
    congr 1
    apply UInt8.toNat_inj.mp
    simp

variable {bs : List UInt8} {i j : ℕ}

theorem toLE_of_length {n : ℕ} (h : bs.length = n) : toLE n (fromLE bs) = bs := by
  rw [← h, toLE_fromLE]

/-! ### Machine words -/

theorem ofNat_fromLE_toLE_64 (x : UInt64) : UInt64.ofNat (fromLE (toLE 8 x.toNat)) = x := by
  rw [fromLE_toLE, mod_eq_of_lt (by have := x.toNat_lt; norm_num; omega)]
  simp

theorem ofNat_fromLE_toLE_32 (x : UInt32) : UInt32.ofNat (fromLE (toLE 4 x.toNat)) = x := by simp [fromLE_toLE]

theorem toLE_inj_64 {x y : UInt64} : toLE 8 x.toNat = toLE 8 y.toNat ↔ x = y := by
  refine ⟨fun h => ?_, fun h => by rw [h]⟩
  rw [← ofNat_fromLE_toLE_64 x, h, ofNat_fromLE_toLE_64]

theorem toLE_toNat_64 (h : bs.length = 8) : toLE 8 (UInt64.ofNat (fromLE bs)).toNat = bs := by
  have hlt := fromLE_lt bs
  rw [h] at hlt
  have hval : (UInt64.ofNat (fromLE bs)).toNat = fromLE bs := by
    simp only [UInt64.toNat_ofNat']
    exact mod_eq_of_lt (by norm_num at hlt ⊢; exact hlt)
  rw [hval, toLE_of_length h]

theorem toLE_toNat_32 (h : bs.length = 4) : toLE 4 (UInt32.ofNat (fromLE bs)).toNat = bs := by
  have hlt := fromLE_lt bs
  rw [h] at hlt
  have hval : (UInt32.ofNat (fromLE bs)).toNat = fromLE bs := by
    simp only [UInt32.toNat_ofNat']
    exact mod_eq_of_lt (by norm_num at hlt ⊢; exact hlt)
  rw [hval, toLE_of_length h]

/-! ### Slices -/

/-- The bytes at positions `i, …, j - 1`. -/
def slice (bs : List UInt8) (i j : ℕ) : List UInt8 := (bs.drop i).take (j - i)

theorem slice_length (h : j ≤ bs.length) : (slice bs i j).length = j - i := by
  simp only [slice, length_take, length_drop]
  omega

variable {a b : List UInt8} {α : Type*} {f : α → List UInt8} {w : ℕ} {xs : List α}

/-- A slice that ends inside the left part does not see the right part. -/
theorem slice_append_left (h : j ≤ a.length) : slice (a ++ b) i j = slice a i j := by
  by_cases hij : j ≤ i
  · simp [slice, Nat.sub_eq_zero_of_le hij]
  · simp only [slice]
    rw [drop_append_of_le_length (by omega), take_append_of_le_length (by simp; omega)]

/-- A slice that starts after the left part is a slice of the right part. -/
theorem slice_append_right (h : a.length ≤ i) : slice (a ++ b) i j = slice b (i - a.length) (j - a.length) := by
  simp only [slice]
  rw [drop_append, drop_eq_nil_of_le h, List.nil_append]
  congr 1
  omega

/-- The middle part of a concatenation. -/
theorem slice_middle {m c : List UInt8} {i j : ℕ} (hi : a.length = i) (hj : i + m.length = j) :
    slice (a ++ (m ++ c)) i j = m := by
  subst hi hj
  simp [slice]

theorem slice_zero (bs : List UInt8) (j : ℕ) : slice bs 0 j = bs.take j := by simp [slice]

theorem slice_single (h : i < bs.length) : slice bs i (i + 1) = [bs.getD i 0] := by
  rw [getD_eq_getElem _ _ h, slice, Nat.add_sub_cancel_left, drop_eq_getElem_cons h]
  rfl

/-- Consecutive slices concatenate. -/
theorem slice_append_slice {k : ℕ} (hij : i ≤ j) (hjk : j ≤ k) : slice bs i j ++ slice bs j k = slice bs i k := by
  simp only [slice]
  have hdrop : bs.drop j = (bs.drop i).drop (j - i) := by
    rw [drop_drop]; congr 1; omega
  have hlen : k - i = (j - i) + (k - j) := by omega
  rw [hdrop, hlen, take_add]

/-- A slice of a slice. -/
theorem slice_slice {a b : ℕ} (h : i + b ≤ j) : slice (slice bs i j) a b = slice bs (i + a) (i + b) := by
  simp only [slice]
  rw [drop_take, drop_drop, take_take]
  congr 1
  omega

/-- A block of a concatenation of equally long blocks. -/
theorem slice_flatMap (hw : ∀ x ∈ xs, (f x).length = w) (hi : i < xs.length) :
    slice (xs.flatMap f) (i * w) (i * w + w) = f xs[i] := by
  induction xs generalizing i with
  | nil => cases hi
  | cons x xs ih =>
    have hx : (f x).length = w := hw x mem_cons_self
    rw [flatMap_cons]
    cases i with
    | zero =>
      rw [Nat.zero_mul, Nat.zero_add, slice_zero, ← hx, take_left]
      rfl
    | succ i =>
      have hstart : (f x).length ≤ (i + 1) * w := by
        rw [hx]
        exact Nat.le_mul_of_pos_left w (succ_pos i)
      rw [slice_append_right hstart, hx, succ_mul, Nat.add_sub_cancel, Nat.add_right_comm, Nat.add_sub_cancel]
      exact ih (fun y hy => hw y (mem_cons_of_mem x hy)) (Nat.lt_of_succ_lt_succ hi)

theorem length_flatMap (hw : ∀ x ∈ xs, (f x).length = w) : (xs.flatMap f).length = xs.length * w := by
  induction xs with
  | nil => simp
  | cons x xs ih =>
    rw [flatMap_cons, length_append, hw x mem_cons_self,
      ih fun y hy => hw y (mem_cons_of_mem x hy), length_cons, succ_mul, Nat.add_comm]

/-! ### Checked addition -/

/-- `u64` addition; `none` where it overflows. -/
def addU64 (a b : UInt64) : Option UInt64 :=
  if a.toNat + b.toNat < 2 ^ 64 then some (a + b) else none

/-- `u32` addition; `none` where it overflows. -/
def addU32 (a b : UInt32) : Option UInt32 :=
  if a.toNat + b.toNat < 2 ^ 32 then some (a + b) else none

/-- `u64::saturating_add`. -/
def saturatingAddU64 (a b : UInt64) : UInt64 :=
  if a.toNat + b.toNat < 2 ^ 64 then a + b else 0xFFFFFFFFFFFFFFFF

theorem addU64_some {a b c : UInt64} (h : addU64 a b = some c) : c.toNat = a.toNat + b.toNat := by
  unfold addU64 at h
  split_ifs at h with hlt
  rw [← Option.some.inj h, UInt64.toNat_add, mod_eq_of_lt hlt]

theorem addU32_some {a b c : UInt32} (h : addU32 a b = some c) : c.toNat = a.toNat + b.toNat := by
  unfold addU32 at h
  split_ifs at h with hlt
  rw [← Option.some.inj h, UInt32.toNat_add, mod_eq_of_lt hlt]

end Words
