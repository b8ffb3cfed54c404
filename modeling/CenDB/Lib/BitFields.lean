import CenDB.Lib.Words

/-! # Fields in a 64-bit buffer

A buffer holds `n` bits when its value is below `2 ^ n`.  `toNat_or_shiftLeft` appends a field
above them, `toNat_shiftRight` drops low bits, and `toNat_and_low` reads them.  `fromLE` of a
concatenation puts the second part above the first. -/

namespace Words

variable {n : ℕ}

theorem toNat_ofNat_shift (h : n < 64) : (UInt64.ofNat n).toNat % 64 = n := by
  rw [UInt64.toNat_ofNat']
  omega

/-- A field put above the bits of the buffer. -/
theorem toNat_or_shiftLeft {buf x : UInt64} {k : ℕ} (hbuf : buf.toNat < 2 ^ n) (hx : x.toNat < 2 ^ k)
    (h : n + k ≤ 64) (hn : n < 64) :
    (buf ||| x <<< UInt64.ofNat n).toNat = buf.toNat + 2 ^ n * x.toNat := by
  have hlt : x.toNat <<< n < 2 ^ 64 := by
    rw [Nat.shiftLeft_eq]
    calc x.toNat * 2 ^ n < 2 ^ k * 2 ^ n := Nat.mul_lt_mul_of_pos_right hx (by positivity)
      _ = 2 ^ (n + k) := by rw [← Nat.pow_add, Nat.add_comm]
      _ ≤ 2 ^ 64 := Nat.pow_le_pow_right two_pos h
  rw [UInt64.toNat_or, UInt64.toNat_shiftLeft, toNat_ofNat_shift hn, Nat.mod_eq_of_lt hlt,
    Nat.or_comm, ← Nat.shiftLeft_add_eq_or_of_lt hbuf, Nat.shiftLeft_eq, Nat.add_comm, Nat.mul_comm]

theorem toNat_shiftRight (buf : UInt64) (hn : n < 64) : (buf >>> UInt64.ofNat n).toNat = buf.toNat / 2 ^ n := by
  rw [UInt64.toNat_shiftRight, toNat_ofNat_shift hn, Nat.shiftRight_eq_div_pow]

theorem toNat_low (hn : n < 64) : ((1 : UInt64) <<< UInt64.ofNat n - 1).toNat = 2 ^ n - 1 := by
  have hpow : 2 ^ n < 2 ^ 64 := Nat.pow_lt_pow_right one_lt_two hn
  have hone : (1 : UInt64) <<< UInt64.ofNat n = UInt64.ofNat (2 ^ n) := by
    apply UInt64.toNat_inj.mp
    rw [UInt64.toNat_shiftLeft, toNat_ofNat_shift hn, UInt64.toNat_ofNat', Nat.shiftLeft_eq]
    simp
  have hle : (1 : UInt64) ≤ UInt64.ofNat (2 ^ n) := by
    rw [UInt64.le_iff_toNat_le, UInt64.toNat_ofNat', Nat.mod_eq_of_lt hpow]
    exact Nat.one_le_two_pow
  rw [hone, UInt64.toNat_sub_of_le _ _ hle, UInt64.toNat_ofNat', Nat.mod_eq_of_lt hpow]
  rfl

theorem toNat_and_low (x : UInt64) (hn : n < 64) :
    (x &&& ((1 : UInt64) <<< UInt64.ofNat n - 1)).toNat = x.toNat % 2 ^ n := by
  rw [UInt64.toNat_and, toNat_low hn, Nat.and_two_pow_sub_one_eq_mod]

/-! ### Byte strings -/

theorem fromLE_append (a b : List UInt8) : fromLE (a ++ b) = fromLE a + 256 ^ a.length * fromLE b := by
  induction a with
  | nil => simp [fromLE]
  | cons x a ih =>
    rw [List.cons_append, fromLE, fromLE, ih, List.length_cons, Nat.pow_succ]
    ring

theorem fromLE_singleton (b : UInt8) : fromLE [b] = b.toNat := by rfl

end Words
