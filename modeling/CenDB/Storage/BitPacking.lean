import CenDB.Lib.BitFields
import CenDB.Storage.Encoding

/-! # Packing at a fixed width

The packing loop writes the number whose fields of `bits` bits are the values, and the unpacking
loop reads these fields back.  Up to 56 bits this is exact (`unpackBits_packBits`).  The unpacking
loop never holds more than 56 bits before a wider field, so it returns only values below
`2 ^ 56` then (`unpackBits_lt`). -/

namespace CenDB.Storage

open Words List UInt64 Nat

/-- What the packing loop has written: the bytes and, above them, the buffer. -/
def written (s : List UInt8 × UInt64 × ℕ) : ℕ := fromLE s.1 + 256 ^ s.1.length * s.2.1.toNat

/-- What the unpacking loop has still to read: the buffer and, above it, the bytes. -/
def unread (s : List UInt8 × UInt64 × ℕ) : ℕ := s.2.1.toNat + 2 ^ s.2.2 * fromLE s.1

/-- The number that a list of fields denotes. -/
def ofFields (bits : ℕ) (xs : List UInt64) : ℕ := Nat.ofDigits (2 ^ bits) (xs.map UInt64.toNat)

theorem ofFields_cons (bits : ℕ) (x : UInt64) (xs : List UInt64) :
    ofFields bits (x :: xs) = x.toNat + 2 ^ bits * ofFields bits xs := by rfl

theorem toNat_toUInt8 (x : UInt64) : x.toUInt8.toNat = x.toNat % 256 := UInt64.toNat_toUInt8 x

/-! ### Packing -/

variable {buf : UInt64} {n bits : ℕ} {xs : List UInt64}

/-- Draining keeps what is written and leaves less than a byte in the buffer. -/
theorem drain_spec (out : List UInt8) (hbuf : buf.toNat < 2 ^ n) :
    written (drain out buf n) = written (out, buf, n) ∧ (drain out buf n).2.2 < 8 ∧
      (drain out buf n).2.1.toNat < 2 ^ (drain out buf n).2.2 ∧
      8 * (drain out buf n).1.length + (drain out buf n).2.2 = 8 * out.length + n := by
  induction n using Nat.strongRecOn generalizing out buf with
  | ind n ih =>
    rw [drain]
    by_cases h8 : 8 ≤ n
    · rw [if_pos h8]
      have hshift : (buf >>> 8).toNat = buf.toNat / 256 := by
        have hdiv := toNat_shiftRight buf (show 8 < 64 by decide)
        exact hdiv
      have hlt : (buf >>> 8).toNat < 2 ^ (n - 8) := by
        have hpow : 2 ^ n = 256 * 2 ^ (n - 8) := by
          rw [show (256 : ℕ) = 2 ^ 8 from rfl, ← pow_add]
          congr 1
          omega
        rw [hshift]
        omega
      obtain ⟨hwritten, hsmall, hfit, hlen⟩ := ih (n - 8) (by omega) (out ++ [buf.toUInt8]) hlt
      refine ⟨hwritten.trans ?_, hsmall, hfit, ?_⟩
      · unfold written
        dsimp only
        rw [fromLE_append, fromLE_singleton, toNat_toUInt8, hshift, length_append, length_singleton, pow_succ]
        have hsplit := Nat.mod_add_div buf.toNat 256
        calc fromLE out + 256 ^ out.length * (buf.toNat % 256) + 256 ^ out.length * 256 * (buf.toNat / 256)
            = fromLE out + 256 ^ out.length * (buf.toNat % 256 + 256 * (buf.toNat / 256)) := by
              ring
          _ = fromLE out + 256 ^ out.length * buf.toNat := by rw [hsplit]
      · rw [hlen, length_append, length_singleton]
        omega
    · rw [if_neg h8]
      exact ⟨rfl, Nat.not_le.mp h8, hbuf, rfl⟩

theorem packMask_eq (hbits : 1 ≤ bits) (h64 : bits < 64) (x : UInt64) :
    (x &&& packMask bits).toNat = x.toNat % 2 ^ bits := by
  have hle : (1 : UInt64) ≤ (1 : UInt64) <<< UInt64.ofNat bits - 1 := by
    rw [UInt64.le_iff_toNat_le, toNat_low h64]
    have hpow : 2 ^ 1 ≤ 2 ^ bits := Nat.pow_le_pow_right two_pos hbits
    have hone : (1 : UInt64).toNat = 1 := rfl
    omega
  have hmask : packMask bits = (1 : UInt64) <<< UInt64.ofNat bits - 1 := by
    by_cases hle' : (1 : UInt64) <<< UInt64.ofNat bits - 1 ≤ 1
    · exact (if_pos hle').trans (UInt64.le_antisymm hle hle')
    · exact if_neg hle'
  rw [hmask, toNat_and_low x h64]

/-- One value goes above what is written. -/
theorem packStep_spec (hbits : 1 ≤ bits) (hbits' : bits ≤ 57) {s : List UInt8 × UInt64 × ℕ} (hn : s.2.2 < 8)
    (hbuf : s.2.1.toNat < 2 ^ s.2.2) {x : UInt64} (hx : x.toNat < 2 ^ bits) :
    written (packStep bits s x) = written s + 2 ^ (8 * s.1.length + s.2.2) * x.toNat ∧ (packStep bits s x).2.2 < 8 ∧
      (packStep bits s x).2.1.toNat < 2 ^ (packStep bits s x).2.2 ∧
      8 * (packStep bits s x).1.length + (packStep bits s x).2.2 = 8 * s.1.length + s.2.2 + bits := by
  obtain ⟨out, buf, n⟩ := s
  dsimp only at hn hbuf ⊢
  have hmask : (x &&& packMask bits).toNat = x.toNat := by
    rw [packMask_eq hbits (by omega), Nat.mod_eq_of_lt hx]
  have hor : (buf ||| (x &&& packMask bits) <<< UInt64.ofNat n).toNat = buf.toNat + 2 ^ n * x.toNat := by
    rw [toNat_or_shiftLeft hbuf (k := bits) (by rwa [hmask]) (by omega) (by omega), hmask]
  have hfit : (buf ||| (x &&& packMask bits) <<< UInt64.ofNat n).toNat < 2 ^ (n + bits) := by
    rw [hor, Nat.pow_add]
    calc buf.toNat + 2 ^ n * x.toNat < 2 ^ n + 2 ^ n * x.toNat := by omega
      _ = 2 ^ n * (x.toNat + 1) := by ring
      _ ≤ 2 ^ n * 2 ^ bits := Nat.mul_le_mul_left _ hx
  obtain ⟨hwritten, hsmall, hbuf', hlen⟩ := drain_spec out hfit
  unfold packStep
  refine ⟨hwritten.trans ?_, hsmall, hbuf', by rw [hlen]; omega⟩
  unfold written
  dsimp only
  have hpow : 256 ^ out.length = 2 ^ (8 * out.length) := by
    rw [Nat.pow_mul]
  rw [hor, Nat.pow_add, ← hpow]
  ring

/-- The packed bytes denote the fields. -/
theorem fromLE_packBits (hbits : 1 ≤ bits) (hbits' : bits ≤ 57) (hxs : ∀ x ∈ xs, x.toNat < 2 ^ bits) :
    fromLE (packBits bits xs) = ofFields bits xs := by
  -- the whole loop, from any state
  have hloop : ∀ (xs : List UInt64) (s : List UInt8 × UInt64 × ℕ), s.2.2 < 8 →
      s.2.1.toNat < 2 ^ s.2.2 → (∀ x ∈ xs, x.toNat < 2 ^ bits) →
      written (xs.foldl (packStep bits) s) = written s + 2 ^ (8 * s.1.length + s.2.2) * ofFields bits xs ∧
        (xs.foldl (packStep bits) s).2.2 < 8 ∧
        (xs.foldl (packStep bits) s).2.1.toNat < 2 ^ (xs.foldl (packStep bits) s).2.2 := by
    intro xs
    induction xs with
    | nil =>
      intro s hn hbuf _
      exact ⟨by simp [ofFields], hn, hbuf⟩
    | cons x xs ih =>
      intro s hn hbuf hxs
      obtain ⟨hstep, hn', hbuf', hlen⟩ := packStep_spec hbits hbits' hn hbuf (hxs x mem_cons_self)
      obtain ⟨hrest, hn'', hbuf''⟩ := ih (packStep bits s x) hn' hbuf' fun y hy => hxs y (mem_cons_of_mem x hy)
      refine ⟨?_, hn'', hbuf''⟩
      rw [foldl_cons, hrest, hstep, hlen, ofFields_cons, Nat.pow_add _ _ bits]
      ring
  obtain ⟨hwritten, hn, hbuf⟩ := hloop xs ([], 0, 0) (by decide) (by decide) hxs
  have hstart : written (([], 0, 0) : List UInt8 × UInt64 × ℕ) = 0 := rfl
  simp only [hstart, length_nil, Nat.mul_zero, Nat.add_zero, Nat.pow_zero, Nat.one_mul, Nat.zero_add] at hwritten
  rw [← hwritten]
  unfold packBits written
  generalize xs.foldl (packStep bits) ([], 0, 0) = s at hn hbuf
  obtain ⟨out, buf, n⟩ := s
  dsimp only at hn hbuf ⊢
  by_cases hpos : 0 < n
  · have hbyte : buf.toNat < 256 := by
      calc buf.toNat < 2 ^ n := hbuf
        _ ≤ 2 ^ 8 := Nat.pow_le_pow_right two_pos (by omega)
    rw [if_pos hpos, fromLE_append, fromLE_singleton, toNat_toUInt8, Nat.mod_eq_of_lt hbyte]
  · have hzero : buf.toNat = 0 := by
      have hn0 : n = 0 := by omega
      rw [hn0, Nat.pow_zero] at hbuf
      omega
    rw [if_neg hpos, hzero, Nat.mul_zero, Nat.add_zero]

/-! ### Unpacking -/

/-- Filling the buffer keeps what is unread; it stops with a whole field or at the end. -/
theorem refill_spec (hbits : bits ≤ 56) (body : List UInt8) (hbuf : buf.toNat < 2 ^ n) (hn : n ≤ 63) :
    unread (refill bits body buf n) = unread (body, buf, n) ∧
      (refill bits body buf n).2.1.toNat < 2 ^ (refill bits body buf n).2.2 ∧
      (refill bits body buf n).2.2 ≤ 63 ∧
      (bits ≤ (refill bits body buf n).2.2 ∨ (refill bits body buf n).1 = []) := by
  induction body generalizing buf n with
  | nil => exact ⟨rfl, hbuf, hn, .inr rfl⟩
  | cons b rest ih =>
    unfold refill
    by_cases hmore : n < bits ∧ n < 56
    · rw [if_pos hmore]
      have hb : b.toUInt64.toNat < 2 ^ 8 := by
        rw [UInt8.toNat_toUInt64]
        exact b.toNat_lt
      have hor : (buf ||| b.toUInt64 <<< UInt64.ofNat n).toNat = buf.toNat + 2 ^ n * b.toNat := by
        rw [toNat_or_shiftLeft hbuf hb (by omega) (by omega), UInt8.toNat_toUInt64]
      have hfit : (buf ||| b.toUInt64 <<< UInt64.ofNat n).toNat < 2 ^ (n + 8) := by
        have hlt : b.toNat < 256 := b.toNat_lt
        rw [hor, pow_add]
        calc buf.toNat + 2 ^ n * b.toNat < 2 ^ n + 2 ^ n * b.toNat := by omega
          _ = 2 ^ n * (b.toNat + 1) := by ring
          _ ≤ 2 ^ n * 2 ^ 8 := Nat.mul_le_mul_left _ hlt
      obtain ⟨hunread, hrest⟩ := ih hfit (by omega)
      refine ⟨hunread.trans ?_, hrest⟩
      unfold unread
      dsimp only
      rw [hor, fromLE, pow_add]
      ring
    · rw [if_neg hmore]
      refine ⟨rfl, hbuf, hn, .inl ?_⟩
      dsimp only
      omega

theorem unpackMask_eq (h64 : bits < 64) (x : UInt64) : (x &&& unpackMask bits).toNat = x.toNat % 2 ^ bits := by
  unfold unpackMask
  rw [if_neg (by omega), toNat_and_low x h64]

variable {body : List UInt8}

/-- Up to 56 bits the unpacking loop reads off the fields of what is unread. -/
theorem unpackBits_eq (hbits : bits ≤ 56) (hxs : ∀ x ∈ xs, x.toNat < 2 ^ bits) (hbuf : buf.toNat < 2 ^ n)
    (hn : n ≤ 63) (h : unread (body, buf, n) = ofFields bits xs) :
    unpackBits bits xs.length body buf n = xs := by
  induction xs generalizing body buf n with
  | nil => rfl
  | cons x xs ih =>
    obtain ⟨hunread, hbuf', hn', hstop⟩ := refill_spec hbits body hbuf hn
    rw [h, ofFields_cons] at hunread
    have hx := hxs x mem_cons_self
    rw [length_cons, unpackBits]
    generalize refill bits body buf n = s at hunread hbuf' hn' hstop
    obtain ⟨body', buf', n'⟩ := s
    unfold unread at hunread
    dsimp only at hunread hbuf' hn' hstop ⊢
    have hvalue : unread (body', buf', n') = buf'.toNat + 2 ^ bits * (2 ^ (n' - bits) * fromLE body') := by
      unfold unread
      cases hstop with
      | inl hle => rw [← Nat.mul_assoc, ← Nat.pow_add, Nat.add_sub_cancel' hle]
      | inr hnil => rw [hnil, fromLE, Nat.mul_zero, Nat.mul_zero, Nat.mul_zero]
    have hunread' : buf'.toNat + 2 ^ bits * (2 ^ (n' - bits) * fromLE body') =
        x.toNat + 2 ^ bits * ofFields bits xs := by
      rw [← hvalue]
      exact hunread
    have hlow : buf'.toNat % 2 ^ bits = x.toNat := by
      have hmod := congrArg (· % 2 ^ bits) hunread'
      simp only [Nat.add_mul_mod_self_left] at hmod
      rw [hmod, Nat.mod_eq_of_lt hx]
    have hrest : buf'.toNat / 2 ^ bits + 2 ^ (n' - bits) * fromLE body' = ofFields bits xs := by
      have hdiv := congrArg (· / 2 ^ bits) hunread'
      simp only [Nat.add_mul_div_left _ _ (Nat.two_pow_pos bits)] at hdiv
      rw [hdiv, Nat.div_eq_of_lt hx, Nat.zero_add]
    have hshift := toNat_shiftRight buf' (show bits < 64 by omega)
    have hx' : buf' &&& unpackMask bits = x := by
      apply UInt64.toNat_inj.mp
      rw [unpackMask_eq (by omega), hlow]
    rw [hx', if_neg (by omega)]
    congr 1
    apply ih (fun y hy => hxs y (mem_cons_of_mem x hy))
    · rw [hshift]
      apply Nat.div_lt_of_lt_mul
      rw [← Nat.pow_add]
      exact lt_of_lt_of_le hbuf' (Nat.pow_le_pow_right two_pos (by omega))
    · omega
    · unfold unread
      dsimp only
      rw [hshift, hrest]

/-- **Packing up to 56 bits is lossless.** -/
theorem unpackBits_packBits (hbits : 1 ≤ bits) (hbits' : bits ≤ 56) (hxs : ∀ x ∈ xs, x.toNat < 2 ^ bits) :
    unpackBits bits xs.length (packBits bits xs) 0 0 = xs := by
  apply unpackBits_eq hbits' hxs (by decide) (by decide)
  unfold unread
  dsimp only
  rw [fromLE_packBits hbits (by omega) hxs, pow_zero, Nat.one_mul]
  exact Nat.zero_add _

/-! ### Wide fields -/

/-- From an empty buffer, filling stops at 56 bits. -/
theorem refill_wide (hbuf : buf.toNat < 2 ^ n) (hn : n ≤ 56) (h8 : n % 8 = 0) :
    (refill bits body buf n).2.1.toNat < 2 ^ (refill bits body buf n).2.2 ∧ (refill bits body buf n).2.2 ≤ 56 := by
  induction body generalizing buf n with
  | nil => exact ⟨hbuf, hn⟩
  | cons b rest ih =>
    unfold refill
    by_cases hmore : n < bits ∧ n < 56
    · rw [if_pos hmore]
      have hb : b.toUInt64.toNat < 2 ^ 8 := by
        rw [UInt8.toNat_toUInt64]
        exact b.toNat_lt
      apply ih
      · rw [toNat_or_shiftLeft hbuf hb (by omega) (by omega), pow_add]
        calc buf.toNat + 2 ^ n * b.toUInt64.toNat < 2 ^ n + 2 ^ n * b.toUInt64.toNat := by omega
          _ = 2 ^ n * (b.toUInt64.toNat + 1) := by ring
          _ ≤ 2 ^ n * 2 ^ 8 := Nat.mul_le_mul_left _ hb
      · omega
      · omega
    · rw [if_neg hmore]
      exact ⟨hbuf, hn⟩

/-- The unpacking loop at more than 56 bits returns only values below `2 ^ 56`. -/
theorem unpackBits_lt (hbits : 57 ≤ bits) (count : ℕ) (body : List UInt8) :
    ∀ x ∈ unpackBits bits count body 0 0, x.toNat < 2 ^ 56 := by
  induction count generalizing body with
  | zero =>
    intro x hx
    cases hx
  | succ count ih =>
    obtain ⟨hbuf, hn⟩ := refill_wide (show (0 : UInt64).toNat < 2 ^ 0 by decide) (by decide) (by decide)
    rw [unpackBits]
    generalize refill bits body 0 0 = s at hbuf hn
    obtain ⟨body', buf', n'⟩ := s
    dsimp only at hbuf hn ⊢
    have hlt : buf'.toNat < 2 ^ 56 := lt_of_lt_of_le hbuf (Nat.pow_le_pow_right two_pos hn)
    -- nothing is left in the buffer for the next value
    have hempty : (if 64 ≤ bits then 0 else buf' >>> UInt64.ofNat bits) = 0 := by
      by_cases h64 : 64 ≤ bits
      · rw [if_pos h64]
      · rw [if_neg h64]
        apply UInt64.toNat_inj.mp
        rw [toNat_shiftRight _ (by omega), Nat.div_eq_of_lt]
        · rfl
        · exact lt_of_lt_of_le hlt (Nat.pow_le_pow_right two_pos (by omega))
    rw [hempty, Nat.sub_eq_zero_of_le (by omega)]
    intro x hx
    cases mem_cons.mp hx with
    | inl heq =>
      rw [heq, UInt64.toNat_and]
      exact lt_of_le_of_lt Nat.and_le_left hlt
    | inr hmem => exact ih body' x hmem

theorem length_unpackBits (bits count : ℕ) (body : List UInt8) (buf : UInt64) (n : ℕ) :
    (unpackBits bits count body buf n).length = count := by
  induction count generalizing body buf n with
  | zero => rfl
  | succ count ih =>
    rw [unpackBits]
    dsimp only
    rw [length_cons, ih]

/-- Unpacking fewer values returns the first of them. -/
theorem unpackBits_take {m : ℕ} (hmn : m ≤ n) {k : ℕ} :
    unpackBits bits m body buf k = (unpackBits bits n body buf k).take m := by
  induction m generalizing n body buf k with
  | zero => rfl
  | succ m ih =>
    cases n with
    | zero => omega
    | succ n =>
      rw [unpackBits, unpackBits]
      dsimp only
      rw [take_succ_cons, ih (Nat.le_of_succ_le_succ hmn)]

/-- **Packing at the width of the greatest field is lossless if and only if every field is below
`2 ^ 56`.** -/
theorem unpackBits_packBits_iff {m : UInt64} (hm : m = 0 ∨ m ∈ xs) (hle : ∀ x ∈ xs, x.toNat ≤ m.toNat) :
    unpackBits (requiredBits m) xs.length (packBits (requiredBits m) xs) 0 0 = xs ↔ ∀ x ∈ xs, x.toNat < 2 ^ 56 := by
  have hfields : ∀ x ∈ xs, x.toNat < 2 ^ requiredBits m :=
    fun x hx => lt_of_le_of_lt (hle x hx) (lt_pow_requiredBits m)
  constructor
  · intro hround x hx
    by_cases hwide : 57 ≤ requiredBits m
    · rw [← hround] at hx
      exact unpackBits_lt hwide _ _ x hx
    · exact lt_of_lt_of_le (hfields x hx) (Nat.pow_le_pow_right two_pos (by omega))
  · intro hsmall
    have hm56 : m.toNat < 2 ^ 56 := by
      cases hm with
      | inl hzero =>
        rw [hzero]
        decide
      | inr hmem => exact hsmall m hmem
    exact unpackBits_packBits (one_le_requiredBits m) ((requiredBits_le (by decide)).mpr hm56) hfields

end CenDB.Storage
