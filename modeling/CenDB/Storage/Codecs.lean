import CenDB.Storage.BitPacking
import Mathlib.Data.Nat.Bitwise

/-! # Round trips of the integer codecs

For each codec, the lists that come back from their own encoding: all of them
(`RawCodec.decode_encode`, `DeltaOfDeltaCodec.decode_encode`), those whose fields fit in the 56
bits that the unpacking loop keeps (`BitPackedCodec.decode_encode`,
`FrameOfReferenceCodec.decode_encode`), and those whose runs fit in the 32-bit counter
(`RunLengthCodec.decode_encode`).  A decoder does not look at the leading byte. -/

namespace CenDB.Storage

open Words List

/-! ### Running extremes -/

/-- A loop that keeps the better of two elements returns an element that no other betters. -/
theorem foldl_best {α : Type*} (key : α → ℤ) (better : α → α → Bool)
    (hbetter : ∀ m v, better m v = decide (key m < key v)) (a : α) (vals : List α) :
    vals.foldl (fun m v => if better m v then v else m) a ∈ a :: vals ∧
      ∀ v ∈ a :: vals, key v ≤ key (vals.foldl (fun m v => if better m v then v else m) a) := by
  induction vals generalizing a with
  | nil => simp
  | cons w vals ih =>
    rw [foldl_cons]
    by_cases hlt : key a < key w
    · rw [hbetter, decide_eq_true hlt, if_pos rfl]
      obtain ⟨hmem, hle⟩ := ih w
      refine ⟨mem_cons_of_mem a hmem, forall_mem_cons.mpr ⟨?_, hle⟩⟩
      exact hlt.le.trans (hle w mem_cons_self)
    · rw [hbetter, decide_eq_false hlt, if_neg Bool.false_ne_true]
      obtain ⟨hmem, hle⟩ := ih a
      obtain ⟨ha, hrest⟩ := forall_mem_cons.mp hle
      constructor
      · cases mem_cons.mp hmem with
        | inl heq => rw [heq]; exact mem_cons_self
        | inr hmem => exact mem_cons_of_mem a (mem_cons_of_mem w hmem)
      · refine forall_mem_cons.mpr ⟨ha, forall_mem_cons.mpr ⟨?_, hrest⟩⟩
        exact (not_lt.mp hlt).trans ha

theorem minOf_spec (a : Int64) (vals : List Int64) :
    minOf a vals ∈ a :: vals ∧ ∀ v ∈ a :: vals, (minOf a vals).toInt ≤ v.toInt := by
  obtain ⟨hmem, hle⟩ := foldl_best (fun v : Int64 => -v.toInt) (fun m v => decide (v < m))
    (fun m v => by rw [decide_eq_decide, Int64.lt_iff_toInt_lt, neg_lt_neg_iff]) a vals
  simp only [decide_eq_true_eq] at hmem hle
  exact ⟨hmem, fun v hv => neg_le_neg_iff.mp (hle v hv)⟩

theorem maxOf_spec (a : Int64) (vals : List Int64) :
    maxOf a vals ∈ a :: vals ∧ ∀ v ∈ a :: vals, v.toInt ≤ (maxOf a vals).toInt := by
  have hbest := foldl_best Int64.toInt (fun m v => decide (m < v))
    (fun m v => by rw [decide_eq_decide, Int64.lt_iff_toInt_lt]) a vals
  simp only [decide_eq_true_eq] at hbest
  exact hbest

/-! ### Words as integers -/

variable {v : Int64} {x : UInt64}

theorem toNat_toUInt64 (h : 0 ≤ v.toInt) : (v.toUInt64.toNat : ℤ) = v.toInt := by
  have hlt := v.toUInt64.toNat_lt
  have hcond := BitVec.toInt_eq_toNat_cond v.toBitVec
  rw [Int64.toInt_toBitVec, Int64.toNat_toBitVec] at hcond
  split at hcond <;> omega

/-- The difference of ordered words. -/
theorem toNat_sub {w : Int64} (h : w.toInt ≤ v.toInt) : ((v - w).toUInt64.toNat : ℤ) = v.toInt - w.toInt := by
  have hv := v.toInt_lt
  have hw := w.le_toInt
  have hlt := (v - w).toUInt64.toNat_lt
  have hcond := BitVec.toInt_eq_toNat_cond (v - w).toBitVec
  rw [Int64.toInt_toBitVec, Int64.toNat_toBitVec, Int64.toInt_sub] at hcond
  have hbmod : (v.toInt - w.toInt).bmod (2 ^ 64) % 2 ^ 64 = v.toInt - w.toInt := by
    have hmod : (v.toInt - w.toInt).bmod (2 ^ 64) % 2 ^ 64 = (v.toInt - w.toInt) % 2 ^ 64 := Int.bmod_emod
    rw [hmod, Int.emod_eq_of_lt (by omega) (by omega)]
  split at hcond <;> omega

/-! ### Raw -/

namespace RawCodec

variable {vals : List Int64}

/-- **The raw codec is lossless.** -/
theorem decode_encode {head : UInt8} {body : List UInt8} (h : encode vals = .ok (head :: body)) (d : UInt8) :
    decode (d :: body) vals.length = .ok vals := by
  have hbody := (List.cons.inj (Except.ok.inj h)).2
  have hlen : body.length = vals.length * 8 := by
    rw [← hbody]
    exact length_flatMap fun v _ => length_leI64 v
  have hread := map_i64At [] vals []
  rw [append_nil, List.nil_append, hbody] at hread
  simp only [length_nil, Nat.zero_add] at hread
  unfold decode
  rw [if_neg (by simp)]
  dsimp only
  rw [drop_one, tail_cons, if_neg (by omega), hread]

/-- Decoding fewer values returns the first of them. -/
theorem decode_take {bytes : List UInt8} {m n : ℕ} (hmn : m ≤ n) (h : decode bytes n = .ok vals) :
    decode bytes m = .ok (vals.take m) := by
  unfold decode at h ⊢
  split at h
  · rename_i hempty
    rw [if_pos hempty, ← Except.ok.inj h, take_nil]
  · rename_i hempty
    dsimp only at h ⊢
    split at h
    · cases h
    · rw [if_neg hempty, if_neg (by omega), ← Except.ok.inj h, ← map_take, take_range, Nat.min_eq_left hmn]

end RawCodec

/-! ### BitPacked -/

theorem max_requiredBits_le (x : UInt64) : max (requiredBits x) 1 ≤ 64 := by
  have hle := requiredBits_le_64 x
  omega

/-- A list comes back through an injective change of words if and only if its fields do. -/
theorem map_eq_iff {g : UInt64 → Int64} (hg : Function.Injective g) {f : Int64 → UInt64}
    (hgf : ∀ v, g (f v) = v) (xs : List UInt64) (vals : List Int64) :
    (.ok (xs.map g) : Except Halt (List Int64)) = .ok vals ↔ xs = vals.map f := by
  have hvals : vals = (vals.map f).map g := by
    rw [map_map]
    exact ((map_congr_left fun v _ => hgf v).trans (map_id' vals)).symm
  rw [Except.ok.injEq]
  constructor
  · intro h
    rw [hvals] at h
    exact map_injective_iff.mpr hg h
  · intro h
    rw [h]
    exact hvals.symm

namespace BitPackedCodec

theorem maxVal_spec (vals : List Int64) : (maxVal vals = 0 ∨ maxVal vals ∈ vals.map Int64.toUInt64) ∧
      ∀ x ∈ vals.map Int64.toUInt64, x.toNat ≤ (maxVal vals).toNat := by
  obtain ⟨hmem, hle⟩ := foldl_best (fun x : UInt64 => (x.toNat : ℤ)) (fun m x => decide (m < x))
    (fun m x => by rw [decide_eq_decide, UInt64.lt_iff_toNat_lt, Nat.cast_lt]) 0
    (vals.map Int64.toUInt64)
  simp only [decide_eq_true_eq, foldl_map] at hmem hle
  exact ⟨mem_cons.mp hmem, fun x hx => Nat.cast_le.mp (hle x (mem_cons_of_mem 0 hx))⟩

/-- The decoder reads the header that the encoder writes. -/
theorem decode_header (d : UInt8) {bits : ℕ} (hbits : bits ≤ 64) (packed : List UInt8) (count : ℕ) :
    decode (d :: UInt8.ofNat bits :: packed) count =
      .ok ((unpackBits bits count packed 0 0).map UInt64.toInt64) := by
  have hget : ((d :: UInt8.ofNat bits :: packed).getD 1 0).toNat = bits := by
    show (UInt8.ofNat bits).toNat = bits
    rw [UInt8.toNat_ofNat', Nat.mod_eq_of_lt (by omega)]
  unfold decode
  rw [if_neg (by simp), hget, Nat.min_eq_left hbits]
  rfl

variable {vals : List Int64} {head : UInt8} {body : List UInt8}

/-- **The bit-packed codec is lossless on what it accepts, up to 56 bits.** -/
theorem decode_encode (h : encode vals = .ok (head :: body)) (d : UInt8) :
    decode (d :: body) vals.length = .ok vals ↔ ∀ v ∈ vals, v.toInt < 2 ^ 56 := by
  unfold encode at h
  by_cases hneg : (vals.any fun v => v < 0) = true
  · rw [if_pos hneg] at h
    cases h
  · rw [if_neg hneg] at h
    have hwidth : max (requiredBits (maxVal vals)) 1 = requiredBits (maxVal vals) :=
      Nat.max_eq_left (one_le_requiredBits _)
    have hbody := (List.cons.inj (Except.ok.inj h)).2
    rw [hwidth] at hbody
    have hnat : ∀ v ∈ vals, (v.toUInt64.toNat : ℤ) = v.toInt := by
      intro v hv
      rw [any_eq_true, not_exists] at hneg
      have hv0 := hneg v
      rw [decide_eq_true_iff, not_and, Int64.lt_iff_toInt_lt, not_lt] at hv0
      exact toNat_toUInt64 (hv0 hv)
    obtain ⟨hmem, hle⟩ := maxVal_spec vals
    have hpacked := unpackBits_packBits_iff hmem hle
    rw [length_map] at hpacked
    have hinj : Function.Injective UInt64.toInt64 := fun x y hxy => congrArg Int64.toUInt64 hxy
    rw [← hbody, decode_header d (requiredBits_le_64 _),
      map_eq_iff hinj Int64.toInt64_toUInt64, hpacked, forall_mem_map]
    refine forall₂_congr fun v hv => ?_
    rw [← hnat v hv]
    exact Nat.cast_lt.symm

theorem decode_take {bytes : List UInt8} {m n : ℕ} (hmn : m ≤ n) (h : decode bytes n = .ok vals) :
    decode bytes m = .ok (vals.take m) := by
  unfold decode at h ⊢
  split at h
  · cases h
  · rename_i hshort
    dsimp only at h ⊢
    rw [if_neg hshort, ← Except.ok.inj h, ← map_take, unpackBits_take hmn]

/-- What is accepted decodes to as many values as are asked for. -/
theorem length_decode (h : encode vals = .ok (head :: body)) (d : UInt8) (count : ℕ) :
    ∃ out, decode (d :: body) count = .ok out ∧ out.length = count := by
  unfold encode at h
  split at h
  · cases h
  · rw [← (List.cons.inj (Except.ok.inj h)).2, decode_header d (max_requiredBits_le _)]
    exact ⟨_, rfl, by rw [length_map, length_unpackBits]⟩

end BitPackedCodec

/-! ### FrameOfReference -/

namespace FrameOfReferenceCodec

theorem toNat_rangeOf {v w : Int64} (h : v.toInt ≤ w.toInt) :
    ((rangeOf v w).toNat : ℤ) = w.toInt - v.toInt := by
  have hv := v.le_toInt
  have hw := w.toInt_lt
  have hmod : (w.toInt - v.toInt) % 2 ^ 64 = w.toInt - v.toInt := Int.emod_eq_of_lt (by omega) (by omega)
  unfold rangeOf UInt64.ofInt
  rw [hmod, UInt64.toNat_ofNat', Nat.mod_eq_of_lt (by omega)]
  omega

/-- The decoder reads the header that the encoder writes. -/
theorem decode_header (d : UInt8) (base : Int64) {bits : ℕ} (hbits : bits ≤ 64)
    (packed : List UInt8) (count : ℕ) :
    decode (d :: (leI64 base ++ UInt8.ofNat bits :: packed)) count =
      .ok ((unpackBits bits count packed 0 0).map fun x => base + x.toInt64) := by
  have hbase : i64At (d :: (leI64 base ++ UInt8.ofNat bits :: packed)) 1 = base := i64At_append [d] base _
  have hget : ((d :: (leI64 base ++ UInt8.ofNat bits :: packed)).getD 9 0).toNat = bits := by
    rw [getD_cons_succ, getD_append_right _ _ _ _ (by simp), length_leI64]
    show (UInt8.ofNat bits).toNat = bits
    rw [UInt8.toNat_ofNat', Nat.mod_eq_of_lt (by omega)]
  have hdrop : (d :: (leI64 base ++ UInt8.ofNat bits :: packed)).drop 10 = packed := by rfl
  have hlen : ¬ (d :: (leI64 base ++ UInt8.ofNat bits :: packed)).length < 10 := by
    rw [length_cons, length_append, length_leI64, length_cons]
    omega
  unfold decode
  rw [if_neg hlen, hget, Nat.min_eq_left hbits, hdrop, hbase]

variable {vals : List Int64} {head : UInt8} {body : List UInt8}

/-- **The frame of reference is lossless on a non-empty list whose range is below `2 ^ 56`.** -/
theorem decode_encode (h : encode vals = .ok (head :: body)) (d : UInt8) :
    decode (d :: body) vals.length = .ok vals ↔
      vals ≠ [] ∧ ∀ v ∈ vals, ∀ w ∈ vals, w.toInt - v.toInt < 2 ^ 56 := by
  cases vals with
  | nil =>
    -- no header is written for an empty list
    have hbody := (List.cons.inj (Except.ok.inj h)).2
    rw [← hbody]
    exact iff_of_false (by simp [decode]) fun hne => hne.1 rfl
  | cons a rest =>
    unfold encode at h
    have hbody := (List.cons.inj (Except.ok.inj h)).2
    obtain ⟨hminMem, hmin⟩ := minOf_spec a (a :: rest)
    obtain ⟨hmaxMem, hmax⟩ := maxOf_spec a (a :: rest)
    have hdup {x : Int64} (hx : x ∈ a :: a :: rest) : x ∈ a :: rest := by simpa using hx
    replace hminMem := hdup hminMem
    replace hmaxMem := hdup hmaxMem
    replace hmin := fun v (hv : v ∈ a :: rest) => hmin v (mem_cons_of_mem a hv)
    replace hmax := fun v (hv : v ∈ a :: rest) => hmax v (mem_cons_of_mem a hv)
    generalize minOf a (a :: rest) = base at hbody hminMem hmin
    generalize maxOf a (a :: rest) = top at hbody hmaxMem hmax
    have hne : a :: rest ≠ [] := cons_ne_nil a rest
    generalize a :: rest = vals at hbody hminMem hmin hmaxMem hmax hne ⊢
    have hwidth : max (requiredBits (rangeOf base top)) 1 = requiredBits (rangeOf base top) :=
      Nat.max_eq_left (one_le_requiredBits _)
    rw [hwidth] at hbody
    have hrange := toNat_rangeOf (hmin top hmaxMem)
    have hnat : ∀ v ∈ vals, ((v - base).toUInt64.toNat : ℤ) = v.toInt - base.toInt :=
      fun v hv => toNat_sub (hmin v hv)
    -- the greatest field is the range
    have hmem : rangeOf base top ∈ vals.map fun v => (v - base).toUInt64 := by
      refine List.mem_map.mpr ⟨top, hmaxMem, UInt64.toNat_inj.mp ?_⟩
      have htop := hnat top hmaxMem
      omega
    have hle : ∀ x ∈ vals.map (fun v => (v - base).toUInt64), x.toNat ≤ (rangeOf base top).toNat := by
      intro x hx
      obtain ⟨v, hv, rfl⟩ := List.mem_map.mp hx
      have hv' := hnat v hv
      have hvmax := hmax v hv
      omega
    have hinj : Function.Injective fun x : UInt64 => base + x.toInt64 := by
      intro x y hxy
      have hcancel : x.toInt64 = y.toInt64 := by
        dsimp only at hxy
        grind
      exact congrArg Int64.toUInt64 hcancel
    have hback : ∀ v : Int64, base + (v - base).toUInt64.toInt64 = v := by
      intro v
      rw [Int64.toInt64_toUInt64]
      grind
    have hpacked := unpackBits_packBits_iff (.inr hmem) hle
    rw [length_map] at hpacked
    rw [← hbody, decode_header d base (requiredBits_le_64 _), map_eq_iff hinj hback, hpacked, forall_mem_map]
    constructor
    · intro hsmall
      refine ⟨hne, fun v hv w hw => ?_⟩
      have hw' := hsmall w hw
      have hwnat := hnat w hw
      have hlow := hmin v hv
      omega
    · intro hsmall v hv
      have hlt := hsmall.2 base hminMem v hv
      have hv' := hnat v hv
      omega

theorem decode_take {bytes : List UInt8} {m n : ℕ} (hmn : m ≤ n) (h : decode bytes n = .ok vals) :
    decode bytes m = .ok (vals.take m) := by
  unfold decode at h ⊢
  split at h
  · cases h
  · rename_i hshort
    dsimp only at h ⊢
    rw [if_neg hshort, ← Except.ok.inj h, ← map_take, unpackBits_take hmn]

theorem length_decode (hne : vals ≠ []) (h : encode vals = .ok (head :: body)) (d : UInt8) (count : ℕ) :
    ∃ out, decode (d :: body) count = .ok out ∧ out.length = count := by
  cases vals with
  | nil => exact absurd rfl hne
  | cons v vals =>
    unfold encode at h
    rw [← (List.cons.inj (Except.ok.inj h)).2, decode_header d _ (max_requiredBits_le _)]
    exact ⟨_, rfl, by rw [length_map, length_unpackBits]⟩

end FrameOfReferenceCodec

/-! ### DeltaOfDelta -/

/-- The seven low bits of a byte that more bytes follow. -/
theorem toNat_and_7F (x : UInt64) : ((x.toUInt8 ||| 0x80) &&& 0x7F).toUInt64.toNat = x.toNat % 128 ∧
      (x.toUInt8 &&& 0x7F).toUInt64.toNat = x.toNat % 128 := by
  have hlow : x.toNat % 2 ^ 8 &&& 127 = x.toNat % 128 := by
    have hmask := Nat.and_two_pow_sub_one_eq_mod (x.toNat % 2 ^ 8) 7
    have hmod : x.toNat % 2 ^ 8 % 2 ^ 7 = x.toNat % 128 := by omega
    rw [← hmod, ← hmask]
  have h80 : (0x80 : UInt8).toNat = 128 := rfl
  have h7F : (0x7F : UInt8).toNat = 127 := rfl
  constructor
  · rw [UInt8.toNat_toUInt64, UInt8.toNat_and, UInt8.toNat_or, UInt64.toNat_toUInt8, h80, h7F,
      Nat.and_or_distrib_right, hlow]
    exact Nat.or_zero _
  · rw [UInt8.toNat_toUInt64, UInt8.toNat_and, UInt64.toNat_toUInt8, h7F, hlow]

theorem and_80_eq_zero (h : x.toNat < 128) : x.toUInt8 &&& 0x80 = 0 := by
  apply UInt8.toNat_inj.mp
  rw [UInt8.toNat_and, UInt64.toNat_toUInt8, Nat.mod_eq_of_lt (by omega)]
  have hbit := Nat.and_two_pow x.toNat 7
  rw [Nat.testBit_lt_two_pow h, Bool.toNat_false, Nat.zero_mul] at hbit
  exact hbit

theorem or_80_and_80_ne (b : UInt8) : (b ||| 0x80) &&& 0x80 ≠ 0 := by
  intro h
  have hnat := congrArg UInt8.toNat h
  have h80 : (0x80 : UInt8).toNat = 128 := rfl
  rw [UInt8.toNat_and, UInt8.toNat_or, h80, Nat.and_or_distrib_right, Nat.and_self] at hnat
  have hle := Nat.right_le_or (n := b.toNat &&& 128) (m := 128)
  rw [hnat] at hle
  exact absurd hle (by decide)

/-- The decoding loop on an encoded value, above the bits that it has read. -/
theorem varintDecode_loop (rest : List UInt8) {v : UInt64} {shift i : ℕ} (hv : v.toNat < 2 ^ shift)
    (hx : x.toNat < 2 ^ (64 - shift)) (hshift : shift < 64) :
    ∃ r : UInt64, varintDecode.loop (varintEncode x ++ rest) v shift i =
        some (r, i + (varintEncode x).length) ∧ r.toNat = v.toNat + 2 ^ shift * x.toNat := by
  induction hn : x.toNat using Nat.strongRecOn generalizing x v shift i with
  | ind n ih =>
    subst hn
    have h80 : (0x80 : UInt64).toNat = 128 := rfl
    rw [varintEncode]
    by_cases hmore : (0x80 : UInt64) ≤ x
    · rw [dif_pos hmore, cons_append]
      rw [UInt64.le_iff_toNat_le, h80] at hmore
      have hroom : shift + 7 < 64 := by
        by_contra hfull
        have hpow : 2 ^ (64 - shift) ≤ 2 ^ 7 := Nat.pow_le_pow_right two_pos (by omega)
        omega
      have hlow := (toNat_and_7F x).1
      have hlow7 : ((x.toUInt8 ||| 0x80) &&& 0x7F).toUInt64.toNat < 2 ^ 7 := by omega
      have hor := toNat_or_shiftLeft hv hlow7 (by omega) hshift
      rw [hlow] at hor
      have hshr : (x >>> 7).toNat = x.toNat / 128 := toNat_shiftRight x (show 7 < 64 by decide)
      have hv' : (v ||| ((x.toUInt8 ||| 0x80) &&& 0x7F).toUInt64 <<<
          UInt64.ofNat shift).toNat < 2 ^ (shift + 7) := by
        rw [hor, Nat.pow_add]
        have hmod : x.toNat % 128 + 1 ≤ 2 ^ 7 := Nat.mod_lt _ (by decide)
        calc v.toNat + 2 ^ shift * (x.toNat % 128) < 2 ^ shift + 2 ^ shift * (x.toNat % 128) := by omega
          _ = 2 ^ shift * (x.toNat % 128 + 1) := by ring
          _ ≤ 2 ^ shift * 2 ^ 7 := Nat.mul_le_mul_left _ hmod
      have hx' : (x >>> 7).toNat < 2 ^ (64 - (shift + 7)) := by
        rw [hshr]
        apply Nat.div_lt_of_lt_mul
        have hpow : 128 * 2 ^ (64 - (shift + 7)) = 2 ^ (64 - shift) := by
          rw [show (128 : ℕ) = 2 ^ 7 from rfl, ← Nat.pow_add]
          congr 1
          omega
        rwa [hpow]
      obtain ⟨r, hloop, hr⟩ := ih (x >>> 7).toNat (by rw [hshr]; omega) (i := i + 1) hv' hx' hroom rfl
      refine ⟨r, ?_, ?_⟩
      · rw [varintDecode.loop, if_neg (or_80_and_80_ne _), if_neg (by omega), hloop, length_cons,
          Nat.add_assoc, Nat.add_comm 1]
      · have hsplit := Nat.mod_add_div x.toNat 128
        rw [hr, hor, hshr, Nat.pow_add]
        calc v.toNat + 2 ^ shift * (x.toNat % 128) + 2 ^ shift * 2 ^ 7 * (x.toNat / 128)
            = v.toNat + 2 ^ shift * (x.toNat % 128 + 128 * (x.toNat / 128)) := by ring
          _ = v.toNat + 2 ^ shift * x.toNat := by rw [hsplit]
    · rw [dif_neg hmore, singleton_append]
      rw [UInt64.le_iff_toNat_le, h80, not_le] at hmore
      have hlow := (toNat_and_7F x).2
      rw [Nat.mod_eq_of_lt hmore] at hlow
      have hfit : (x.toUInt8 &&& 0x7F).toUInt64.toNat < 2 ^ (64 - shift) := by rwa [hlow]
      have hor := toNat_or_shiftLeft hv hfit (by omega) hshift
      rw [hlow] at hor
      refine ⟨_, ?_, hor⟩
      rw [varintDecode.loop, if_pos (and_80_eq_zero hmore)]
      rfl

/-- **A varint is read back, whatever follows it.** -/
theorem varintDecode_varintEncode (v : UInt64) (rest : List UInt8) :
    varintDecode (varintEncode v ++ rest) = some (v, (varintEncode v).length) := by
  have hzero : (0 : UInt64).toNat < 2 ^ 0 := by decide
  obtain ⟨r, hloop, hr⟩ := varintDecode_loop rest (i := 0) hzero v.toNat_lt (by decide)
  have hrv : r = v := by
    apply UInt64.toNat_inj.mp
    rw [hr, Nat.pow_zero, Nat.one_mul]
    exact Nat.zero_add _
  rw [varintDecode, hloop, hrv, Nat.zero_add]

/-- The sign of a word in every bit. -/
theorem sshiftRight_63 (w : BitVec 64) : w.sshiftRight 63 = if w.msb then BitVec.allOnes 64 else 0#64 := by
  have hbit : ∀ i (hi : i < 64), (w.sshiftRight 63)[i] = w.msb := by
    intro i hi
    rw [BitVec.getElem_sshiftRight]
    by_cases hzero : i = 0
    · subst hzero
      rw [dif_pos (by decide), BitVec.msb_eq_getLsbD_last, BitVec.getLsbD_eq_getElem]
    · rw [dif_neg (by omega)]
  ext i hi
  rw [hbit i hi]
  cases w.msb with
  | false => rw [if_neg Bool.false_ne_true, BitVec.getElem_zero]
  | true => rw [if_pos rfl, BitVec.getElem_allOnes]

theorem unZigZag_zigZag (v : Int64) : unZigZag (zigZag v) = v := by
  have hwords : (unZigZag (zigZag v)).toBitVec = (v.toBitVec <<< 1 ^^^ v.toBitVec.sshiftRight 63) >>> 1 ^^^
        -((v.toBitVec <<< 1 ^^^ v.toBitVec.sshiftRight 63) &&& 1#64) := rfl
  apply Int64.toBitVec_inj.mp
  rw [hwords, sshiftRight_63]
  generalize v.toBitVec = w
  have hlast : w.getLsbD 63 = w.msb := (BitVec.msb_eq_getLsbD_last w).symm
  cases hsign : w.msb with
  | false =>
    -- twice the value
    have hlow : w <<< 1 &&& 1#64 = 0#64 := by
      ext i hi
      cases i <;> simp
    rw [if_neg Bool.false_ne_true, BitVec.xor_zero, hlow, BitVec.neg_zero, BitVec.xor_zero]
    ext i hi
    by_cases h63 : i = 63
    · subst h63
      simp [← BitVec.getLsbD_eq_getElem, hlast, hsign]
    · have hlt : 1 + i < 64 := by omega
      simp [hlt]
  | true =>
    -- the complement of twice the value
    have hlow : ~~~(w <<< 1) &&& 1#64 = 1#64 := by
      ext i hi
      cases i <;> simp
    have hneg : -1#64 = BitVec.allOnes 64 := by decide
    rw [if_pos rfl, BitVec.xor_allOnes, hlow, hneg, BitVec.xor_allOnes]
    ext i hi
    by_cases h63 : i = 63
    · subst h63
      simp [← BitVec.getLsbD_eq_getElem, hlast, hsign]
    · have hlt : 1 + i < 64 := by omega
      simp [hlt]

namespace DeltaOfDeltaCodec

/-- The changes of the difference lead back to the values, with wrapping arithmetic. -/
theorem decodeRest_encodeRest (prevDelta prev : Int64) (vals : List Int64) :
    decodeRest (encodeRest prevDelta prev vals) prevDelta prev vals.length = .ok vals := by
  induction vals generalizing prevDelta prev with
  | nil => rfl
  | cons v vals ih =>
    have hdelta : prevDelta + (v - prev - prevDelta) = v - prev := by grind
    have hvalue : prev + (v - prev) = v := by grind
    rw [encodeRest, length_cons, decodeRest, varintDecode_varintEncode]
    dsimp only
    rw [unZigZag_zigZag, hdelta, hvalue, drop_left, ih]

variable {vals : List Int64} {bytes : List UInt8} {m n : ℕ}

/-- **The delta of deltas is lossless.** -/
theorem decode_encode {head : UInt8} {body : List UInt8} (h : encode vals = .ok (head :: body)) (d : UInt8) :
    decode (d :: body) vals.length = .ok vals := by
  match vals with
  | [] => rfl
  | [v] =>
    have hbody := (List.cons.inj (Except.ok.inj h)).2
    have hfirst := i64At_append [d] v []
    rw [append_nil, singleton_append, hbody] at hfirst
    have hlen : ¬ (d :: body).length < 9 := by
      rw [← hbody, length_cons, length_leI64]
      omega
    unfold decode
    rw [if_neg (by simp), if_neg (by simp), if_neg hlen]
    exact congrArg (fun x => Except.ok [x]) hfirst
  | v :: w :: vals =>
    have hbody := (List.cons.inj (Except.ok.inj h)).2
    have hfirst := i64At_append [d] v (leI64 (w - v) ++ encodeRest (w - v) w vals)
    have hdelta := i64At_append (d :: leI64 v) (w - v) (encodeRest (w - v) w vals)
    have hvalue : v + (w - v) = w := by grind
    have hlen : (d :: body).length = 17 + (encodeRest (w - v) w vals).length := by
      rw [← hbody, length_cons, length_append, length_append, length_leI64, length_leI64]
      omega
    have hdrop : (d :: body).drop 17 = encodeRest (w - v) w vals := by
      rw [← hbody, drop_succ_cons, ← append_assoc]
      exact drop_left' (by rw [length_append, length_leI64, length_leI64])
    rw [singleton_append, hbody] at hfirst
    rw [cons_append, hbody, length_cons, length_leI64] at hdelta
    have hfirst' : i64At (d :: body) 1 = v := hfirst
    unfold decode
    rw [if_neg (by simp), if_neg (by simp), if_neg (by omega), hfirst']
    dsimp only
    rw [if_neg (by simp), if_neg (by omega), hdelta, hvalue, hdrop, length_cons,
      length_cons, Nat.add_assoc, Nat.add_sub_cancel, decodeRest_encodeRest]

theorem decodeRest_take {prevDelta prev : Int64} (hmn : m ≤ n)
    (h : decodeRest bytes prevDelta prev n = .ok vals) :
    decodeRest bytes prevDelta prev m = .ok (vals.take m) := by
  induction m generalizing bytes prevDelta prev n vals with
  | zero => rfl
  | succ m ih =>
    cases n with
    | zero => omega
    | succ n =>
      rw [decodeRest] at h ⊢
      split at h
      · cases h
      · dsimp only at h ⊢
        split at h
        · rename_i rest hrest
          rw [ih (by omega) hrest, ← Except.ok.inj h, take_succ_cons]
        · cases h

theorem decode_take (hmn : m ≤ n) (h : decode bytes n = .ok vals) : decode bytes m = .ok (vals.take m) := by
  unfold decode at h ⊢
  split at h
  · rename_i hempty
    rw [if_pos hempty, ← Except.ok.inj h, take_nil]
  · rename_i hempty
    rw [if_neg hempty]
    by_cases hm : m = 0
    · simp [hm]
    · rw [if_neg hm]
      rw [if_neg (by omega)] at h
      split at h
      · cases h
      · rename_i h9
        rw [if_neg h9]
        dsimp only at h ⊢
        split at h
        · rename_i hn1
          have hm1 : m = 1 := by omega
          rw [if_pos hm1, ← Except.ok.inj h, hm1]
          rfl
        · split at h
          · cases h
          · rename_i h17
            split at h
            · rename_i rest hrest
              have hrest' := decodeRest_take (show m - 2 ≤ n - 2 by omega) hrest
              rw [if_neg h17, hrest', ← Except.ok.inj h]
              by_cases hm1 : m = 1
              · simp [hm1]
              · obtain ⟨k, rfl⟩ : ∃ k, m = k + 2 := ⟨m - 2, by omega⟩
                rw [if_neg hm1]
                rfl
            · cases h

end DeltaOfDeltaCodec

/-! ### RunLength -/

namespace RunLengthCodec

/-- The maximal runs, after `run` repetitions of the current value: how often and what. -/
def runsFrom (current : Int64) (run : ℕ) : List Int64 → List (ℕ × Int64)
  | [] => [(run, current)]
  | v :: vals =>
    if v = current then runsFrom current (run + 1) vals
    else (run, current) :: runsFrom v 1 vals

/-- The maximal runs of a list. -/
def runs : List Int64 → List (ℕ × Int64)
  | [] => []
  | v :: vals => runsFrom v 1 vals

/-- The values of runs. -/
def expand (rs : List (ℕ × Int64)) : List Int64 := rs.flatMap fun r => List.replicate r.1 r.2

/-- What a 32-bit counter keeps of runs. -/
def wrapped (rs : List (ℕ × Int64)) : List (ℕ × Int64) := rs.map fun r => (r.1 % 2 ^ 32, r.2)

theorem expand_runsFrom (current : Int64) (run : ℕ) (vals : List Int64) :
    expand (runsFrom current run vals) = List.replicate run current ++ vals := by
  induction vals generalizing current run with
  | nil => simp [expand, runsFrom]
  | cons v vals ih =>
    rw [runsFrom]
    by_cases hv : v = current
    · rw [if_pos hv, ih, hv, replicate_succ', append_assoc, singleton_append]
    · rw [if_neg hv, expand, flatMap_cons]
      exact congrArg (List.replicate run current ++ ·) (ih v 1)

theorem expand_runs (vals : List Int64) : expand (runs vals) = vals := by
  cases vals with
  | nil => rfl
  | cons v vals => exact expand_runsFrom v 1 vals

theorem encodeRest_eq (current : Int64) (run : ℕ) (vals : List Int64) :
    encodeRest current (UInt32.ofNat run) vals =
      (runsFrom current run vals).flatMap fun r => entry (UInt32.ofNat r.1) r.2 := by
  induction vals generalizing current run with
  | nil => simp [encodeRest, runsFrom]
  | cons v vals ih =>
    rw [encodeRest, runsFrom]
    by_cases hv : v = current
    · have hnext : UInt32.ofNat run + 1 = UInt32.ofNat (run + 1) := by simp
      rw [if_pos hv, if_pos hv, hnext, ih]
    · rw [if_neg hv, if_neg hv, flatMap_cons, ← ih v 1]
      rfl

variable {out : List Int64} {head : UInt8} {body : List UInt8}

/-- Pushing a run stops at the count. -/
theorem pushRun_eq {count : ℕ} (v : Int64) (run : ℕ) (h : out.length < count) :
    pushRun count v run out = (out ++ List.replicate run v).take count := by
  induction run generalizing out with
  | zero => rw [pushRun, replicate_zero, append_nil, take_of_length_le h.le]
  | succ run ih =>
    have hsplit : out ++ List.replicate (run + 1) v = out ++ [v] ++ List.replicate run v := by
      simp [replicate_succ]
    rw [pushRun, hsplit]
    by_cases hfull : count ≤ out.length + 1
    · rw [if_pos hfull, take_append_of_le_length (by simpa using hfull), take_of_length_le (by simp; omega)]
    · rw [if_neg hfull, ih (by simp; omega)]

/-- The values of the runs of a body. -/
def expandBody (body : List UInt8) : List Int64 :=
  if 12 ≤ body.length then
    List.replicate (u32At body 0).toNat (i64At body 4) ++ expandBody (body.drop 12)
  else []
  termination_by body.length
  decreasing_by
    rw [List.length_drop]
    omega

/-- The decoding loop expands the runs, up to the count. -/
theorem decodeLoop_eq (count : ℕ) (body : List UInt8) (h : out.length ≤ count) :
    decodeLoop count body out = (out ++ expandBody body).take count := by
  induction hn : body.length using Nat.strongRecOn generalizing body out with
  | ind n ih =>
    rw [decodeLoop, expandBody]
    by_cases hroom : 12 ≤ body.length
    · by_cases hmore : out.length < count
      · have htake : ((out ++ List.replicate (u32At body 0).toNat (i64At body 4)).take
            count).length ≤ count := length_take_le _ _
        have hrest := ih (body.drop 12).length (by rw [List.length_drop]; omega) (body.drop 12) htake rfl
        rw [if_pos ⟨hmore, hroom⟩, if_pos hroom, pushRun_eq _ _ hmore, hrest, ← append_assoc]
        generalize out ++ List.replicate (u32At body 0).toNat (i64At body 4) = all
        by_cases hlen : all.length ≤ count
        · rw [take_of_length_le hlen]
        · have hcount : count ≤ (all.take count).length := by
            rw [length_take]
            omega
          rw [take_append_of_le_length hcount, take_take, Nat.min_self, take_append_of_le_length (by omega)]
      · rw [if_neg fun hboth => hmore hboth.1, take_append_of_le_length (by omega), take_of_length_le h]
    · rw [if_neg fun hboth => hroom hboth.2, if_neg hroom, append_nil, take_of_length_le h]

/-- What the counters hold of the runs comes back. -/
theorem expandBody_entries (rs : List (ℕ × Int64)) :
    expandBody (rs.flatMap fun r => entry (UInt32.ofNat r.1) r.2) = expand (wrapped rs) := by
  induction rs with
  | nil =>
    rw [expandBody]
    rfl
  | cons r rs ih =>
    have hentry : (entry (UInt32.ofNat r.1) r.2).length = 12 := by rfl
    have hroom : 12 ≤ (entry (UInt32.ofNat r.1) r.2 ++
        rs.flatMap fun r => entry (UInt32.ofNat r.1) r.2).length := by simp [hentry]
    have hrun := u32At_append [] (UInt32.ofNat r.1)
      (leI64 r.2 ++ rs.flatMap fun r => entry (UInt32.ofNat r.1) r.2)
    have hvalue := i64At_append (leU32 (UInt32.ofNat r.1)) r.2
      (rs.flatMap fun r => entry (UInt32.ofNat r.1) r.2)
    rw [List.nil_append, length_nil, ← append_assoc] at hrun
    rw [length_leU32, ← append_assoc] at hvalue
    rw [flatMap_cons, expandBody, if_pos hroom, drop_left' hentry, ih, entry, hrun,
      hvalue, UInt32.toNat_ofNat']
    rfl

theorem length_expand (rs : List (ℕ × Int64)) : (expand rs).length = (rs.map Prod.fst).sum := by simp [expand]

/-- Counters that lose nothing hold every run. -/
theorem runs_lt_of_le {rs : List (ℕ × Int64)}
    (h : (expand rs).length ≤ (expand (wrapped rs)).length) : ∀ r ∈ rs, r.1 < 2 ^ 32 := by
  rw [length_expand, length_expand] at h
  have hle : ∀ rs : List (ℕ × Int64), ((wrapped rs).map Prod.fst).sum ≤ (rs.map Prod.fst).sum := by
    intro rs
    rw [wrapped, map_map]
    exact sum_le_sum fun r _ => Nat.mod_le _ _
  induction rs with
  | nil => simp
  | cons r rs ih =>
    have hrest := hle rs
    have hmod := Nat.mod_le r.1 (2 ^ 32)
    have hlt := Nat.mod_lt r.1 (show 0 < 2 ^ 32 by decide)
    simp only [wrapped, map_cons, sum_cons] at h hrest
    refine forall_mem_cons.mpr ⟨by omega, ih ?_⟩
    simp only [wrapped]
    omega

variable {vals : List Int64}

/-- Decoding expands what the counters hold. -/
theorem decode_encoded (h : encode vals = .ok (head :: body)) (d : UInt8) (count : ℕ) :
    decode (d :: body) count = .ok ((expand (wrapped (runs vals))).take count) := by
  have hbody : body = (runs vals).flatMap fun r => entry (UInt32.ofNat r.1) r.2 := by
    cases vals with
    | nil => exact (List.cons.inj (Except.ok.inj h)).2.symm
    | cons v vals =>
      rw [← (List.cons.inj (Except.ok.inj h)).2]
      exact encodeRest_eq v 1 vals
  unfold decode
  rw [if_neg (by simp), drop_one, tail_cons, hbody, decodeLoop_eq _ _ (Nat.zero_le _), expandBody_entries]
  rfl

/-- **The run-length codec is lossless if and only if no run overflows its counter.** -/
theorem decode_encode (h : encode vals = .ok (head :: body)) (d : UInt8) :
    decode (d :: body) vals.length = .ok vals ↔ ∀ r ∈ runs vals, r.1 < 2 ^ 32 := by
  have hexpand := expand_runs vals
  rw [decode_encoded h]
  constructor
  · intro hround
    apply runs_lt_of_le
    have hlen := congrArg List.length (Except.ok.inj hround)
    rw [length_take] at hlen
    rw [hexpand]
    omega
  · intro hfit
    have hsame : wrapped (runs vals) = runs vals := by
      have hid : ∀ r ∈ runs vals, (r.1 % 2 ^ 32, r.2) = r :=
        fun r hr => by rw [Nat.mod_eq_of_lt (hfit r hr)]
      exact (map_congr_left hid).trans (map_id' _)
    rw [hsame, hexpand, take_length]

theorem decode_take {bytes : List UInt8} {m n : ℕ} (hmn : m ≤ n) (h : decode bytes n = .ok vals) :
    decode bytes m = .ok (vals.take m) := by
  unfold decode at h ⊢
  split at h
  · rename_i hempty
    rw [if_pos hempty, ← Except.ok.inj h, take_nil]
  · rename_i hempty
    rw [if_neg hempty, ← Except.ok.inj h, decodeLoop_eq _ _ (Nat.zero_le _),
      decodeLoop_eq _ _ (Nat.zero_le _), take_take, Nat.min_eq_left hmn]

/-- Wrapped counters are short only when the 32-bit count of the values is, too. -/
theorem length_decode (h : encode vals = .ok (head :: body)) (d : UInt8) :
    ∃ out, decode (d :: body) (vals.length % 2 ^ 32) = .ok out ∧ out.length = vals.length % 2 ^ 32 := by
  have hwrap : ∀ rs : List (ℕ × Int64), (rs.map Prod.fst).sum % 2 ^ 32 ≤ ((wrapped rs).map Prod.fst).sum := by
    intro rs
    induction rs with
    | nil => exact Nat.le_refl _
    | cons r rs ih =>
      simp only [wrapped, map_cons, sum_cons] at ih ⊢
      omega
  refine ⟨_, decode_encoded h d _, ?_⟩
  have hle := hwrap (runs vals)
  rw [← length_expand, ← length_expand, expand_runs] at hle
  rw [length_take, Nat.min_eq_left hle]

end RunLengthCodec

end CenDB.Storage
