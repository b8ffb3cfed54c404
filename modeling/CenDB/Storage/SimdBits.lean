import CenDB.Storage.Dictionary

/-! # Packing with vector instructions

Widths of 8, 16, 32 and 64 bits are packed as whole bytes, at 8 bits in vectors of 16 bytes with a loop for
what is left; the other widths are packed bit by bit.  Bit `k` of the packed bytes is bit `k % bits` of the
value `k / bits` (`packScalar_spec`), so that both ways return every value modulo `2 ^ bits`
(`unpackSimd_packSimd`). -/

namespace CenDB.Storage

open Words

/-! ### Whole bytes -/

/-- A vector register, as the bytes that are loaded or stored. -/
abbrev M128i := Vector UInt8 16

def loadu (mem : List UInt8) (i : ℕ) : M128i := .ofFn fun j => mem.getD (i + j) 0

def storeu (v : M128i) : List UInt8 := v.toList

def pack8bitSse2 (values : List UInt64) (i : ℕ) (out : List UInt8) : List UInt8 :=
  if _h : i + 16 ≤ values.length then
    let vals : Vector UInt8 16 := .ofFn fun j =>
      have := j.isLt
      values[i + j].toUInt8
    let buf := storeu (loadu vals.toList 0)
    pack8bitSse2 values (i + 16) (out ++ buf)
  else out ++ (values.drop i).map UInt64.toUInt8
termination_by values.length - i

def unpack8bitSse2 (packed : List UInt8) (count i : ℕ) (out : List UInt64) : List UInt64 :=
  if i + 16 ≤ count ∧ i + 16 ≤ packed.length then
    let buf := storeu (loadu packed i)
    unpack8bitSse2 packed count (i + 16) (out ++ buf.map UInt8.toUInt64)
  else out ++ (slice packed i (min count packed.length)).map UInt8.toUInt64
termination_by count - i

def pack8bit (sse2 : Bool) (values : List UInt64) : List UInt8 :=
  if sse2 then pack8bitSse2 values 0 [] else values.map UInt64.toUInt8

def unpack8bit (sse2 : Bool) (packed : List UInt8) (count : ℕ) : List UInt64 :=
  if sse2 then unpack8bitSse2 packed count 0 [] else (packed.take count).map UInt8.toUInt64

/-- The `width` low bytes of every value, least significant first. -/
def packBytes (width : ℕ) (values : List UInt64) : List UInt8 := values.flatMap fun v => toLE width v.toNat

def pack16bit : List UInt64 → List UInt8 := packBytes 2

def pack32bit : List UInt64 → List UInt8 := packBytes 4

def pack64bit : List UInt64 → List UInt8 := packBytes 8

/-- The values whose `width` bytes are there. -/
def unpackBytes (width : ℕ) (packed : List UInt8) (count : ℕ) : List UInt64 :=
  (List.range count).flatMap fun i =>
    let off := i * width
    if off + (width - 1) < packed.length then [UInt64.ofNat (fromLE (slice packed off (off + width)))] else []

def unpack16bit : List UInt8 → ℕ → List UInt64 := unpackBytes 2

def unpack32bit : List UInt8 → ℕ → List UInt64 := unpackBytes 4

def unpack64bit : List UInt8 → ℕ → List UInt64 := unpackBytes 8

/-! ### Bit by bit -/

def scalarMask (bits : ℕ) : UInt64 := if bits = 64 then 0xFFFFFFFFFFFFFFFF else 1 <<< UInt64.ofNat bits - 1

/-- `out[byte_idx] |= 1 << bit_idx`; `none` behind the end. -/
def setBit (out : List UInt8) (pos : ℕ) : Option (List UInt8) :=
  if pos / 8 < out.length then some (out.modify (pos / 8) (· ||| 1 <<< UInt8.ofNat (7 - pos % 8))) else none

def packField (val : UInt64) (bitPos bits : ℕ) (out : List UInt8) : Option (List UInt8) :=
  (List.range bits).foldlM (fun out b =>
    if val >>> UInt64.ofNat b &&& 1 != 0 then setBit out (bitPos + b) else some out) out

def packFields (bits : ℕ) : List UInt64 → ℕ → List UInt8 → Option (List UInt8)
  | [], _, out => some out
  | v :: values, bitPos, out => do
    let out ← packField (v &&& scalarMask bits) bitPos bits out
    packFields bits values (bitPos + bits) out

def packScalar (values : List UInt64) (bits : ℕ) : Option (List UInt8) :=
  let totalBits := values.length * bits
  let totalBytes := (totalBits + 7) / 8
  packFields bits values 0 (.replicate totalBytes 0)

def bitSet (packed : List UInt8) (pos : ℕ) : Bool :=
  decide (pos / 8 < packed.length) && (packed.getD (pos / 8) 0 >>> UInt8.ofNat (7 - pos % 8) &&& 1 != 0)

def unpackField (packed : List UInt8) (bitPos bits : ℕ) : UInt64 :=
  (List.range bits).foldl (fun val b =>
    if bitSet packed (bitPos + b) then val ||| 1 <<< UInt64.ofNat b else val) 0

def unpackScalar (packed : List UInt8) (count bits : ℕ) : List UInt64 :=
  (List.range count).map fun i => unpackField packed (i * bits) bits &&& scalarMask bits

/-! ### Every width -/

def packSimd (sse2 : Bool) (values : List UInt64) (bits : ℕ) : Option (List UInt8) :=
  match bits with
  | 0 => some []
  | 8 => some (pack8bit sse2 values)
  | 16 => some (pack16bit values)
  | 32 => some (pack32bit values)
  | 64 => some (pack64bit values)
  | _ => packScalar values bits

def unpackSimd (sse2 : Bool) (packed : List UInt8) (count bits : ℕ) : List UInt64 :=
  match bits with
  | 0 => .replicate count 0
  | 8 => unpack8bit sse2 packed count
  | 16 => unpack16bit packed count
  | 32 => unpack32bit packed count
  | 64 => unpack64bit packed count
  | _ => unpackScalar packed count bits

/-! ### The bits of the packed bytes -/

/-- Bit `k` is there and set. -/
def Bit (bytes : List UInt8) (k : ℕ) : Prop := (bitsOf bytes)[k]? = some true

theorem bit_iff {bytes : List UInt8} {k : ℕ} :
    Bit bytes k ↔ ∃ b, bytes[k / 8]? = some b ∧ b.toNat.testBit (7 - k % 8) = true := by
  rw [Bit, getElem?_bitsOf, Option.map_eq_some_iff]

theorem not_bit_replicate (n k : ℕ) : ¬Bit (.replicate n 0) k := by
  rw [bit_iff]
  rintro ⟨b, hb, hbit⟩
  rw [List.eq_of_mem_replicate (List.mem_of_getElem? hb)] at hbit
  simp at hbit

variable {i bits : ℕ}

theorem toNat_one_shiftLeft_byte (hi : i < 8) : ((1 : UInt8) <<< UInt8.ofNat i).toNat = 2 ^ i := by
  have hmod : (UInt8.ofNat i).toNat % 8 = i := by
    rw [UInt8.toNat_ofNat']
    omega
  have hpow : 2 ^ i < 2 ^ 8 := Nat.pow_lt_pow_right one_lt_two hi
  rw [UInt8.toNat_shiftLeft, hmod, UInt8.toNat_one, Nat.shiftLeft_eq, one_mul, Nat.mod_eq_of_lt hpow]

theorem toNat_one_shiftLeft (hi : i < 64) : ((1 : UInt64) <<< UInt64.ofNat i).toNat = 2 ^ i := by
  have hpow : 2 ^ i < 2 ^ 64 := Nat.pow_lt_pow_right one_lt_two hi
  rw [UInt64.toNat_shiftLeft, toNat_ofNat_shift hi, UInt64.toNat_one, Nat.shiftLeft_eq, one_mul,
    Nat.mod_eq_of_lt hpow]

theorem toNat_and_scalarMask (h : bits ≤ 64) (v : UInt64) :
    (v &&& scalarMask bits).toNat = v.toNat % 2 ^ bits := by
  rw [scalarMask]
  split_ifs with h64
  · subst h64
    rw [UInt64.toNat_and]
    exact Nat.and_two_pow_sub_one_eq_mod v.toNat 64
  · exact toNat_and_low v (lt_of_le_of_ne h h64)

theorem setBit_spec {out : List UInt8} {pos : ℕ} (h : pos < 8 * out.length) :
    ∃ out', setBit out pos = some out' ∧ out'.length = out.length ∧ ∀ k, Bit out' k ↔ Bit out k ∨ k = pos := by
  have hbyte : pos / 8 < out.length := by omega
  refine ⟨_, if_pos hbyte, List.length_modify .., fun k => ?_⟩
  rw [bit_iff, bit_iff, List.getElem?_modify]
  by_cases hk : pos / 8 = k / 8
  · have hlt : k / 8 < out.length := hk ▸ hbyte
    have hpow := toNat_one_shiftLeft_byte (i := 7 - pos % 8) (by omega)
    simp only [hk, if_true, List.getElem?_eq_getElem hlt, Option.map_eq_map, Option.map_some, Option.some.injEq,
      exists_eq_left', UInt8.toNat_or, hpow, Nat.testBit_or, Nat.testBit_two_pow, Bool.or_eq_true, decide_eq_true_eq]
    have hsame : 7 - pos % 8 = 7 - k % 8 ↔ k = pos := by omega
    rw [hsame]
  · have hne : k ≠ pos := fun h => hk (by rw [h])
    simp only [hk, if_false, hne, or_false, Option.map_eq_map, Option.map_id']

theorem packField_spec {val : UInt64} {bitPos : ℕ} {out : List UInt8} (hbits : bits ≤ 64)
    (h : bitPos + bits ≤ 8 * out.length) :
    ∃ out', packField val bitPos bits out = some out' ∧ out'.length = out.length ∧
      ∀ k, Bit out' k ↔ Bit out k ∨ bitPos ≤ k ∧ k < bitPos + bits ∧ val.toNat.testBit (k - bitPos) = true := by
  induction bits with
  | zero => exact ⟨out, rfl, rfl, fun k => (or_iff_left fun ⟨hle, hlt, _⟩ => by omega).symm⟩
  | succ bits ih =>
    obtain ⟨mid, hmid, hlength, hbit⟩ := ih (by omega) (by omega)
    have hstep : packField val bitPos (bits + 1) out =
        if val.toNat.testBit bits then setBit mid (bitPos + bits) else some mid := by
      rw [packField, List.range_succ, List.foldlM_append, ← packField, hmid, ← shiftRight_and_one_ne (by omega)]
      simp
    rw [hstep]
    have hlast : ∀ k, (bitPos ≤ k ∧ k < bitPos + (bits + 1) ∧ val.toNat.testBit (k - bitPos) = true) ↔
        (bitPos ≤ k ∧ k < bitPos + bits ∧ val.toNat.testBit (k - bitPos) = true) ∨
          k = bitPos + bits ∧ val.toNat.testBit bits = true := fun k => by
      by_cases hk : k = bitPos + bits
      · subst hk
        simp
      · have hlt : k < bitPos + (bits + 1) ↔ k < bitPos + bits := by omega
        simp [hk, hlt]
    split_ifs with hset
    · obtain ⟨out', hout, hlength', hbit'⟩ := @setBit_spec mid (bitPos + bits) (by omega)
      refine ⟨out', hout, hlength'.trans hlength, fun k => ?_⟩
      rw [hbit', hbit, hlast, and_iff_left hset, or_assoc]
    · refine ⟨mid, rfl, hlength, fun k => ?_⟩
      rw [hbit, hlast]
      simp [hset]

/-- Bit `k` of the fields of a list. -/
def fieldBit (bits : ℕ) (values : List UInt64) (k : ℕ) : Bool := (values.getD (k / bits) 0).toNat.testBit (k % bits)

theorem fieldBit_nil (bits k : ℕ) : fieldBit bits [] k = false := Nat.zero_testBit _

theorem fieldBit_cons (h : 1 ≤ bits) (v : UInt64) (values : List UInt64) (k : ℕ) :
    fieldBit bits (v :: values) k = if k < bits then v.toNat.testBit k else fieldBit bits values (k - bits) := by
  rw [fieldBit, fieldBit]
  split_ifs with hk
  · rw [Nat.div_eq_of_lt hk, Nat.mod_eq_of_lt hk, List.getD_cons_zero]
  · have hle : bits ≤ k := not_lt.mp hk
    rw [Nat.div_eq_sub_div h hle, Nat.mod_eq_sub_mod hle, List.getD_cons_succ]

theorem packFields_spec (h : 1 ≤ bits) (h64 : bits ≤ 64) {values : List UInt64} {bitPos : ℕ} {out : List UInt8}
    (hroom : bitPos + values.length * bits ≤ 8 * out.length) :
    ∃ out', packFields bits values bitPos out = some out' ∧ out'.length = out.length ∧
      ∀ k, Bit out' k ↔ Bit out k ∨ bitPos ≤ k ∧ fieldBit bits values (k - bitPos) = true := by
  induction values generalizing bitPos out with
  | nil => exact ⟨out, rfl, rfl, fun k => by simp [fieldBit_nil]⟩
  | cons v values ih =>
    rw [List.length_cons, Nat.succ_mul] at hroom
    obtain ⟨mid, hmid, hlength, hbit⟩ := @packField_spec bits (v &&& scalarMask bits) bitPos out h64 (by omega)
    obtain ⟨out', hout, hlength', hbit'⟩ := @ih (bitPos + bits) mid (by omega)
    refine ⟨out', by rw [packFields, hmid]; exact hout, hlength'.trans hlength, fun k => ?_⟩
    rw [hbit', hbit, fieldBit_cons h, or_assoc]
    refine or_congr_right ?_
    rw [toNat_and_scalarMask h64, Nat.testBit_mod_two_pow, Nat.sub_add_eq]
    by_cases hk : k - bitPos < bits
    · have hlow : k < bitPos + bits ↔ True := iff_true_intro (by omega)
      have hhigh : bitPos + bits ≤ k ↔ False := iff_false_intro (by omega)
      simp only [hk, hlow, hhigh, decide_true, Bool.true_and, true_and, false_and, or_false, if_true]
    · have hlow : k < bitPos + bits ↔ False := iff_false_intro (by omega)
      have hhigh : bitPos + bits ≤ k ↔ bitPos ≤ k := by omega
      simp only [hk, hlow, hhigh, false_and, and_false, false_or, if_false]

/-- **Bit `k` of the packed bytes is bit `k % bits` of the value `k / bits`.** -/
theorem packScalar_spec (h : 1 ≤ bits) (h64 : bits ≤ 64) (values : List UInt64) :
    ∃ packed, packScalar values bits = some packed ∧ ∀ k, Bit packed k ↔ fieldBit bits values k = true := by
  have hroom : 0 + values.length * bits ≤
      8 * (List.replicate ((values.length * bits + 7) / 8) (0 : UInt8)).length := by
    rw [List.length_replicate]
    omega
  obtain ⟨packed, hpacked, -, hbit⟩ := packFields_spec h h64 hroom
  refine ⟨packed, hpacked, fun k => (hbit k).trans ?_⟩
  rw [or_iff_right (not_bit_replicate _ k), and_iff_right (Nat.zero_le k), Nat.sub_zero]

/-! ### Reading the bits -/

theorem bitSet_iff {packed : List UInt8} {pos : ℕ} : bitSet packed pos = true ↔ Bit packed pos := by
  rw [bitSet, shiftRight_and_one_ne_byte (by omega), bit_iff, Bool.and_eq_true, decide_eq_true_eq]
  constructor
  · rintro ⟨hlt, hbit⟩
    rw [List.getD_eq_getElem _ _ hlt] at hbit
    exact ⟨_, List.getElem?_eq_getElem hlt, hbit⟩
  · rintro ⟨b, hb, hbit⟩
    obtain ⟨hlt, rfl⟩ := List.getElem?_eq_some_iff.mp hb
    exact ⟨hlt, by rwa [List.getD_eq_getElem _ _ hlt]⟩

theorem testBit_unpackField {packed : List UInt8} {bitPos : ℕ} (h : bits ≤ 64) (j : ℕ) :
    (unpackField packed bitPos bits).toNat.testBit j = (decide (j < bits) && bitSet packed (bitPos + j)) := by
  induction bits with
  | zero => simp [unpackField]
  | succ bits ih =>
    have hstep : unpackField packed bitPos (bits + 1) =
        if bitSet packed (bitPos + bits) then unpackField packed bitPos bits ||| 1 <<< UInt64.ofNat bits
        else unpackField packed bitPos bits := by simp [unpackField, List.range_succ]
    have hold := ih (by omega)
    rw [hstep]
    by_cases hj : j = bits
    · subst hj
      rw [decide_eq_false (lt_irrefl j), Bool.false_and] at hold
      rw [decide_eq_true (Nat.lt_succ_self j), Bool.true_and]
      split_ifs with hset
      · rw [UInt64.toNat_or, Nat.testBit_or, hold, toNat_one_shiftLeft (by omega), Nat.testBit_two_pow_self, hset,
          Bool.false_or]
      · rw [hold, Bool.eq_false_of_not_eq_true hset]
    · have hlt : j < bits + 1 ↔ j < bits := by omega
      rw [decide_eq_decide.mpr hlt, ← hold]
      split_ifs with hset
      · rw [UInt64.toNat_or, Nat.testBit_or, toNat_one_shiftLeft (by omega), Nat.testBit_two_pow_of_ne (Ne.symm hj),
          Bool.or_false]
      · rfl

/-- The bits of a field are read as the value. -/
theorem unpackField_eq {packed : List UInt8} {values : List UInt64} (h64 : bits ≤ 64) (hi : i < values.length)
    (hbit : ∀ k, Bit packed k ↔ fieldBit bits values k = true) :
    (unpackField packed (i * bits) bits).toNat = values[i].toNat % 2 ^ bits := by
  refine Nat.eq_of_testBit_eq fun j => ?_
  rw [testBit_unpackField h64, Nat.testBit_mod_two_pow]
  by_cases hj : j < bits
  · have hread : bitSet packed (i * bits + j) = fieldBit bits values (i * bits + j) := by
      rw [Bool.eq_iff_iff, bitSet_iff, hbit]
    have hdiv : (i * bits + j) / bits = i := by
      rw [Nat.mul_comm, Nat.mul_add_div (by omega), Nat.div_eq_of_lt hj, Nat.add_zero]
    have hmod : (i * bits + j) % bits = j := by rw [Nat.mul_comm, Nat.mul_add_mod, Nat.mod_eq_of_lt hj]
    rw [hread, fieldBit, hdiv, hmod, List.getD_eq_getElem _ _ hi]
  · simp [hj]

/-- A value without the bits above a width. -/
def lowBits (bits : ℕ) (v : UInt64) : UInt64 := UInt64.ofNat (v.toNat % 2 ^ bits)

theorem toNat_lowBits (bits : ℕ) (v : UInt64) : (lowBits bits v).toNat = v.toNat % 2 ^ bits := by
  rw [lowBits, UInt64.toNat_ofNat']
  exact Nat.mod_eq_of_lt ((Nat.mod_le _ _).trans_lt v.toNat_lt)

theorem unpackScalar_packScalar (h : 1 ≤ bits) (h64 : bits ≤ 64) (values : List UInt64) :
    ∃ packed, packScalar values bits = some packed ∧
      unpackScalar packed values.length bits = values.map (lowBits bits) := by
  obtain ⟨packed, hpacked, hbit⟩ := packScalar_spec h h64 values
  refine ⟨packed, hpacked, List.ext_getElem (by simp [unpackScalar]) fun i hi hi' => ?_⟩
  have hlt : i < values.length := by simpa using hi'
  rw [List.getElem_map, ← UInt64.toNat_inj, toNat_lowBits]
  simp only [unpackScalar, List.getElem_map, List.getElem_range]
  rw [toNat_and_scalarMask h64, unpackField_eq h64 hlt hbit, Nat.mod_mod]

/-! ### Vectors and whole bytes -/

/-- A load copies the bytes that are there. -/
theorem storeu_loadu {mem : List UInt8} (h : i + 16 ≤ mem.length) :
    storeu (loadu mem i) = slice mem i (i + 16) := by
  refine List.ext_getElem (by rw [slice_length h]; simp [storeu]) fun j hj hj' => ?_
  have hlt : j < 16 := by simpa [storeu] using hj
  simp only [storeu, loadu, Vector.getElem_toList, Vector.getElem_ofFn, slice, List.getElem_take, List.getElem_drop]
  exact List.getD_eq_getElem _ _ (by omega)

theorem pack8bitSse2_eq (values : List UInt64) (i : ℕ) (out : List UInt8) :
    pack8bitSse2 values i out = out ++ (values.drop i).map UInt64.toUInt8 := by
  fun_induction pack8bitSse2 values i out with
  | case1 i out h vals buf ih =>
    have hvals : vals.toList = ((values.drop i).take 16).map UInt64.toUInt8 := by
      refine List.ext_getElem (by simp; omega) fun j hj hj' => ?_
      simp [vals]
    have hbuf : buf = vals.toList := (storeu_loadu (by simp)).trans (by simp [slice])
    rw [ih, hbuf, hvals, List.append_assoc, ← List.map_append, ← List.drop_drop, List.take_append_drop]
  | case2 i out h => rfl

theorem unpack8bitSse2_eq (packed : List UInt8) (count i : ℕ) (out : List UInt64) :
    unpack8bitSse2 packed count i out = out ++ (slice packed i (min count packed.length)).map UInt8.toUInt64 := by
  fun_induction unpack8bitSse2 packed count i out with
  | case1 i out h buf ih =>
    have hbuf : buf = slice packed i (i + 16) := storeu_loadu h.2
    rw [ih, hbuf, List.append_assoc, ← List.map_append,
      slice_append_slice (Nat.le_add_right i 16) (le_min h.1 h.2)]
  | case2 i out h => rfl

/-- Both paths pack the low bytes. -/
theorem pack8bit_eq (sse2 : Bool) (values : List UInt64) : pack8bit sse2 values = values.map UInt64.toUInt8 := by
  simp [pack8bit, pack8bitSse2_eq]

theorem unpack8bit_eq (sse2 : Bool) (packed : List UInt8) (count : ℕ) :
    unpack8bit sse2 packed count = (packed.take count).map UInt8.toUInt64 := by
  rw [unpack8bit, unpack8bitSse2_eq]
  cases sse2 with
  | false => rfl
  | true => rw [if_pos rfl, List.nil_append, slice_zero, ← List.take_take, List.take_length]

theorem toUInt64_toUInt8 (v : UInt64) : v.toUInt8.toUInt64 = lowBits 8 v := by
  rw [← UInt64.toNat_inj, toNat_lowBits, UInt8.toNat_toUInt64, UInt64.toNat_toUInt8]

theorem unpackBytes_packBytes {width : ℕ} (h : 1 ≤ width) (values : List UInt64) :
    unpackBytes width (packBytes width values) values.length = values.map (lowBits (8 * width)) := by
  have hwidth : ∀ v ∈ values, (toLE width v.toNat).length = width := fun v _ => toLE_length width v.toNat
  have hread : ∀ i ∈ List.range values.length,
      (if i * width + (width - 1) < (packBytes width values).length then
        [UInt64.ofNat (fromLE (slice (packBytes width values) (i * width) (i * width + width)))] else []) =
      [lowBits (8 * width) (values.getD i 0)] := fun i hi => by
    have hlt : i < values.length := List.mem_range.mp hi
    have hlength : (packBytes width values).length = values.length * width := length_flatMap hwidth
    have hmul : (i + 1) * width ≤ values.length * width := Nat.mul_le_mul_right width hlt
    rw [Nat.succ_mul] at hmul
    rw [if_pos (by omega), packBytes, slice_flatMap hwidth hlt, fromLE_toLE, List.getD_eq_getElem _ _ hlt, lowBits,
      pow_mul]
    rfl
  rw [unpackBytes, List.flatMap_congr hread, ← List.map_eq_flatMap]
  refine List.ext_getElem (by simp) fun i hi hi' => ?_
  have hlt : i < values.length := by simpa using hi'
  rw [List.getElem_map, List.getElem_range, List.getElem_map, List.getD_eq_getElem _ _ hlt]

/-- **Packing and unpacking return every value modulo `2 ^ bits`**, each with vector instructions or without. -/
theorem unpackSimd_packSimd (sse2 sse2' : Bool) {bits : ℕ} (h : 1 ≤ bits) (h64 : bits ≤ 64) (values : List UInt64) :
    ∃ packed, packSimd sse2 values bits = some packed ∧
      unpackSimd sse2' packed values.length bits = values.map (lowBits bits) := by
  unfold packSimd unpackSimd
  split
  · omega
  · refine ⟨_, rfl, ?_⟩
    rw [unpack8bit_eq, pack8bit_eq, List.take_of_length_le (by rw [List.length_map]), List.map_map]
    exact List.map_congr_left fun v _ => toUInt64_toUInt8 v
  · exact ⟨_, rfl, unpackBytes_packBytes (by decide) values⟩
  · exact ⟨_, rfl, unpackBytes_packBytes (by decide) values⟩
  · exact ⟨_, rfl, unpackBytes_packBytes (by decide) values⟩
  · exact unpackScalar_packScalar h h64 values

/-- Three fields of five bits, the second across the end of a byte. -/
theorem unpackSimd_packSimd_five :
    ∃ packed, packSimd true [33, 7, 255] 5 = some packed ∧ unpackSimd true packed 3 5 = [1, 7, 31] :=
  unpackSimd_packSimd true true (by decide) (by decide) [33, 7, 255]

end CenDB.Storage
