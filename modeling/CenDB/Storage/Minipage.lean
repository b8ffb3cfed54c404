import CenDB.Storage.Codecs
import CenDB.Storage.Dictionary

/-! # Minipages

`encodeMinipage` encodes a column with a given encoding, without the leading discriminant, and
`decodeMinipage` puts the discriminant back.  `Fits` says which columns an encoding brings back
(`decodeMinipage_encodeMinipage`), and `autoSelectEncodingI64` always chooses an encoding that
fits its column (`fits_autoSelectEncodingI64`, `decodeMinipage_autoSelect`). -/

namespace CenDB.Storage

open Words List

/-- A codec: from values to bytes with a leading discriminant, and back. -/
structure EncodingCodec where
  encode : List Int64 → Except Halt (List UInt8)
  decode : List UInt8 → ℕ → Except Halt (List Int64)

/-- The codec of an encoding. -/
def codecFor : Encoding → EncodingCodec
  | .raw => ⟨RawCodec.encode, RawCodec.decode⟩
  | .bitPacked _ => ⟨BitPackedCodec.encode, BitPackedCodec.decode⟩
  | .frameOfReference _ _ => ⟨FrameOfReferenceCodec.encode, FrameOfReferenceCodec.decode⟩
  | .deltaOfDelta => ⟨DeltaOfDeltaCodec.encode, DeltaOfDeltaCodec.decode⟩
  | .runLength => ⟨RunLengthCodec.encode, RunLengthCodec.decode⟩
  | .dictionary _ => ⟨DictionaryCodec.encode, DictionaryCodec.decode⟩
  -- these stand for codecs that do not exist yet
  | .gorilla => ⟨RawCodec.encode, RawCodec.decode⟩
  | .chimp128 => ⟨RawCodec.encode, RawCodec.decode⟩
  | .fsst => ⟨RawCodec.encode, RawCodec.decode⟩

/-- Encode a column, without the leading discriminant. -/
def encodeMinipage (enc : Encoding) (vals : List Int64) : Except Halt (List UInt8) :=
  match (codecFor enc).encode vals with
  | .error e => .error e
  | .ok bytes => .ok (bytes.drop 1)

/-- Decode a column whose encoding is known. -/
def decodeMinipage (enc : Encoding) (bytes : List UInt8) (count : ℕ) : Except Halt (List Int64) :=
  (codecFor enc).decode (enc.discriminant :: bytes) count

/-! ### Automatic selection -/

/-- `step_by`: the first element and then every `stride`-th. -/
def stepBy (stride : ℕ) : List Int64 → List Int64
  | [] => []
  | v :: vals => v :: stepBy stride (vals.drop (stride - 1))
  termination_by vals => vals.length
  decreasing_by
    rw [List.length_drop, List.length_cons]
    omega

/-- The values whose distinct number is counted. -/
def sampleOf (vals : List Int64) : List Int64 :=
  if vals.length ≤ 10000 then vals else stepBy (vals.length / 10000) vals

/-- The number of distinct values, extrapolated from the sample of a long column. -/
def cardinalityOf (vals : List Int64) : ℕ :=
  let sampledCardinality := (DictionaryCodec.dictOf (sampleOf vals)).length
  if vals.length ≤ 10000 then sampledCardinality
  else min (sampledCardinality * vals.length / min vals.length 10000) vals.length

/-- Few distinct values, at most one per hundred rows. -/
def lowCardinality (vals : List Int64) : Bool :=
  decide (cardinalityOf vals ≤ 4096) &&
    decide (Float.ofNat (cardinalityOf vals) / Float.ofNat vals.length ≤ 0.01) &&
      decide (requiredBits (UInt64.ofNat (cardinalityOf vals)) ≤ 12)

/-- Pairs of neighbours. -/
def neighbours (vals : List Int64) : List (Int64 × Int64) := vals.zip vals.tail

/-- Monotonic, or mostly so over a range of more than 16 bits, and not a plateau at the start. -/
def deltasPay (vals : List Int64) (minV maxV : Int64) : Bool :=
  let nonDecPairs := (neighbours vals).countP fun p => decide (p.1 ≤ p.2)
  let nonIncPairs := (neighbours vals).countP fun p => decide (p.2 ≤ p.1)
  let totalPairs := vals.length - 1
  let strictlyMonotonic := nonDecPairs == totalPairs || nonIncPairs == totalPairs
  let pairRatio := Float.ofNat (max nonDecPairs nonIncPairs) / Float.ofNat totalPairs
  let netTrend := vals.getD (vals.length - 1) 0 - vals.getD 0 0
  let range := rangeOf minV maxV
  let rangeBits := if range = 0 then 0 else range.toNat.size
  let mostlyMonotonic := decide (0.80 ≤ pairRatio) && netTrend != 0 && decide (16 < rangeBits)
  let firstDelta := vals.getD 1 0 - vals.getD 0 0
  let allSameDelta := (neighbours vals.tail).all fun p => p.2 - p.1 == firstDelta
  (strictlyMonotonic || mostlyMonotonic) && (allSameDelta || firstDelta != 0)

/-- The encoding for a column. -/
def autoSelectEncodingI64 (vals : List Int64) : Encoding :=
  if vals.length < 2 then .raw
  else if lowCardinality vals then .dictionary 0
  else
    let minV := minOf (vals.getD 0 0) vals
    let maxV := maxOf (vals.getD 0 0) vals
    let range := rangeOf minV maxV
    if deltasPay vals minV maxV then .deltaOfDelta
    else if 0 ≤ minV ∧ requiredBits maxV.toUInt64 ≤ 16 then
      .bitPacked (UInt8.ofNat (requiredBits maxV.toUInt64))
    else if (0 ≤ minV ∨ maxV < 0 ∨ maxV.toInt - minV.toInt < 2 ^ 32) ∧
        0 < range ∧ range < (1 : UInt64) <<< 32 ∧ requiredBits range ≤ 32 then
      .frameOfReference minV (UInt8.ofNat (requiredBits range))
    else .raw

/-! ### Round trips -/

/-- The columns that an encoding brings back. -/
def Fits (enc : Encoding) (vals : List Int64) : Prop :=
  match enc with
  | .bitPacked _ => ∀ v ∈ vals, v.toInt < 2 ^ 56
  | .frameOfReference _ _ => vals ≠ [] ∧ ∀ v ∈ vals, ∀ w ∈ vals, w.toInt - v.toInt < 2 ^ 56
  | .dictionary _ => vals.toFinset.card < 2 ^ 32
  | .runLength => ∀ r ∈ RunLengthCodec.runs vals, r.1 < 2 ^ 32
  | _ => True

variable {vals : List Int64} {enc : Encoding}

variable {bytes page : List UInt8} {m n : ℕ}

/-- Every encoding starts with its discriminant. -/
theorem encode_cons (enc : Encoding) (h : (codecFor enc).encode vals = .ok bytes) :
    ∃ head body, bytes = head :: body := by
  have hraw {bytes : List UInt8} (h : RawCodec.encode vals = .ok bytes) :
      ∃ head body, bytes = head :: body := ⟨_, _, (Except.ok.inj h).symm⟩
  cases enc with
  | raw | gorilla | chimp128 | fsst => exact hraw h
  | bitPacked bits =>
    by_cases hneg : (vals.any fun v => v < 0) = true
    · have herr : BitPackedCodec.encode vals = .error _ := if_pos hneg
      exact absurd (herr.symm.trans h) (by simp)
    · exact ⟨_, _, (Except.ok.inj ((if_neg hneg).symm.trans h)).symm⟩
  | frameOfReference base bits | dictionary dictId | runLength =>
    cases vals with
    | nil | cons v vals => exact ⟨_, _, (Except.ok.inj h).symm⟩
  | deltaOfDelta =>
    match vals with
    | [] => exact ⟨_, _, (Except.ok.inj h).symm⟩
    | [v] => exact ⟨_, _, (Except.ok.inj h).symm⟩
    | v :: w :: vals => exact ⟨_, _, (Except.ok.inj h).symm⟩

/-- A column comes back from its codec if and only if the encoding fits it. -/
theorem codec_decode_encode (enc : Encoding) {head : UInt8} {body : List UInt8}
    (h : (codecFor enc).encode vals = .ok (head :: body)) (d : UInt8) :
    (codecFor enc).decode (d :: body) vals.length = .ok vals ↔ Fits enc vals := by
  cases enc with
  | raw | gorilla | chimp128 | fsst => exact iff_of_true (RawCodec.decode_encode h d) trivial
  | bitPacked bits => exact BitPackedCodec.decode_encode h d
  | frameOfReference base bits => exact FrameOfReferenceCodec.decode_encode h d
  | deltaOfDelta => exact iff_of_true (DeltaOfDeltaCodec.decode_encode h d) trivial
  | dictionary dictId => exact DictionaryCodec.decode_encode h d
  | runLength => exact RunLengthCodec.decode_encode h d

/-- What `encodeMinipage` returns, in terms of the codec. -/
theorem encodeMinipage_eq_ok : encodeMinipage enc vals = .ok bytes ↔
      ∃ head, (codecFor enc).encode vals = .ok (head :: bytes) := by
  unfold encodeMinipage
  cases h : (codecFor enc).encode vals with
  | error e => simp
  | ok all =>
    obtain ⟨head, body, rfl⟩ := encode_cons enc h
    simp

/-- **A minipage brings back a column that it accepts if and only if its encoding fits.** -/
theorem decodeMinipage_encodeMinipage (enc : Encoding) (vals : List Int64) (bytes : List UInt8)
    (h : encodeMinipage enc vals = .ok bytes) :
    decodeMinipage enc bytes vals.length = .ok vals ↔ Fits enc vals := by
  obtain ⟨head, henc⟩ := encodeMinipage_eq_ok.mp h
  exact codec_decode_encode enc henc enc.discriminant

theorem decodeMinipage_encodeMinipage_pair :
    decodeMinipage .runLength [2, 0, 0, 0, 7, 0, 0, 0, 0, 0, 0, 0] 2 = .ok [7, 7] ↔ Fits .runLength [7, 7] :=
  decodeMinipage_encodeMinipage .runLength [7, 7] _ (by decide)

/-- The bits above 56 of a bit-packed value are lost: 57 bits are declared and used, and the value
comes back as zero. -/
theorem bitPacked_loses_bits :
    encodeMinipage (.bitPacked 57) [72057594037927936] = .ok [57, 0, 0, 0, 0, 0, 0, 0, 1] ∧
      decodeMinipage (.bitPacked 57) [57, 0, 0, 0, 0, 0, 0, 0, 1] 1 = .ok [0] := by
  decide +kernel

/-! ### Reading with the tag on disk -/

/-- The tag of an encoding is in its discriminant. -/
theorem discriminant_and (enc : Encoding) : enc.discriminant &&& 0x0F = enc.tag := by
  apply UInt8.toBitVec_inj.mp
  have hparam (x : BitVec 8) : x <<< 4 &&& 15#8 = 0#8 := by
    apply BitVec.eq_of_toNat_eq
    have hmask : x.toNat <<< 4 % 2 ^ 8 &&& 15 = x.toNat <<< 4 % 2 ^ 8 % 2 ^ 4 := Nat.and_two_pow_sub_one_eq_mod _ 4
    rw [BitVec.toNat_and, BitVec.toNat_shiftLeft]
    change x.toNat <<< 4 % 2 ^ 8 &&& 15 = 0
    rw [hmask, Nat.shiftLeft_eq]
    omega
  have htag : enc.tag.toBitVec &&& 15#8 = enc.tag.toBitVec := by
    unfold Encoding.tag
    split <;> decide
  calc (enc.tag.toBitVec ||| enc.param.toBitVec <<< 4) &&& 15#8
      = enc.tag.toBitVec &&& 15#8 ||| enc.param.toBitVec <<< 4 &&& 15#8 := BitVec.and_or_distrib_right
    _ = enc.tag.toBitVec := by rw [hparam, htag, BitVec.or_zero]

theorem codecFor_fromDiscriminant (enc : Encoding) :
    codecFor (.fromDiscriminant enc.discriminant) = codecFor enc := by
  unfold Encoding.fromDiscriminant
  rw [discriminant_and]
  cases enc <;> rfl

/-- No codec reads the leading byte. -/
theorem codec_decode_head (enc : Encoding) (d d' : UInt8) (bytes : List UInt8) (count : ℕ) :
    (codecFor enc).decode (d :: bytes) count = (codecFor enc).decode (d' :: bytes) count := by
  cases enc <;> rfl

/-- What is lost of an encoding on disk does not matter to its decoder. -/
theorem decodeMinipage_fromDiscriminant (enc : Encoding) (bytes : List UInt8) (count : ℕ) :
    decodeMinipage (.fromDiscriminant enc.discriminant) bytes count = decodeMinipage enc bytes count := by
  unfold decodeMinipage
  rw [codecFor_fromDiscriminant]
  exact codec_decode_head enc _ _ bytes count

/-- Decoding fewer values returns the first of them. -/
theorem codec_decode_take (hmn : m ≤ n) (h : (codecFor enc).decode bytes n = .ok vals) :
    (codecFor enc).decode bytes m = .ok (vals.take m) := by
  cases enc with
  | raw | gorilla | chimp128 | fsst => exact RawCodec.decode_take hmn h
  | bitPacked bits => exact BitPackedCodec.decode_take hmn h
  | frameOfReference base bits => exact FrameOfReferenceCodec.decode_take hmn h
  | deltaOfDelta => exact DeltaOfDeltaCodec.decode_take hmn h
  | dictionary dictId => exact DictionaryCodec.decode_take hmn h
  | runLength => exact RunLengthCodec.decode_take hmn h

/-- The first values of a column that its encoding fits. -/
theorem decodeMinipage_of_fits (h : encodeMinipage enc vals = .ok page) (hfits : Fits enc vals)
    (hm : m ≤ vals.length) :
    decodeMinipage enc page m = .ok (vals.take m) := by
  obtain ⟨head, henc⟩ := encodeMinipage_eq_ok.mp h
  exact codec_decode_take hm ((codec_decode_encode enc henc enc.discriminant).mpr hfits)

/-- A minipage of fewer than `2 ^ 32` bytes decodes to as many values as its `u32` count says. -/
theorem length_decodeMinipage (hne : vals ≠ []) (h : encodeMinipage enc vals = .ok page)
    (hpage : page.length < 2 ^ 32) :
    ∃ out, decodeMinipage enc page (vals.length % 2 ^ 32) = .ok out ∧ out.length = vals.length % 2 ^ 32 := by
  have hle := Nat.mod_le vals.length (2 ^ 32)
  have hlossless (hfits : Fits enc vals) : ∃ out, decodeMinipage enc page (vals.length % 2 ^ 32) = .ok out ∧
        out.length = vals.length % 2 ^ 32 :=
    ⟨_, decodeMinipage_of_fits h hfits hle, by rw [length_take, Nat.min_eq_left hle]⟩
  obtain ⟨head, henc⟩ := encodeMinipage_eq_ok.mp h
  cases enc with
  | raw | deltaOfDelta | gorilla | chimp128 | fsst => exact hlossless trivial
  | bitPacked bits => exact BitPackedCodec.length_decode henc _ _
  | frameOfReference base bits => exact FrameOfReferenceCodec.length_decode hne henc _ _
  | dictionary dictId => exact hlossless (lt_of_le_of_lt (DictionaryCodec.card_of_encode henc) hpage)
  | runLength => exact RunLengthCodec.length_decode henc _

/-- No values come out of an empty minipage. -/
theorem decodeMinipage_nil {out : List Int64} (hn : 0 < n) (h : decodeMinipage enc [] n = .ok out) :
    out = [] := by
  have hraw (d : UInt8) : RawCodec.decode [d] n ≠ .ok out := by
    simp [RawCodec.decode, hn]
  unfold decodeMinipage at h
  cases enc with
  | raw | gorilla | chimp128 | fsst => exact absurd h (hraw _)
  | bitPacked bits | frameOfReference base bits | dictionary dictId => cases h
  | deltaOfDelta => simp [codecFor, DeltaOfDeltaCodec.decode, hn.ne'] at h
  | runLength =>
    have hout := Except.ok.inj h
    rw [RunLengthCodec.decodeLoop, if_neg (by simp)] at hout
    exact hout.symm

/-- Only a raw minipage has the raw tag. -/
theorem discriminant_eq_raw (h : enc.discriminant = Encoding.raw.discriminant) : enc = .raw := by
  have htag := discriminant_and enc
  rw [h, discriminant_and] at htag
  cases enc <;> simp [Encoding.tag] at htag ⊢

/-! ### The selected encoding -/

/-- Only negative values are refused, and only by the bit-packed codec. -/
theorem encodeMinipage_isOk (h : ∀ bits, enc = .bitPacked bits → ∀ v ∈ vals, 0 ≤ v.toInt) :
    ∃ bytes, encodeMinipage enc vals = .ok bytes := by
  have hok {e : Except Halt (List UInt8)} {all : List UInt8} (he : e = .ok all) : ∃ bytes, (match e with
        | .error e => (.error e : Except Halt (List UInt8))
        | .ok bytes => .ok (bytes.drop 1)) = .ok bytes := ⟨all.drop 1, by rw [he]⟩
  cases enc with
  | raw | gorilla | chimp128 | fsst => exact hok rfl
  | bitPacked bits =>
    have hneg : ¬ (vals.any fun v => v < 0) = true := by
      rw [any_eq_true, not_exists]
      intro v hv
      have hlt := Int64.lt_iff_toInt_lt.mp (of_decide_eq_true hv.2)
      exact absurd hlt (not_lt.mpr (h bits rfl v hv.1))
    exact hok (if_neg hneg)
  | frameOfReference base bits | dictionary dictId | runLength =>
    cases vals with
    | nil | cons v vals => exact hok rfl
  | deltaOfDelta =>
    match vals with
    | [] => exact hok rfl
    | [v] => exact hok rfl
    | v :: w :: vals => exact hok rfl

/-- A column with few distinct values is short, or its sample would have shown more. -/
theorem few_of_lowCardinality (h : lowCardinality vals = true) : vals.toFinset.card < 2 ^ 32 := by
  have hcard := toFinset_card_le vals
  unfold lowCardinality at h
  rw [Bool.and_eq_true, Bool.and_eq_true, decide_eq_true_iff] at h
  have hle := h.1.1
  by_cases hshort : vals.length ≤ 10000
  · omega
  · have hsampled : 1 ≤ (DictionaryCodec.dictOf (sampleOf vals)).length := by
      rw [DictionaryCodec.length_dictOf, Finset.one_le_card]
      cases hvals : vals with
      | nil =>
        rw [hvals] at hshort
        exact absurd (Nat.zero_le _) hshort
      | cons v rest =>
        refine ⟨v, mem_toFinset.mpr ?_⟩
        rw [hvals] at hshort
        rw [sampleOf, if_neg hshort, stepBy]
        exact mem_cons_self
    unfold cardinalityOf at hle
    dsimp only at hle
    have hcap : min vals.length 10000 = 10000 := by omega
    rw [if_neg hshort, hcap] at hle
    have hprod := Nat.mul_le_mul_right vals.length hsampled
    have hdiv := Nat.div_le_div_right (c := 10000) hprod
    omega

/-- **Automatic selection chooses an encoding that fits the column.** -/
theorem fits_autoSelectEncodingI64 (vals : List Int64) : Fits (autoSelectEncodingI64 vals) vals ∧
      ∀ bits, autoSelectEncodingI64 vals = .bitPacked bits → ∀ v ∈ vals, 0 ≤ v.toInt := by
  unfold autoSelectEncodingI64
  by_cases hshort : vals.length < 2
  · rw [if_pos hshort]
    exact ⟨trivial, fun bits heq => by cases heq⟩
  · rw [if_neg hshort]
    by_cases hfew : lowCardinality vals = true
    · rw [if_pos hfew]
      exact ⟨few_of_lowCardinality hfew, fun bits heq => by cases heq⟩
    · rw [if_neg hfew]
      have hne : vals ≠ [] := fun hnil => hshort (by rw [hnil]; decide)
      have hfirst : vals.getD 0 0 ∈ vals := by
        rw [getD_eq_getElem _ _ (by omega)]
        exact getElem_mem _
      obtain ⟨-, hmin⟩ := minOf_spec (vals.getD 0 0) vals
      obtain ⟨-, hmax⟩ := maxOf_spec (vals.getD 0 0) vals
      replace hmin := fun v (hv : v ∈ vals) => hmin v (mem_cons_of_mem _ hv)
      replace hmax := fun v (hv : v ∈ vals) => hmax v (mem_cons_of_mem _ hv)
      generalize minOf (vals.getD 0 0) vals = minV at hmin
      generalize maxOf (vals.getD 0 0) vals = maxV at hmax
      dsimp only
      by_cases hdeltas : deltasPay vals minV maxV = true
      · rw [if_pos hdeltas]
        exact ⟨trivial, fun bits heq => by cases heq⟩
      · rw [if_neg hdeltas]
        by_cases hpack : 0 ≤ minV ∧ requiredBits maxV.toUInt64 ≤ 16
        · rw [if_pos hpack]
          have hminNonneg : 0 ≤ minV.toInt := Int64.le_iff_toInt_le.mp hpack.1
          have hmaxNonneg := hminNonneg.trans ((hmin _ hfirst).trans (hmax _ hfirst))
          have hnat := toNat_toUInt64 hmaxNonneg
          have hsmall := (requiredBits_le (by decide)).mp hpack.2
          refine ⟨fun v hv => ?_, fun bits _ v hv => hminNonneg.trans (hmin v hv)⟩
          have hv' := hmax v hv
          omega
        · rw [if_neg hpack]
          refine ⟨?_, fun bits heq => ?_⟩
          · split
            · rename_i hframe
              refine ⟨hne, fun v hv w hw => ?_⟩
              have hrange := FrameOfReferenceCodec.toNat_rangeOf ((hmin _ hfirst).trans (hmax _ hfirst))
              have hsmall := (requiredBits_le (by decide)).mp hframe.2.2.2
              have hlow := hmin v hv
              have hhigh := hmax w hw
              omega
            · trivial
          · split at heq <;> cases heq

/-- **Automatic column encoding is lossless.** -/
theorem decodeMinipage_autoSelect (vals : List Int64) :
    ∃ bytes, encodeMinipage (autoSelectEncodingI64 vals) vals = .ok bytes ∧
      decodeMinipage (autoSelectEncodingI64 vals) bytes vals.length = .ok vals := by
  obtain ⟨hfits, hnonneg⟩ := fits_autoSelectEncodingI64 vals
  obtain ⟨bytes, hbytes⟩ := encodeMinipage_isOk hnonneg
  obtain ⟨head, henc⟩ := encodeMinipage_eq_ok.mp hbytes
  exact ⟨bytes, hbytes, (codec_decode_encode _ henc _).mpr hfits⟩

end CenDB.Storage
