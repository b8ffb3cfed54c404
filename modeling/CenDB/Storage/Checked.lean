import CenDB.Lib.Guarded
import CenDB.Storage.Minipage

/-! # Decoding with every access checked

The decoders again, with every index, slice, shift and reservation as the source makes it: one that is out of
its range is a panic.  Lengths wrap around as in a release build.

Below `2 ^ 60` values, which is what can be reserved, the checks never fail and the decoders are those of
the other modules (`decodeMinipage_eq`), except for the first value of an empty dictionary. -/

namespace CenDB.Storage.Checked

open Words List Bool

def index {α : Type} (xs : List α) (i : ℕ) : Except Halt α := Guarded.index .panic xs i

def takeAt (bytes : List UInt8) (off n : ℕ) : Except Halt (List UInt8) := Guarded.takeAt .panic bytes off n

def slice (bytes : List UInt8) (i j : ℕ) : Except Halt (List UInt8) := Guarded.slice .panic bytes i j

/-- `from_le_bytes` of eight bytes. -/
def i64Of (bytes : List UInt8) : Int64 := (UInt64.ofNat (fromLE bytes)).toInt64

/-- `from_le_bytes` of four bytes. -/
def u32Of (bytes : List UInt8) : UInt32 := UInt32.ofNat (fromLE bytes)

/-- `Vec::with_capacity` of eight-byte values: at most `isize::MAX` bytes. -/
def reserve (count : ℕ) : Except Halt Unit := if count * 8 < 2 ^ 63 then .ok () else .error .panic

/-! ### Raw -/

def rawDecode (bytes : List UInt8) (count : ℕ) : Except Halt (List Int64) :=
  if bytes.isEmpty then return []
  else do
    let body ← slice bytes 1 bytes.length
    let need := count * 8 % 2 ^ 64
    if body.length < need then throw (corrupt s!"Raw decode: need {need} bytes, got {body.length}")
    else do
      reserve count
      (List.range count).mapM fun i => i64Of <$> takeAt body (i * 8) 8

/-! ### Fixed widths -/

/-- Fill the buffer: the index of the next byte, the buffer and its size in bits. -/
def refill (bits : ℕ) (body : List UInt8) (byteIdx : ℕ) (bitBuf : UInt64) (bitsInBuf : ℕ) :
    Except Halt (ℕ × UInt64 × ℕ) :=
  if bitsInBuf < bits ∧ byteIdx < body.length ∧ bitsInBuf < 56 then do
    let b ← index body byteIdx
    let x ← Guarded.shl .panic b.toUInt64 bitsInBuf
    refill bits body (byteIdx + 1) (bitBuf ||| x) (bitsInBuf + 8)
  else return (byteIdx, bitBuf, bitsInBuf)
  termination_by body.length - byteIdx

def unpackMask (bits : ℕ) : Except Halt UInt64 :=
  if 64 ≤ bits then return 0xFFFFFFFFFFFFFFFF
  else do
    let x ← Guarded.shl .panic 1 bits
    return x - 1

/-- The buffer without its lowest field. -/
def dropField (bits : ℕ) (bitBuf : UInt64) : Except Halt UInt64 :=
  if 64 ≤ bits then return 0 else Guarded.shr .panic bitBuf bits

def unpackBits (bits : ℕ) (mask : UInt64) (body : List UInt8) : ℕ → ℕ → UInt64 → ℕ → Except Halt (List UInt64)
  | 0, _, _, _ => return []
  | count + 1, byteIdx, bitBuf, bitsInBuf => do
    let (byteIdx, bitBuf, bitsInBuf) ← refill bits body byteIdx bitBuf bitsInBuf
    let left ← dropField bits bitBuf
    let xs ← unpackBits bits mask body count byteIdx left (bitsInBuf - bits)
    return (bitBuf &&& mask) :: xs

def bitPackedDecode (bytes : List UInt8) (count : ℕ) : Except Halt (List Int64) :=
  if bytes.length < 2 then throw (corrupt "BitPacked decode: short header")
  else do
    let width ← index bytes 1
    let bits := min width.toNat 64
    let body ← slice bytes 2 bytes.length
    reserve count
    let mask ← unpackMask bits
    let xs ← unpackBits bits mask body count 0 0 0
    return xs.map UInt64.toInt64

def frameOfReferenceDecode (bytes : List UInt8) (count : ℕ) : Except Halt (List Int64) :=
  if bytes.length < 10 then throw (corrupt "FoR decode: short header")
  else do
    let base := i64Of (← takeAt bytes 1 8)
    let width ← index bytes 9
    let bits := min width.toNat 64
    let body ← slice bytes 10 bytes.length
    reserve count
    let mask ← unpackMask bits
    let xs ← unpackBits bits mask body count 0 0 0
    return xs.map fun x => base + x.toInt64

/-! ### DeltaOfDelta -/

def varintLoop : List UInt8 → UInt64 → ℕ → ℕ → Except Halt (Option (UInt64 × ℕ))
  | [], _, _, _ => return none
  | b :: bytes, v, shift, i => do
    let x ← Guarded.shl .panic (b &&& 0x7F).toUInt64 shift
    if b &&& 0x80 = 0 then return some (v ||| x, i + 1)
    else if 64 ≤ shift + 7 then return none
    else varintLoop bytes (v ||| x) (shift + 7) (i + 1)

def varintDecode (bytes : List UInt8) : Except Halt (Option (UInt64 × ℕ)) := varintLoop bytes 0 0 0

def deltasDecode (bytes : List UInt8) : ℕ → ℕ → Int64 → Int64 → Except Halt (List Int64)
  | 0, _, _, _ => return []
  | count + 1, cursor, prevDelta, prev => do
    let rest ← slice bytes cursor bytes.length
    match ← varintDecode rest with
    | none => throw (corrupt "DoD decode: truncated varint")
    | some (zz, used) => do
      let delta := prevDelta + unZigZag zz
      let vals ← deltasDecode bytes count (cursor + used) delta (prev + delta)
      return (prev + delta) :: vals

def deltaOfDeltaDecode (bytes : List UInt8) (count : ℕ) : Except Halt (List Int64) :=
  if bytes.isEmpty then return []
  else if count = 0 then return []
  else if bytes.length < 9 then throw (corrupt "DoD decode: short first value")
  else do
    let first := i64Of (← takeAt bytes 1 8)
    reserve count
    if count = 1 then return [first]
    else if bytes.length < 17 then throw (corrupt "DoD decode: short first delta")
    else do
      let delta := i64Of (← takeAt bytes 9 8)
      let vals ← deltasDecode bytes (count - 2) 17 delta (first + delta)
      return first :: (first + delta) :: vals

/-! ### RunLength -/

def runsDecode (count : ℕ) (body : List UInt8) (cursor : ℕ) (out : List Int64) : Except Halt (List Int64) :=
  if out.length < count ∧ cursor + 12 ≤ body.length then do
    let run := u32Of (← takeAt body cursor 4)
    let val := i64Of (← takeAt body (cursor + 4) 8)
    runsDecode count body (cursor + 12) (RunLengthCodec.pushRun count val run.toNat out)
  else return out
  termination_by body.length - cursor

def runLengthDecode (bytes : List UInt8) (count : ℕ) : Except Halt (List Int64) :=
  if bytes.isEmpty then return []
  else do
    let body ← slice bytes 1 bytes.length
    reserve count
    runsDecode count body 0 []

/-! ### Dictionary -/

/-- The value of a code. -/
def lookupCode (dict : List Int64) (code : ℕ) : Except Halt Int64 :=
  if code < dict.length then index dict code else throw (corrupt "dictionary: code out of range")

/-- Codes of whole bytes. -/
def decodeWhole (dict : List Int64) (packed : List UInt8) (width count : ℕ) : Except Halt (List Int64) :=
  if packed.length < count * width % 2 ^ 64 then
    throw (corrupt s!"dictionary: truncated {width}-byte codes")
  else (List.range count).mapM fun i => do
    let code ← takeAt packed (i * width) width
    lookupCode dict (fromLE code)

def readBit (bytes : List UInt8) (bitPos : ℕ) : Except Halt (Option Bool) :=
  if bytes.length ≤ bitPos / 8 then return none
  else do
    let b ← index bytes (bitPos / 8)
    return some (b >>> UInt8.ofNat (7 - bitPos % 8) &&& 1 != 0)

def readBits (bytes : List UInt8) : ℕ → ℕ → UInt64 → Except Halt (Option (UInt64 × ℕ))
  | bitPos, 0, v => return some (v, bitPos)
  | bitPos, count + 1, v => do
    match ← readBit bytes bitPos with
    | none => return none
    | some bit => readBits bytes (bitPos + 1) count (v <<< 1 ||| bit.toUInt64)

def decodeSlow (dict : List Int64) (packed : List UInt8) (bits : ℕ) (message : ℕ → String) :
    ℕ → ℕ → ℕ → Except Halt (List Int64)
  | 0, _, _ => return []
  | count + 1, bitPos, done => do
    match ← readBits packed bitPos bits 0 with
    | none => throw (corrupt (message done))
    | some (code, bitPos) => do
      let v ← lookupCode dict code.toNat
      let vals ← decodeSlow dict packed bits message count bitPos (done + 1)
      return v :: vals

def decodeCodes (dict : List Int64) (packed : List UInt8) (bits count : ℕ) : Except Halt (List Int64) :=
  if bits % 8 = 0 then
    match bits / 8 with
    | 0 => (List.range count).mapM fun _ => index dict 0
    | 1 => decodeWhole dict packed 1 count
    | 2 => decodeWhole dict packed 2 count
    | 4 => decodeWhole dict packed 4 count
    | 8 => decodeWhole dict packed 8 count
    | _ => decodeSlow dict packed bits (fun _ => "dictionary: truncated codes") count 0 0
  else
    decodeSlow dict packed bits (fun done => s!"dictionary: truncated codes at val {done} " ++
        s!"(bits={bits}, packed_len={packed.length}, dict_len={dict.length})") count 0 0

def dictionaryDecode (bytes : List UInt8) (count : ℕ) : Except Halt (List Int64) :=
  if bytes.isEmpty then return []
  else do
    let body ← slice bytes 1 bytes.length
    if body.length < 5 then throw (corrupt "dictionary: truncated header")
    else do
      let dictLen := (u32Of (← takeAt body 0 4)).toNat
      let bitsOffset := 4 + dictLen * 8
      if body.length < bitsOffset + 1 then throw (corrupt "dictionary: truncated (missing bits byte)")
      else do
        let bits ← index body bitsOffset
        let dict ← (List.range dictLen).mapM fun i => i64Of <$> takeAt body (4 + i * 8) 8
        let packed ← slice body (bitsOffset + 1) body.length
        reserve count
        decodeCodes dict packed bits.toNat count

/-! ### Minipages -/

/-- The decoder of an encoding. -/
def decode : Encoding → List UInt8 → ℕ → Except Halt (List Int64)
  | .raw | .gorilla | .chimp128 | .fsst => rawDecode
  | .bitPacked _ => bitPackedDecode
  | .frameOfReference _ _ => frameOfReferenceDecode
  | .deltaOfDelta => deltaOfDeltaDecode
  | .runLength => runLengthDecode
  | .dictionary _ => dictionaryDecode

def decodeMinipage (enc : Encoding) (bytes : List UInt8) (count : ℕ) : Except Halt (List Int64) :=
  decode enc (enc.discriminant :: bytes) count

/-! ### Accesses inside their bounds -/

variable {bytes : List UInt8} {i shift : ℕ}

theorem takeAt_of_le {off n : ℕ} (h : off + n ≤ bytes.length) :
    takeAt bytes off n = .ok (Words.slice bytes off (off + n)) := Guarded.takeAt_of_le off h

theorem index_of_lt {α : Type} {xs : List α} (h : i < xs.length) (d : α) :
    index xs i = .ok (xs.getD i d) := Guarded.index_of_lt h d

theorem slice_tail (b : UInt8) (bytes : List UInt8) : slice (b :: bytes) 1 (b :: bytes).length = .ok bytes :=
  Guarded.slice_to_end (Nat.succ_le_succ (Nat.zero_le _))

variable {count : ℕ}

theorem reserve_of_lt (h : count < 2 ^ 60) : reserve count = .ok () := if_pos (by omega)

theorem reserve_of_le (h : 2 ^ 60 ≤ count) : reserve count = .error .panic := if_neg (by omega)

/-- The words at places inside the bytes. -/
theorem mapM_takeAt (bytes : List UInt8) (base count : ℕ) (h : base + count * 8 ≤ bytes.length) :
    ((List.range count).mapM fun i => i64Of <$> takeAt bytes (base + i * 8) 8) =
      .ok ((List.range count).map fun i => i64At bytes (base + i * 8)) := by
  apply Guarded.mapM_eq_ok
  intro i hi
  rw [mem_range] at hi
  rw [takeAt_of_le (by omega)]
  rfl

theorem rawDecode_eq (bytes : List UInt8) (h : count < 2 ^ 60) :
    rawDecode bytes count = RawCodec.decode bytes count := by
  cases bytes with
  | nil => rfl
  | cons b bytes =>
    have hneed : count * 8 % 2 ^ 64 = count * 8 := Nat.mod_eq_of_lt (by omega)
    rw [rawDecode, RawCodec.decode, slice_tail, hneed]
    simp only [isEmpty_cons, false_eq_true, if_false, bind, Except.bind, drop_succ_cons, drop_zero]
    by_cases hshort : bytes.length < count * 8
    · rw [if_pos hshort, if_pos hshort]
      rfl
    · have hwords := mapM_takeAt bytes 0 count (by omega)
      simp only [Nat.zero_add] at hwords
      rw [if_neg hshort, if_neg hshort, reserve_of_lt h, ← hwords]

/-! ### Fixed widths -/

theorem refill_eq (bits : ℕ) (body : List UInt8) (byteIdx : ℕ) (h : byteIdx ≤ body.length) (bitBuf : UInt64)
    (bitsInBuf : ℕ) : ∃ byteIdx', byteIdx' ≤ body.length ∧
      refill bits body byteIdx bitBuf bitsInBuf = .ok (byteIdx', (Storage.refill bits (body.drop byteIdx) bitBuf bitsInBuf).2) ∧
      body.drop byteIdx' = (Storage.refill bits (body.drop byteIdx) bitBuf bitsInBuf).1 := by
  induction hn : body.length - byteIdx generalizing byteIdx bitBuf bitsInBuf with
  | zero =>
    have hend : body.drop byteIdx = [] := drop_eq_nil_of_le (by omega)
    refine ⟨byteIdx, h, ?_, ?_⟩
    · rw [refill, if_neg (by omega), hend]
      rfl
    · rw [hend]
      rfl
  | succ n ih =>
    have hlt : byteIdx < body.length := by omega
    rw [refill, drop_eq_getElem_cons hlt, Storage.refill]
    by_cases hmore : bitsInBuf < bits ∧ bitsInBuf < 56
    · obtain ⟨byteIdx', hle, hread, hdrop⟩ := ih (byteIdx + 1) (by omega)
        (bitBuf ||| body[byteIdx].toUInt64 <<< UInt64.ofNat bitsInBuf) (bitsInBuf + 8) (by omega)
      rw [if_pos ⟨hmore.1, hlt, hmore.2⟩, if_pos hmore, index_of_lt hlt 0, getD_eq_getElem _ _ hlt]
      simp only [bind, Except.bind]
      rw [Guarded.shl_of_lt _ (by omega)]
      exact ⟨byteIdx', hle, hread, hdrop⟩
    · rw [if_neg fun hall => hmore ⟨hall.1, hall.2.2⟩, if_neg hmore]
      exact ⟨byteIdx, h, rfl, drop_eq_getElem_cons hlt⟩

theorem dropField_eq (bits : ℕ) (bitBuf : UInt64) :
    dropField bits bitBuf = .ok (if 64 ≤ bits then 0 else bitBuf >>> UInt64.ofNat bits) := by
  unfold dropField
  split
  · rfl
  · exact Guarded.shr_of_lt bitBuf (by omega)

theorem unpackMask_eq (bits : ℕ) : unpackMask bits = .ok (Storage.unpackMask bits) := by
  unfold unpackMask Storage.unpackMask
  split
  · rfl
  · rw [Guarded.shl_of_lt 1 (by omega)]
    rfl

theorem unpackBits_eq (bits : ℕ) (body : List UInt8) (count : ℕ) {byteIdx : ℕ} (h : byteIdx ≤ body.length)
    (bitBuf : UInt64) (bitsInBuf : ℕ) :
    unpackBits bits (Storage.unpackMask bits) body count byteIdx bitBuf bitsInBuf =
      .ok (Storage.unpackBits bits count (body.drop byteIdx) bitBuf bitsInBuf) := by
  induction count generalizing byteIdx bitBuf bitsInBuf with
  | zero => rfl
  | succ count ih =>
    obtain ⟨byteIdx', hle, hread, hdrop⟩ := refill_eq bits body byteIdx h bitBuf bitsInBuf
    rw [unpackBits, Storage.unpackBits, hread]
    simp only [bind, Except.bind, dropField_eq]
    rw [ih hle, hdrop]
    rfl

theorem bitPackedDecode_eq (bytes : List UInt8) (h : count < 2 ^ 60) :
    bitPackedDecode bytes count = BitPackedCodec.decode bytes count := by
  rw [bitPackedDecode, BitPackedCodec.decode]
  by_cases hshort : bytes.length < 2
  · rw [if_pos hshort, if_pos hshort]
    rfl
  · have hbody : slice bytes 2 bytes.length = .ok (bytes.drop 2) := Guarded.slice_to_end (by omega)
    rw [if_neg hshort, if_neg hshort, index_of_lt (by omega) 0]
    simp only [bind, Except.bind, hbody, reserve_of_lt h, unpackMask_eq, unpackBits_eq _ _ _ (Nat.zero_le _)]
    rfl

theorem frameOfReferenceDecode_eq (bytes : List UInt8) (h : count < 2 ^ 60) :
    frameOfReferenceDecode bytes count = FrameOfReferenceCodec.decode bytes count := by
  rw [frameOfReferenceDecode, FrameOfReferenceCodec.decode]
  by_cases hshort : bytes.length < 10
  · rw [if_pos hshort, if_pos hshort]
    rfl
  · have hbody : slice bytes 10 bytes.length = .ok (bytes.drop 10) := Guarded.slice_to_end (by omega)
    rw [if_neg hshort, if_neg hshort, takeAt_of_le (by omega), index_of_lt (by omega) 0]
    simp only [bind, Except.bind, hbody, reserve_of_lt h, unpackMask_eq, unpackBits_eq _ _ _ (Nat.zero_le _)]
    rfl

/-! ### DeltaOfDelta -/

theorem varintLoop_eq (bytes : List UInt8) (v : UInt64) (h : shift < 64) (i : ℕ) :
    varintLoop bytes v shift i = .ok (Storage.varintDecode.loop bytes v shift i) := by
  induction bytes generalizing v shift i with
  | nil => rfl
  | cons b bytes ih =>
    rw [varintLoop, Storage.varintDecode.loop, Guarded.shl_of_lt _ h]
    simp only [bind, Except.bind]
    split
    · rfl
    · split
      · rfl
      · exact ih _ (by omega) _

/-- A varint ends inside the bytes. -/
theorem varintDecode_loop_le {v : UInt64} {zz : UInt64} {used : ℕ}
    (h : Storage.varintDecode.loop bytes v shift i = some (zz, used)) : used ≤ i + bytes.length := by
  induction bytes generalizing v shift i with
  | nil => cases h
  | cons b bytes ih =>
    rw [Storage.varintDecode.loop] at h
    rw [length_cons]
    split at h
    · cases h
      omega
    · split at h
      · cases h
      · have hle := ih h
        omega

theorem deltasDecode_eq (bytes : List UInt8) (count : ℕ) {cursor : ℕ} (h : cursor ≤ bytes.length)
    (prevDelta prev : Int64) : deltasDecode bytes count cursor prevDelta prev =
      DeltaOfDeltaCodec.decodeRest (bytes.drop cursor) prevDelta prev count := by
  induction count generalizing cursor prevDelta prev with
  | zero => rfl
  | succ count ih =>
    have hslice : slice bytes cursor bytes.length = .ok (bytes.drop cursor) := Guarded.slice_to_end h
    have hvarint : varintDecode (bytes.drop cursor) = .ok (Storage.varintDecode (bytes.drop cursor)) :=
      varintLoop_eq _ 0 (by decide) 0
    rw [deltasDecode, DeltaOfDeltaCodec.decodeRest, hslice]
    simp only [bind, Except.bind, hvarint]
    cases hread : Storage.varintDecode (bytes.drop cursor) with
    | none => rfl
    | some e =>
      obtain ⟨zz, used⟩ := e
      have hused := varintDecode_loop_le hread
      rw [length_drop] at hused
      dsimp only
      rw [ih (by omega), drop_drop]
      cases DeltaOfDeltaCodec.decodeRest (bytes.drop (cursor + used)) (prevDelta + unZigZag zz)
        (prev + (prevDelta + unZigZag zz)) count with
      | error e => rfl
      | ok vals => rfl

theorem deltaOfDeltaDecode_eq (bytes : List UInt8) (h : count < 2 ^ 60) :
    deltaOfDeltaDecode bytes count = DeltaOfDeltaCodec.decode bytes count := by
  rw [deltaOfDeltaDecode, DeltaOfDeltaCodec.decode]
  by_cases hempty : bytes.isEmpty = true
  · rw [if_pos hempty, if_pos hempty]
    rfl
  · by_cases hzero : count = 0
    · rw [if_neg hempty, if_neg hempty, if_pos hzero, if_pos hzero]
      rfl
    · by_cases hshort : bytes.length < 9
      · rw [if_neg hempty, if_neg hempty, if_neg hzero, if_neg hzero, if_pos hshort, if_pos hshort]
        rfl
      · rw [if_neg hempty, if_neg hempty, if_neg hzero, if_neg hzero, if_neg hshort, if_neg hshort,
          takeAt_of_le (by omega)]
        simp only [bind, Except.bind, reserve_of_lt h]
        split
        · rfl
        · split
          · rfl
          · rw [takeAt_of_le (by omega)]
            dsimp only
            have hword (off : ℕ) : i64Of (Words.slice bytes off (off + 8)) = i64At bytes off := rfl
            rw [deltasDecode_eq bytes _ (by omega), hword, hword]
            cases DeltaOfDeltaCodec.decodeRest (bytes.drop 17) (i64At bytes 9) (i64At bytes 1 + i64At bytes 9)
              (count - 2) with
            | error e => rfl
            | ok vals => rfl

/-! ### RunLength -/

theorem runsDecode_eq (count : ℕ) (body : List UInt8) (cursor : ℕ) (out : List Int64) :
    runsDecode count body cursor out = .ok (RunLengthCodec.decodeLoop count (body.drop cursor) out) := by
  induction hn : body.length - cursor using Nat.strongRecOn generalizing cursor out with
  | ind n ih =>
    rw [runsDecode, RunLengthCodec.decodeLoop]
    by_cases hmore : out.length < count ∧ cursor + 12 ≤ body.length
    · have hroom : 12 ≤ (body.drop cursor).length := by
        rw [length_drop]
        omega
      have hrun : u32Of (Words.slice body cursor (cursor + 4)) = u32At (body.drop cursor) 0 := by
        simp only [u32Of, u32At, Words.slice, drop_zero, Nat.sub_zero, Nat.zero_add, Nat.add_sub_cancel_left]
      have hval : i64Of (Words.slice body (cursor + 4) (cursor + 4 + 8)) = i64At (body.drop cursor) 4 := by
        simp only [i64Of, i64At, Words.slice, drop_drop, Nat.add_sub_cancel_left]
      rw [if_pos hmore, if_pos ⟨hmore.1, hroom⟩, takeAt_of_le (by omega)]
      simp only [bind, Except.bind]
      rw [takeAt_of_le (by omega)]
      dsimp only
      rw [ih _ (by omega) (cursor + 12) _ rfl, hrun, hval, drop_drop]
    · have hroom : ¬(out.length < count ∧ 12 ≤ (body.drop cursor).length) := by
        rw [length_drop]
        omega
      rw [if_neg hmore, if_neg hroom]
      rfl

theorem runLengthDecode_eq (bytes : List UInt8) (h : count < 2 ^ 60) :
    runLengthDecode bytes count = RunLengthCodec.decode bytes count := by
  cases bytes with
  | nil => rfl
  | cons b bytes =>
    rw [runLengthDecode, RunLengthCodec.decode, slice_tail]
    simp only [isEmpty_cons, false_eq_true, if_false, bind, Except.bind, reserve_of_lt h, runsDecode_eq,
      drop_succ_cons, drop_zero]

/-! ### Dictionary -/

theorem lookupCode_eq (dict : List Int64) (code : ℕ) : lookupCode dict code = DictionaryCodec.lookupCode dict code := by
  unfold lookupCode DictionaryCodec.lookupCode
  split
  · rename_i hlt
    exact index_of_lt hlt 0
  · rfl

theorem readBit_eq (bytes : List UInt8) (bitPos : ℕ) : readBit bytes bitPos = .ok (Storage.readBit bytes bitPos) := by
  unfold readBit Storage.readBit
  split
  · rfl
  · rw [index_of_lt (by omega) 0]
    rfl

theorem readBits_eq (bytes : List UInt8) (bitPos count : ℕ) (v : UInt64) :
    readBits bytes bitPos count v = .ok (Storage.readBits bytes bitPos count v) := by
  induction count generalizing bitPos v with
  | zero => rfl
  | succ count ih =>
    rw [readBits, Storage.readBits, readBit_eq]
    simp only [bind, Except.bind]
    cases Storage.readBit bytes bitPos with
    | none => rfl
    | some bit => exact ih _ _

theorem decodeSlow_eq (dict : List Int64) (packed : List UInt8) (bits : ℕ) (message : ℕ → String) (count bitPos done : ℕ) :
    decodeSlow dict packed bits message count bitPos done =
      DictionaryCodec.decodeSlow dict packed bits message count bitPos done := by
  induction count generalizing bitPos done with
  | zero => rfl
  | succ count ih =>
    rw [decodeSlow, DictionaryCodec.decodeSlow, readBits_eq]
    simp only [bind, Except.bind]
    cases Storage.readBits packed bitPos bits 0 with
    | none => rfl
    | some e =>
      dsimp only
      rw [lookupCode_eq]
      cases DictionaryCodec.lookupCode dict e.1.toNat with
      | error e => rfl
      | ok v =>
        dsimp only
        rw [ih]
        cases DictionaryCodec.decodeSlow dict packed bits message count e.2 (done + 1) with
        | error e | ok vals => rfl

theorem decodeWhole_eq (dict : List Int64) (packed : List UInt8) (width : ℕ) (h : count * width < 2 ^ 64) :
    decodeWhole dict packed width count = DictionaryCodec.decodeWhole dict packed width count := by
  rw [decodeWhole, DictionaryCodec.decodeWhole, Nat.mod_eq_of_lt h]
  split
  · rfl
  · rename_i hlong
    have hloop : ∀ is : List ℕ, (∀ i ∈ is, i < count) → (is.mapM fun i => do
          let code ← takeAt packed (i * width) width
          lookupCode dict (fromLE code)) = DictionaryCodec.lookupWhole dict packed width is := by
      intro is
      induction is with
      | nil => exact fun _ => rfl
      | cons i is ih =>
        intro his
        rw [forall_mem_cons] at his
        have hroom : i * width + width ≤ packed.length := by
          have hmul : (i + 1) * width ≤ count * width := Nat.mul_le_mul_right width his.1
          rw [Nat.add_one_mul] at hmul
          omega
        rw [mapM_cons, ih his.2, takeAt_of_le hroom, DictionaryCodec.lookupWhole]
        simp only [bind, Except.bind]
        rw [lookupCode_eq]
        cases DictionaryCodec.lookupCode dict (fromLE (Words.slice packed (i * width) (i * width + width))) with
        | error e => rfl
        | ok v =>
          cases DictionaryCodec.lookupWhole dict packed width is with
          | error e | ok vals => rfl
    exact hloop _ fun i hi => mem_range.mp hi

/-- The first value of the dictionary, again and again. -/
theorem mapM_first (dict : List Int64) (count : ℕ) : ((List.range count).mapM fun _ => index dict 0) =
    match dict, count with
    | _, 0 => .ok []
    | [], _ + 1 => .error .panic
    | v :: _, count + 1 => .ok (List.replicate (count + 1) v) := by
  cases count with
  | zero => rfl
  | succ count =>
    cases dict with
    | nil =>
      rw [range_succ_eq_map, mapM_cons]
      rfl
    | cons v dict =>
      have hall : ((List.range (count + 1)).mapM fun _ => index (v :: dict) 0) =
          .ok ((List.range (count + 1)).map fun _ => v) :=
        Guarded.mapM_eq_ok fun _ _ => index_of_lt (Nat.succ_pos _) 0
      rw [hall, map_const', length_range]

theorem decodeCodes_eq (dict : List Int64) (packed : List UInt8) (bits : ℕ) (h : count < 2 ^ 60) :
    decodeCodes dict packed bits count = DictionaryCodec.decodeCodes dict packed bits count := by
  unfold decodeCodes DictionaryCodec.decodeCodes
  split
  · rcases bits / 8 with _ | _ | _ | _ | _ | _ | _ | _ | _ | width
    · exact mapM_first dict count
    · exact decodeWhole_eq dict packed 1 (by omega)
    · exact decodeWhole_eq dict packed 2 (by omega)
    · exact decodeSlow_eq dict packed bits _ count 0 0
    · exact decodeWhole_eq dict packed 4 (by omega)
    · exact decodeSlow_eq dict packed bits _ count 0 0
    · exact decodeSlow_eq dict packed bits _ count 0 0
    · exact decodeSlow_eq dict packed bits _ count 0 0
    · exact decodeWhole_eq dict packed 8 (by omega)
    · exact decodeSlow_eq dict packed bits _ count 0 0
  · exact decodeSlow_eq dict packed bits _ count 0 0

/-- The dictionary and the codes of a page whose header is whole. -/
theorem dictionaryDecode_cons (b : UInt8) {body : List UInt8} (hshort : ¬body.length < 5)
    (hmissing : ¬body.length < 4 + (u32At body 0).toNat * 8 + 1) (count : ℕ) :
    dictionaryDecode (b :: body) count = (do
      reserve count
      decodeCodes ((List.range (u32At body 0).toNat).map fun i => i64At body (4 + i * 8))
        (body.drop (4 + (u32At body 0).toNat * 8 + 1)) (body.getD (4 + (u32At body 0).toNat * 8) 0).toNat count) := by
  have hlen : u32Of (Words.slice body 0 (0 + 4)) = u32At body 0 := rfl
  have hpacked : slice body (4 + (u32At body 0).toNat * 8 + 1) body.length =
      .ok (body.drop (4 + (u32At body 0).toNat * 8 + 1)) := Guarded.slice_to_end (by omega)
  rw [dictionaryDecode, slice_tail]
  simp only [isEmpty_cons, false_eq_true, if_false, bind, Except.bind]
  rw [if_neg hshort, takeAt_of_le (by omega)]
  dsimp only
  rw [hlen, if_neg hmissing, index_of_lt (by omega) 0]
  dsimp only
  rw [mapM_takeAt _ _ _ (by omega)]
  dsimp only
  rw [hpacked]

theorem dictionaryDecode_eq (bytes : List UInt8) (h : count < 2 ^ 60) :
    dictionaryDecode bytes count = DictionaryCodec.decode bytes count := by
  cases bytes with
  | nil => rfl
  | cons b body =>
    by_cases hshort : body.length < 5
    · rw [dictionaryDecode, slice_tail, DictionaryCodec.decode]
      simp only [isEmpty_cons, false_eq_true, if_false, bind, Except.bind, drop_succ_cons, drop_zero]
      rw [if_pos hshort, if_pos hshort]
      rfl
    · by_cases hmissing : body.length < 4 + (u32At body 0).toNat * 8 + 1
      · have hlen : u32Of (Words.slice body 0 (0 + 4)) = u32At body 0 := rfl
        rw [dictionaryDecode, slice_tail, DictionaryCodec.decode]
        simp only [isEmpty_cons, false_eq_true, if_false, bind, Except.bind, drop_succ_cons, drop_zero]
        rw [if_neg hshort, if_neg hshort, takeAt_of_le (by omega)]
        dsimp only
        rw [hlen, if_pos hmissing, if_pos hmissing]
        rfl
      · rw [dictionaryDecode_cons b hshort hmissing, DictionaryCodec.decode]
        simp only [isEmpty_cons, false_eq_true, if_false, bind, Except.bind, drop_succ_cons,
          drop_zero, reserve_of_lt h]
        rw [if_neg hshort, if_neg hmissing, decodeCodes_eq _ _ _ h]

/-! ### Minipages -/

/-- **Every access is in its range**: the checked decoders are the plain ones. -/
theorem decodeMinipage_eq (enc : Encoding) (bytes : List UInt8) (h : count < 2 ^ 60) :
    decodeMinipage enc bytes count = Storage.decodeMinipage enc bytes count := by
  rw [decodeMinipage, Storage.decodeMinipage]
  generalize enc.discriminant :: bytes = page
  cases enc with
  | raw | gorilla | chimp128 | fsst => exact rawDecode_eq page h
  | bitPacked bits => exact bitPackedDecode_eq page h
  | frameOfReference base bits => exact frameOfReferenceDecode_eq page h
  | deltaOfDelta => exact deltaOfDeltaDecode_eq page h
  | dictionary dictId => exact dictionaryDecode_eq page h
  | runLength => exact runLengthDecode_eq page h

end CenDB.Storage.Checked
