import CenDB.Lib.Words
import CenDB.Lib.Table
import Mathlib.Data.Nat.Size

/-! # Minipage encodings

The integer codecs of a minipage: each turns a list of `i64` values into bytes that start with
the discriminant of the encoding, and back.  Words are Lean's fixed-width integers, so that
arithmetic wraps and a shift takes its amount modulo the width, as in a release build.  Counters,
lengths and cursors are natural numbers.

The decoders follow the cursors of the source; `i64At` reads the eight bytes at a cursor. -/

namespace CenDB.Storage

open Words List

/-- Status codes of the crate that the storage layer returns. -/
inductive CenStatus where
  | errNotFound
  | errConstraint
  | errCorrupt
  | errInternal
  | errIo
deriving DecidableEq, Repr

structure CenError where
  status : CenStatus
  message : String
deriving DecidableEq, Repr

/-- Why a call does not return `Ok`: an `Err` of the source, or a panic. -/
inductive Halt where
  | error (e : CenError)
  | panic
deriving DecidableEq, Repr

def corrupt (message : String) : Halt := .error ⟨.errCorrupt, message⟩

def constraint (message : String) : Halt := .error ⟨.errConstraint, message⟩

/-- Tag for the encoding of a minipage. -/
inductive Encoding where
  | raw
  | bitPacked (bits : UInt8)
  | frameOfReference (base : Int64) (bits : UInt8)
  | deltaOfDelta
  | gorilla
  | chimp128
  | dictionary (dictId : UInt32)
  | runLength
  | fsst
deriving DecidableEq, Repr

namespace Encoding

def tag : Encoding → UInt8
  | raw => 0
  | bitPacked _ => 1
  | frameOfReference _ _ => 2
  | deltaOfDelta => 3
  | gorilla => 4
  | chimp128 => 5
  | dictionary _ => 6
  | runLength => 7
  | fsst => 8

def param : Encoding → UInt8
  | bitPacked bits => bits &&& 0x0F
  | frameOfReference _ bits => bits &&& 0x0F
  | dictionary dictId => dictId.toUInt8 &&& 0x0F
  | _ => 0

/-- Stable on-disk discriminant. -/
def discriminant (e : Encoding) : UInt8 := e.tag ||| e.param <<< 4

/-- The encoding of a discriminant, with what is left of its parameters. -/
def fromDiscriminant (b : UInt8) : Encoding :=
  let param := (b >>> 4) &&& 0x0F
  match b &&& 0x0F with
  | 0 => raw
  | 1 => bitPacked param
  | 2 => frameOfReference 0 param
  | 3 => deltaOfDelta
  | 4 => gorilla
  | 5 => chimp128
  | 6 => dictionary param.toUInt32
  | 7 => runLength
  | 8 => fsst
  | _ => raw

/-- An encoding as `{:?}` prints it. -/
def debug : Encoding → String
  | raw => "Raw"
  | bitPacked bits => s!"BitPacked \x7b bits: {bits} \x7d"
  | frameOfReference base bits => s!"FrameOfReference \x7b base: {base}, bits: {bits} \x7d"
  | deltaOfDelta => "DeltaOfDelta"
  | gorilla => "Gorilla"
  | chimp128 => "Chimp128"
  | dictionary dictId => s!"Dictionary \x7b dict_id: {dictId} \x7d"
  | runLength => "RunLength"
  | fsst => "Fsst"

end Encoding

/-! ### Words -/

/-- `to_le_bytes` of an `i64`. -/
def leI64 (v : Int64) : List UInt8 := toLE 8 v.toUInt64.toNat

/-- `from_le_bytes` of the eight bytes at a cursor. -/
def i64At (bytes : List UInt8) (cursor : ℕ) : Int64 :=
  (UInt64.ofNat (fromLE (slice bytes cursor (cursor + 8)))).toInt64

/-- `to_le_bytes` of a `u32`. -/
def leU32 (v : UInt32) : List UInt8 := toLE 4 v.toNat

/-- `from_le_bytes` of the four bytes at a cursor. -/
def u32At (bytes : List UInt8) (cursor : ℕ) : UInt32 := UInt32.ofNat (fromLE (slice bytes cursor (cursor + 4)))

/-- The least number of bits that hold a value, at least one. -/
def requiredBits (maxVal : UInt64) : ℕ := if maxVal = 0 then 1 else maxVal.toNat.size

@[simp] theorem length_leI64 (v : Int64) : (leI64 v).length = 8 := toLE_length 8 _

@[simp] theorem length_leU32 (v : UInt32) : (leU32 v).length = 4 := toLE_length 4 _

/-- The word that was written at a cursor. -/
theorem i64At_append (before : List UInt8) (v : Int64) (after : List UInt8) :
    i64At (before ++ (leI64 v ++ after)) before.length = v := by
  unfold i64At
  rw [slice_middle rfl (by rw [length_leI64]), leI64, ofNat_fromLE_toLE_64]
  exact Int64.toInt64_toUInt64 v

theorem u32At_append (before : List UInt8) (v : UInt32) (after : List UInt8) :
    u32At (before ++ (leU32 v ++ after)) before.length = v := by
  unfold u32At
  rw [slice_middle rfl (by rw [length_leU32]), leU32, ofNat_fromLE_toLE_32]

/-- Words that were written one after the other are read back. -/
theorem map_i64At (before : List UInt8) (vals : List Int64) (after : List UInt8) : (List.range vals.length).map
        (fun i => i64At (before ++ (vals.flatMap leI64 ++ after)) (before.length + i * 8)) =
      vals := by
  apply ext_getElem
  · simp
  · intro i _ hi
    have hlen : (vals.flatMap leI64).length = vals.length * 8 := length_flatMap fun v _ => length_leI64 v
    have hend : before.length + i * 8 + 8 - before.length = i * 8 + 8 := by omega
    rw [getElem_map, getElem_range, i64At, slice_append_right (Nat.le_add_right _ _),
      Nat.add_sub_cancel_left, hend, slice_append_left (by rw [hlen]; omega),
      slice_flatMap (fun v _ => length_leI64 v) hi, leI64, ofNat_fromLE_toLE_64]
    exact Int64.toInt64_toUInt64 _

theorem one_le_requiredBits (x : UInt64) : 1 ≤ requiredBits x := by
  unfold requiredBits
  by_cases hx : x = 0
  · rw [if_pos hx]
  · rw [if_neg hx]
    apply Nat.size_pos.mpr
    exact Nat.pos_of_ne_zero fun h => hx (UInt64.toNat_inj.mp h)

/-- The values that a width of at least one bit holds. -/
theorem requiredBits_le {x : UInt64} {bits : ℕ} (hbits : 1 ≤ bits) :
    requiredBits x ≤ bits ↔ x.toNat < 2 ^ bits := by
  unfold requiredBits
  by_cases hx : x = 0
  · rw [if_pos hx, hx]
    exact iff_of_true hbits (Nat.two_pow_pos bits)
  · rw [if_neg hx, Nat.size_le]

theorem lt_pow_requiredBits (x : UInt64) : x.toNat < 2 ^ requiredBits x :=
  (requiredBits_le (one_le_requiredBits x)).mp (le_refl _)

theorem requiredBits_le_64 (x : UInt64) : requiredBits x ≤ 64 := (requiredBits_le (by decide)).mpr x.toNat_lt

/-! ### Raw -/

namespace RawCodec

def encode (vals : List Int64) : Except Halt (List UInt8) :=
  .ok (Encoding.raw.discriminant :: vals.flatMap leI64)

def decode (bytes : List UInt8) (count : ℕ) : Except Halt (List Int64) :=
  if bytes.isEmpty then .ok []
  else
    let body := bytes.drop 1
    let need := count * 8
    if body.length < need then
      .error (corrupt s!"Raw decode: need {need} bytes, got {body.length}")
    else .ok ((List.range count).map fun i => i64At body (i * 8))

end RawCodec

/-! ### Packing at a fixed width -/

/-- Emit the whole bytes of the buffer. -/
def drain (out : List UInt8) (bitBuf : UInt64) (bitsInBuf : ℕ) : List UInt8 × UInt64 × ℕ :=
  if 8 ≤ bitsInBuf then drain (out ++ [bitBuf.toUInt8]) (bitBuf >>> 8) (bitsInBuf - 8)
  else (out, bitBuf, bitsInBuf)
  termination_by bitsInBuf

/-- The mask of the packing loops. -/
def packMask (bits : ℕ) : UInt64 := max ((1 : UInt64) <<< UInt64.ofNat bits - 1) 1

/-- One value of the packing loop. -/
def packStep (bits : ℕ) (s : List UInt8 × UInt64 × ℕ) (x : UInt64) : List UInt8 × UInt64 × ℕ :=
  drain s.1 (s.2.1 ||| (x &&& packMask bits) <<< UInt64.ofNat s.2.2) (s.2.2 + bits)

/-- Pack values at `bits` bits each, least significant bits first. -/
def packBits (bits : ℕ) (xs : List UInt64) : List UInt8 :=
  let (out, bitBuf, bitsInBuf) := xs.foldl (packStep bits) ([], 0, 0)
  if 0 < bitsInBuf then out ++ [bitBuf.toUInt8] else out

/-- Fill the buffer: the remaining bytes, the buffer and its size in bits. -/
def refill (bits : ℕ) (body : List UInt8) (bitBuf : UInt64) (bitsInBuf : ℕ) : List UInt8 × UInt64 × ℕ :=
  match body with
  | [] => ([], bitBuf, bitsInBuf)
  | b :: rest =>
    if bitsInBuf < bits ∧ bitsInBuf < 56 then
      refill bits rest (bitBuf ||| b.toUInt64 <<< UInt64.ofNat bitsInBuf) (bitsInBuf + 8)
    else (b :: rest, bitBuf, bitsInBuf)

/-- The mask of the unpacking loops. -/
def unpackMask (bits : ℕ) : UInt64 :=
  if 64 ≤ bits then 0xFFFFFFFFFFFFFFFF else (1 : UInt64) <<< UInt64.ofNat bits - 1

/-- Unpack `count` values of `bits` bits each. -/
def unpackBits (bits : ℕ) : ℕ → List UInt8 → UInt64 → ℕ → List UInt64
  | 0, _, _, _ => []
  | count + 1, body, bitBuf, bitsInBuf =>
    let (body, bitBuf, bitsInBuf) := refill bits body bitBuf bitsInBuf
    (bitBuf &&& unpackMask bits) ::
      unpackBits bits count body (if 64 ≤ bits then 0 else bitBuf >>> UInt64.ofNat bits) (bitsInBuf - bits)

/-! ### BitPacked -/

namespace BitPackedCodec

/-- The largest value. -/
def maxVal (vals : List Int64) : UInt64 := vals.foldl (fun m v => if m < v.toUInt64 then v.toUInt64 else m) 0

def encode (vals : List Int64) : Except Halt (List UInt8) :=
  if vals.any fun v => v < 0 then
    .error (constraint "BitPacked does not support negative values")
  else
    let bits := max (requiredBits (maxVal vals)) 1
    .ok ((Encoding.bitPacked (UInt8.ofNat bits)).discriminant :: UInt8.ofNat bits ::
      packBits bits (vals.map Int64.toUInt64))

def decode (bytes : List UInt8) (count : ℕ) : Except Halt (List Int64) :=
  if bytes.length < 2 then .error (corrupt "BitPacked decode: short header")
  else
    let bits := min (bytes.getD 1 0).toNat 64
    .ok ((unpackBits bits count (bytes.drop 2) 0 0).map UInt64.toInt64)

end BitPackedCodec

/-! ### FrameOfReference -/

/-- The least of a value and further ones. -/
def minOf (v : Int64) (vals : List Int64) : Int64 := vals.foldl (fun m v => if v < m then v else m) v

/-- The greatest of a value and further ones. -/
def maxOf (v : Int64) (vals : List Int64) : Int64 := vals.foldl (fun m v => if m < v then v else m) v

/-- `(max - min) as u64`, computed without overflow. -/
def rangeOf (minV maxV : Int64) : UInt64 := UInt64.ofInt (maxV.toInt - minV.toInt)

namespace FrameOfReferenceCodec

def encode (vals : List Int64) : Except Halt (List UInt8) :=
  match vals with
  | [] => .ok [(Encoding.frameOfReference 0 0).discriminant]
  | v :: _ =>
    let base := minOf v vals
    let bits := max (requiredBits (rangeOf base (maxOf v vals))) 1
    .ok ((Encoding.frameOfReference base (UInt8.ofNat bits)).discriminant ::
      (leI64 base ++ UInt8.ofNat bits :: packBits bits (vals.map fun v => (v - base).toUInt64)))

def decode (bytes : List UInt8) (count : ℕ) : Except Halt (List Int64) :=
  if bytes.length < 10 then .error (corrupt "FoR decode: short header")
  else
    let base := i64At bytes 1
    let bits := min (bytes.getD 9 0).toNat 64
    .ok ((unpackBits bits count (bytes.drop 10) 0 0).map fun x => base + x.toInt64)

end FrameOfReferenceCodec

/-! ### DeltaOfDelta -/

/-- Seven bits per byte, least significant first; the high bit says that more follow. -/
def varintEncode (v : UInt64) : List UInt8 :=
  if _h : 0x80 ≤ v then (v.toUInt8 ||| 0x80) :: varintEncode (v >>> 7) else [v.toUInt8]
  termination_by v.toNat
  decreasing_by
    rw [UInt64.le_iff_toNat_le] at _h
    simp only [UInt64.toNat_shiftRight, Nat.shiftRight_eq_div_pow] at _h ⊢
    have h80 : (0x80 : UInt64).toNat = 128 := rfl
    have h7 : (7 : UInt64).toNat % 64 = 7 := rfl
    rw [h7]
    omega

/-- The value and the number of bytes read. -/
def varintDecode (bytes : List UInt8) : Option (UInt64 × ℕ) := loop bytes 0 0 0
where
  loop : List UInt8 → UInt64 → ℕ → ℕ → Option (UInt64 × ℕ)
  | [], _, _, _ => none
  | b :: bytes, v, shift, i =>
    let v := v ||| (b &&& 0x7F).toUInt64 <<< UInt64.ofNat shift
    if b &&& 0x80 = 0 then some (v, i + 1)
    else if 64 ≤ shift + 7 then none
    else loop bytes v (shift + 7) (i + 1)

/-- Signed to unsigned, small absolute values first. -/
def zigZag (v : Int64) : UInt64 := ((v <<< 1) ^^^ (v >>> 63)).toUInt64

def unZigZag (zz : UInt64) : Int64 := (zz >>> 1).toInt64 ^^^ -(zz &&& 1).toInt64

namespace DeltaOfDeltaCodec

/-- The encoded changes of the difference, after a value and the difference before it. -/
def encodeRest (prevDelta prev : Int64) : List Int64 → List UInt8
  | [] => []
  | v :: vals =>
    varintEncode (zigZag (v - prev - prevDelta)) ++ encodeRest (v - prev) v vals

def encode (vals : List Int64) : Except Halt (List UInt8) :=
  let head := Encoding.deltaOfDelta.discriminant
  match vals with
  | [] => .ok [head]
  | [v] => .ok (head :: leI64 v)
  | v :: w :: vals =>
    .ok (head :: (leI64 v ++ (leI64 (w - v) ++ encodeRest (w - v) w vals)))

def decodeRest (bytes : List UInt8) (prevDelta prev : Int64) : ℕ → Except Halt (List Int64)
  | 0 => .ok []
  | count + 1 =>
    match varintDecode bytes with
    | none => .error (corrupt "DoD decode: truncated varint")
    | some (zz, used) =>
      let delta := prevDelta + unZigZag zz
      match decodeRest (bytes.drop used) delta (prev + delta) count with
      | .ok vals => .ok ((prev + delta) :: vals)
      | .error e => .error e

def decode (bytes : List UInt8) (count : ℕ) : Except Halt (List Int64) :=
  if bytes.isEmpty then .ok []
  else if count = 0 then .ok []
  else if bytes.length < 9 then .error (corrupt "DoD decode: short first value")
  else
    let first := i64At bytes 1
    if count = 1 then .ok [first]
    else if bytes.length < 17 then .error (corrupt "DoD decode: short first delta")
    else
      let delta := i64At bytes 9
      match decodeRest (bytes.drop 17) delta (first + delta) (count - 2) with
      | .ok vals => .ok (first :: (first + delta) :: vals)
      | .error e => .error e

end DeltaOfDeltaCodec

/-! ### RunLength -/

namespace RunLengthCodec

/-- The bytes of one run. -/
def entry (run : UInt32) (v : Int64) : List UInt8 := leU32 run ++ leI64 v

/-- The rest of the encoding within a run. -/
def encodeRest (current : Int64) (run : UInt32) : List Int64 → List UInt8
  | [] => entry run current
  | v :: vals =>
    if v = current then encodeRest current (run + 1) vals
    else entry run current ++ encodeRest v 1 vals

def encode (vals : List Int64) : Except Halt (List UInt8) :=
  match vals with
  | [] => .ok [Encoding.runLength.discriminant]
  | v :: vals => .ok (Encoding.runLength.discriminant :: encodeRest v 1 vals)

/-- Push a value `run` times, at most up to `count` values. -/
def pushRun (count : ℕ) (v : Int64) : ℕ → List Int64 → List Int64
  | 0, out => out
  | run + 1, out =>
    if count ≤ out.length + 1 then out ++ [v] else pushRun count v run (out ++ [v])

def decodeLoop (count : ℕ) (body : List UInt8) (out : List Int64) : List Int64 :=
  if out.length < count ∧ 12 ≤ body.length then
    decodeLoop count (body.drop 12) (pushRun count (i64At body 4) (u32At body 0).toNat out)
  else out
  termination_by body.length
  decreasing_by
    rw [List.length_drop]
    omega

def decode (bytes : List UInt8) (count : ℕ) : Except Halt (List Int64) :=
  if bytes.isEmpty then .ok [] else .ok (decodeLoop count (bytes.drop 1) [])

end RunLengthCodec

end CenDB.Storage
