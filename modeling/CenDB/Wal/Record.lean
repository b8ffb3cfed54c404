import CenDB.Lib.Words
import CenDB.Lib.Framing

/-! # WAL records

The on-disk record of `wal.rs`: `LogRecord.toBytes` writes the 37-byte header, the payload
and a CRC32c of both; `LogRecord.fromBytes` reads one record from the front of a byte string
and reports the bytes it took, or one of three damage errors.

The length field has 32 bits, so a payload of `2 ^ 32` bytes or more is not written
faithfully (`payload.len() as u32`).  `LogRecord.WellFormed` collects what a record read from
a file satisfies: its payload fits and its `crc32c` field is the checksum of its body.  For
these records `toBytes` and `fromBytes` are inverse (`fromBytes_toBytes`, `fromBytes_sound`),
which makes them a `Framing.Format` (`recordFormat`). -/

namespace CenDB.Wal

open Words List

/-- Type of a WAL record. -/
inductive LogRecordType where
  | insert
  | update
  | delete
  | commit
  | abort
  | checkpoint
  | clr
deriving DecidableEq, Repr

namespace LogRecordType

/-- The on-disk value (`rec_type as u8`). -/
def toU8 : LogRecordType → UInt8
  | insert => 1
  | update => 2
  | delete => 3
  | commit => 4
  | abort => 5
  | checkpoint => 6
  | clr => 7

def fromU8 (b : UInt8) : Option LogRecordType :=
  if b = 1 then some insert
  else if b = 2 then some update
  else if b = 3 then some delete
  else if b = 4 then some commit
  else if b = 5 then some abort
  else if b = 6 then some checkpoint
  else if b = 7 then some clr
  else none

@[simp] theorem fromU8_toU8 (t : LogRecordType) : fromU8 t.toU8 = some t := by
  cases t <;> rfl

theorem toU8_of_fromU8 {b : UInt8} {t : LogRecordType} (h : fromU8 b = some t) : t.toU8 = b := by
  unfold fromU8 at h
  split_ifs at h <;> cases h <;> simp_all [toU8]

end LogRecordType

/-! ### Checksum -/

/-- One step of the reflected CRC with polynomial `0x82F63B78`. -/
def crcBit (crc : UInt32) : UInt32 :=
  if crc &&& 1 ≠ 0 then (crc >>> 1) ^^^ 0x82F63B78 else crc >>> 1

/-- Software CRC32c. -/
def crc32c (data : List UInt8) : UInt32 :=
  ~~~ data.foldl (fun crc b => crcBit^[8] (crc ^^^ b.toUInt32)) 0xFFFFFFFF

/-! ### Records -/

/-- One WAL record. -/
structure LogRecord where
  lsn : UInt64
  prevLsn : UInt64
  txnId : UInt64
  recType : LogRecordType
  pageId : UInt64
  payload : List UInt8
  crc32c : UInt32
deriving DecidableEq, Repr

inductive WalError where
  | truncatedRecord
  | unknownRecordType
  | crcMismatch
  | io (msg : String)
  | other (msg : String)
deriving DecidableEq, Repr

namespace LogRecord

/-- Everything the checksum covers: header and payload. -/
def body (r : LogRecord) : List UInt8 :=
  toLE 8 r.lsn.toNat ++ toLE 8 r.prevLsn.toNat ++ toLE 8 r.txnId.toNat ++ [r.recType.toU8] ++
    toLE 8 r.pageId.toNat ++ toLE 4 (UInt32.ofNat r.payload.length).toNat ++ r.payload

/-- Serialise to bytes for the log file. -/
def toBytes (r : LogRecord) : List UInt8 :=
  let out := r.body
  out ++ toLE 4 (Wal.crc32c out).toNat

/-- Deserialise from bytes: the record and the bytes consumed. -/
def fromBytes (bytes : List UInt8) : Except WalError (LogRecord × ℕ) :=
  if bytes.length < 37 then .error .truncatedRecord
  else
    let lsn := UInt64.ofNat (fromLE (slice bytes 0 8))
    let prevLsn := UInt64.ofNat (fromLE (slice bytes 8 16))
    let txnId := UInt64.ofNat (fromLE (slice bytes 16 24))
    match LogRecordType.fromU8 (bytes.getD 24 0) with
    | none => .error .unknownRecordType
    | some recType =>
      let pageId := UInt64.ofNat (fromLE (slice bytes 25 33))
      let payloadLen := fromLE (slice bytes 33 37)
      let needed := 41 + payloadLen
      if bytes.length < needed then .error .truncatedRecord
      else
        let payload := slice bytes 37 (37 + payloadLen)
        let crcStored := UInt32.ofNat (fromLE (slice bytes (37 + payloadLen) (41 + payloadLen)))
        let crcComputed := Wal.crc32c (bytes.take (37 + payloadLen))
        if crcStored ≠ crcComputed then .error .crcMismatch
        else .ok (⟨lsn, prevLsn, txnId, recType, pageId, payload, crcStored⟩, needed)

/-- The payload length fits the 32-bit length field. -/
def Fits (r : LogRecord) : Prop := r.payload.length < 2 ^ 32

instance (r : LogRecord) : Decidable r.Fits := inferInstanceAs (Decidable (_ < _))

/-- The record with its `crc32c` field filled in, as it is read back from the file. -/
def withCrc (r : LogRecord) : LogRecord := { r with crc32c := Wal.crc32c r.body }

/-- What a record read from a file satisfies. -/
structure WellFormed (r : LogRecord) : Prop where
  fits : r.Fits
  sealed : r.crc32c = Wal.crc32c r.body

@[simp] theorem withCrc_lsn (r : LogRecord) : r.withCrc.lsn = r.lsn := rfl
@[simp] theorem withCrc_payload (r : LogRecord) : r.withCrc.payload = r.payload := rfl
@[simp] theorem withCrc_body (r : LogRecord) : r.withCrc.body = r.body := rfl
@[simp] theorem withCrc_toBytes (r : LogRecord) : r.withCrc.toBytes = r.toBytes := rfl

variable {r : LogRecord}

theorem WellFormed.withCrc_eq (h : r.WellFormed) : r.withCrc = r := by
  cases r; simp only [withCrc, LogRecord.mk.injEq, true_and]; exact h.sealed.symm

theorem withCrc_wellFormed (h : r.Fits) : r.withCrc.WellFormed := ⟨h, rfl⟩

@[simp] theorem body_length (r : LogRecord) : r.body.length = 37 + r.payload.length := by
  simp only [body, length_append, toLE_length, length_cons, length_nil]

@[simp] theorem toBytes_length (r : LogRecord) : r.toBytes.length = 41 + r.payload.length := by
  simp [toBytes]; omega

/-! ### Round trip -/

theorem ofNat_length (h : r.Fits) :
    fromLE (toLE 4 (UInt32.ofNat r.payload.length).toNat) = r.payload.length := by
  unfold Fits at h
  rw [fromLE_toLE, UInt32.toNat_ofNat']
  norm_num
  omega

section fields
variable (r : LogRecord) (rest : List UInt8)

theorem slice_lsn : slice (r.toBytes ++ rest) 0 8 = toLE 8 r.lsn.toNat := by
  have h := @slice_middle [] (toLE 8 r.lsn.toNat)
    (toLE 8 r.prevLsn.toNat ++ toLE 8 r.txnId.toNat ++ [r.recType.toU8] ++
      toLE 8 r.pageId.toNat ++ toLE 4 (UInt32.ofNat r.payload.length).toNat ++ r.payload ++
      toLE 4 (Wal.crc32c r.body).toNat ++ rest) 0 8 rfl (by simp)
  simpa [toBytes, body] using h

theorem slice_prevLsn : slice (r.toBytes ++ rest) 8 16 = toLE 8 r.prevLsn.toNat := by
  have h := @slice_middle (toLE 8 r.lsn.toNat) (toLE 8 r.prevLsn.toNat)
    (toLE 8 r.txnId.toNat ++ [r.recType.toU8] ++ toLE 8 r.pageId.toNat ++
      toLE 4 (UInt32.ofNat r.payload.length).toNat ++ r.payload ++
      toLE 4 (Wal.crc32c r.body).toNat ++ rest) 8 16 (by simp) (by simp)
  simpa [toBytes, body] using h

theorem slice_txnId : slice (r.toBytes ++ rest) 16 24 = toLE 8 r.txnId.toNat := by
  have h := @slice_middle (toLE 8 r.lsn.toNat ++ toLE 8 r.prevLsn.toNat) (toLE 8 r.txnId.toNat)
    ([r.recType.toU8] ++ toLE 8 r.pageId.toNat ++ toLE 4 (UInt32.ofNat r.payload.length).toNat ++ r.payload ++
      toLE 4 (Wal.crc32c r.body).toNat ++ rest) 16 24 (by simp) (by simp)
  simpa [toBytes, body] using h

theorem getD_recType : (r.toBytes ++ rest).getD 24 0 = r.recType.toU8 := by
  have h := @slice_middle (toLE 8 r.lsn.toNat ++ toLE 8 r.prevLsn.toNat ++ toLE 8 r.txnId.toNat)
    [r.recType.toU8] (toLE 8 r.pageId.toNat ++ toLE 4 (UInt32.ofNat r.payload.length).toNat ++ r.payload ++
      toLE 4 (Wal.crc32c r.body).toNat ++ rest) 24 25 (by simp) (by simp)
  have h' : slice (r.toBytes ++ rest) 24 25 = [r.recType.toU8] := by rfl
  rw [slice_single (by simp; omega)] at h'
  exact head_eq_of_cons_eq h'

theorem slice_pageId : slice (r.toBytes ++ rest) 25 33 = toLE 8 r.pageId.toNat := by
  have h := @slice_middle (toLE 8 r.lsn.toNat ++ toLE 8 r.prevLsn.toNat ++
      toLE 8 r.txnId.toNat ++ [r.recType.toU8]) (toLE 8 r.pageId.toNat)
    (toLE 4 (UInt32.ofNat r.payload.length).toNat ++ r.payload ++
      toLE 4 (Wal.crc32c r.body).toNat ++ rest) 25 33 (by simp) (by simp)
  simpa [toBytes, body] using h

theorem slice_payloadLen : slice (r.toBytes ++ rest) 33 37 = toLE 4 (UInt32.ofNat r.payload.length).toNat := by
  have h := @slice_middle (toLE 8 r.lsn.toNat ++ toLE 8 r.prevLsn.toNat ++
      toLE 8 r.txnId.toNat ++ [r.recType.toU8] ++ toLE 8 r.pageId.toNat)
    (toLE 4 (UInt32.ofNat r.payload.length).toNat)
    (r.payload ++ toLE 4 (Wal.crc32c r.body).toNat ++ rest) 33 37 (by simp) (by simp)
  simpa [toBytes, body] using h

theorem slice_payload : slice (r.toBytes ++ rest) 37 (37 + r.payload.length) = r.payload := by
  have h := @slice_middle (toLE 8 r.lsn.toNat ++ toLE 8 r.prevLsn.toNat ++
      toLE 8 r.txnId.toNat ++ [r.recType.toU8] ++ toLE 8 r.pageId.toNat ++
      toLE 4 (UInt32.ofNat r.payload.length).toNat) r.payload
    (toLE 4 (Wal.crc32c r.body).toNat ++ rest) 37 (37 + r.payload.length) (by simp) rfl
  simpa [toBytes, body] using h

theorem slice_crc : slice (r.toBytes ++ rest) (37 + r.payload.length) (41 + r.payload.length) =
    toLE 4 (Wal.crc32c r.body).toNat := by
  have h := @slice_middle r.body (toLE 4 (Wal.crc32c r.body).toNat) rest
    (37 + r.payload.length) (41 + r.payload.length) (by simp) (by simp; omega)
  simpa [toBytes] using h

theorem take_body : (r.toBytes ++ rest).take (37 + r.payload.length) = r.body := by simp [toBytes]

end fields

/-- A record is read back, with its checksum filled in, whatever follows it. -/
theorem fromBytes_toBytes (h : r.Fits) (rest : List UInt8) :
    fromBytes (r.toBytes ++ rest) = .ok (r.withCrc, r.toBytes.length) := by
  have hlen : (r.toBytes ++ rest).length = 41 + r.payload.length + rest.length := by simp
  unfold fromBytes
  rw [if_neg (by omega)]
  simp only [getD_recType, LogRecordType.fromU8_toU8, slice_lsn, slice_prevLsn, slice_txnId,
    slice_pageId, slice_payloadLen, ofNat_length h, ofNat_fromLE_toLE_64]
  rw [if_neg (by omega), slice_payload, slice_crc, take_body, ofNat_fromLE_toLE_32,
    if_neg (by simp), toBytes_length]
  rfl

/-- What `fromBytes` accepts is the serialisation of the record it returns. -/
theorem fromBytes_sound {bytes : List UInt8} {n : ℕ} (h : fromBytes bytes = .ok (r, n)) :
    r.WellFormed ∧ n = r.toBytes.length ∧ ∃ rest, bytes = r.toBytes ++ rest := by
  unfold fromBytes at h
  split_ifs at h with h37
  cases ht : LogRecordType.fromU8 (bytes.getD 24 0) with
  | none => rw [ht] at h; cases h
  | some recType =>
    rw [ht] at h
    dsimp only at h
    split_ifs at h with hneed hcrc
    obtain ⟨hr, hn⟩ := Prod.mk.inj (Except.ok.inj h)
    generalize hL : fromLE (slice bytes 33 37) = L at *
    have hLlt : L < 2 ^ 32 := by
      have := fromLE_lt (slice bytes 33 37)
      rw [slice_length (by omega), hL] at this
      norm_num at this ⊢
      exact this
    have hpl : (slice bytes 37 (37 + L)).length = L := by
      rw [slice_length (by omega)]; omega
    have hlenField : toLE 4 (UInt32.ofNat L).toNat = slice bytes 33 37 := by
      rw [← hL]; exact toLE_toNat_32 (slice_length (by omega))
    have hbody : r.body = bytes.take (37 + L) := by
      rw [← hr]
      simp only [body, hpl, hlenField, LogRecordType.toU8_of_fromU8 ht]
      rw [toLE_toNat_64 (slice_length (by omega)), toLE_toNat_64 (slice_length (by omega)),
        toLE_toNat_64 (slice_length (by omega)), toLE_toNat_64 (slice_length (by omega)),
        ← slice_single (by omega), slice_append_slice (by omega) (by omega),
        slice_append_slice (by omega) (by omega), slice_append_slice (by omega) (by omega),
        slice_append_slice (by omega) (by omega), slice_append_slice (by omega) (by omega),
        slice_append_slice (by omega) (by omega), slice_zero]
    have hcrc' : r.crc32c = Wal.crc32c r.body := by
      rw [hbody, ← hr]; exact not_not.mp hcrc
    have hpay : r.payload.length = L := by rw [← hr]; exact hpl
    have hcrcBytes : toLE 4 (Wal.crc32c r.body).toNat = slice bytes (37 + L) (41 + L) := by
      rw [← hcrc', ← hr]
      exact toLE_toNat_32 (by rw [slice_length (by omega)]; omega)
    refine ⟨⟨by rw [Fits, hpay]; exact hLlt, hcrc'⟩, by rw [toBytes_length, hpay, ← hn], ?_⟩
    refine ⟨bytes.drop (41 + L), ?_⟩
    rw [toBytes, hcrcBytes, hbody, ← slice_zero, slice_append_slice (by omega) (by omega),
      slice_zero, take_append_drop]

end LogRecord

/-- One record read from the front of a byte string, damage of any kind being no record. -/
def decodeRecord (bytes : List UInt8) : Option (LogRecord × ℕ) :=
  match LogRecord.fromBytes bytes with
  | .ok p => some p
  | .error _ => none

theorem decodeRecord_eq_some {bytes : List UInt8} {p : LogRecord × ℕ} :
    decodeRecord bytes = some p ↔ LogRecord.fromBytes bytes = .ok p := by
  unfold decodeRecord
  cases LogRecord.fromBytes bytes <;> simp

/-- WAL records are self-delimiting frames. -/
def recordFormat : Framing.Format UInt8 LogRecord where
  encode := LogRecord.toBytes
  decode := decodeRecord
  Valid := LogRecord.WellFormed
  encode_pos r := by simp
  decode_encode r hr rest := by
    rw [decodeRecord_eq_some, LogRecord.fromBytes_toBytes hr.fits, hr.withCrc_eq]
  decode_sound s r n h := LogRecord.fromBytes_sound (decodeRecord_eq_some.mp h)

end CenDB.Wal
