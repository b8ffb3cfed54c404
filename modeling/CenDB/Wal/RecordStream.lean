import CenDB.Wal.Log

/-! # Streams of WAL records

`LogRecord.fromBytesIndexed` is `from_bytes` with every index and every slice checked against the
length of the input; `none` is an index out of range, a panic.  It never comes to that, and it returns
what `fromBytes` returns (`fromBytesIndexed_eq`).

The bytes of a record hold no `crc32c` field of their own: the last word is the checksum of what was
written before it.  A record is read back with that checksum as its field, whatever the field was
(`records_selfDelimiting`). -/

namespace CenDB.Wal

open Words Framing List

/-! ### Checked reads -/

/-- The bytes `bytes[i], …, bytes[i + n - 1]`, index by index. -/
def readArray (bytes : List UInt8) (i n : ℕ) : Option (List UInt8) := (List.range' i n).mapM fun k => bytes[k]?

/-- The range `bytes[i..j]`. -/
def readRange (bytes : List UInt8) (i j : ℕ) : Option (List UInt8) :=
  if i ≤ j ∧ j ≤ bytes.length then some (slice bytes i j) else none

/-- `from_bytes` with its indices checked. -/
def LogRecord.fromBytesIndexed (bytes : List UInt8) : Option (Except WalError (LogRecord × ℕ)) :=
  if bytes.length < 37 then some (.error .truncatedRecord)
  else do
    let lsn := UInt64.ofNat (fromLE (← readArray bytes 0 8))
    let prevLsn := UInt64.ofNat (fromLE (← readArray bytes 8 8))
    let txnId := UInt64.ofNat (fromLE (← readArray bytes 16 8))
    match LogRecordType.fromU8 (← bytes[24]?) with
    | none => some (.error .unknownRecordType)
    | some recType =>
      let pageId := UInt64.ofNat (fromLE (← readArray bytes 25 8))
      let payloadLen := fromLE (← readArray bytes 33 4)
      let needed := 41 + payloadLen
      if bytes.length < needed then some (.error .truncatedRecord)
      else
        let payload ← readRange bytes 37 (37 + payloadLen)
        let crcStored := UInt32.ofNat (fromLE (← readArray bytes (37 + payloadLen) 4))
        let crcComputed := Wal.crc32c (← readRange bytes 0 (37 + payloadLen))
        if crcStored ≠ crcComputed then some (.error .crcMismatch)
        else some (.ok (⟨lsn, prevLsn, txnId, recType, pageId, payload, crcStored⟩, needed))

theorem readArray_eq {bytes : List UInt8} {i n : ℕ} (h : i + n ≤ bytes.length) :
    readArray bytes i n = some (slice bytes i (i + n)) := by
  induction n generalizing i with
  | zero => simp [readArray, slice]
  | succ n ih =>
    have hi : i < bytes.length := by omega
    have hrest := ih (i := i + 1) (by omega)
    have hsplit : slice bytes i (i + (n + 1)) = bytes[i] :: slice bytes (i + 1) (i + 1 + n) := by
      rw [← slice_append_slice (j := i + 1) (by omega) (by omega), slice_single hi,
        getD_eq_getElem _ _ hi, singleton_append]
      congr 2
      omega
    rw [readArray] at hrest ⊢
    rw [range'_succ, mapM_cons, getElem?_eq_getElem hi, hrest, hsplit]
    rfl

theorem readRange_eq {bytes : List UInt8} {i j : ℕ} (hij : i ≤ j) (hj : j ≤ bytes.length) :
    readRange bytes i j = some (slice bytes i j) := if_pos ⟨hij, hj⟩

/-- **`from_bytes` never reads out of bounds.** -/
theorem fromBytesIndexed_eq (bytes : List UInt8) :
    LogRecord.fromBytesIndexed bytes = some (LogRecord.fromBytes bytes) := by
  unfold LogRecord.fromBytesIndexed LogRecord.fromBytes
  split
  · rfl
  · rename_i hlong
    have hbyte : bytes[24]? = some (bytes.getD 24 0) := by
      rw [getElem?_eq_getElem (by omega), getD_eq_getElem _ _ (by omega)]
    rw [readArray_eq (by omega), readArray_eq (by omega), readArray_eq (by omega), hbyte]
    dsimp only [Option.bind_eq_bind, Option.bind_some]
    cases LogRecordType.fromU8 (bytes.getD 24 0) with
    | none => rfl
    | some recType =>
      dsimp only
      rw [readArray_eq (by omega), readArray_eq (by omega)]
      dsimp only [Option.bind_some]
      split
      · rfl
      · -- the payload and its checksum end where the length check says
        rw [readRange_eq (by omega) (by omega), readArray_eq (by omega),
          readRange_eq (by omega) (by omega), slice_zero]
        have hend : ∀ n, 37 + n + 4 = 41 + n := fun n => by omega
        dsimp only [Option.bind_some]
        rw [hend]
        split <;> rfl

/-! ### Both directions -/

theorem encodeAll_eq (rs : List LogRecord) :
    recordFormat.encodeAll rs = (rs.map LogRecord.toBytes).flatten := rfl

/-- Records that fit are read back one after the other, each with its checksum. -/
theorem readAll_records {w : WriteAheadLog} {rs : List LogRecord} (hfits : ∀ r ∈ rs, r.Fits)
    (hfile : w.file = (rs.map LogRecord.toBytes).flatten) :
    w.readAll = .ok (rs.map LogRecord.withCrc) := by
  have hvalid : ∀ r ∈ rs.map LogRecord.withCrc, recordFormat.Valid r := by
    intro r hr
    obtain ⟨r', hr', rfl⟩ := List.mem_map.mp hr
    exact LogRecord.withCrc_wellFormed (hfits r' hr')
  have hsame : w.file = recordFormat.encodeAll (rs.map LogRecord.withCrc) := by
    rw [hfile, encodeAll_eq, map_map]
    rfl
  rw [WriteAheadLog.readAll_eq, hsame, scan_encodeAll hvalid]

/-- **Records are self-delimiting**: a record is read from the front of any bytes that start with it,
with its checksum in the `crc32c` field and its length, and a list of records is read back from their
concatenation.  On any bytes the reader stays in bounds, and the bytes it takes are those of the record
it returns. -/
theorem records_selfDelimiting {rs : List LogRecord} (hfits : ∀ r ∈ rs, r.Fits) :
    (∀ r ∈ rs, ∀ rest, LogRecord.fromBytesIndexed (r.toBytes ++ rest) =
      some (.ok ({ r with crc32c := crc32c r.body }, r.toBytes.length))) ∧
    (∀ w : WriteAheadLog, w.file = (rs.map LogRecord.toBytes).flatten →
      w.readAll = .ok (rs.map fun r => { r with crc32c := crc32c r.body })) ∧
    ∀ bytes, ∃ result, LogRecord.fromBytesIndexed bytes = some result ∧
      ∀ r n, result = .ok (r, n) → n ≤ bytes.length ∧ r.toBytes = bytes.take n := by
  refine ⟨fun r hr rest => ?_, fun w hw => readAll_records hfits hw, fun bytes => ?_⟩
  · rw [fromBytesIndexed_eq, LogRecord.fromBytes_toBytes (hfits r hr)]
    rfl
  · refine ⟨_, fromBytesIndexed_eq bytes, fun r n hread => ?_⟩
    obtain ⟨-, rfl, rest, rfl⟩ := LogRecord.fromBytes_sound hread
    constructor
    · simp
    · rw [take_left]

/-- An insert as `append` builds it, with no checksum yet. -/
def unsealed : LogRecord := ⟨1, 0, 7, .insert, 3, [104, 105], 0⟩

theorem records_selfDelimiting_unsealed :
    (∀ r ∈ [unsealed, unsealed], ∀ rest, LogRecord.fromBytesIndexed (r.toBytes ++ rest) =
      some (.ok ({ r with crc32c := crc32c r.body }, r.toBytes.length))) ∧
    (∀ w : WriteAheadLog, w.file = ([unsealed, unsealed].map LogRecord.toBytes).flatten →
      w.readAll = .ok ([unsealed, unsealed].map fun r => { r with crc32c := crc32c r.body })) ∧
    ∀ bytes, ∃ result, LogRecord.fromBytesIndexed bytes = some result ∧
      ∀ r n, result = .ok (r, n) → n ≤ bytes.length ∧ r.toBytes = bytes.take n :=
  records_selfDelimiting (by simp [LogRecord.Fits, unsealed])

/-- It is read back as another record: one that has its checksum. -/
theorem unsealed_readsBack_sealed :
    LogRecord.fromBytesIndexed unsealed.toBytes ≠ some (.ok (unsealed, unsealed.toBytes.length)) ∧
      LogRecord.fromBytesIndexed unsealed.toBytes =
        some (.ok ({ unsealed with crc32c := crc32c unsealed.body }, 43)) := by
  set_option maxRecDepth 16000 in decide

end CenDB.Wal
