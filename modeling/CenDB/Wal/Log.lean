import CenDB.Wal.Record

/-! # The write-ahead log file

`WriteAheadLog` of `wal.rs` over a file that behaves as a byte array: the file is opened in
append mode, so every write lands at its physical end, whatever a `seek` did before.  `fsync`
leaves the array as it is.

A call that does not return `Ok` is a `Halt`: an `Err` of the source, an arithmetic overflow
(a panic), or a recursion that the given fuel does not finish.  `append` and `checkpoint` call
each other, so they carry fuel; a call *returns* if some fuel makes it `.ok`.

* `readAll_eq`: the reader's loop returns the scan of the file (`Framing.Format.scan`).
* `appendFuel_returns`: an append that returns has written its one record and nothing else.
  When the automatic checkpoint is due, `append` and `checkpoint` call each other for ever
  (`checkpointFuel_due`), since the counter that triggers them is reset only afterwards. -/

namespace CenDB.Wal

open Words Framing List

/-- Records that must accumulate before a checkpoint truncates the log by itself. -/
def AUTO_TRUNCATE_THRESHOLD : UInt64 := 10000

structure WalConfig where
  syncOnCommit : Bool
  syncOnEveryRecord : Bool
  checkpointInterval : UInt32
deriving DecidableEq, Repr

/-- `WalConfig::default()`. -/
def WalConfig.default : WalConfig := ⟨true, false, 1000⟩

/-- The log: the bytes of its file, and the counters. -/
structure WriteAheadLog where
  file : List UInt8
  nextLsn : UInt64
  lastRecordLsn : UInt64
  config : WalConfig
  recordsSinceCheckpoint : UInt32
  totalAppendsSinceTruncate : UInt64
deriving DecidableEq, Repr

/-- Why a call does not return `Ok`. -/
inductive Halt where
  | error (e : WalError)
  | overflow
  | fuel
deriving DecidableEq, Repr

/-- The arguments of one `append`. -/
structure AppendCall where
  txnId : UInt64
  prevLsn : UInt64
  recType : LogRecordType
  pageId : UInt64
  payload : List UInt8
deriving DecidableEq, Repr

/-- The record an append writes under the given LSN. -/
def AppendCall.record (c : AppendCall) (lsn : UInt64) : LogRecord :=
  ⟨lsn, c.prevLsn, c.txnId, c.recType, c.pageId, c.payload, 0⟩

namespace WriteAheadLog

/-! ### Scanning and reading -/

/-- The loop of `scan_to_end`: the largest LSN from `cursor` on. -/
def scanLoop (buf : List UInt8) : ℕ → ℕ → UInt64 → Except WalError UInt64
  | 0, _, maxLsn => .ok maxLsn
  | fuel + 1, cursor, maxLsn =>
    if cursor < buf.length then
      match LogRecord.fromBytes (buf.drop cursor) with
      | .ok (r, consumed) =>
        scanLoop buf fuel (cursor + consumed) (if r.lsn > maxLsn then r.lsn else maxLsn)
      | .error .truncatedRecord => .ok maxLsn
      | .error .crcMismatch => .ok maxLsn
      | .error .unknownRecordType => .ok maxLsn
      | .error e => .error e
    else .ok maxLsn

/-- `scan_to_end`: the counters after scanning the file.  Every record takes at least one
byte, so the length of the file bounds the rounds of the loop. -/
def scanToEnd (w : WriteAheadLog) : Except Halt WriteAheadLog :=
  match scanLoop w.file w.file.length 0 0 with
  | .error e => .error (.error e)
  | .ok maxLsn =>
    match addU64 maxLsn 1 with
    | none => .error .overflow
    | some next => .ok { w with nextLsn := next, lastRecordLsn := maxLsn }

/-- `open` on a file with the given contents. -/
def openLog (contents : List UInt8) (config : WalConfig) : Except Halt WriteAheadLog := do
  let w ← scanToEnd ⟨contents, 1, 0, config, 0, 0⟩
  return { w with totalAppendsSinceTruncate := w.lastRecordLsn }

/-- The loop of `read_all`. -/
def readLoop (buf : List UInt8) : ℕ → ℕ → List LogRecord → Except WalError (List LogRecord)
  | 0, _, records => .ok records
  | fuel + 1, cursor, records =>
    if cursor < buf.length then
      match LogRecord.fromBytes (buf.drop cursor) with
      | .ok (r, consumed) => readLoop buf fuel (cursor + consumed) (records ++ [r])
      | .error .truncatedRecord => .ok records
      | .error .crcMismatch => .ok records
      | .error .unknownRecordType => .ok records
      | .error e => .error e
    else .ok records

/-- Read all records up to the first damage. -/
def readAll (w : WriteAheadLog) : Except WalError (List LogRecord) := readLoop w.file w.file.length 0 []

/-! ### Truncation -/

/-- The index of the last element that satisfies `p` (`Iterator::rposition`). -/
def rposition {α : Type} (p : α → Bool) : List α → Option ℕ
  | [] => none
  | a :: as =>
    match rposition p as with
    | some i => some (i + 1)
    | none => if p a then some 0 else none

/-- Where the last `Checkpoint` record is. -/
def lastCpIdx (records : List LogRecord) : Option ℕ := rposition (fun r => r.recType = .checkpoint) records

/-- `truncate_to_checkpoint`: the bytes reclaimed, and the log whose file holds the
survivors (written to a temporary file and renamed over the old one). -/
def truncateToCheckpoint (w : WriteAheadLog) : Except WalError (ℕ × WriteAheadLog) := do
  let records ← w.readAll
  let originalSize := w.file.length
  match lastCpIdx records with
  | none => return (0, w)
  | some idx =>
    if idx = 0 then return (0, w)
    else
      let tmp := ((records.drop idx).map LogRecord.toBytes).flatten
      return (originalSize - tmp.length, { w with file := tmp, totalAppendsSinceTruncate := 0 })

/-! ### Appending -/

/-- `append` up to the automatic checkpoint: write the record, advance the counters. -/
def writeRecord (w : WriteAheadLog) (c : AppendCall) : Except Halt (UInt64 × WriteAheadLog) :=
  let lsn := w.nextLsn
  let bytes := (c.record lsn).toBytes
  match addU64 w.nextLsn 1, addU32 w.recordsSinceCheckpoint 1 with
  | some next, some since =>
    .ok (lsn, { w with
      file := w.file ++ bytes
      nextLsn := next
      lastRecordLsn := lsn
      recordsSinceCheckpoint := since
      totalAppendsSinceTruncate := saturatingAddU64 w.totalAppendsSinceTruncate 1 })
  | _, _ => .error .overflow

/-- The test that makes `append` checkpoint. -/
def CheckpointDue (w : WriteAheadLog) : Prop :=
  0 < w.config.checkpointInterval ∧ w.config.checkpointInterval ≤ w.recordsSinceCheckpoint

instance (w : WriteAheadLog) : Decidable w.CheckpointDue := inferInstanceAs (Decidable (_ ∧ _))

mutual

/-- Append a record; the assigned LSN and the log. -/
def appendFuel : ℕ → WriteAheadLog → AppendCall → Except Halt (UInt64 × WriteAheadLog)
  | 0, _, _ => .error .fuel
  | fuel + 1, w, c =>
    match writeRecord w c with
    | .error e => .error e
    | .ok (lsn, w) =>
      if w.CheckpointDue then
        match checkpointFuel fuel w with
        | .error e => .error e
        | .ok (_, w) => .ok (lsn, w)
      else .ok (lsn, w)

/-- Write a checkpoint record, and truncate when enough records have accumulated. -/
def checkpointFuel : ℕ → WriteAheadLog → Except Halt (UInt64 × WriteAheadLog)
  | 0, _ => .error .fuel
  | fuel + 1, w =>
    match appendFuel fuel w ⟨0, w.lastRecordLsn, .checkpoint, 0, []⟩ with
    | .error e => .error e
    | .ok (lsn, w) =>
      let w := { w with recordsSinceCheckpoint := 0 }
      if w.totalAppendsSinceTruncate ≥ AUTO_TRUNCATE_THRESHOLD then
        match w.truncateToCheckpoint with
        | .error e => .error (.error e)
        | .ok (_, w) => .ok (lsn, w)
      else .ok (lsn, w)

end

/-- Appends that return, one after another, with the LSNs they return. -/
inductive AppendAll : WriteAheadLog → List AppendCall → List UInt64 → WriteAheadLog → Prop
  | nil (w : WriteAheadLog) : AppendAll w [] [] w
  | cons {w w₁ w₂ : WriteAheadLog} {c : AppendCall} {cs : List AppendCall} {lsn : UInt64}
    {lsns : List UInt64} (fuel : ℕ) : appendFuel fuel w c = .ok (lsn, w₁) →
    AppendAll w₁ cs lsns w₂ → AppendAll w (c :: cs) (lsn :: lsns) w₂

/-! ### What the loops compute -/

theorem fromBytes_error {bytes : List UInt8} {e : WalError} (h : LogRecord.fromBytes bytes = .error e) :
    e = .truncatedRecord ∨ e = .unknownRecordType ∨ e = .crcMismatch := by
  unfold LogRecord.fromBytes at h
  split_ifs at h with h37
  · exact Or.inl (Except.error.inj h).symm
  · cases ht : LogRecordType.fromU8 (bytes.getD 24 0) with
    | none =>
      rw [ht] at h
      exact Or.inr (Or.inl (Except.error.inj h).symm)
    | some recType =>
      rw [ht] at h
      dsimp only at h
      split_ifs at h with hneed hcrc
      · exact Or.inl (Except.error.inj h).symm
      · exact Or.inr (Or.inr (Except.error.inj h).symm)

theorem readLoop_eq (buf : List UInt8) : ∀ (fuel cursor : ℕ) (records : List LogRecord),
    readLoop buf fuel cursor records = .ok (records ++ recordFormat.scanFuel fuel (buf.drop cursor))
  | 0, _, records => by simp [readLoop, Format.scanFuel]
  | fuel + 1, cursor, records => by
    unfold readLoop
    by_cases hc : cursor < buf.length
    · rw [if_pos hc]
      cases hd : LogRecord.fromBytes (buf.drop cursor) with
      | ok p =>
        have hdec : recordFormat.decode (buf.drop cursor) = some p := decodeRecord_eq_some.mpr hd
        simp only [Format.scanFuel, hdec, drop_drop]
        rw [readLoop_eq buf fuel, append_assoc]
        rfl
      | error e =>
        have hdec : recordFormat.decode (buf.drop cursor) = none := by
          simp [recordFormat, decodeRecord, hd]
        have hscan : recordFormat.scanFuel (fuel + 1) (buf.drop cursor) = [] := by
          simp [Format.scanFuel, hdec]
        rw [hscan, append_nil]
        rcases fromBytes_error hd with rfl | rfl | rfl <;> rfl
    · rw [if_neg hc, drop_eq_nil_of_le (not_lt.mp hc)]
      simp [Format.scanFuel, recordFormat.decode_nil]

/-- `read_all` never fails, and returns the scan of the file. -/
theorem readAll_eq (w : WriteAheadLog) : w.readAll = .ok (recordFormat.scan w.file) := by
  rw [readAll, readLoop_eq, drop_zero, List.nil_append]
  rfl

/-- The largest LSN of a list of records, and of `start`. -/
def maxLsn (start : UInt64) (records : List LogRecord) : UInt64 :=
  records.foldl (fun m r => if r.lsn > m then r.lsn else m) start

theorem scanLoop_eq (buf : List UInt8) : ∀ (fuel cursor : ℕ) (start : UInt64), scanLoop buf fuel cursor start =
      .ok (maxLsn start (recordFormat.scanFuel fuel (buf.drop cursor)))
  | 0, _, start => by simp [scanLoop, Format.scanFuel, maxLsn]
  | fuel + 1, cursor, start => by
    unfold scanLoop
    by_cases hc : cursor < buf.length
    · rw [if_pos hc]
      cases hd : LogRecord.fromBytes (buf.drop cursor) with
      | ok p =>
        have hdec : recordFormat.decode (buf.drop cursor) = some p := decodeRecord_eq_some.mpr hd
        simp only [Format.scanFuel, hdec, drop_drop]
        rw [scanLoop_eq buf fuel]
        rfl
      | error e =>
        have hdec : recordFormat.decode (buf.drop cursor) = none := by
          simp [recordFormat, decodeRecord, hd]
        have hscan : recordFormat.scanFuel (fuel + 1) (buf.drop cursor) = [] := by
          simp [Format.scanFuel, hdec]
        rw [hscan]
        rcases fromBytes_error hd with rfl | rfl | rfl <;> rfl
    · rw [if_neg hc, drop_eq_nil_of_le (not_lt.mp hc)]
      simp [Format.scanFuel, recordFormat.decode_nil, maxLsn]

variable {w w' : WriteAheadLog}

/-- `open` keeps the file, and the counters start at the largest LSN scanned. -/
theorem openLog_eq (contents : List UInt8) (config : WalConfig) : openLog contents config =
    match addU64 (maxLsn 0 (recordFormat.scan contents)) 1 with
    | none => .error .overflow
    | some next => .ok ⟨contents, next, maxLsn 0 (recordFormat.scan contents), config, 0,
        maxLsn 0 (recordFormat.scan contents)⟩ := by
  rw [openLog, scanToEnd]
  simp only [scanLoop_eq, drop_zero]
  rw [Format.scan]
  cases addU64 (maxLsn 0 (recordFormat.scanFuel contents.length contents)) 1 <;> rfl

/-- `open` on a file of known records. -/
theorem openLog_of_scan {contents : List UInt8} {records : List LogRecord} {next : UInt64} (config : WalConfig)
    (hscan : recordFormat.scan contents = records) (hnext : addU64 (maxLsn 0 records) 1 = some next) :
    openLog contents config = .ok ⟨contents, next, maxLsn 0 records, config, 0, maxLsn 0 records⟩ := by
  rw [openLog_eq, hscan, hnext]

/-- What `open` returns: the file as it is, and the LSN after the largest one scanned. -/
theorem openLog_ok {contents : List UInt8} {config : WalConfig} (h : openLog contents config = .ok w) :
    w.file = contents ∧ w.config = config ∧
      w.nextLsn.toNat = (maxLsn 0 (recordFormat.scan contents)).toNat + 1 := by
  rw [openLog_eq] at h
  cases ha : addU64 (maxLsn 0 (recordFormat.scan contents)) 1 with
  | none => rw [ha] at h; cases h
  | some next =>
    rw [ha] at h
    have hw := Except.ok.inj h
    subst hw
    exact ⟨rfl, rfl, addU64_some ha⟩

/-! ### What an append does -/

variable {c : AppendCall} {lsn : UInt64}

theorem writeRecord_ok (h : writeRecord w c = .ok (lsn, w')) :
    lsn = w.nextLsn ∧ w'.file = w.file ++ (c.record lsn).toBytes ∧
      w'.nextLsn.toNat = w.nextLsn.toNat + 1 ∧ w'.config = w.config ∧
      w'.recordsSinceCheckpoint.toNat = w.recordsSinceCheckpoint.toNat + 1 := by
  unfold writeRecord at h
  cases h₁ : addU64 w.nextLsn 1 with
  | none => rw [h₁] at h; cases h
  | some next =>
    cases h₂ : addU32 w.recordsSinceCheckpoint 1 with
    | none => rw [h₁, h₂] at h; cases h
    | some since =>
      rw [h₁, h₂] at h
      cases h
      exact ⟨rfl, rfl, addU64_some h₁, rfl, addU32_some h₂⟩

theorem CheckpointDue.writeRecord (hdue : w.CheckpointDue) (h : writeRecord w c = .ok (lsn, w')) :
    w'.CheckpointDue := by
  obtain ⟨-, -, -, hconfig, hsince⟩ := writeRecord_ok h
  refine ⟨by rw [hconfig]; exact hdue.1, ?_⟩
  have := UInt32.le_iff_toNat_le.mp hdue.2
  rw [UInt32.le_iff_toNat_le, hconfig, hsince]
  omega

/-- Once the automatic checkpoint is due, `checkpoint` calls `append`, which finds it still
due and calls `checkpoint`: no fuel finishes the recursion. -/
theorem checkpointFuel_due : ∀ (fuel : ℕ) {w : WriteAheadLog}, w.CheckpointDue →
    ∀ p, checkpointFuel fuel w ≠ .ok p
  | 0, w, _, p => by simp [checkpointFuel]
  | 1, w, _, p => by simp [checkpointFuel, appendFuel]
  | fuel + 2, w, hdue, p => by
    intro h
    unfold checkpointFuel appendFuel at h
    cases hw : writeRecord w ⟨0, w.lastRecordLsn, .checkpoint, 0, []⟩ with
    | error e => simp [hw] at h
    | ok q =>
      obtain ⟨lsn, w'⟩ := q
      have hdue' := hdue.writeRecord hw
      simp only [hw, if_pos hdue'] at h
      cases hc : checkpointFuel fuel w' with
      | error e => simp [hc] at h
      | ok q' => exact checkpointFuel_due fuel hdue' q' hc

/-- An append that returns has written its record, and no automatic checkpoint was due. -/
theorem appendFuel_returns {fuel : ℕ} (h : appendFuel fuel w c = .ok (lsn, w')) :
    writeRecord w c = .ok (lsn, w') := by
  cases fuel with
  | zero => simp [appendFuel] at h
  | succ fuel =>
    unfold appendFuel at h
    cases hw : writeRecord w c with
    | error e => simp [hw] at h
    | ok q =>
      obtain ⟨lsn₁, w₁⟩ := q
      simp only [hw] at h
      by_cases hdue : w₁.CheckpointDue
      · rw [if_pos hdue] at h
        cases hc : checkpointFuel fuel w₁ with
        | error e => simp [hc] at h
        | ok q' => exact absurd hc (checkpointFuel_due fuel hdue q')
      · rw [if_neg hdue] at h
        exact h

/-- The records that appends write under the LSNs they return. -/
def appendedRecords (lsns : List UInt64) (cs : List AppendCall) : List LogRecord :=
  List.zipWith (fun lsn c => c.record lsn) lsns cs

theorem AppendAll.file_eq {cs : List AppendCall} {lsns : List UInt64} (h : AppendAll w cs lsns w') :
    w'.file = w.file ++ recordFormat.encodeAll (appendedRecords lsns cs) := by
  induction h with
  | nil w => simp [appendedRecords]
  | cons fuel happ _ ih =>
    obtain ⟨-, hfile, -⟩ := writeRecord_ok (appendFuel_returns happ)
    rw [ih, hfile, append_assoc]
    rfl

end WriteAheadLog

/-! ### Contiguous LSNs -/

/-- The records carry the LSNs `n, n + 1, …` in order. -/
def ContiguousFrom : ℕ → List LogRecord → Prop
  | _, [] => True
  | n, r :: rs => r.lsn.toNat = n ∧ ContiguousFrom (n + 1) rs

variable {rs : List LogRecord}

variable {n : ℕ}

theorem contiguousFrom_append {ss : List LogRecord} :
    ContiguousFrom n (rs ++ ss) ↔ ContiguousFrom n rs ∧ ContiguousFrom (n + rs.length) ss := by
  induction rs generalizing n with
  | nil => simp [ContiguousFrom]
  | cons r rs ih =>
    have hlen : n + 1 + rs.length = n + (rs.length + 1) := by omega
    simp only [cons_append, ContiguousFrom, ih, length_cons, hlen, and_assoc]

theorem contiguousFrom_map_withCrc : ContiguousFrom n (rs.map LogRecord.withCrc) ↔ ContiguousFrom n rs := by
  induction rs generalizing n with
  | nil => simp [ContiguousFrom]
  | cons r rs ih => simp [ContiguousFrom, ih]

theorem WriteAheadLog.AppendAll.contiguousFrom {w w' : WriteAheadLog} {cs : List AppendCall}
    {lsns : List UInt64} (h : AppendAll w cs lsns w') :
    ContiguousFrom w.nextLsn.toNat (appendedRecords lsns cs) := by
  induction h with
  | nil w => trivial
  | cons fuel happ _ ih =>
    obtain ⟨hlsn, -, hnext, -⟩ := writeRecord_ok (appendFuel_returns happ)
    refine ⟨by rw [hlsn]; rfl, ?_⟩
    rwa [hnext] at ih

theorem WriteAheadLog.maxLsn_contiguous_succ :
    ∀ {n : ℕ} {start : UInt64}, ContiguousFrom n rs → start.toNat + 1 = n →
      (maxLsn start rs).toNat + 1 = n + rs.length := by
  induction rs with
  | nil =>
    intro n start _ hstart
    simpa [maxLsn] using hstart
  | cons r rs ih =>
    intro n start h hstart
    have hgt : r.lsn > start := by
      rw [gt_iff_lt, UInt64.lt_iff_toNat_lt, h.1]; omega
    have hstep : maxLsn start (r :: rs) = maxLsn r.lsn rs := by
      simp [maxLsn, hgt]
    have := ih h.2 (by rw [h.1])
    rw [hstep, this, length_cons]
    omega

/-- In a non-empty contiguous log the largest LSN is the last one. -/
theorem WriteAheadLog.maxLsn_contiguous {start : UInt64} (h : ContiguousFrom n rs) (hne : rs ≠ [])
    (hstart : start.toNat < n) :
    (maxLsn start rs).toNat + 1 = n + rs.length := by
  cases rs with
  | nil => exact absurd rfl hne
  | cons r rs =>
    have hgt : r.lsn > start := by
      rw [gt_iff_lt, UInt64.lt_iff_toNat_lt, h.1]; exact hstart
    have hstep : maxLsn start (r :: rs) = maxLsn r.lsn rs := by
      simp [maxLsn, hgt]
    rw [hstep, maxLsn_contiguous_succ h.2 (by rw [h.1]), length_cons]
    omega

end CenDB.Wal
