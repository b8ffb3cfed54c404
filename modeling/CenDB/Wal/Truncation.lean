import CenDB.Wal.CrashRecovery
import CenDB.Wal.Recovery

/-! # Truncation and transactions that span the checkpoint

`truncate_to_checkpoint` keeps the last `Checkpoint` record and what follows it.  The
checkpoint record carries no table of the transactions in flight, and recovery finds the
writes to redo or undo in the log itself, so a write before the checkpoint of a transaction
that has not ended there is needed and lost.

`keepsSpanning_iff`: truncation is safe for the transactions that span the checkpoint exactly
when none of them has a write before it. -/

namespace CenDB.Wal

open Framing WriteAheadLog List

/-! ### The truncated log -/

/-- How many records precede the last checkpoint (none if there is no checkpoint). -/
def checkpointIdx (records : List LogRecord) : ℕ := (lastCpIdx records).getD 0

theorem rposition_none {α : Type} {p : α → Bool} : ∀ {l : List α}, rposition p l = none → ∀ b ∈ l, p b = false
  | [], _, b, hb => by cases hb
  | a :: as, h, b, hb => by
    unfold rposition at h
    cases hr : rposition p as with
    | some j => rw [hr] at h; cases h
    | none =>
      rw [hr] at h
      dsimp only at h
      split_ifs at h with hpa
      rcases mem_cons.mp hb with rfl | hb
      · simpa using hpa
      · exact rposition_none hr b hb

theorem rposition_some {α : Type} {p : α → Bool} : ∀ {l : List α} {i : ℕ},
    rposition p l = some i → ∃ a, l[i]? = some a ∧ p a = true ∧ ∀ b ∈ l.drop (i + 1), p b = false
  | [], i, h => by cases h
  | a :: as, i, h => by
    unfold rposition at h
    cases hr : rposition p as with
    | some j =>
      rw [hr] at h
      cases h
      obtain ⟨b, hb, hpb, hlast⟩ := rposition_some hr
      exact ⟨b, by simpa using hb, hpb, by simpa using hlast⟩
    | none =>
      rw [hr] at h
      dsimp only at h
      split_ifs at h with hpa
      cases h
      exact ⟨a, rfl, hpa, by simpa using rposition_none hr⟩

/-- The index found is that of the last checkpoint record. -/
theorem lastCpIdx_some {records : List LogRecord} {i : ℕ} (h : lastCpIdx records = some i) :
    ∃ r, records[i]? = some r ∧ r.recType = .checkpoint ∧
      ∀ s ∈ records.drop (i + 1), s.recType ≠ .checkpoint := by
  obtain ⟨r, hr, hp, hlast⟩ := rposition_some h
  exact ⟨r, hr, by simpa using hp, fun s hs => by simpa using hlast s hs⟩

/-- The truncated log reads as the checkpoint and everything after it. -/
theorem readAll_truncateToCheckpoint {w w' : WriteAheadLog} {reclaimed : ℕ}
    {rs : List LogRecord} (hread : w.readAll = .ok rs)
    (htrunc : w.truncateToCheckpoint = .ok (reclaimed, w')) :
    w'.readAll = .ok (rs.drop (checkpointIdx rs)) := by
  unfold truncateToCheckpoint at htrunc
  simp only [hread, bind, Except.bind, pure, Except.pure] at htrunc
  cases hidx : lastCpIdx rs with
  | none =>
    rw [hidx] at htrunc
    obtain ⟨-, rfl⟩ := Prod.mk.inj (Except.ok.inj htrunc)
    simpa [checkpointIdx, hidx] using hread
  | some idx =>
    rw [hidx] at htrunc
    dsimp only at htrunc
    by_cases hzero : idx = 0
    · rw [if_pos hzero] at htrunc
      obtain ⟨-, rfl⟩ := Prod.mk.inj (Except.ok.inj htrunc)
      simpa [checkpointIdx, hidx, hzero] using hread
    · rw [if_neg hzero] at htrunc
      obtain ⟨-, rfl⟩ := Prod.mk.inj (Except.ok.inj htrunc)
      rw [readAll_eq, Except.ok.injEq] at hread
      have hvalid : ∀ r ∈ rs.drop idx, recordFormat.Valid r := by
        intro r hr
        exact valid_of_mem_scan (hread ▸ mem_of_mem_drop hr)
      have hcp : checkpointIdx rs = idx := by rw [checkpointIdx, hidx]; rfl
      rw [readAll_eq, hcp]
      exact congrArg Except.ok (scan_encodeAll hvalid)

/-! ### Transactions without records in front -/

/-- No write, `Commit` or `Abort` record of the transaction is in the list. -/
def Untouched (records : List LogRecord) (txn : UInt64) : Prop :=
  ∀ r ∈ records, r.txnId = txn → r.recType.isTracked = false

theorem isTracked_of_isWrite {t : LogRecordType} (h : t.isWrite) : t.isTracked := by
  cases t <;> simp_all [LogRecordType.isWrite, LogRecordType.isTracked]

section untouched
variable {front : List LogRecord} {txn : UInt64}

theorem Untouched.hasCommit_append (h : Untouched front txn) (log : List LogRecord) :
    HasCommit (front ++ log) txn ↔ HasCommit log txn := by
  have hfront : ¬ HasCommit front txn := by
    rintro ⟨r, hr, ht, htxn⟩
    have := h r hr htxn
    rw [ht] at this
    cases this
  constructor
  · rintro ⟨r, hr, ht⟩
    rcases mem_append.mp hr with hr | hr
    · exact absurd ⟨r, hr, ht⟩ hfront
    · exact ⟨r, hr, ht⟩
  · rintro ⟨r, hr, ht⟩
    exact ⟨r, mem_append_right _ hr, ht⟩

theorem Untouched.endsWriting_append (h : Untouched front txn) (log : List LogRecord) :
    EndsWriting (front ++ log) txn ↔ EndsWriting log txn := by
  have hfront : lastTracked front txn = none := by
    simp only [lastTracked, find?_eq_none, mem_reverse, Bool.and_eq_true, beq_iff_eq]
    rintro r hr ⟨ht, htxn⟩
    rw [h r hr htxn] at ht
    cases ht
  simp [EndsWriting, lastTracked_append, hfront]

theorem Untouched.filter_eq_nil (h : Untouched front txn) (txns : Finset UInt64) :
    (writesOf txns front).filter (fun r => r.txnId = txn) = [] := by
  rw [filter_eq_nil_iff]
  intro r hr htxn
  simp only [writesOf, mem_filter, decide_eq_true_eq] at hr htxn
  have := isTracked_of_isWrite hr.2.2
  rw [h r hr.1 htxn] at this
  cases this

/-- The writes of one transaction among those of two sets that agree on it. -/
theorem filter_writesOf_congr {txns txns' : Finset UInt64} {records : List LogRecord}
    (h : txn ∈ txns ↔ txn ∈ txns') :
    (writesOf txns records).filter (fun r => r.txnId = txn) =
      (writesOf txns' records).filter (fun r => r.txnId = txn) := by
  simp only [writesOf, filter_filter]
  apply filter_congr
  intro r _
  by_cases htxn : r.txnId = txn
  · simp [htxn, h]
  · simp [htxn]

theorem Untouched.redone_append (h : Untouched front txn) (log : List LogRecord) :
    (redone (front ++ log)).filter (fun r => r.txnId = txn) = (redone log).filter (fun r => r.txnId = txn) := by
  rw [redone_eq, redone_eq, writesOf, filter_append, filter_append]
  rw [← writesOf, h.filter_eq_nil, List.nil_append]
  apply filter_writesOf_congr
  rw [mem_committedTxns_iff, mem_committedTxns_iff, h.hasCommit_append]

theorem Untouched.undone_append (h : Untouched front txn) (log : List LogRecord) :
    (undone (front ++ log)).filter (fun r => r.txnId = txn) = (undone log).filter (fun r => r.txnId = txn) := by
  rw [undone_eq, undone_eq, filter_reverse, filter_reverse, writesOf, filter_append, filter_append]
  rw [← writesOf, h.filter_eq_nil, List.nil_append]
  congr 1
  apply filter_writesOf_congr
  rw [mem_loserTxns_iff, mem_loserTxns_iff, h.endsWriting_append]

end untouched

/-! ### Safety of the truncation -/

/-- The transaction has neither a `Commit` nor an `Abort` record before the checkpoint. -/
def Unfinished (records : List LogRecord) (txn : UInt64) : Prop :=
  ∀ r ∈ records.take (checkpointIdx records), r.txnId = txn → r.recType ≠ .commit ∧ r.recType ≠ .abort

/-- The truncated log keeps the writes of every transaction unfinished at the checkpoint, and
with any later records it redoes and undoes the same writes of them as the full log. -/
structure KeepsSpanning (full truncated : List LogRecord) : Prop where
  writes : ∀ txn, Unfinished full txn → truncated.filter (fun r => r.recType.isWrite ∧ r.txnId = txn) =
      full.filter (fun r => r.recType.isWrite ∧ r.txnId = txn)
  redo : ∀ txn, Unfinished full txn → ∀ later : List LogRecord,
    (redone (truncated ++ later)).filter (fun r => r.txnId = txn) =
      (redone (full ++ later)).filter (fun r => r.txnId = txn)
  undo : ∀ txn, Unfinished full txn → ∀ later : List LogRecord,
    (undone (truncated ++ later)).filter (fun r => r.txnId = txn) =
      (undone (full ++ later)).filter (fun r => r.txnId = txn)

/-- **Truncation is safe for the transactions that span the checkpoint exactly when** every
write before the checkpoint belongs to a transaction that ended before it. -/
theorem keepsSpanning_iff {w w' : WriteAheadLog} {reclaimed : ℕ} {full truncated : List LogRecord}
    (hread : w.readAll = .ok full) (htrunc : w.truncateToCheckpoint = .ok (reclaimed, w'))
    (hread' : w'.readAll = .ok truncated) :
    KeepsSpanning full truncated ↔
      ∀ r ∈ full.take (checkpointIdx full), r.recType.isWrite → ¬ Unfinished full r.txnId := by
  rw [readAll_truncateToCheckpoint hread htrunc, Except.ok.injEq] at hread'
  have hsplit := take_append_drop (checkpointIdx full) full
  constructor
  · intro hkeeps r hr hw hopen
    have hwrites := hkeeps.writes r.txnId hopen
    rw [← hread'] at hwrites
    conv at hwrites => rhs; rw [← hsplit, filter_append]
    have hnil := filter_eq_nil_iff.mp (self_eq_append_left.mp hwrites) r hr
    exact hnil (by simpa using hw)
  · intro hsafe
    have huntouched (txn : UInt64) (hopen : Unfinished full txn) :
        Untouched (full.take (checkpointIdx full)) txn := by
      intro r hr htxn
      have hends := hopen r hr htxn
      have hwrite : ¬ r.recType.isWrite := by
        intro hw
        exact hsafe r hr hw (htxn ▸ hopen)
      cases ht : r.recType <;> simp_all [LogRecordType.isWrite, LogRecordType.isTracked]
    refine ⟨?_, ?_, ?_⟩
    · intro txn hopen
      conv => rhs; rw [← hsplit, filter_append]
      have hnil : (full.take (checkpointIdx full)).filter
          (fun r => r.recType.isWrite ∧ r.txnId = txn) = [] := by
        rw [filter_eq_nil_iff]
        intro r hr hw
        rw [decide_eq_true_iff] at hw
        have := isTracked_of_isWrite hw.1
        rw [huntouched txn hopen r hr hw.2] at this
        cases this
      rw [hnil, List.nil_append, hread']
    · intro txn hopen later
      have := (huntouched txn hopen).redone_append (full.drop (checkpointIdx full) ++ later)
      rw [← append_assoc, hsplit, hread'] at this
      exact this.symm
    · intro txn hopen later
      have := (huntouched txn hopen).undone_append (full.drop (checkpointIdx full) ++ later)
      rw [← append_assoc, hsplit, hread'] at this
      exact this.symm

/-! ### A transaction in flight at the checkpoint -/

/-- An insert of transaction 9, then a checkpoint. -/
def spanningRecords : List LogRecord :=
  [⟨1, 0, 9, .insert, 4, [97], 0⟩, ⟨2, 1, 0, .checkpoint, 0, [], 0⟩].map LogRecord.withCrc

def spanningLog : WriteAheadLog := ⟨recordFormat.encodeAll spanningRecords, 3, 2, manualConfig, 0, 2⟩

/-- The log after truncation: the checkpoint record alone. -/
def truncatedLog : WriteAheadLog := ⟨recordFormat.encodeAll (spanningRecords.drop 1), 3, 2, manualConfig, 0, 0⟩

theorem valid_spanningRecords : ∀ r ∈ spanningRecords, recordFormat.Valid r :=
  valid_map_withCrc.mpr (by simp [LogRecord.Fits])

theorem readAll_spanningLog : spanningLog.readAll = .ok spanningRecords := by
  rw [readAll_eq]
  exact congrArg Except.ok (scan_encodeAll valid_spanningRecords)

theorem truncate_spanningLog : spanningLog.truncateToCheckpoint = .ok (42, truncatedLog) := by
  rw [truncateToCheckpoint, readAll_spanningLog]
  rfl

theorem readAll_truncatedLog : truncatedLog.readAll = .ok (spanningRecords.drop 1) := by
  rw [readAll_eq]
  exact congrArg Except.ok (scan_encodeAll fun r hr => valid_spanningRecords r (mem_of_mem_drop hr))

/-- The insert of the transaction in flight is gone after truncation. -/
theorem truncation_loses_spanning_write : ∃ w', spanningLog.truncateToCheckpoint = .ok (42, w') ∧
      w'.readAll = .ok (spanningRecords.drop 1) ∧
      ¬ KeepsSpanning spanningRecords (spanningRecords.drop 1) := by
  refine ⟨truncatedLog, truncate_spanningLog, readAll_truncatedLog, ?_⟩
  intro h
  have hopen : Unfinished spanningRecords 9 := by
    unfold Unfinished
    decide
  have hwrites := h.writes 9 hopen
  revert hwrites
  decide

theorem keepsSpanning_iff_spanningLog : KeepsSpanning spanningRecords (spanningRecords.drop 1) ↔
      ∀ r ∈ spanningRecords.take (checkpointIdx spanningRecords), r.recType.isWrite →
        ¬ Unfinished spanningRecords r.txnId :=
  keepsSpanning_iff readAll_spanningLog truncate_spanningLog readAll_truncatedLog

end CenDB.Wal
