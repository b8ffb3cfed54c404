import CenDB.Wal.Record

/-! # ARIES-lite recovery

`AriesRecovery::analyze`, `redo` and `undo` of `wal.rs`.  `analyze` folds the log into the
transactions with a `Commit` record and the transactions *active* at its end; `redo` replays
the writes of the former in log order and `undo` the writes of the latter in reverse.

* A transaction is in `committedTxns` iff it has a `Commit` record (`mem_committedTxns_iff`).
* It is in `loserTxns` iff the last of its write, `Commit` and `Abort` records is a write
  (`mem_loserTxns_iff`).  The `aborted` set that `analyze` also builds is never used.

The recovery is atomic per transaction (`AtomicPerTxn`) when the second set is the complement
of the first on the transactions that wrote; `atomicPerTxn_iff` is the exact condition. -/

namespace CenDB.Wal

open List

/-- `Insert`, `Update` and `Delete` records carry writes. -/
def LogRecordType.isWrite : LogRecordType → Bool
  | insert => true
  | update => true
  | delete => true
  | _ => false

/-- The record types that `analyze` reacts to. -/
def LogRecordType.isTracked : LogRecordType → Bool
  | checkpoint => false
  | clr => false
  | _ => true

/-- The local variables of `analyze`. -/
structure Analysis where
  committed : Finset UInt64
  aborted : Finset UInt64
  active : Finset UInt64
  lastLsn : UInt64

/-- The loop body of `analyze`. -/
def Analysis.step (a : Analysis) (r : LogRecord) : Analysis :=
  let a := { a with lastLsn := max r.lsn a.lastLsn }
  match r.recType with
  | .insert => { a with active := insert r.txnId a.active }
  | .update => { a with active := insert r.txnId a.active }
  | .delete => { a with active := insert r.txnId a.active }
  | .commit =>
    { a with active := a.active.erase r.txnId, committed := insert r.txnId a.committed }
  | .abort =>
    { a with active := a.active.erase r.txnId, aborted := insert r.txnId a.aborted }
  | .checkpoint => a
  | .clr => a

/-- The sets needed to redo and undo. -/
structure AriesRecovery where
  committedTxns : Finset UInt64
  loserTxns : Finset UInt64
  lastLsn : UInt64

/-- The analysis pass. -/
def analyze (records : List LogRecord) : AriesRecovery :=
  let a := records.foldl Analysis.step ⟨∅, ∅, ∅, 0⟩
  ⟨a.committed, a.active, a.lastLsn⟩

namespace AriesRecovery

variable {σ : Type}

/-- The loop of `redo` and `undo`: apply the writes of the chosen transactions, counting. -/
def replay (txns : Finset UInt64) (records : List LogRecord) (apply : σ → LogRecord → σ) (s : σ) : σ × ℕ :=
  records.foldl (fun p r =>
    if r.txnId ∈ txns ∧ r.recType.isWrite then (apply p.1 r, p.2 + 1) else p) (s, 0)

/-- The redo pass. -/
def redo (a : AriesRecovery) (records : List LogRecord) (apply : σ → LogRecord → σ) (s : σ) : σ × ℕ :=
  replay a.committedTxns records apply s

/-- The undo pass. -/
def undo (a : AriesRecovery) (records : List LogRecord) (apply : σ → LogRecord → σ) (s : σ) : σ × ℕ :=
  replay a.loserTxns records.reverse apply s

end AriesRecovery

open AriesRecovery

/-- The records that redo after analyze applies, in the order it applies them. -/
def redone (records : List LogRecord) : List LogRecord :=
  ((analyze records).redo records (fun acc r => acc ++ [r]) []).1

/-- The records that undo after analyze applies, in the order it applies them. -/
def undone (records : List LogRecord) : List LogRecord :=
  ((analyze records).undo records (fun acc r => acc ++ [r]) []).1

/-! ### Replay is a filter -/

/-- The writes of the chosen transactions. -/
def writesOf (txns : Finset UInt64) (records : List LogRecord) : List LogRecord :=
  records.filter fun r => r.txnId ∈ txns ∧ r.recType.isWrite

theorem replay_eq {σ : Type} (txns : Finset UInt64) (records : List LogRecord)
    (apply : σ → LogRecord → σ) (s : σ) :
    replay txns records apply s = ((writesOf txns records).foldl apply s, (writesOf txns records).length) := by
  induction records using List.reverseRecOn with
  | nil => rfl
  | append_singleton records r ih =>
    have hfold : replay txns (records ++ [r]) apply s = if r.txnId ∈ txns ∧ r.recType.isWrite then
          (apply (replay txns records apply s).1 r, (replay txns records apply s).2 + 1)
        else replay txns records apply s := by simp [replay]
    rw [hfold, ih]
    by_cases h : r.txnId ∈ txns ∧ r.recType.isWrite
    · rw [if_pos h]
      simp [writesOf, h]
    · rw [if_neg h]
      simp [writesOf, h]

theorem foldl_snoc {α : Type} (l acc : List α) : l.foldl (fun acc a => acc ++ [a]) acc = acc ++ l := by
  rw [foldl_append_eq_append, ← flatMap_def, flatMap_singleton']

theorem redone_eq (records : List LogRecord) :
    redone records = writesOf (analyze records).committedTxns records := by
  simp only [redone, redo, replay_eq, foldl_snoc, List.nil_append]

theorem undone_eq (records : List LogRecord) :
    undone records = (writesOf (analyze records).loserTxns records).reverse := by
  simp only [undone, undo, replay_eq, foldl_snoc, List.nil_append, writesOf, filter_reverse]

/-! ### The two sets of `analyze` -/

/-- Some `Commit` record of the transaction is in the log. -/
def HasCommit (records : List LogRecord) (txn : UInt64) : Prop :=
  ∃ r ∈ records, r.recType = .commit ∧ r.txnId = txn

instance (records : List LogRecord) (txn : UInt64) : Decidable (HasCommit records txn) :=
  inferInstanceAs (Decidable (∃ r ∈ records, _))

/-- Some write record of the transaction is in the log. -/
def HasWrite (records : List LogRecord) (txn : UInt64) : Prop :=
  ∃ r ∈ records, r.recType.isWrite ∧ r.txnId = txn

/-- The last write, `Commit` or `Abort` record of the transaction. -/
def lastTracked (records : List LogRecord) (txn : UInt64) : Option LogRecord :=
  records.reverse.find? fun r => r.recType.isTracked && r.txnId == txn

/-- The last write, `Commit` or `Abort` record of the transaction is a write. -/
def EndsWriting (records : List LogRecord) (txn : UInt64) : Prop :=
  ∃ r, lastTracked records txn = some r ∧ r.recType.isWrite

theorem lastTracked_append (rs ss : List LogRecord) (txn : UInt64) :
    lastTracked (rs ++ ss) txn = (lastTracked ss txn).or (lastTracked rs txn) := by simp [lastTracked]

theorem lastTracked_single (r : LogRecord) (txn : UInt64) :
    lastTracked [r] txn = if r.recType.isTracked && r.txnId == txn then some r else none := by
  simp [lastTracked]

variable {records : List LogRecord}

variable {txn : UInt64} {r : LogRecord}

theorem mem_committedTxns_iff : txn ∈ (analyze records).committedTxns ↔ HasCommit records txn := by
  simp only [analyze]
  induction records using List.reverseRecOn with
  | nil => simp [HasCommit]
  | append_singleton records r ih =>
    have hsplit : HasCommit (records ++ [r]) txn ↔
        HasCommit records txn ∨ (r.recType = .commit ∧ r.txnId = txn) := by simp [HasCommit]
    rw [hsplit, ← ih, foldl_append, foldl_cons, foldl_nil]
    cases ht : r.recType <;> simp [Analysis.step, ht, or_comm, eq_comm]

theorem mem_loserTxns_iff : txn ∈ (analyze records).loserTxns ↔ EndsWriting records txn := by
  simp only [analyze]
  induction records using List.reverseRecOn with
  | nil => simp [EndsWriting, lastTracked]
  | append_singleton records r ih =>
    rw [EndsWriting] at ih ⊢
    rw [foldl_append, foldl_cons, foldl_nil, lastTracked_append, lastTracked_single]
    by_cases htxn : r.txnId = txn
    · cases ht : r.recType <;>
        simp [Analysis.step, ht, htxn, LogRecordType.isTracked, LogRecordType.isWrite, ih]
    · have htxn' : txn ≠ r.txnId := fun h => htxn h.symm
      cases ht : r.recType <;> simp [Analysis.step, ht, htxn, htxn', ih]

theorem mem_redone_iff : r ∈ redone records ↔ r ∈ records ∧ HasCommit records r.txnId ∧ r.recType.isWrite := by
  simp [redone_eq, writesOf, mem_committedTxns_iff]

theorem mem_undone_iff :
    r ∈ undone records ↔ r ∈ records ∧ EndsWriting records r.txnId ∧ r.recType.isWrite := by
  simp [undone_eq, writesOf, mem_loserTxns_iff]

/-- Redo replays exactly the writes of the committed transactions, in log order. -/
theorem redone_eq_filter (records : List LogRecord) :
    redone records = records.filter fun r => r.recType.isWrite ∧ HasCommit records r.txnId := by
  rw [redone_eq, writesOf]
  apply filter_congr
  intro r _
  simp only [mem_committedTxns_iff, and_comm]

/-! ### Atomicity -/

/-- Redo yields the writes of the committed transactions in log order, undo the writes of all
others in reverse log order, and no write is in both or in neither. -/
structure AtomicPerTxn (records : List LogRecord) : Prop where
  redo_committed : redone records = records.filter fun r => r.recType.isWrite ∧ HasCommit records r.txnId
  undo_uncommitted : undone records =
      (records.filter fun r => r.recType.isWrite ∧ ¬ HasCommit records r.txnId).reverse
  exactly_one : ∀ r ∈ records, r.recType.isWrite → (r ∈ redone records ↔ r ∉ undone records)

/-- **Recovery is atomic per transaction exactly when** every transaction that wrote ends with
a write (among its write, `Commit` and `Abort` records) iff it has no `Commit`: no uncommitted
transaction is aborted after its last write, and no committed one writes after its end. -/
theorem atomicPerTxn_iff (records : List LogRecord) : AtomicPerTxn records ↔
      ∀ txn, HasWrite records txn → (EndsWriting records txn ↔ ¬ HasCommit records txn) := by
  constructor
  · rintro ⟨-, hundo, -⟩ txn ⟨r, hr, hw, rfl⟩
    have hmem : r ∈ undone records ↔
        r ∈ (records.filter fun r => r.recType.isWrite ∧ ¬ HasCommit records r.txnId).reverse := by
      rw [hundo]
    rw [mem_undone_iff, mem_reverse, mem_filter, decide_eq_true_iff] at hmem
    constructor
    · intro hends
      exact (hmem.mp ⟨hr, hends, hw⟩).2.2
    · intro hno
      exact (hmem.mpr ⟨hr, hw, hno⟩).2.1
  · intro h
    refine ⟨redone_eq_filter records, ?_, ?_⟩
    · rw [undone_eq, writesOf]
      congr 1
      apply filter_congr
      intro r hr
      rw [decide_eq_decide, mem_loserTxns_iff, and_comm]
      refine and_congr_right fun hw => h r.txnId ⟨r, hr, hw, rfl⟩
    · intro r hr hw
      have hr' := h r.txnId ⟨r, hr, hw, rfl⟩
      simp only [mem_redone_iff, mem_undone_iff, hr, hw, true_and, and_true, hr', not_not]

/-! ### An aborted transaction -/

/-- A transaction that inserts and then aborts. -/
def abortedLog : List LogRecord := [⟨1, 0, 5, .insert, 3, [120], 0⟩, ⟨2, 1, 5, .abort, 0, [], 0⟩]

/-- The insert of the aborted transaction is neither redone nor undone. -/
theorem abortedLog_not_atomic : ¬ AtomicPerTxn abortedLog := by
  intro h
  have hundo := h.undo_uncommitted
  revert hundo
  decide

end CenDB.Wal
