import CenDB.Lib.Transition
import CenDB.Tx.Mvcc

/-! # The concurrent transaction manager

The shared state, and every method twice over: first its critical sections, one function for
each lock-protected or atomic step, then the whole method as those sections in a row.  The
interleaving model takes the sections one at a time; the garbage-collection results take a
method as one step.

The GC callback is outside the manager, so a method returns the list of calls it makes;
`gcCallback` says whether one is installed. -/

namespace CenDB.Tx

open List

structure MvccGarbageCollector where
  minActiveTs : ℕ
  versionsCollected : ℕ
  deriving DecidableEq, Repr

namespace MvccGarbageCollector

def new : MvccGarbageCollector := ⟨0, 0⟩

def setMinActiveTs (ts : ℕ) (gc : MvccGarbageCollector) : MvccGarbageCollector :=
  { gc with minActiveTs := ts }

/-- `record_gc`, once for each collected version. -/
def recordGc (collected : ℕ) (gc : MvccGarbageCollector) : MvccGarbageCollector :=
  { gc with versionsCollected := gc.versionsCollected + collected }

end MvccGarbageCollector

structure ConcurrentTransactionManager where
  oracle : TimestampOracle
  txns : Table ℕ Transaction
  committedTs : Finset ℕ
  /-- Key → latest committed begin timestamp that wrote it. -/
  latestWrites : Table Key ℕ
  nextTxnId : ℕ
  gc : MvccGarbageCollector
  commitsSinceGc : ℕ
  gcInterval : ℕ
  /-- Is a GC callback installed? -/
  gcCallback : Bool

/-- The read timestamps of the active transactions. -/
def activeReadTs (txns : Table ℕ Transaction) : List ℕ :=
  ((Table.values txns).filter fun t => t.state = .active).map Transaction.readTs

/-- The least active read timestamp, or the current timestamp when nothing is active. -/
def minActive (txns : Table ℕ Transaction) (current : ℕ) : ℕ := (activeReadTs txns).min?.getD current

variable {txns : Table ℕ Transaction} {latestWrites : Table Key ℕ} {key : Key}

variable {r current : ℕ} {keys : List Key}

theorem mem_activeReadTs : r ∈ activeReadTs txns ↔
      ∃ id txn, txns.lookup id = some txn ∧ txn.state = .active ∧ txn.readTs = r := by
  simp only [activeReadTs, List.mem_map, mem_filter, Table.mem_values, decide_eq_true_eq]
  constructor
  · rintro ⟨txn, ⟨⟨id, hl⟩, hstate⟩, rfl⟩
    exact ⟨id, txn, hl, hstate, rfl⟩
  · rintro ⟨id, txn, hl, hstate, rfl⟩
    exact ⟨txn, ⟨⟨id, hl⟩, hstate⟩, rfl⟩

theorem minActive_le (h : r ∈ activeReadTs txns) : minActive txns current ≤ r := by
  unfold minActive
  cases hm : (activeReadTs txns).min? with
  | none => simp [min?_eq_none_iff.mp hm] at h
  | some m => exact (min?_eq_some_iff.mp hm).2 r h

theorem minActive_of_none (h : activeReadTs txns = []) : minActive txns current = current := by
  rw [minActive, h]
  rfl

theorem minActive_mem (h : activeReadTs txns ≠ []) : minActive txns current ∈ activeReadTs txns := by
  unfold minActive
  cases hm : (activeReadTs txns).min? with
  | none => exact absurd (min?_eq_none_iff.mp hm) h
  | some m => exact (min?_eq_some_iff.mp hm).1

/-! ### Publication and collection loops -/

/-- The versions that publishing the write set supersedes: the old latest write of each key,
when it is older than the commit. -/
def superseded (commitTs : ℕ) : List Key → Table Key ℕ → List (Key × ℕ)
  | [], _ => []
  | key :: keys, latestWrites =>
    let rest := superseded commitTs keys (AList.insert key commitTs latestWrites)
    match latestWrites.lookup key with
    | some oldTs => if oldTs < commitTs then (key, oldTs) :: rest else rest
    | none => rest

theorem mem_superseded {commitTs : ℕ} {oldTs : ℕ} : (key, oldTs) ∈ superseded commitTs keys latestWrites ↔
      key ∈ keys ∧ latestWrites.lookup key = some oldTs ∧ oldTs < commitTs := by
  induction keys generalizing latestWrites with
  | nil => simp [superseded]
  | cons k ks ih =>
    have hrest : (key, oldTs) ∈ superseded commitTs ks (AList.insert k commitTs latestWrites) ↔
        key ≠ k ∧ key ∈ ks ∧ latestWrites.lookup key = some oldTs ∧ oldTs < commitTs := by
      rw [ih, Table.lookup_insert_if]
      split_ifs with hk
      · simp only [hk, ne_eq, not_true_eq_false, false_and, iff_false, Option.some.injEq]
        omega
      · simp [hk]
    unfold superseded
    cases hl : latestWrites.lookup k with
    | none =>
      rw [hrest, mem_cons]
      by_cases hk : key = k
      · subst hk
        simp [hl]
      · simp [hk]
    | some old =>
      dsimp only
      split_ifs with hlt
      · rw [mem_cons, hrest, mem_cons, Prod.mk.injEq]
        by_cases hk : key = k
        · subst hk
          simp only [hl, Option.some.injEq, true_and, ne_eq, not_true_eq_false, false_and, or_false, true_or]
          omega
        · simp [hk]
      · rw [hrest, mem_cons]
        by_cases hk : key = k
        · subst hk
          have : ¬ (old = oldTs ∧ oldTs < commitTs) := by omega
          simp [hl, this]
        · simp [hk]

/-- The keys whose latest write is below the horizon. -/
def keysBelow (minActiveTs : ℕ) (latestWrites : Table Key ℕ) : List Key :=
  ((Table.items latestWrites).filter fun e => e.2 < minActiveTs).map Prod.fst

/-- Removes the keys that are still there; returns the removed entries. -/
def removeKeys : List Key → Table Key ℕ → List (Key × ℕ) × Table Key ℕ
  | [], latestWrites => ([], latestWrites)
  | key :: keys, latestWrites =>
    match latestWrites.lookup key with
    | some ts =>
      let (removed, rest) := removeKeys keys (AList.erase key latestWrites)
      ((key, ts) :: removed, rest)
    | none => removeKeys keys latestWrites

theorem mem_keysBelow {minActiveTs : ℕ} : key ∈ keysBelow minActiveTs latestWrites ↔
      ∃ ts, latestWrites.lookup key = some ts ∧ ts < minActiveTs := by
  simp only [keysBelow, List.mem_map, mem_filter, Prod.exists, decide_eq_true_eq,
    Table.mem_items, exists_and_right, exists_eq_right]

theorem lookup_removeKeys : (removeKeys keys latestWrites).2.lookup key =
      if key ∈ keys then none else latestWrites.lookup key := by
  induction keys generalizing latestWrites with
  | nil => simp [removeKeys]
  | cons k ks ih =>
    unfold removeKeys
    cases hl : latestWrites.lookup k with
    | some ts =>
      simp only [ih, Table.lookup_erase_if, mem_cons]
      by_cases hk : key = k
      · simp [hk]
      · simp [hk]
    | none =>
      simp only [ih, mem_cons]
      by_cases hk : key = k
      · subst hk
        simp [hl]
      · simp [hk]

theorem mem_removeKeys {ts : ℕ} : (key, ts) ∈ (removeKeys keys latestWrites).1 ↔
      key ∈ keys ∧ latestWrites.lookup key = some ts := by
  induction keys generalizing latestWrites with
  | nil => simp [removeKeys]
  | cons k ks ih =>
    unfold removeKeys
    cases hl : latestWrites.lookup k with
    | some old =>
      simp only [mem_cons, ih, Table.lookup_erase_if, Prod.mk.injEq]
      by_cases hk : key = k
      · subst hk
        simp [hl, eq_comm]
      · simp [hk]
    | none =>
      simp only [ih, mem_cons]
      by_cases hk : key = k
      · subst hk
        simp [hl]
      · simp [hk]

namespace ConcurrentTransactionManager

variable (tm : ConcurrentTransactionManager)

/-- `with_gc_interval`, then `set_gc_callback` if a callback is wanted. -/
def withGcInterval (gcInterval : ℕ) (gcCallback : Bool) : ConcurrentTransactionManager :=
  { oracle := .new 1, txns := ∅, committedTs := ∅, latestWrites := ∅, nextTxnId := 1,
    gc := .new, commitsSinceGc := 0, gcInterval := gcInterval, gcCallback := gcCallback }

/-- The default interval is 100 commits. -/
def new : ConcurrentTransactionManager := withGcInterval 100 false

/-! ### Critical sections -/

/-- `begin`: `next_txn_id.fetch_add(1)`. -/
def fetchTxnId : ℕ × ConcurrentTransactionManager := (tm.nextTxnId, { tm with nextTxnId := tm.nextTxnId + 1 })

/-- `begin`: the new transaction enters the table. -/
def insertTxn (txn : Transaction) : ConcurrentTransactionManager :=
  { tm with txns := AList.insert txn.txnId txn tm.txns }

/-- `record_write`, one critical section on the transaction table. -/
def recordWrite (txnId : ℕ) (key : Key) : Except MvccError Unit × ConcurrentTransactionManager :=
  let (r, txns) := recordWriteIn tm.txns txnId key
  (r, { tm with txns := txns })

/-- `abort`, one critical section on the transaction table. -/
def abort (txnId : ℕ) : Except MvccError Unit × ConcurrentTransactionManager :=
  let (r, txns) := abortIn tm.txns txnId
  (r, { tm with txns := txns })

/-- `commit`, phase 1: the snapshot and a copy of the write set, unless the transaction is
closed. -/
def readForCommit (txnId : ℕ) : Except MvccError (ℕ × List Key) :=
  match tm.txns.lookup txnId with
  | none => .error .notFound
  | some txn =>
    match txn.state with
    | .committed => .error .alreadyCommitted
    | .aborted => .error .alreadyAborted
    | .active | .validation => .ok (txn.readTs, txn.writeSet)

/-- `commit` after a conflict: the transaction is marked aborted if it is still there. -/
def abortConflict (txnId : ℕ) : ConcurrentTransactionManager :=
  { tm with txns := tm.txns.update txnId Transaction.markAborted }

/-- `commit`, phase 3: `oracle.next()`. -/
def nextTs : ℕ × ConcurrentTransactionManager :=
  let (ts, oracle) := tm.oracle.next
  (ts, { tm with oracle := oracle })

/-- `commit`: the transaction is marked committed; the re-check looks for `Aborted` only. -/
def markCommitted (txnId commitTs : ℕ) : Except MvccError ConcurrentTransactionManager :=
  match tm.txns.lookup txnId with
  | none => .error .notFound
  | some txn =>
    if txn.state = .aborted then .error .aborted
    else .ok { tm with txns := tm.txns.update txnId (Transaction.markCommitted commitTs) }

/-- `commit`: the timestamp enters the committed table. -/
def insertCommittedTs (commitTs : ℕ) : ConcurrentTransactionManager :=
  { tm with committedTs := insert commitTs tm.committedTs }

/-- `commit`: the copied write set becomes the latest write of its keys; returns what that
supersedes. -/
def publishWrites (commitTs : ℕ) (writeSet : List Key) : List (Key × ℕ) × ConcurrentTransactionManager :=
  (superseded commitTs writeSet tm.latestWrites,
    { tm with latestWrites := publish commitTs writeSet tm.latestWrites })

/-- `self.oracle.current()` when nothing is active, else the least active read timestamp. -/
def minActiveTs : ℕ := minActive tm.txns tm.oracle.current

/-- `commit`: the callback calls for superseded versions. -/
def supersededCallbacks (versions : List (Key × ℕ)) : List (Key × ℕ) :=
  if tm.gcCallback then versions.filter fun v => v.2 < tm.minActiveTs else []

/-- `commit`, phase 4: `commits_since_gc.fetch_add(1) + 1`. -/
def countCommit : ℕ × ConcurrentTransactionManager :=
  (tm.commitsSinceGc + 1, { tm with commitsSinceGc := tm.commitsSinceGc + 1 })

/-- `commit`, phase 4: `commits_since_gc.store(0)`. -/
def resetCount : ConcurrentTransactionManager := { tm with commitsSinceGc := 0 }

/-- `run_gc`: the horizon is stored in the collector. -/
def setMinActiveTs (ts : ℕ) : ConcurrentTransactionManager :=
  { tm with gc := tm.gc.setMinActiveTs ts }

/-- `run_gc`: the listed keys leave the latest-write table. -/
def removeLatest (keys : List Key) : List (Key × ℕ) × ConcurrentTransactionManager :=
  let (removed, latestWrites) := removeKeys keys tm.latestWrites
  (removed, { tm with latestWrites := latestWrites })

/-- `run_gc`: the callback calls for removed entries. -/
def removedCallbacks (removed : List (Key × ℕ)) : List (Key × ℕ) :=
  if tm.gcCallback then removed else []

/-- `run_gc`: timestamps below the horizon leave the committed table. -/
def pruneCommittedTs (minActiveTs : ℕ) : ConcurrentTransactionManager :=
  { tm with committedTs := tm.committedTs.filter fun ts => ¬ ts < minActiveTs }

/-- `run_gc`: closed transactions with a snapshot below the horizon leave the table. -/
def pruneTxns (minActiveTs : ℕ) : ConcurrentTransactionManager :=
  { tm with
    txns := tm.txns.retain fun _ t => ¬ (t.state ≠ .active ∧ t.readTs < minActiveTs) }

/-- `run_gc`: the collector counts the collected versions. -/
def recordCollected (collected : ℕ) : ConcurrentTransactionManager :=
  { tm with gc := tm.gc.recordGc collected }

/-! ### The methods -/

/-- What a method returns: its result, the manager and the GC callback calls it made. -/
structure Outcome (α : Type) where
  result : α
  tm : ConcurrentTransactionManager
  callbacks : List (Key × ℕ)

/-- Begin a new transaction. -/
def begin (isolation : IsolationLevel) : ℕ × ConcurrentTransactionManager :=
  let (txnId, tm) := tm.fetchTxnId
  let readTs := tm.oracle.current
  (txnId, tm.insertTxn (Transaction.new txnId readTs isolation))

/-- Run MVCC garbage collection. -/
def runGc : Outcome ℕ :=
  let horizon := tm.minActiveTs
  let tm := tm.setMinActiveTs horizon
  let keysToRemove := keysBelow horizon tm.latestWrites
  let (removed, tm) := tm.removeLatest keysToRemove
  let callbacks := tm.removedCallbacks removed
  let tm := tm.pruneCommittedTs horizon
  let tm := tm.pruneTxns horizon
  ⟨removed.length, tm.recordCollected removed.length, callbacks⟩

/-- `commit`, phase 4: every `gc_interval` commits a collection runs. -/
def finishCommit (commitTs : ℕ) (callbacks : List (Key × ℕ)) : Outcome (Except MvccError ℕ) :=
  let (count, tm) := tm.countCommit
  if tm.gcInterval ≤ count then
    let gc := tm.runGc
    ⟨.ok commitTs, gc.tm.resetCount, callbacks ++ gc.callbacks⟩
  else ⟨.ok commitTs, tm, callbacks⟩

/-- Commit a transaction. -/
def commit (txnId : ℕ) : Outcome (Except MvccError ℕ) :=
  match tm.readForCommit txnId with
  | .error e => ⟨.error e, tm, []⟩
  | .ok (readTs, writeSet) =>
    if hasConflict tm.latestWrites readTs writeSet then
      ⟨.error .conflict, tm.abortConflict txnId, []⟩
    else
      let (commitTs, tm) := tm.nextTs
      match tm.markCommitted txnId commitTs with
      | .error e => ⟨.error e, tm, []⟩
      | .ok tm =>
        let tm := tm.insertCommittedTs commitTs
        let (versions, tm) := tm.publishWrites commitTs writeSet
        tm.finishCommit commitTs (tm.supersededCallbacks versions)

/-- Check whether a timestamp corresponds to a committed transaction. -/
def isCommitted (ts : ℕ) : Bool := decide (ts ∈ tm.committedTs)

/-! ### What a method can do -/

/-- The manager after a commit has published, before its periodic collection. -/
def published (txnId : ℕ) (txn : Transaction) : ConcurrentTransactionManager :=
  { tm with
    oracle := ⟨tm.oracle.current + 1⟩
    txns := tm.txns.update txnId (Transaction.markCommitted (tm.oracle.current + 1))
    committedTs := insert (tm.oracle.current + 1) tm.committedTs
    latestWrites := publish (tm.oracle.current + 1) txn.writeSet tm.latestWrites }

variable {tm}

variable {txnId : ℕ}

theorem readForCommit_ok {readTs : ℕ} {writeSet : List Key} : tm.readForCommit txnId = .ok (readTs, writeSet) ↔
      ∃ txn, tm.txns.lookup txnId = some txn ∧ txn.IsOpen ∧ txn.readTs = readTs ∧ txn.writeSet = writeSet := by
  unfold readForCommit Transaction.IsOpen
  cases tm.txns.lookup txnId with
  | none => simp
  | some txn => cases hs : txn.state <;> simp [hs]

theorem markCommitted_ok {commitTs : ℕ} {tm' : ConcurrentTransactionManager} :
    tm.markCommitted txnId commitTs = .ok tm' ↔
      (∃ txn, tm.txns.lookup txnId = some txn ∧ txn.state ≠ .aborted) ∧
        tm' = { tm with txns := tm.txns.update txnId (Transaction.markCommitted commitTs) } := by
  unfold markCommitted
  cases tm.txns.lookup txnId with
  | none => simp
  | some txn =>
    dsimp only
    split_ifs with hs
    · simp [hs]
    · constructor
      · intro h
        exact ⟨⟨txn, rfl, hs⟩, (Except.ok.inj h).symm⟩
      · rintro ⟨-, rfl⟩
        rfl

/-- A commit taken as one step is refused without effect, aborts on a conflict, or publishes
the whole write set and finishes. -/
theorem commit_cases (tm : ConcurrentTransactionManager) (txnId : ℕ) :
    (∃ e, tm.commit txnId = ⟨.error e, tm, []⟩ ∧ ∀ txn, tm.txns.lookup txnId = some txn → ¬ txn.IsOpen) ∨
    ∃ txn, tm.txns.lookup txnId = some txn ∧ txn.IsOpen ∧
      ((hasConflict tm.latestWrites txn.readTs txn.writeSet = true ∧
          tm.commit txnId = ⟨.error .conflict, tm.abortConflict txnId, []⟩) ∨
        (hasConflict tm.latestWrites txn.readTs txn.writeSet = false ∧
          tm.commit txnId = (tm.published txnId txn).finishCommit (tm.oracle.current + 1)
            ((tm.published txnId txn).supersededCallbacks
              (superseded (tm.oracle.current + 1) txn.writeSet tm.latestWrites)))) := by
  cases hread : tm.readForCommit txnId with
  | error e =>
    left
    refine ⟨e, by rw [commit, hread], ?_⟩
    intro txn hl hopen
    rw [readForCommit_ok.mpr ⟨txn, hl, hopen, rfl, rfl⟩] at hread
    cases hread
  | ok snapshot =>
    obtain ⟨readTs, writeSet⟩ := snapshot
    obtain ⟨txn, hl, hopen, rfl, rfl⟩ := readForCommit_ok.mp hread
    right
    refine ⟨txn, hl, hopen, ?_⟩
    cases hc : hasConflict tm.latestWrites txn.readTs txn.writeSet with
    | true =>
      left
      refine ⟨rfl, ?_⟩
      rw [commit, hread]
      simp only [hc, if_true]
    | false =>
      right
      refine ⟨rfl, ?_⟩
      have hmark : tm.nextTs.2.markCommitted txnId tm.nextTs.1 = .ok { tm.nextTs.2 with
            txns := tm.txns.update txnId (Transaction.markCommitted (tm.oracle.current + 1)) } := by
        refine markCommitted_ok.mpr ⟨⟨txn, hl, ?_⟩, rfl⟩
        rcases hopen with hs | hs <;> simp [hs]
      rw [commit, hread]
      simp only [hc, Bool.false_eq_true, if_false, hmark]
      rfl

@[simp] theorem runGc_oracle : tm.runGc.tm.oracle = tm.oracle := rfl

@[simp] theorem runGc_committedTs : tm.runGc.tm.committedTs =
    tm.committedTs.filter fun ts => ¬ ts < tm.minActiveTs := rfl

@[simp] theorem runGc_gcCallback : tm.runGc.tm.gcCallback = tm.gcCallback := rfl

theorem lookup_runGc_latestWrites {key : Key} : tm.runGc.tm.latestWrites.lookup key =
    if key ∈ keysBelow tm.minActiveTs tm.latestWrites then none
    else tm.latestWrites.lookup key := lookup_removeKeys

theorem mem_runGc_callbacks {key : Key} {ts : ℕ} : (key, ts) ∈ tm.runGc.callbacks ↔
    tm.gcCallback = true ∧ tm.latestWrites.lookup key = some ts ∧ ts < tm.minActiveTs := by
  have hmem : tm.runGc.callbacks = if tm.gcCallback then
      (removeKeys (keysBelow tm.minActiveTs tm.latestWrites) tm.latestWrites).1 else [] := rfl
  rw [hmem]
  split_ifs with hcb
  · rw [mem_removeKeys, mem_keysBelow]
    constructor
    · rintro ⟨⟨ts', hl', hlt⟩, hl⟩
      obtain rfl := Option.some.inj (hl'.symm.trans hl)
      exact ⟨hcb, hl, hlt⟩
    · rintro ⟨-, hl, hlt⟩
      exact ⟨⟨ts, hl, hlt⟩, hl⟩
  · simp [hcb]

/-- Finishing a commit either only counts it, or also runs a collection. -/
theorem finishCommit_cases (tm : ConcurrentTransactionManager) (commitTs : ℕ) (callbacks : List (Key × ℕ)) :
    (¬ tm.gcInterval ≤ tm.commitsSinceGc + 1 ∧
      tm.finishCommit commitTs callbacks = ⟨.ok commitTs, tm.countCommit.2, callbacks⟩) ∨
    (tm.gcInterval ≤ tm.commitsSinceGc + 1 ∧ tm.finishCommit commitTs callbacks =
        ⟨.ok commitTs, tm.countCommit.2.runGc.tm.resetCount,
          callbacks ++ tm.countCommit.2.runGc.callbacks⟩) := by
  by_cases hdue : tm.gcInterval ≤ tm.commitsSinceGc + 1
  · right
    refine ⟨hdue, ?_⟩
    rw [finishCommit]
    exact if_pos hdue
  · left
    refine ⟨hdue, ?_⟩
    rw [finishCommit]
    exact if_neg hdue

/-! ### The calls of a run, each as one step -/

inductive Call where
  | begin (isolation : IsolationLevel)
  | recordWrite (txnId : ℕ) (key : Key)
  | commit (txnId : ℕ)
  | abort (txnId : ℕ)
  | runGc
  deriving DecidableEq, Repr

/-- The manager together with every version committed so far, as (key, timestamp) pairs. -/
structure Traced where
  tm : ConcurrentTransactionManager
  versions : List (Key × ℕ)

namespace Traced

def init (gcInterval : ℕ) (gcCallback : Bool) : Traced := ⟨withGcInterval gcInterval gcCallback, []⟩

/-- The versions a commit with this result creates: one for each key of the write set. -/
def newVersions (tm : ConcurrentTransactionManager) (txnId : ℕ) : Except MvccError ℕ → List (Key × ℕ)
  | .ok ts => ((tm.txns.lookup txnId).map Transaction.writeSet).getD [] |>.map fun key => (key, ts)
  | .error _ => []

/-- A call: the state after it and the GC callback calls it made. -/
def call (s : Traced) : Call → Traced × List (Key × ℕ)
  | .begin isolation => ({ s with tm := (s.tm.begin isolation).2 }, [])
  | .recordWrite txnId key => ({ s with tm := (s.tm.recordWrite txnId key).2 }, [])
  | .commit txnId =>
    let out := s.tm.commit txnId
    (⟨out.tm, s.versions ++ newVersions s.tm txnId out.result⟩, out.callbacks)
  | .abort txnId => ({ s with tm := (s.tm.abort txnId).2 }, [])
  | .runGc => ({ s with tm := s.tm.runGc.tm }, s.tm.runGc.callbacks)

def step (s : Traced) (c : Call) : Option Traced := some (s.call c).1

end Traced

end ConcurrentTransactionManager
end CenDB.Tx
