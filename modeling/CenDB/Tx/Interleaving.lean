import CenDB.Tx.ConcurrentManager

/-! # Interleaved calls of the concurrent manager

Threads call the manager's methods, and every lock-protected or atomic section of a method is
one step.  `Pc` says which section a thread executes next and carries the method's local
variables; `writer` is the thread that holds the write lock on `latest_writes`, the only lock
held across sections (`commit` takes it to validate and releases it once it has published).
The read and write guards on the other fields are dropped at the end of their section.

History variables record what callers can observe: the snapshot each `begin` read, the writes
that were acknowledged, the commits that took effect and the timestamps that were returned.

`run_commit` and its companions run one thread through a whole call while the others stand
still: the sections add up to the method. -/

namespace CenDB.Tx.Interleaving

open Transition ConcurrentTransactionManager List Option Function

/-- What phase 1 of `commit` copies from the transaction record. -/
structure TxnCopy where
  txnId : ℕ
  readTs : ℕ
  writeSet : List Key
  deriving DecidableEq, Repr

/-- The next section of a thread.  A collection that `commit` runs carries the commit it
returns to. -/
inductive Pc where
  | idle
  | beginFetch (isolation : IsolationLevel)
  | beginLoad (isolation : IsolationLevel) (txnId : ℕ)
  | beginInsert (isolation : IsolationLevel) (txnId readTs : ℕ)
  | recordWrite (txnId : ℕ) (key : Key)
  | abort (txnId : ℕ)
  | commitRead (txnId : ℕ)
  | commitValidate (c : TxnCopy)
  | commitAbort (txnId : ℕ)
  | commitNext (c : TxnCopy)
  | commitMark (c : TxnCopy) (ts : ℕ)
  | commitInsert (c : TxnCopy) (ts : ℕ)
  | commitPublish (c : TxnCopy) (ts : ℕ)
  | commitNotify (c : TxnCopy) (ts : ℕ) (versions : List (Key × ℕ))
  | commitCount (c : TxnCopy) (ts : ℕ)
  | commitReset (c : TxnCopy) (ts : ℕ)
  | gcHorizon (back : Option (TxnCopy × ℕ))
  | gcSet (back : Option (TxnCopy × ℕ)) (horizon : ℕ)
  | gcScan (back : Option (TxnCopy × ℕ)) (horizon : ℕ)
  | gcRemove (back : Option (TxnCopy × ℕ)) (horizon : ℕ) (keys : List Key)
  | gcPruneCommitted (back : Option (TxnCopy × ℕ)) (horizon collected : ℕ)
  | gcPruneTxns (back : Option (TxnCopy × ℕ)) (horizon collected : ℕ)
  | gcRecord (back : Option (TxnCopy × ℕ)) (collected : ℕ)
  deriving DecidableEq, Repr

/-- What `begin` saw when it loaded the oracle. -/
structure Snapshot where
  readTs : ℕ
  committedTs : Finset ℕ
  deriving DecidableEq

/-- A transaction that was marked committed: the writes acknowledged to it by then, and the
keys this commit validated and publishes. -/
structure CommitEvent where
  txnId : ℕ
  readTs : ℕ
  ts : ℕ
  written : List Key
  validated : List Key
  deriving DecidableEq

/-- What happened so far. -/
structure History where
  /-- The snapshot each transaction's `begin` read. -/
  begun : Table ℕ Snapshot
  /-- The writes for which `record_write` returned `Ok`. -/
  recorded : List (ℕ × Key)
  /-- The write sets that passed validation. -/
  validated : List (ℕ × List Key)
  /-- The transactions marked committed. -/
  commits : List CommitEvent
  /-- Transaction, timestamp and keys of every publication. -/
  published : List (ℕ × ℕ × List Key)
  /-- The timestamps that `commit` returned. -/
  returned : List (ℕ × ℕ)
  /-- The GC callback calls. -/
  callbacks : List (Key × ℕ)

def History.empty : History := ⟨∅, [], [], [], [], [], []⟩

structure Sys where
  tm : ConcurrentTransactionManager
  /-- The holder of the write lock on `latest_writes`. -/
  writer : Option ℕ
  pc : ℕ → Pc
  hist : History

namespace Sys

/-- A fresh manager and idle threads. -/
def init (gcInterval : ℕ) (gcCallback : Bool) : Sys :=
  ⟨withGcInterval gcInterval gcCallback, none, fun _ => .idle, .empty⟩

def goto (s : Sys) (t : ℕ) (pc : Pc) : Sys := { s with pc := Function.update s.pc t pc }

/-- `commit` returns the timestamp. -/
def returnTs (s : Sys) (t : ℕ) (c : TxnCopy) (ts : ℕ) : Sys :=
  { s.goto t .idle with hist := { s.hist with returned := s.hist.returned ++ [(c.txnId, ts)] } }

/-- The write set of the transaction's record. -/
def writeSetOf (s : Sys) (txnId : ℕ) : List Key := ((s.tm.txns.lookup txnId).map Transaction.writeSet).getD []

end Sys

/-- The first section of a call. -/
def entry : Call → Pc
  | .begin isolation => .beginFetch isolation
  | .recordWrite txnId key => .recordWrite txnId key
  | .commit txnId => .commitRead txnId
  | .abort txnId => .abort txnId
  | .runGc => .gcHorizon none

/-- One section of `begin`, `record_write` or `abort`. -/
def advanceTxn (s : Sys) (t : ℕ) : Pc → Option Sys
  | .beginFetch isolation =>
    let (txnId, tm) := s.tm.fetchTxnId
    some { s.goto t (.beginLoad isolation txnId) with tm := tm }
  | .beginLoad isolation txnId =>
    let readTs := s.tm.oracle.current
    some { s.goto t (.beginInsert isolation txnId readTs) with
      hist := { s.hist with
        begun := AList.insert txnId ⟨readTs, s.tm.committedTs⟩ s.hist.begun } }
  | .beginInsert isolation txnId readTs =>
    some { s.goto t .idle with tm := s.tm.insertTxn (Transaction.new txnId readTs isolation) }
  | .recordWrite txnId key =>
    match s.tm.recordWrite txnId key with
    | (.ok (), tm) =>
      some { s.goto t .idle with
        tm := tm, hist := { s.hist with recorded := s.hist.recorded ++ [(txnId, key)] } }
    | (.error _, tm) => some { s.goto t .idle with tm := tm }
  | .abort txnId => some { s.goto t .idle with tm := (s.tm.abort txnId).2 }
  | _ => none

/-- One section of `commit`. -/
def advanceCommit (s : Sys) (t : ℕ) : Pc → Option Sys
  | .commitRead txnId =>
    match s.tm.readForCommit txnId with
    | .error _ => some (s.goto t .idle)
    | .ok (readTs, writeSet) => some (s.goto t (.commitValidate ⟨txnId, readTs, writeSet⟩))
  | .commitValidate c =>
    -- the write lock on `latest_writes` must be free
    if s.writer ≠ none then none
    else if hasConflict s.tm.latestWrites c.readTs c.writeSet then
      some (s.goto t (.commitAbort c.txnId))
    else
      some { s.goto t (.commitNext c) with
        writer := some t
        hist := { s.hist with validated := s.hist.validated ++ [(c.txnId, c.writeSet)] } }
  | .commitAbort txnId => some { s.goto t .idle with tm := s.tm.abortConflict txnId }
  | .commitNext c =>
    let (ts, tm) := s.tm.nextTs
    some { s.goto t (.commitMark c ts) with tm := tm }
  | .commitMark c ts =>
    match s.tm.markCommitted c.txnId ts with
    | .error _ => some { s.goto t .idle with writer := none }
    | .ok tm =>
      some { s.goto t (.commitInsert c ts) with
        tm := tm
        hist := { s.hist with
          commits := s.hist.commits ++ [⟨c.txnId, c.readTs, ts, s.writeSetOf c.txnId, c.writeSet⟩] } }
  | .commitInsert c ts =>
    some { s.goto t (.commitPublish c ts) with tm := s.tm.insertCommittedTs ts }
  | .commitPublish c ts =>
    let (versions, tm) := s.tm.publishWrites ts c.writeSet
    some { s.goto t (.commitNotify c ts versions) with
      tm := tm
      writer := none
      hist := { s.hist with published := s.hist.published ++ [(c.txnId, ts, c.writeSet)] } }
  | .commitNotify c ts versions =>
    some { s.goto t (.commitCount c ts) with
      hist := { s.hist with
        callbacks := s.hist.callbacks ++ s.tm.supersededCallbacks versions } }
  | .commitCount c ts =>
    let (count, tm) := s.tm.countCommit
    if tm.gcInterval ≤ count then some { s.goto t (.gcHorizon (some (c, ts))) with tm := tm }
    else some { s.returnTs t c ts with tm := tm }
  | .commitReset c ts => some { s.returnTs t c ts with tm := s.tm.resetCount }
  | _ => none

/-- Where a collection returns to. -/
def afterGc : Option (TxnCopy × ℕ) → Pc
  | none => .idle
  | some (c, ts) => .commitReset c ts

/-- One section of `run_gc`. -/
def advanceGc (s : Sys) (t : ℕ) : Pc → Option Sys
  | .gcHorizon back => some (s.goto t (.gcSet back s.tm.minActiveTs))
  | .gcSet back horizon =>
    some { s.goto t (.gcScan back horizon) with tm := s.tm.setMinActiveTs horizon }
  | .gcScan back horizon =>
    -- a read lock on `latest_writes`
    if s.writer ≠ none then none
    else
      match keysBelow horizon s.tm.latestWrites with
      | [] => some (s.goto t (.gcPruneCommitted back horizon 0))
      | key :: keys => some (s.goto t (.gcRemove back horizon (key :: keys)))
  | .gcRemove back horizon keys =>
    -- the write lock, released at the end of the section
    if s.writer ≠ none then none
    else
      let (removed, tm) := s.tm.removeLatest keys
      some { s.goto t (.gcPruneCommitted back horizon removed.length) with
        tm := tm
        hist := { s.hist with
          callbacks := s.hist.callbacks ++ tm.removedCallbacks removed } }
  | .gcPruneCommitted back horizon collected =>
    some { s.goto t (.gcPruneTxns back horizon collected) with
      tm := s.tm.pruneCommittedTs horizon }
  | .gcPruneTxns back horizon collected =>
    some { s.goto t (.gcRecord back collected) with tm := s.tm.pruneTxns horizon }
  | .gcRecord back collected =>
    some { s.goto t (afterGc back) with tm := s.tm.recordCollected collected }
  | _ => none

/-- A scheduler's choice: an idle thread starts a call, or a thread runs its next section. -/
inductive Act where
  | call (t : ℕ) (c : Call)
  | advance (t : ℕ)
  deriving DecidableEq, Repr

def step (s : Sys) : Act → Option Sys
  | .call t c => if s.pc t = .idle then some (s.goto t (entry c)) else none
  | .advance t => advanceTxn s t (s.pc t) <|> advanceCommit s t (s.pc t) <|> advanceGc s t (s.pc t)

theorem step_advance {s s' : Sys} {t : ℕ} (h : step s (.advance t) = some s') :
    advanceTxn s t (s.pc t) = some s' ∨ advanceCommit s t (s.pc t) = some s' ∨
      advanceGc s t (s.pc t) = some s' := by
  simp only [step, orElse_eq_orElse, orElse_eq_or, or_eq_some_iff, and_or_left] at h
  rcases h with h | ⟨-, h⟩ | ⟨-, -, h⟩
  · exact .inl h
  · exact .inr (.inl h)
  · exact .inr (.inr h)

/-- A thread starts a call and runs its next `n` sections. -/
def runCall (t : ℕ) (c : Call) (n : ℕ) : List Act := .call t c :: List.replicate n (.advance t)

/-! ### Uninterrupted calls -/

/-- One thread runs some sections while the others stand still. -/
inductive Solo (t : ℕ) : Sys → Sys → Prop where
  | done (s : Sys) : Solo t s s
  | next {s s₁ s' : Sys} (h : step s (.advance t) = some s₁) (hr : Solo t s₁ s') : Solo t s s'

variable {s s' : Sys} {t : ℕ} {pc : Pc}

theorem Solo.exists_run (h : Solo t s s') : ∃ n, run step s (List.replicate n (.advance t)) = some s' := by
  induction h with
  | done s => exact ⟨0, rfl⟩
  | next h hr ih =>
    obtain ⟨n, hn⟩ := ih
    exact ⟨n + 1, run_cons_some.mpr ⟨_, h, hn⟩⟩

variable {s₁ : Sys} {c : TxnCopy} {ts : ℕ}

theorem Solo.trans (h : Solo t s s₁) (h' : Solo t s₁ s') : Solo t s s' := by
  induction h with
  | done s => exact h'
  | next h _ ih => exact .next h (ih h')

theorem Solo.txn (hpc : s.pc t = pc) (h : advanceTxn s t pc = some s₁) (hr : Solo t s₁ s') : Solo t s s' := by
  refine .next ?_ hr
  rw [step, hpc, h]
  rfl

theorem Solo.commit (hpc : s.pc t = pc) (h : advanceCommit s t pc = some s₁) (hr : Solo t s₁ s') :
    Solo t s s' := by
  refine .next ?_ hr
  have hnone : advanceTxn s t pc = none := by
    cases pc <;> first | rfl | cases h
  rw [step, hpc, hnone, h]
  rfl

theorem Solo.gc (hpc : s.pc t = pc) (h : advanceGc s t pc = some s₁) (hr : Solo t s₁ s') : Solo t s s' := by
  refine .next ?_ hr
  have hnone : advanceTxn s t pc = none ∧ advanceCommit s t pc = none := by
    cases pc <;> first | exact ⟨rfl, rfl⟩ | cases h
  rw [step, hpc, hnone.1, hnone.2, h]
  rfl

@[simp] theorem goto_pc (s : Sys) (t : ℕ) (pc : Pc) : (s.goto t pc).pc t = pc :=
  update_self _ _ _

/-- The state once thread `t` is at `pc`, with this manager and these further callback calls. -/
def Sys.put (s : Sys) (t : ℕ) (pc : Pc) (tm : ConcurrentTransactionManager)
    (callbacks : List (Key × ℕ)) : Sys :=
  { s.goto t pc with
    tm := tm, hist := { s.hist with callbacks := s.hist.callbacks ++ callbacks } }

@[simp] theorem put_pc (s : Sys) (t : ℕ) (pc : Pc) (tm : ConcurrentTransactionManager)
    (callbacks : List (Key × ℕ)) : (s.put t pc tm callbacks).pc t = pc :=
  update_self _ _ _

/-- The sections of `run_gc` add up to the method. -/
theorem solo_runGc {back : Option (TxnCopy × ℕ)} (hpc : s.pc t = .gcHorizon back) (hfree : s.writer = none) :
    Solo t s (s.put t (afterGc back) s.tm.runGc.tm s.tm.runGc.callbacks) := by
  have hset : advanceGc s t (.gcHorizon back) = some (s.put t (.gcSet back s.tm.minActiveTs) s.tm []) := by
    simp [advanceGc, Sys.put, Sys.goto]
  have hscan : advanceGc (s.put t (.gcSet back s.tm.minActiveTs) s.tm []) t
      (.gcSet back s.tm.minActiveTs) = some (s.put t (.gcScan back s.tm.minActiveTs)
        (s.tm.setMinActiveTs s.tm.minActiveTs) []) := by
    simp [advanceGc, Sys.put, Sys.goto]
  -- the rest of the collection, from the pruning of the committed table on
  have hrest (tm : ConcurrentTransactionManager) (n : ℕ) (cbs : List (Key × ℕ)) :
      Solo t (s.put t (.gcPruneCommitted back s.tm.minActiveTs n) tm cbs)
        (s.put t (afterGc back) (((tm.pruneCommittedTs s.tm.minActiveTs).pruneTxns
          s.tm.minActiveTs).recordCollected n) cbs) := by
    have hprune : advanceGc (s.put t (.gcPruneCommitted back s.tm.minActiveTs n) tm cbs) t
        (.gcPruneCommitted back s.tm.minActiveTs n) =
        some (s.put t (.gcPruneTxns back s.tm.minActiveTs n) (tm.pruneCommittedTs s.tm.minActiveTs) cbs) := by
      simp [advanceGc, Sys.put, Sys.goto]
    have htxns : advanceGc (s.put t (.gcPruneTxns back s.tm.minActiveTs n)
        (tm.pruneCommittedTs s.tm.minActiveTs) cbs) t (.gcPruneTxns back s.tm.minActiveTs n) =
        some (s.put t (.gcRecord back n)
          ((tm.pruneCommittedTs s.tm.minActiveTs).pruneTxns s.tm.minActiveTs) cbs) := by
      simp [advanceGc, Sys.put, Sys.goto]
    refine .gc (put_pc _ _ _ _ _) hprune (.gc (put_pc _ _ _ _ _) htxns ?_)
    exact .gc (put_pc _ _ _ _ _) (by simp [advanceGc, Sys.put, Sys.goto]) (.done _)
  refine .gc hpc hset (.gc (put_pc _ _ _ _ _) hscan ?_)
  cases hkeys : keysBelow s.tm.minActiveTs s.tm.latestWrites with
  | nil =>
    have hremove : advanceGc (s.put t (.gcScan back s.tm.minActiveTs)
        (s.tm.setMinActiveTs s.tm.minActiveTs) []) t (.gcScan back s.tm.minActiveTs) =
        some (s.put t (.gcPruneCommitted back s.tm.minActiveTs 0)
          (s.tm.setMinActiveTs s.tm.minActiveTs) []) := by
      simp [advanceGc, Sys.put, Sys.goto, hfree, setMinActiveTs, hkeys]
    have hgc : s.tm.runGc.callbacks = [] ∧ s.tm.runGc.tm =
        (((s.tm.setMinActiveTs s.tm.minActiveTs).pruneCommittedTs
          s.tm.minActiveTs).pruneTxns s.tm.minActiveTs).recordCollected 0 := by
      simp [runGc, setMinActiveTs, hkeys, removeLatest, removeKeys, removedCallbacks]
    rw [hgc.1, hgc.2]
    exact .gc (put_pc _ _ _ _ _) hremove (hrest _ _ _)
  | cons key keys =>
    have hremove : advanceGc (s.put t (.gcScan back s.tm.minActiveTs)
        (s.tm.setMinActiveTs s.tm.minActiveTs) []) t (.gcScan back s.tm.minActiveTs) =
        some (s.put t (.gcRemove back s.tm.minActiveTs (key :: keys))
          (s.tm.setMinActiveTs s.tm.minActiveTs) []) := by
      simp [advanceGc, Sys.put, Sys.goto, hfree, setMinActiveTs, hkeys]
    refine .gc (put_pc _ _ _ _ _) hremove ?_
    have hprune : advanceGc (s.put t (.gcRemove back s.tm.minActiveTs (key :: keys))
        (s.tm.setMinActiveTs s.tm.minActiveTs) []) t
        (.gcRemove back s.tm.minActiveTs (key :: keys)) =
        some (s.put t (.gcPruneCommitted back s.tm.minActiveTs s.tm.runGc.result)
          ((s.tm.setMinActiveTs s.tm.minActiveTs).removeLatest (key :: keys)).2
          s.tm.runGc.callbacks) := by
      simp [advanceGc, Sys.put, Sys.goto, hfree, setMinActiveTs, hkeys, runGc, removeLatest, removedCallbacks]
    refine .gc (put_pc _ _ _ _ _) hprune ?_
    have hgc : s.tm.runGc.tm =
        ((((s.tm.setMinActiveTs s.tm.minActiveTs).removeLatest (key :: keys)).2.pruneCommittedTs
          s.tm.minActiveTs).pruneTxns s.tm.minActiveTs).recordCollected s.tm.runGc.result := by
      simp [runGc, setMinActiveTs, hkeys]
    rw [hgc]
    exact hrest _ _ _

/-- A state that differs from `s` in the section of thread `t`, the manager, the lock holder and
further callback calls, and possibly in the rest of the history. -/
structure At (s : Sys) (t : ℕ) (pc : Pc) (tm : ConcurrentTransactionManager) (writer : Option ℕ)
    (callbacks : List (Key × ℕ)) (s' : Sys) : Prop where
  tm : s'.tm = tm
  writer : s'.writer = writer
  pc : s'.pc = Function.update s.pc t pc
  callbacks : s'.hist.callbacks = s.hist.callbacks ++ callbacks

variable {tm : ConcurrentTransactionManager} {writer : Option ℕ} {cbs : List (Key × ℕ)}

theorem At.pc_self (h : At s t pc tm writer cbs s') : s'.pc t = pc := by simp [h.pc]

theorem At.goto (h : At s t pc tm writer cbs s') {pc' : Pc} : (s'.goto t pc').pc =
    Function.update s.pc t pc' := by simp [Sys.goto, h.pc]

/-- After publication the rest of `commit` is its periodic collection. -/
theorem At.finish (hat : At s t (.commitCount c ts) tm none cbs s') : ∃ s'', Solo t s' s'' ∧
      At s t .idle (tm.finishCommit ts cbs).tm none (tm.finishCommit ts cbs).callbacks s'' := by
  rcases finishCommit_cases tm ts cbs with ⟨hdue, hfin⟩ | ⟨hdue, hfin⟩
  · have h₁ : advanceCommit s' t (.commitCount c ts) =
        some { s'.returnTs t c ts with tm := tm.countCommit.2 } := by
      have hnot : ¬ tm.countCommit.2.gcInterval ≤ tm.countCommit.1 := hdue
      simp only [advanceCommit, hat.tm, if_neg hnot]
    refine ⟨_, .commit hat.pc_self h₁ (.done _), ?_⟩
    rw [hfin]
    exact ⟨rfl, hat.writer, hat.goto, hat.callbacks⟩
  · have h₁ : advanceCommit s' t (.commitCount c ts) =
        some { s'.goto t (.gcHorizon (some (c, ts))) with tm := tm.countCommit.2 } := by
      have hyes : tm.countCommit.2.gcInterval ≤ tm.countCommit.1 := hdue
      simp only [advanceCommit, hat.tm, if_pos hyes]
    have hgc := solo_runGc (s := { s'.goto t (.gcHorizon (some (c, ts))) with
      tm := tm.countCommit.2 }) (goto_pc _ _ _) hat.writer
    refine ⟨_, .commit hat.pc_self h₁ (hgc.trans (.commit (put_pc _ _ _ _ _) rfl (.done _))), ?_⟩
    rw [hfin]
    refine ⟨rfl, hat.writer, ?_, ?_⟩
    · simp [Sys.returnTs, Sys.put, Sys.goto, hat.pc]
    · simp [Sys.returnTs, Sys.put, Sys.goto, hat.callbacks]

theorem advanceCommit_mark (h : s.tm.markCommitted c.txnId ts = .ok tm) :
    advanceCommit s t (.commitMark c ts) = some { s.goto t (.commitInsert c ts) with
      tm := tm
      hist := { s.hist with
        commits := s.hist.commits ++ [⟨c.txnId, c.readTs, ts, s.writeSetOf c.txnId, c.writeSet⟩] } } := by
  simp only [advanceCommit, h]

/-- The sections of `commit` add up to the method. -/
theorem solo_commit {txnId : ℕ} (hpc : s.pc t = .commitRead txnId) (hfree : s.writer = none) :
    ∃ s', Solo t s s' ∧ At s t .idle (s.tm.commit txnId).tm none (s.tm.commit txnId).callbacks s' := by
  rcases commit_cases s.tm txnId with ⟨e, hmethod, hclosed⟩ | ⟨txn, hl, hopen, hcase⟩
  · cases hread : s.tm.readForCommit txnId with
    | error e' =>
      have h₁ : advanceCommit s t (.commitRead txnId) = some (s.goto t .idle) := by
        simp only [advanceCommit, hread]
      refine ⟨_, .commit hpc h₁ (.done _), ?_⟩
      rw [hmethod]
      exact ⟨rfl, hfree, rfl, (append_nil _).symm⟩
    | ok copy =>
      obtain ⟨txn, hl, hopen, -⟩ := readForCommit_ok.mp hread
      exact absurd hopen (hclosed txn hl)
  have h₁ : advanceCommit s t (.commitRead txnId) =
      some (s.goto t (.commitValidate ⟨txnId, txn.readTs, txn.writeSet⟩)) := by
    simp only [advanceCommit, readForCommit_ok.mpr ⟨txn, hl, hopen, rfl, rfl⟩]
  rcases hcase with ⟨hconf, hmethod⟩ | ⟨hval, hmethod⟩
  · have h₂ : advanceCommit (s.goto t (.commitValidate ⟨txnId, txn.readTs, txn.writeSet⟩)) t
        (.commitValidate ⟨txnId, txn.readTs, txn.writeSet⟩) =
        some ((s.goto t (.commitValidate ⟨txnId, txn.readTs, txn.writeSet⟩)).goto t (.commitAbort txnId)) := by
      simp [advanceCommit, Sys.goto, hfree, hconf]
    refine ⟨_, .commit hpc h₁ (.commit (goto_pc _ _ _) h₂ (.commit (goto_pc _ _ _) rfl (.done _))), ?_⟩
    rw [hmethod]
    refine ⟨rfl, hfree, ?_, (append_nil _).symm⟩
    simp [Sys.goto]
  · have h₂ : advanceCommit (s.goto t (.commitValidate ⟨txnId, txn.readTs, txn.writeSet⟩)) t
        (.commitValidate ⟨txnId, txn.readTs, txn.writeSet⟩) =
        some { s.goto t (.commitNext ⟨txnId, txn.readTs, txn.writeSet⟩) with
          writer := some t
          hist := { s.hist with
            validated := s.hist.validated ++ [(txnId, txn.writeSet)] } } := by
      simp [advanceCommit, Sys.goto, hfree, hval]
    have hmark : s.tm.nextTs.2.markCommitted txnId (s.tm.oracle.current + 1) = .ok { s.tm.nextTs.2 with
          txns := s.tm.txns.update txnId (Transaction.markCommitted (s.tm.oracle.current + 1)) } := by
      refine markCommitted_ok.mpr ⟨⟨txn, hl, ?_⟩, rfl⟩
      rcases hopen with hs | hs <;> simp [hs]
    -- from the marked record on, the sections up to the notification have no branch
    obtain ⟨s₄, h₄, hat₄⟩ : ∃ s₄, Solo t s s₄ ∧
        At s t (.commitCount ⟨txnId, txn.readTs, txn.writeSet⟩ (s.tm.oracle.current + 1))
          (s.tm.published txnId txn) none ((s.tm.published txnId txn).supersededCallbacks
            (superseded (s.tm.oracle.current + 1) txn.writeSet s.tm.latestWrites)) s₄ := by
      have hself (f : ℕ → Pc) (pc : Pc) : Function.update f t pc t = pc := update_self _ _ _
      refine ⟨_, .commit hpc h₁ (.commit (hself _ _) h₂ (.commit (hself _ _) rfl
        (.commit (hself _ _) (advanceCommit_mark hmark) (.commit (hself _ _) rfl
          (.commit (hself _ _) rfl (.commit (hself _ _) rfl (.done _))))))), ?_⟩
      refine ⟨rfl, rfl, ?_, rfl⟩
      simp [Sys.goto]
    obtain ⟨s', h', hat'⟩ := hat₄.finish
    rw [hmethod]
    exact ⟨s', h₄.trans h', hat'⟩

/-- **A call without interference is the method.**  From a state with a free lock, an idle
thread that runs all sections of a call leaves the manager, and makes the callback calls, of
the method taken as one step. -/
theorem run_call (hidle : s.pc t = .idle) (hfree : s.writer = none) (c : Call) (versions : List (Key × ℕ)) :
    ∃ n s', run step s (runCall t c n) = some s' ∧ At s t .idle ((⟨s.tm, versions⟩ : Traced).call c).1.tm none
        ((⟨s.tm, versions⟩ : Traced).call c).2 s' := by
  have hself (f : ℕ → Pc) (pc : Pc) : Function.update f t pc t = pc := update_self _ _ _
  have hsolo : ∃ s', Solo t (s.goto t (entry c)) s' ∧
      At s t .idle ((⟨s.tm, versions⟩ : Traced).call c).1.tm none
        ((⟨s.tm, versions⟩ : Traced).call c).2 s' := by
    cases c with
    | begin isolation =>
      refine ⟨_, .txn (hself _ _) rfl (.txn (hself _ _) rfl (.txn (hself _ _) rfl (.done _))),
        ⟨rfl, hfree, ?_, (append_nil _).symm⟩⟩
      simp [Sys.goto]
    | recordWrite txnId key =>
      rcases recordWriteIn_cases s.tm.txns txnId key with ⟨e, hr⟩ | ⟨txn, -, -, hr⟩
      · have h₁ : advanceTxn (s.goto t (.recordWrite txnId key)) t (.recordWrite txnId key) =
            some ((s.goto t (.recordWrite txnId key)).goto t .idle) := by
          simp [advanceTxn, ConcurrentTransactionManager.recordWrite, Sys.goto, hr]
        refine ⟨_, .txn (hself _ _) h₁ (.done _), ?_, hfree, ?_, (append_nil _).symm⟩
        · simp [Traced.call, ConcurrentTransactionManager.recordWrite, Sys.goto, hr]
        · simp [Sys.goto]
      · have h₁ : advanceTxn (s.goto t (.recordWrite txnId key)) t (.recordWrite txnId key) =
            some { (s.goto t (.recordWrite txnId key)).goto t .idle with
              tm := { s.tm with txns := s.tm.txns.update txnId (Transaction.pushWrite key) }
              hist := { s.hist with recorded := s.hist.recorded ++ [(txnId, key)] } } := by
          simp [advanceTxn, ConcurrentTransactionManager.recordWrite, Sys.goto, hr]
        refine ⟨_, .txn (hself _ _) h₁ (.done _), ?_, hfree, ?_, (append_nil _).symm⟩
        · simp [Traced.call, ConcurrentTransactionManager.recordWrite, hr]
        · simp [Sys.goto]
    | commit txnId =>
      obtain ⟨s', h', hat⟩ := solo_commit (s := s.goto t (.commitRead txnId)) (hself _ _) hfree
      refine ⟨s', h', hat.tm, hat.writer, ?_, hat.callbacks⟩
      rw [hat.pc, Sys.goto, update_idem]
    | abort txnId =>
      refine ⟨_, .txn (hself _ _) rfl (.done _), rfl, hfree, ?_, (append_nil _).symm⟩
      simp [Sys.goto]
    | runGc =>
      refine ⟨_, solo_runGc (s := s.goto t (.gcHorizon none)) (hself _ _) hfree, rfl, hfree, ?_, rfl⟩
      simp [Sys.put, Sys.goto, afterGc]
  obtain ⟨s', h', hat⟩ := hsolo
  obtain ⟨n, hn⟩ := h'.exists_run
  refine ⟨n, s', ?_, hat⟩
  exact run_cons_some.mpr ⟨_, by simp only [step, if_pos hidle], hn⟩

theorem run_call_runGc : ∃ n s', run step (Sys.init 1 true) (runCall 0 .runGc n) = some s' ∧
    At (Sys.init 1 true) 0 .idle ((⟨(Sys.init 1 true).tm, []⟩ : Traced).call .runGc).1.tm none
      ((⟨(Sys.init 1 true).tm, []⟩ : Traced).call .runGc).2 s' := run_call rfl rfl .runGc []

end CenDB.Tx.Interleaving
