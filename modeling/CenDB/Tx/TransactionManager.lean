import CenDB.Lib.Occ
import CenDB.Lib.Transition
import CenDB.Tx.Mvcc

/-! # The sequential transaction manager

`begin`, `record_write`, `commit` and `abort` on one state; every method takes the manager
exclusively, so a run is a list of calls.

A run is traced with the list of pairs (transaction, timestamp) its successful commit calls
returned.  `Tracks` ties the manager to an optimistic commit history: the history obeys
"first committer wins", the latest-write table covers it, and the transaction table records
every commit of it.  `firstCommitterWins` reads the guarantee off the transaction table of
any state a run reaches. -/

namespace CenDB.Tx

open Occ Transition List Table

structure TransactionManager where
  oracle : TimestampOracle
  /-- Map from `txn_id` to the transaction's metadata. -/
  txns : Table ℕ Transaction
  committedTs : Finset ℕ
  /-- Map from key to the latest committed timestamp that wrote it. -/
  latestWrites : Table Key ℕ
  nextTxnId : ℕ

namespace TransactionManager

def new : TransactionManager :=
  { oracle := .new 1, txns := ∅, committedTs := ∅, latestWrites := ∅, nextTxnId := 1 }

/-- Begin a new transaction. -/
def begin (tm : TransactionManager) (isolation : IsolationLevel) : ℕ × TransactionManager :=
  let txnId := tm.nextTxnId
  let txn := Transaction.new txnId tm.oracle.current isolation
  (txnId, { tm with nextTxnId := tm.nextTxnId + 1, txns := AList.insert txnId txn tm.txns })

/-- Record a write in the transaction's write set. -/
def recordWrite (tm : TransactionManager) (txnId : ℕ) (key : Key) :
    Except MvccError Unit × TransactionManager :=
  let (r, txns) := recordWriteIn tm.txns txnId key
  (r, { tm with txns := txns })

/-- The part of `commit` after the state check: validate, then allocate and publish. -/
def commitOpen (tm : TransactionManager) (txnId : ℕ) (txn : Transaction) :
    Except MvccError ℕ × TransactionManager :=
  if hasConflict tm.latestWrites txn.readTs txn.writeSet then
    (.error .conflict, { tm with txns := tm.txns.update txnId Transaction.markAborted })
  else
    let (commitTs, oracle) := tm.oracle.next
    (.ok commitTs,
      { tm with
        oracle := oracle
        latestWrites := publish commitTs txn.writeSet tm.latestWrites
        committedTs := insert commitTs tm.committedTs
        txns := tm.txns.update txnId (Transaction.markCommitted commitTs) })

/-- Commit a transaction. -/
def commit (tm : TransactionManager) (txnId : ℕ) : Except MvccError ℕ × TransactionManager :=
  match tm.txns.lookup txnId with
  | none => (.error .notFound, tm)
  | some txn =>
    match txn.state with
    | .committed => (.error .alreadyCommitted, tm)
    | .aborted => (.error .alreadyAborted, tm)
    | .active | .validation => tm.commitOpen txnId txn

/-- Abort a transaction. -/
def abort (tm : TransactionManager) (txnId : ℕ) : Except MvccError Unit × TransactionManager :=
  let (r, txns) := abortIn tm.txns txnId
  (r, { tm with txns := txns })

/-! ### What a call can do -/

variable {tm tm' : TransactionManager} {txnId : ℕ}

/-- A commit is refused without effect, marks a conflicting transaction aborted, or passes
validation and publishes. -/
theorem commit_cases {r : Except MvccError ℕ} (h : tm.commit txnId = (r, tm')) :
    (tm' = tm ∧ ∃ e, r = .error e) ∨
    ∃ txn, tm.txns.lookup txnId = some txn ∧ txn.IsOpen ∧ ((r = .error .conflict ∧
          tm' = { tm with txns := tm.txns.update txnId Transaction.markAborted }) ∨
        (hasConflict tm.latestWrites txn.readTs txn.writeSet = false ∧ r = .ok (tm.oracle.current + 1) ∧
          tm' = { tm with
            oracle := ⟨tm.oracle.current + 1⟩
            latestWrites := publish (tm.oracle.current + 1) txn.writeSet tm.latestWrites
            committedTs := insert (tm.oracle.current + 1) tm.committedTs
            txns := tm.txns.update txnId (Transaction.markCommitted (tm.oracle.current + 1)) })) := by
  have hopen (txn : Transaction) (hc : tm.commitOpen txnId txn = (r, tm')) : (r = .error .conflict ∧
          tm' = { tm with txns := tm.txns.update txnId Transaction.markAborted }) ∨
        (hasConflict tm.latestWrites txn.readTs txn.writeSet = false ∧ r = .ok (tm.oracle.current + 1) ∧
          tm' = { tm with
            oracle := ⟨tm.oracle.current + 1⟩
            latestWrites := publish (tm.oracle.current + 1) txn.writeSet tm.latestWrites
            committedTs := insert (tm.oracle.current + 1) tm.committedTs
            txns := tm.txns.update txnId (Transaction.markCommitted (tm.oracle.current + 1)) }) := by
    unfold commitOpen at hc
    split_ifs at hc with hconf
    · cases hc
      exact .inl ⟨rfl, rfl⟩
    · cases hc
      exact .inr ⟨by simpa using hconf, rfl, rfl⟩
  unfold commit at h
  cases hl : tm.txns.lookup txnId with
  | none =>
    rw [hl] at h
    cases h
    exact .inl ⟨rfl, _, rfl⟩
  | some txn =>
    rw [hl] at h
    cases hs : txn.state with
    | committed | aborted =>
      simp only [hs] at h
      cases h
      exact .inl ⟨rfl, _, rfl⟩
    | active =>
      simp only [hs] at h
      exact .inr ⟨txn, rfl, .inl hs, hopen txn h⟩
    | validation =>
      simp only [hs] at h
      exact .inr ⟨txn, rfl, .inr hs, hopen txn h⟩

/-- The transaction committed at `ts`, with this record. -/
def Committed (tm : TransactionManager) (txnId : ℕ) (txn : Transaction) (ts : ℕ) : Prop :=
  tm.txns.lookup txnId = some txn ∧ txn.state = .committed ∧ txn.commitTs = some ts

/-- A call of the manager. -/
inductive Call where
  | begin (isolation : IsolationLevel)
  | recordWrite (txnId : ℕ) (key : Key)
  | commit (txnId : ℕ)
  | abort (txnId : ℕ)
  deriving DecidableEq, Repr

/-- The manager together with what its commit calls returned so far: the transaction and its
timestamp for every successful one, in call order. -/
structure Traced where
  tm : TransactionManager
  returned : List (ℕ × ℕ)

namespace Traced

def init : Traced := ⟨.new, []⟩

def step (s : Traced) : Call → Option Traced
  | .begin isolation => some { s with tm := (s.tm.begin isolation).2 }
  | .recordWrite txnId key => some { s with tm := (s.tm.recordWrite txnId key).2 }
  | .commit txnId =>
    match s.tm.commit txnId with
    | (.ok ts, tm) => some ⟨tm, s.returned ++ [(txnId, ts)]⟩
    | (.error _, tm) => some { s with tm := tm }
  | .abort txnId => some { s with tm := (s.tm.abort txnId).2 }

end Traced

/-! ### The invariant -/

/-- The transaction record of a commit of the history. -/
structure Records (txn : Transaction) (c : Occ.Commit ℕ Key) : Prop where
  state : txn.state = .committed
  readTs : txn.readTs = c.readTs
  commitTs : txn.commitTs = some c.commitTs
  keys : txn.writeSet = c.keys

/-- The manager's tables agree with the commit history `h`. -/
structure Tracks (s : Traced) (h : List (Occ.Commit ℕ Key)) : Prop where
  wins : FirstCommitterWins h
  covers : Covers (fun key => s.tm.latestWrites.lookup key) h
  bounded : ∀ c ∈ h, c.commitTs ≤ s.tm.oracle.current
  returned : s.returned = h.map fun c => (c.id, c.commitTs)
  fresh : ∀ id txn, s.tm.txns.lookup id = some txn → id < s.tm.nextTxnId
  recorded : ∀ c ∈ h, ∃ txn, s.tm.txns.lookup c.id = some txn ∧ Records txn c
  committed : ∀ id txn, s.tm.txns.lookup id = some txn → txn.state = .committed → ∃ c ∈ h, c.id = id

theorem tracks_init : Tracks Traced.init [] where
  wins := firstCommitterWins_nil
  covers := by simp [Covers]
  bounded := by simp
  returned := rfl
  fresh := by intro id txn hl; cases hl
  recorded := by simp
  committed := by intro id txn hl; cases hl

variable {s : Traced} {h : List (Occ.Commit ℕ Key)}

/-- A new transaction gets an id no record uses. -/
theorem Tracks.begin (hs : Tracks s h) (isolation : IsolationLevel) :
    Tracks { s with tm := (s.tm.begin isolation).2 } h where
  wins := hs.wins
  covers := hs.covers
  bounded := hs.bounded
  returned := hs.returned
  fresh := by
    intro id txn hl
    simp only [TransactionManager.begin, lookup_insert_if] at hl ⊢
    split_ifs at hl with hid
    · omega
    · have := hs.fresh id txn hl
      omega
  recorded := by
    intro c hc
    obtain ⟨txn, hl, hrec⟩ := hs.recorded c hc
    refine ⟨txn, ?_, hrec⟩
    have hne : c.id ≠ s.tm.nextTxnId := (hs.fresh c.id txn hl).ne
    simp only [TransactionManager.begin, lookup_insert_if, if_neg hne, hl]
  committed := by
    intro id txn hl hstate
    simp only [TransactionManager.begin, lookup_insert_if] at hl
    split_ifs at hl with hid
    · cases hl
      cases hstate
    · exact hs.committed id txn hl hstate

/-- Rewriting the record of an open transaction, without committing it, changes no commit. -/
theorem Tracks.update (hs : Tracks s h) {txn : Transaction} (hl : s.tm.txns.lookup txnId = some txn)
    (hopen : txn.IsOpen) (f : Transaction → Transaction) (hf : (f txn).state ≠ .committed) :
    Tracks { s with tm := { s.tm with txns := s.tm.txns.update txnId f } } h where
  wins := hs.wins
  covers := hs.covers
  bounded := hs.bounded
  returned := hs.returned
  fresh := by
    intro id txn' hl'
    simp only [lookup_update] at hl'
    split_ifs at hl' with hid
    · exact hid ▸ hs.fresh txnId txn hl
    · exact hs.fresh id txn' hl'
  recorded := by
    intro c hc
    obtain ⟨txn', hl', hrec⟩ := hs.recorded c hc
    have hne : c.id ≠ txnId := by
      rintro rfl
      obtain rfl := Option.some.inj (hl.symm.trans hl')
      exact hopen.ne_committed hrec.state
    exact ⟨txn', by simp only [lookup_update, if_neg hne, hl'], hrec⟩
  committed := by
    intro id txn' hl' hstate
    simp only [lookup_update] at hl'
    split_ifs at hl' with hid
    · subst hid
      rw [hl, Option.map_some] at hl'
      cases hl'
      exact absurd hstate hf
    · exact hs.committed id txn' hl' hstate

/-- A commit that passes validation extends the history by the published commit. -/
theorem Tracks.publish (hs : Tracks s h) {txn : Transaction}
    (hl : s.tm.txns.lookup txnId = some txn) (hopen : txn.IsOpen)
    (hval : hasConflict s.tm.latestWrites txn.readTs txn.writeSet = false)
    (htm : tm' = { s.tm with
      oracle := ⟨s.tm.oracle.current + 1⟩
      latestWrites := publish (s.tm.oracle.current + 1) txn.writeSet s.tm.latestWrites
      committedTs := insert (s.tm.oracle.current + 1) s.tm.committedTs
      txns := s.tm.txns.update txnId (Transaction.markCommitted (s.tm.oracle.current + 1)) }) :
    Tracks ⟨tm', s.returned ++ [(txnId, s.tm.oracle.current + 1)]⟩
      (h ++ [⟨txnId, txn.readTs, s.tm.oracle.current + 1, txn.writeSet⟩]) := by
  have hnew : ∀ c ∈ h, c.commitTs < s.tm.oracle.current + 1 := by
    intro c hc
    exact Nat.lt_succ_of_le (hs.bounded c hc)
  -- an open transaction is none of the commits so far
  have hne : ∀ c ∈ h, c.id ≠ txnId := by
    rintro c hc rfl
    obtain ⟨txn', hl', hrec⟩ := hs.recorded c hc
    obtain rfl := Option.some.inj (hl.symm.trans hl')
    exact hopen.ne_committed hrec.state
  have hself : tm'.txns.lookup txnId = some (txn.markCommitted (s.tm.oracle.current + 1)) := by
    simp only [htm, lookup_update, if_pos, hl, Option.map_some]
  have hother (id : ℕ) (hid : id ≠ txnId) : tm'.txns.lookup id = s.tm.txns.lookup id := by
    simp only [htm, lookup_update, if_neg hid]
  constructor
  · refine firstCommitterWins_snoc.mpr ⟨hs.wins, hnew, ?_⟩
    exact hs.covers.validated (hasConflict_eq_false.mp hval)
  · refine hs.covers.snoc hnew ?_ ?_
    · intro key hkey
      simp only [htm, lookup_publish, if_pos hkey]
    · intro key hkey
      simp only [htm, lookup_publish, if_neg hkey]
  · intro c hc
    rw [htm]
    rcases mem_append.mp hc with hold | hlast
    · exact (hnew c hold).le
    · rw [mem_singleton.mp hlast]
  · simp [hs.returned]
  · intro id txn' hl'
    by_cases hid : id = txnId
    · rw [htm]
      exact hid ▸ hs.fresh txnId txn hl
    · rw [hother id hid] at hl'
      rw [htm]
      exact hs.fresh id txn' hl'
  · intro c hc
    rcases mem_append.mp hc with hold | hlast
    · obtain ⟨txn', hl', hrec⟩ := hs.recorded c hold
      exact ⟨txn', (hother c.id (hne c hold)).trans hl', hrec⟩
    · rw [mem_singleton.mp hlast]
      exact ⟨_, hself, ⟨rfl, rfl, rfl, rfl⟩⟩
  · intro id txn' hl' hstate
    by_cases hid : id = txnId
    · exact ⟨_, mem_append_right _ (mem_singleton_self _), hid.symm⟩
    · obtain ⟨c, hc, hcid⟩ := hs.committed id txn' ((hother id hid).symm.trans hl') hstate
      exact ⟨c, mem_append_left _ hc, hcid⟩

/-- One call keeps the tables in agreement with some history. -/
theorem Tracks.step (hs : Tracks s h) {call : Call} {s' : Traced}
    (hstep : s.step call = some s') : ∃ h', Tracks s' h' := by
  cases call with
  | begin isolation =>
    cases hstep
    exact ⟨h, hs.begin isolation⟩
  | recordWrite id key =>
    cases hstep
    refine ⟨h, ?_⟩
    rcases recordWriteIn_cases s.tm.txns id key with ⟨e, hr⟩ | ⟨txn, hl, hactive, hr⟩
    · simp only [recordWrite, hr]
      exact hs
    · simp only [recordWrite, hr]
      exact hs.update hl (.inl hactive) _ (by simp [Transaction.pushWrite, hactive])
  | abort id =>
    cases hstep
    refine ⟨h, ?_⟩
    rcases abortIn_cases s.tm.txns id with ⟨e, hr⟩ | ⟨txn, hl, hopen, hr⟩
    · simp only [abort, hr]
      exact hs
    · simp only [abort, hr]
      exact hs.update hl hopen _ (by simp [Transaction.markAborted])
  | commit id =>
    obtain ⟨r, tm', hc⟩ : ∃ r tm', s.tm.commit id = (r, tm') := ⟨_, _, rfl⟩
    rw [Traced.step, hc] at hstep
    rcases commit_cases hc with ⟨rfl, e, rfl⟩ | ⟨txn, hl, hopen, hcase⟩
    · cases hstep
      exact ⟨h, hs⟩
    · rcases hcase with ⟨rfl, rfl⟩ | ⟨hval, rfl, htm⟩
      · cases hstep
        exact ⟨h, hs.update hl hopen _ (by simp [Transaction.markAborted])⟩
      · cases hstep
        exact ⟨_, hs.publish hl hopen hval htm⟩

theorem exists_tracks {calls : List Call} (hrun : run Traced.step Traced.init calls = some s) :
    ∃ h, Tracks s h := by
  refine run_preserves (I := fun s => ∃ h, Tracks s h) ?_ ⟨[], tracks_init⟩ hrun
  rintro s call s' ⟨h, hs⟩ hstep
  exact hs.step hstep

/-- The commit of the history behind a committed record. -/
theorem Tracks.exists_commit (hs : Tracks s h) {txn : Transaction} {ts : ℕ} (hc : s.tm.Committed txnId txn ts) :
    ∃ c ∈ h, c.id = txnId ∧ c.commitTs = ts ∧ c.readTs = txn.readTs ∧ c.keys = txn.writeSet := by
  obtain ⟨hl, hstate, hts⟩ := hc
  obtain ⟨c, hmem, rfl⟩ := hs.committed txnId txn hl hstate
  obtain ⟨txn', hl', hrec⟩ := hs.recorded c hmem
  obtain rfl := Option.some.inj (hl.symm.trans hl')
  refine ⟨c, hmem, rfl, ?_, hrec.readTs.symm, hrec.keys.symm⟩
  exact Option.some.inj (hrec.commitTs.symm.trans hts)

/-- **The first committer wins.**  In every state a run reaches: the returned timestamps
increase strictly, and they are those of the committed records; two committed transactions
whose lifetimes overlap wrote no common key; a failing commit or abort changes no other
transaction and no latest write. -/
theorem firstCommitterWins {calls : List Call} (hrun : run Traced.step Traced.init calls = some s) :
    (s.returned.Pairwise fun c d => c.2 < d.2) ∧
    (∀ id ts, (id, ts) ∈ s.returned ↔ ∃ txn, s.tm.Committed id txn ts) ∧
    (∀ id₁ txn₁ ts₁ id₂ txn₂ ts₂, id₁ ≠ id₂ → s.tm.Committed id₁ txn₁ ts₁ → s.tm.Committed id₂ txn₂ ts₂ →
      (Set.Ico txn₁.readTs ts₁ ∩ Set.Ico txn₂.readTs ts₂).Nonempty →
      ∀ key ∈ txn₁.writeSet, key ∉ txn₂.writeSet) ∧
    (∀ id e tm', s.tm.commit id = (.error e, tm') →
      (∀ other, other ≠ id → tm'.txns.lookup other = s.tm.txns.lookup other) ∧
        tm'.latestWrites = s.tm.latestWrites) ∧
    (∀ id e tm', s.tm.abort id = (.error e, tm') →
      (∀ other, other ≠ id → tm'.txns.lookup other = s.tm.txns.lookup other) ∧
        tm'.latestWrites = s.tm.latestWrites) := by
  obtain ⟨h, hs⟩ := exists_tracks hrun
  refine ⟨?_, ?_, ?_, ?_, ?_⟩
  · rw [hs.returned, pairwise_map]
    exact hs.wins.increasing
  · intro id ts
    rw [hs.returned, List.mem_map]
    constructor
    · rintro ⟨c, hc, heq⟩
      obtain ⟨rfl, rfl⟩ := Prod.mk.inj heq
      obtain ⟨txn, hl, hrec⟩ := hs.recorded c hc
      exact ⟨txn, hl, hrec.state, hrec.commitTs⟩
    · rintro ⟨txn, hc⟩
      obtain ⟨c, hmem, rfl, rfl, -⟩ := hs.exists_commit hc
      exact ⟨c, hmem, rfl⟩
  · intro id₁ txn₁ ts₁ id₂ txn₂ ts₂ hid hc₁ hc₂ hoverlap key hkey₁ hkey₂
    obtain ⟨c₁, hmem₁, hid₁, hts₁, hread₁, hkeys₁⟩ := hs.exists_commit hc₁
    obtain ⟨c₂, hmem₂, hid₂, hts₂, hread₂, hkeys₂⟩ := hs.exists_commit hc₂
    have hne : c₁ ≠ c₂ := by
      rintro rfl
      exact hid (hid₁.symm.trans hid₂)
    have hconf : c₁.Conflicts c₂ := ⟨key, hkeys₁ ▸ hkey₁, hkeys₂ ▸ hkey₂⟩
    have hdisj := hs.wins.disjoint_lifetimes hmem₁ hmem₂ hne hconf
    simp only [Occ.Commit.lifetime, hread₁, hts₁, hread₂, hts₂] at hdisj
    exact Set.not_nonempty_iff_eq_empty.mpr hdisj.inter_eq hoverlap
  · intro id e tm' hc
    rcases commit_cases hc with ⟨rfl, -⟩ | ⟨txn, -, -, ⟨-, rfl⟩ | ⟨-, hok, -⟩⟩
    · exact ⟨fun other _ => rfl, rfl⟩
    · refine ⟨?_, rfl⟩
      intro other hne
      simp only [Table.lookup_update, if_neg hne]
    · cases hok
  · intro id e tm' hc
    rcases abortIn_cases s.tm.txns id with ⟨e', hr⟩ | ⟨txn, -, -, hr⟩
    · simp only [abort, hr] at hc
      obtain ⟨-, rfl⟩ := Prod.mk.inj hc
      exact ⟨fun other _ => rfl, rfl⟩
    · simp only [abort, hr] at hc
      cases (Prod.mk.inj hc).1

/-- Two writers of one key, opened together, and a third one after the first commit. -/
def threeWriters : List Call :=
  [.begin .snapshot, .begin .snapshot, .recordWrite 1 [120], .recordWrite 2 [120], .commit 1,
    .commit 2, .begin .snapshot, .recordWrite 3 [120], .commit 3]

theorem firstCommitterWins_threeWriters :
    ∃ s, run Traced.step Traced.init threeWriters = some s ∧ s.returned = [(1, 2), (3, 3)] ∧
      (s.returned.Pairwise fun c d => c.2 < d.2) ∧
      ∀ id ts, (id, ts) ∈ s.returned ↔ ∃ txn, s.tm.Committed id txn ts := by
  obtain ⟨s, hrun⟩ : ∃ s, run Traced.step Traced.init threeWriters = some s := ⟨_, rfl⟩
  have hwins := firstCommitterWins hrun
  refine ⟨s, hrun, ?_, hwins.1, hwins.2.1⟩
  obtain rfl := Option.some.inj hrun
  rfl

end TransactionManager
end CenDB.Tx
