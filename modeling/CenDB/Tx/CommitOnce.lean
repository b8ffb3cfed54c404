import CenDB.Tx.Interleaving

/-! # One commit for each transaction

Several threads may call `record_write` and `commit` on the same transaction.  `CommitsExactly`
asks that at most one of the commit calls returns a timestamp, and that every acknowledged
write was validated and published with it.

`commit` copies the write set in its first section and re-checks the record when it marks it,
but the re-check looks for `Aborted` only.  `ExactStep` adds what is missing: at the mark the
transaction is not committed already, and its write set is the copied one.
`commitsExactly_of_exact` proves the property for every interleaving of such steps. -/

namespace CenDB.Tx.Interleaving

open Transition ConcurrentTransactionManager List Option Table

/-- At most one commit of a transaction returned, and every acknowledged write was validated
and published with the timestamp it returned. -/
def CommitsExactly (s : Sys) : Prop :=
  (s.hist.returned.map Prod.fst).Nodup ∧
    ∀ txnId ts, (txnId, ts) ∈ s.hist.returned → ∀ key, (txnId, key) ∈ s.hist.recorded →
      ∃ keys, key ∈ keys ∧ (txnId, keys) ∈ s.hist.validated ∧ (txnId, ts, keys) ∈ s.hist.published

/-- The condition on the state before a step: a commit marks an open transaction whose write
set it has copied completely. -/
def ExactStep (s : Sys) : Act → Prop
  | .call _ _ => True
  | .advance t =>
    match s.pc t with
    | .commitMark c _ => ∀ txn, s.tm.txns.lookup c.txnId = some txn → txn.state ≠ .aborted →
      txn.state ≠ .committed ∧ ∀ key ∈ txn.writeSet, key ∈ c.writeSet
    | _ => True

/-! ### What a thread carries -/

/-- The id a `begin` has taken and not registered yet. -/
def Pc.beginId : Pc → Option ℕ
  | .beginLoad _ id | .beginInsert _ id _ => some id
  | _ => none

/-- The copy a commit has validated and not marked yet. -/
def Pc.validatedCopy : Pc → Option TxnCopy
  | .commitNext c | .commitMark c _ => some c
  | _ => none

/-- The marked commit the thread will return. -/
def Pc.pending : Pc → Option (TxnCopy × ℕ)
  | .commitInsert c ts | .commitPublish c ts | .commitNotify c ts _ | .commitCount c ts
  | .commitReset c ts => some (c, ts)
  | .gcHorizon back | .gcSet back _ | .gcScan back _ | .gcRemove back _ _
  | .gcPruneCommitted back _ _ | .gcPruneTxns back _ _ | .gcRecord back _ => back
  | _ => none

/-- The marked commit is not published yet. -/
def Pc.unpublished : Pc → Prop
  | .commitInsert _ _ | .commitPublish _ _ => True
  | _ => False

structure OnceInv (s : Sys) : Prop where
  beginIds : ∀ t id, (s.pc t).beginId = some id → id < s.tm.nextTxnId ∧
    s.tm.txns.lookup id = none ∧ (∀ key, (id, key) ∉ s.hist.recorded) ∧ ∀ e ∈ s.hist.commits, e.txnId ≠ id
  beginUnique : ∀ t u id, (s.pc t).beginId = some id → (s.pc u).beginId = some id → t = u
  txnIds : ∀ id txn, s.tm.txns.lookup id = some txn → id < s.tm.nextTxnId
  recordedIds : ∀ id key, (id, key) ∈ s.hist.recorded → id < s.tm.nextTxnId
  commitIds : ∀ e ∈ s.hist.commits, e.txnId < s.tm.nextTxnId
  recordedWrites : ∀ id txn, s.tm.txns.lookup id = some txn →
    ∀ key, (id, key) ∈ s.hist.recorded → key ∈ txn.writeSet
  closed : ∀ e ∈ s.hist.commits, ∀ txn, s.tm.txns.lookup e.txnId = some txn → ¬ txn.IsOpen
  commitsNodup : (s.hist.commits.map CommitEvent.txnId).Nodup
  commitWrites : ∀ e ∈ s.hist.commits, ∀ key, (e.txnId, key) ∈ s.hist.recorded → key ∈ e.validated
  commitValidated : ∀ e ∈ s.hist.commits, (e.txnId, e.validated) ∈ s.hist.validated
  copyValidated : ∀ t c, (s.pc t).validatedCopy = some c → (c.txnId, c.writeSet) ∈ s.hist.validated
  pendingCommit : ∀ t c ts, (s.pc t).pending = some (c, ts) →
    ∃ e ∈ s.hist.commits, e.txnId = c.txnId ∧ e.ts = ts ∧ e.validated = c.writeSet
  pendingUnique : ∀ t u c ts c' ts', (s.pc t).pending = some (c, ts) →
    (s.pc u).pending = some (c', ts') → c.txnId = c'.txnId → t = u
  pendingOnce : ∀ t c ts, (s.pc t).pending = some (c, ts) → c.txnId ∉ s.hist.returned.map Prod.fst
  pendingPublished : ∀ t c ts, (s.pc t).pending = some (c, ts) → ¬ (s.pc t).unpublished →
    (c.txnId, ts, c.writeSet) ∈ s.hist.published
  returnedNodup : (s.hist.returned.map Prod.fst).Nodup
  returnedPublished : ∀ id ts, (id, ts) ∈ s.hist.returned →
    ∃ e ∈ s.hist.commits, e.txnId = id ∧ (id, ts, e.validated) ∈ s.hist.published

theorem onceInv_init (gcInterval : ℕ) (gcCallback : Bool) : OnceInv (Sys.init gcInterval gcCallback) where
  beginIds := by intro t id h; cases h
  beginUnique := by intro t u id h; cases h
  txnIds := by intro id txn h; cases h
  recordedIds := by intro id key h; cases h
  commitIds := by intro e he; cases he
  recordedWrites := by intro id txn h; cases h
  closed := by intro e he; cases he
  commitsNodup := nodup_nil
  commitWrites := by intro e he; cases he
  commitValidated := by intro e he; cases he
  copyValidated := by intro t c h; cases h
  pendingCommit := by intro t c ts h; cases h
  pendingUnique := by intro t u c ts c' ts' h; cases h
  pendingOnce := by intro t c ts h; cases h
  pendingPublished := by intro t c ts h; cases h
  returnedNodup := nodup_nil
  returnedPublished := by intro id ts h; cases h

/-- The invariant gives the property: a returned commit published what it validated, and that
includes every acknowledged write. -/
theorem OnceInv.commitsExactly {s : Sys} (hs : OnceInv s) : CommitsExactly s := by
  refine ⟨hs.returnedNodup, ?_⟩
  intro txnId ts hret key hrec
  obtain ⟨e, he, rfl, hpub⟩ := hs.returnedPublished txnId ts hret
  exact ⟨e.validated, hs.commitWrites e he key hrec, hs.commitValidated e he, hpub⟩

/-! ### The frame rule -/

variable {s s' : Sys} {t : ℕ} {p : Pc}

theorem update_cases (f : ℕ → Pc) (t : ℕ) (p : Pc) (u : ℕ) :
    (u = t ∧ Function.update f t p u = p) ∨ (u ≠ t ∧ Function.update f t p u = f u) := by
  by_cases hut : u = t
  · exact .inl ⟨hut, hut ▸ Function.update_self u p f⟩
  · exact .inr ⟨hut, Function.update_of_ne hut p f⟩

theorem goto_cases (s : Sys) (t : ℕ) (p : Pc) (u : ℕ) :
    (u = t ∧ (s.goto t p).pc u = p) ∨ (u ≠ t ∧ (s.goto t p).pc u = s.pc u) :=
  update_cases s.pc t p u

/-- What a thread carries after `t` has moved to a section that carries nothing of the kind. -/
theorem goto_carried {β : Type} (f : Pc → Option β) (hf : f p = none) {u : ℕ} {b : β}
    (h : f ((s.goto t p).pc u) = some b) :
    u ≠ t ∧ f (s.pc u) = some b ∧ (s.goto t p).pc u = s.pc u := by
  rcases goto_cases s t p u with ⟨-, hu⟩ | ⟨hut, hu⟩
  · rw [hu, hf] at h
    cases h
  · exact ⟨hut, hu ▸ h, hu⟩

/-- The step registers, acknowledges, marks and returns nothing. -/
structure SameOutcome (s s' : Sys) : Prop where
  nextTxnId : s'.tm.nextTxnId = s.tm.nextTxnId
  recorded : s'.hist.recorded = s.hist.recorded
  commits : s'.hist.commits = s.hist.commits
  returned : s'.hist.returned = s.hist.returned
  validated : s.hist.validated ⊆ s'.hist.validated
  published : s.hist.published ⊆ s'.hist.published
  txns : Shrinks s.tm.txns s'.tm.txns

theorem OnceInv.frame (hs : OnceInv s) (hpc : s'.pc = Function.update s.pc t p)
    (hsame : SameOutcome s s') (hbegin : ∀ id, p.beginId = some id → (s.pc t).beginId = some id)
    (hvalid : ∀ c, p.validatedCopy = some c → (c.txnId, c.writeSet) ∈ s'.hist.validated)
    (hpending : ∀ c ts, p.pending = some (c, ts) → (s.pc t).pending = some (c, ts))
    (hpub : ∀ c ts, p.pending = some (c, ts) → ¬ p.unpublished →
      (c.txnId, ts, c.writeSet) ∈ s'.hist.published) : OnceInv s' := by
  -- what a thread carries now, it carried before
  have hbefore (u id : ℕ) (h : (s'.pc u).beginId = some id) : (s.pc u).beginId = some id := by
    rw [hpc] at h
    rcases update_cases s.pc t p u with ⟨rfl, hu⟩ | ⟨-, hu⟩
    · exact hbegin id (hu ▸ h)
    · exact hu ▸ h
  have hcarried (u : ℕ) (c : TxnCopy) (ts : ℕ) (h : (s'.pc u).pending = some (c, ts)) :
      (s.pc u).pending = some (c, ts) := by
    rw [hpc] at h
    rcases update_cases s.pc t p u with ⟨rfl, hu⟩ | ⟨-, hu⟩
    · exact hpending c ts (hu ▸ h)
    · exact hu ▸ h
  have hnone (id : ℕ) (h : s.tm.txns.lookup id = none) : s'.tm.txns.lookup id = none := by
    cases hl : s'.tm.txns.lookup id with
    | none => rfl
    | some txn' =>
      obtain ⟨txn, hl', -⟩ := hsame.txns id txn' hl
      rw [h] at hl'
      cases hl'
  constructor
  · intro u id h
    obtain ⟨hid, hfree, hrec, hcom⟩ := hs.beginIds u id (hbefore u id h)
    rw [hsame.nextTxnId, hsame.recorded, hsame.commits]
    exact ⟨hid, hnone id hfree, hrec, hcom⟩
  · intro u v id hu hv
    exact hs.beginUnique u v id (hbefore u id hu) (hbefore v id hv)
  · intro id txn' hl
    obtain ⟨txn, hl', -⟩ := hsame.txns id txn' hl
    exact hsame.nextTxnId ▸ hs.txnIds id txn hl'
  · rw [hsame.recorded, hsame.nextTxnId]
    exact hs.recordedIds
  · rw [hsame.commits, hsame.nextTxnId]
    exact hs.commitIds
  · intro id txn' hl key hkey
    obtain ⟨txn, hl', -, hws, -⟩ := hsame.txns id txn' hl
    rw [hsame.recorded] at hkey
    exact hws (hs.recordedWrites id txn hl' key hkey)
  · intro e he txn' hl hopen
    rw [hsame.commits] at he
    obtain ⟨txn, hl', -, -, ho⟩ := hsame.txns e.txnId txn' hl
    exact hs.closed e he txn hl' (ho hopen)
  · rw [hsame.commits]
    exact hs.commitsNodup
  · rw [hsame.commits, hsame.recorded]
    exact hs.commitWrites
  · intro e he
    rw [hsame.commits] at he
    exact hsame.validated (hs.commitValidated e he)
  · intro u c h
    rw [hpc] at h
    rcases update_cases s.pc t p u with ⟨rfl, hu⟩ | ⟨-, hu⟩
    · exact hvalid c (hu ▸ h)
    · exact hsame.validated (hs.copyValidated u c (hu ▸ h))
  · intro u c ts h
    rw [hsame.commits]
    exact hs.pendingCommit u c ts (hcarried u c ts h)
  · intro u v c ts c' ts' hu hv
    exact hs.pendingUnique u v c ts c' ts' (hcarried u c ts hu) (hcarried v c' ts' hv)
  · intro u c ts h
    rw [hsame.returned]
    exact hs.pendingOnce u c ts (hcarried u c ts h)
  · intro u c ts h hnot
    rw [hpc] at h hnot
    rcases update_cases s.pc t p u with ⟨rfl, hu⟩ | ⟨-, hu⟩
    · rw [hu] at h hnot
      exact hpub c ts h hnot
    · rw [hu] at h hnot
      exact hsame.published (hs.pendingPublished u c ts h hnot)
  · rw [hsame.returned]
    exact hs.returnedNodup
  · intro id ts h
    rw [hsame.returned] at h
    rw [hsame.commits]
    obtain ⟨e, he, hid, hmem⟩ := hs.returnedPublished id ts h
    exact ⟨e, he, hid, hsame.published hmem⟩

theorem OnceInv.goto_idle (hs : OnceInv s) (t : ℕ) : OnceInv (s.goto t .idle) :=
  hs.frame (t := t) (p := .idle) rfl
    ⟨rfl, rfl, rfl, rfl, Subset.refl _, Subset.refl _, Shrinks.refl _⟩ nofun nofun nofun nofun

/-! ### The steps that register, acknowledge, mark or return -/

theorem OnceInv.beginFetch (hs : OnceInv s) (t : ℕ) (isolation : IsolationLevel) :
    OnceInv { s.goto t (.beginLoad isolation s.tm.nextTxnId) with tm := s.tm.fetchTxnId.2 } := by
  have hid (u id : ℕ) (h : ((s.goto t (.beginLoad isolation s.tm.nextTxnId)).pc u).beginId = some id) :
      (u = t ∧ id = s.tm.nextTxnId) ∨ (s.pc u).beginId = some id := by
    rcases goto_cases s t (.beginLoad isolation s.tm.nextTxnId) u with ⟨hut, hu⟩ | ⟨-, hu⟩
    · rw [hu] at h
      exact .inl ⟨hut, (Option.some.inj h).symm⟩
    · exact .inr (hu ▸ h)
  constructor
  · intro u id h
    rcases hid u id h with ⟨-, rfl⟩ | h
    · refine ⟨Nat.lt_succ_self _, ?_, ?_, ?_⟩
      · show s.tm.txns.lookup s.tm.nextTxnId = none
        cases hl : s.tm.txns.lookup s.tm.nextTxnId with
        | none => rfl
        | some txn => exact absurd (hs.txnIds _ txn hl) (lt_irrefl _)
      · intro key hkey
        exact absurd (hs.recordedIds _ key hkey) (lt_irrefl _)
      · intro e he heq
        exact absurd (heq ▸ hs.commitIds e he) (lt_irrefl _)
    · obtain ⟨hlt, hrest⟩ := hs.beginIds u id h
      exact ⟨hlt.trans (Nat.lt_succ_self _), hrest⟩
  · intro u v id hu hv
    rcases hid u id hu with ⟨hut, rfl⟩ | hu
    · rcases hid v _ hv with ⟨hvt, -⟩ | hv
      · rw [hut, hvt]
      · exact absurd (hs.beginIds v _ hv).1 (lt_irrefl _)
    · rcases hid v id hv with ⟨-, rfl⟩ | hv
      · exact absurd (hs.beginIds u _ hu).1 (lt_irrefl _)
      · exact hs.beginUnique u v id hu hv
  · intro id txn hl
    exact (hs.txnIds id txn hl).trans (Nat.lt_succ_self _)
  · intro id key hkey
    exact (hs.recordedIds id key hkey).trans (Nat.lt_succ_self _)
  · intro e he
    exact (hs.commitIds e he).trans (Nat.lt_succ_self _)
  · exact hs.recordedWrites
  · exact hs.closed
  · exact hs.commitsNodup
  · exact hs.commitWrites
  · exact hs.commitValidated
  · intro u c h
    exact hs.copyValidated u c (goto_carried Pc.validatedCopy rfl h).2.1
  · intro u c ts h
    exact hs.pendingCommit u c ts (goto_carried Pc.pending rfl h).2.1
  · intro u v c ts c' ts' hu hv
    exact hs.pendingUnique u v c ts c' ts' (goto_carried Pc.pending rfl hu).2.1
      (goto_carried Pc.pending rfl hv).2.1
  · intro u c ts h
    exact hs.pendingOnce u c ts (goto_carried Pc.pending rfl h).2.1
  · intro u c ts h hnot
    obtain ⟨-, h', hu⟩ := goto_carried Pc.pending rfl h
    exact hs.pendingPublished u c ts h' (hu ▸ hnot)
  · exact hs.returnedNodup
  · exact hs.returnedPublished

variable {txnId ts : ℕ} {txn : Transaction} {c : TxnCopy} {tm : ConcurrentTransactionManager}

/-- Registering a fresh id: nothing was recorded or committed under it. -/
theorem OnceInv.beginInsert (hs : OnceInv s) {isolation : IsolationLevel} {readTs : ℕ}
    (hpc : s.pc t = .beginInsert isolation txnId readTs) :
    OnceInv { s.goto t .idle with
      tm := s.tm.insertTxn (Transaction.new txnId readTs isolation) } := by
  have hmine : (s.pc t).beginId = some txnId := by
    rw [hpc]
    rfl
  obtain ⟨hid, -, hrec, hcom⟩ := hs.beginIds t txnId hmine
  have hidle := hs.goto_idle t
  have hlookup (id : ℕ) (txn : Transaction)
      (hl : (s.tm.insertTxn (Transaction.new txnId readTs isolation)).txns.lookup id = some txn) :
      (id = txnId ∧ txn = Transaction.new txnId readTs isolation) ∨ s.tm.txns.lookup id = some txn := by
    simp only [insertTxn, lookup_insert_if] at hl
    split_ifs at hl with hid
    · exact .inl ⟨hid, (Option.some.inj hl).symm⟩
    · exact .inr hl
  constructor
  · intro u id h
    obtain ⟨hut, h', -⟩ := goto_carried Pc.beginId rfl h
    obtain ⟨hlt, hfree, hrest⟩ := hs.beginIds u id h'
    refine ⟨hlt, ?_, hrest⟩
    have hne : id ≠ txnId := by
      rintro rfl
      exact hut (hs.beginUnique u t id h' hmine)
    simpa only [insertTxn, lookup_insert_if, Transaction.new, if_neg hne] using hfree
  · exact hidle.beginUnique
  · intro id txn hl
    rcases hlookup id txn hl with ⟨rfl, -⟩ | hl
    · exact hid
    · exact hs.txnIds id txn hl
  · exact hs.recordedIds
  · exact hs.commitIds
  · intro id txn hl key hkey
    rcases hlookup id txn hl with ⟨rfl, -⟩ | hl
    · exact absurd hkey (hrec key)
    · exact hs.recordedWrites id txn hl key hkey
  · intro e he txn hl
    rcases hlookup e.txnId txn hl with ⟨heq, -⟩ | hl
    · exact absurd heq (hcom e he)
    · exact hs.closed e he txn hl
  · exact hs.commitsNodup
  · exact hs.commitWrites
  · exact hs.commitValidated
  · exact hidle.copyValidated
  · exact hidle.pendingCommit
  · exact hidle.pendingUnique
  · exact hidle.pendingOnce
  · exact hidle.pendingPublished
  · exact hs.returnedNodup
  · exact hs.returnedPublished

/-- An acknowledged write goes to an active transaction, which has no commit. -/
theorem OnceInv.recordWrite (hs : OnceInv s) {key : Key} (hl : s.tm.txns.lookup txnId = some txn)
    (hactive : txn.state = .active) (t : ℕ) :
    OnceInv { s.goto t .idle with
      tm := { s.tm with txns := s.tm.txns.update txnId (Transaction.pushWrite key) }
      hist := { s.hist with recorded := s.hist.recorded ++ [(txnId, key)] } } := by
  have hidle := hs.goto_idle t
  have hcom : ∀ e ∈ s.hist.commits, e.txnId ≠ txnId := by
    rintro e he rfl
    exact hs.closed e he txn hl (.inl hactive)
  have hmem (id : ℕ) (k : Key) (h : (id, k) ∈ s.hist.recorded ++ [(txnId, key)]) :
      (id, k) ∈ s.hist.recorded ∨ (id = txnId ∧ k = key) := by
    rcases mem_append.mp h with h | h
    · exact .inl h
    · exact .inr (Prod.mk.inj (mem_singleton.mp h))
  have hlookup (id : ℕ) (x : Transaction)
      (h : (s.tm.txns.update txnId (Transaction.pushWrite key)).lookup id = some x) :
      ∃ x₀, s.tm.txns.lookup id = some x₀ ∧ x = if id = txnId then x₀.pushWrite key else x₀ := by
    rw [lookup_update] at h
    split_ifs at h with hid
    · obtain ⟨x₀, hx₀, rfl⟩ := map_eq_some_iff.mp h
      exact ⟨x₀, hx₀, by rw [if_pos hid]⟩
    · exact ⟨x, h, by rw [if_neg hid]⟩
  constructor
  · intro u id h
    obtain ⟨hlt, hfree, hrec, hrest⟩ := hs.beginIds u id (goto_carried Pc.beginId rfl h).2.1
    have hne : id ≠ txnId := by
      rintro rfl
      rw [hl] at hfree
      cases hfree
    refine ⟨hlt, ?_, ?_, hrest⟩
    · simpa only [lookup_update, if_neg hne] using hfree
    · intro k hk
      rcases hmem id k hk with hk | ⟨hid, -⟩
      · exact hrec k hk
      · exact hne hid
  · exact hidle.beginUnique
  · intro id x h
    obtain ⟨x₀, hx₀, -⟩ := hlookup id x h
    exact hs.txnIds id x₀ hx₀
  · intro id k hk
    rcases hmem id k hk with hk | ⟨rfl, -⟩
    · exact hs.recordedIds id k hk
    · exact hs.txnIds id txn hl
  · exact hs.commitIds
  · intro id x h k hk
    obtain ⟨x₀, hx₀, rfl⟩ := hlookup id x h
    rcases hmem id k hk with hk | ⟨rfl, rfl⟩
    · have hold := hs.recordedWrites id x₀ hx₀ k hk
      split_ifs with hid
      · exact mem_append_left _ hold
      · exact hold
    · rw [if_pos rfl]
      exact mem_append_right _ (mem_singleton_self _)
  · intro e he x h
    obtain ⟨x₀, hx₀, rfl⟩ := hlookup e.txnId x h
    rw [if_neg (hcom e he)]
    exact hs.closed e he x₀ hx₀
  · exact hs.commitsNodup
  · intro e he k hk
    rcases hmem e.txnId k hk with hk | ⟨hid, -⟩
    · exact hs.commitWrites e he k hk
    · exact absurd hid (hcom e he)
  · exact hs.commitValidated
  · exact hidle.copyValidated
  · exact hidle.pendingCommit
  · exact hidle.pendingUnique
  · exact hidle.pendingOnce
  · exact hidle.pendingPublished
  · exact hs.returnedNodup
  · exact hs.returnedPublished

/-- Marking an open transaction: it has no commit yet, and the copy is its write set. -/
theorem OnceInv.mark (hs : OnceInv s) (hpc : s.pc t = .commitMark c ts)
    (hl : s.tm.txns.lookup c.txnId = some txn) (hopen : txn.IsOpen)
    (hcopy : ∀ key ∈ txn.writeSet, key ∈ c.writeSet) {e : CommitEvent} (hid : e.txnId = c.txnId)
    (hts : e.ts = ts) (hval : e.validated = c.writeSet) :
    OnceInv { s.goto t (.commitInsert c ts) with
      tm := { s.tm with txns := s.tm.txns.update c.txnId (Transaction.markCommitted ts) }
      hist := { s.hist with commits := s.hist.commits ++ [e] } } := by
  have hcom : ∀ e' ∈ s.hist.commits, e'.txnId ≠ c.txnId := by
    intro e' he' heq
    exact hs.closed e' he' txn (heq ▸ hl) hopen
  have hmem (e' : CommitEvent) (h : e' ∈ s.hist.commits ++ [e]) : e' ∈ s.hist.commits ∨ e' = e := by
    rcases mem_append.mp h with h | h
    · exact .inl h
    · exact .inr (mem_singleton.mp h)
  have hlookup (id : ℕ) (x : Transaction)
      (h : (s.tm.txns.update c.txnId (Transaction.markCommitted ts)).lookup id = some x) :
      ∃ x₀, s.tm.txns.lookup id = some x₀ ∧ x.writeSet = x₀.writeSet ∧
        (x.IsOpen → id ≠ c.txnId ∧ x₀.IsOpen) := by
    rw [lookup_update] at h
    split_ifs at h with hid
    · obtain ⟨x₀, hx₀, rfl⟩ := map_eq_some_iff.mp h
      refine ⟨x₀, hx₀, rfl, ?_⟩
      rintro (ho | ho) <;> cases ho
    · exact ⟨x, h, rfl, fun ho => ⟨hid, ho⟩⟩
  -- what a thread has pending: this commit for `t`, the old one for the others
  have hpend (u : ℕ) (c' : TxnCopy) (ts' : ℕ)
      (h : ((s.goto t (.commitInsert c ts)).pc u).pending = some (c', ts')) :
      (u = t ∧ c' = c ∧ ts' = ts) ∨ (s.pc u).pending = some (c', ts') := by
    rcases goto_cases s t (.commitInsert c ts) u with ⟨hut, hu⟩ | ⟨-, hu⟩
    · rw [hu] at h
      cases h
      exact .inl ⟨hut, rfl, rfl⟩
    · exact .inr (hu ▸ h)
  have hfresh (u : ℕ) (c' : TxnCopy) (ts' : ℕ) (h : (s.pc u).pending = some (c', ts')) :
      c'.txnId ≠ c.txnId := by
    obtain ⟨e', he', hid', -⟩ := hs.pendingCommit u c' ts' h
    exact hid' ▸ hcom e' he'
  constructor
  · intro u id h
    obtain ⟨hlt, hfree, hrec, hrest⟩ := hs.beginIds u id (goto_carried Pc.beginId rfl h).2.1
    have hne : id ≠ c.txnId := by
      rintro rfl
      rw [hl] at hfree
      cases hfree
    refine ⟨hlt, ?_, hrec, ?_⟩
    · simpa only [lookup_update, if_neg hne] using hfree
    · intro e' he'
      rcases hmem e' he' with he' | rfl
      · exact hrest e' he'
      · omega
  · intro u v id hu hv
    exact hs.beginUnique u v id (goto_carried Pc.beginId rfl hu).2.1 (goto_carried Pc.beginId rfl hv).2.1
  · intro id x h
    obtain ⟨x₀, hx₀, -⟩ := hlookup id x h
    exact hs.txnIds id x₀ hx₀
  · exact hs.recordedIds
  · intro e' he'
    rcases hmem e' he' with he' | rfl
    · exact hs.commitIds e' he'
    · exact hid ▸ hs.txnIds c.txnId txn hl
  · intro id x h key hkey
    obtain ⟨x₀, hx₀, hws, -⟩ := hlookup id x h
    exact hws ▸ hs.recordedWrites id x₀ hx₀ key hkey
  · intro e' he' x h ho
    obtain ⟨x₀, hx₀, -, ho'⟩ := hlookup e'.txnId x h
    rcases hmem e' he' with he' | rfl
    · exact hs.closed e' he' x₀ hx₀ (ho' ho).2
    · exact (ho' ho).1 hid
  · rw [map_append, nodup_append]
    refine ⟨hs.commitsNodup, nodup_singleton _, ?_⟩
    intro id hold id' hnew heq
    obtain ⟨e', he', rfl⟩ := List.mem_map.mp hold
    rw [mem_singleton.mp hnew] at heq
    exact hcom e' he' (heq.trans hid)
  · intro e' he' key hkey
    rcases hmem e' he' with he' | rfl
    · exact hs.commitWrites e' he' key hkey
    · rw [hval]
      exact hcopy key (hs.recordedWrites c.txnId txn hl key (hid ▸ hkey))
  · intro e' he'
    rcases hmem e' he' with he' | rfl
    · exact hs.commitValidated e' he'
    · rw [hid, hval]
      exact hs.copyValidated t c (by rw [hpc]; rfl)
  · intro u c' h
    exact hs.copyValidated u c' (goto_carried Pc.validatedCopy rfl h).2.1
  · intro u c' ts' h
    rcases hpend u c' ts' h with ⟨-, rfl, rfl⟩ | h
    · exact ⟨e, mem_append_right _ (mem_singleton_self _), hid, hts, hval⟩
    · obtain ⟨e', he', hrest⟩ := hs.pendingCommit u c' ts' h
      exact ⟨e', mem_append_left _ he', hrest⟩
  · intro u v c₁ ts₁ c₂ ts₂ hu hv heq
    rcases hpend u c₁ ts₁ hu with ⟨hut, hc₁, -⟩ | hu'
    · rcases hpend v c₂ ts₂ hv with ⟨hvt, -⟩ | hv'
      · rw [hut, hvt]
      · exact absurd (heq.symm.trans (hc₁ ▸ rfl)) (hfresh v c₂ ts₂ hv')
    · rcases hpend v c₂ ts₂ hv with ⟨-, hc₂, -⟩ | hv'
      · exact absurd (heq.trans (hc₂ ▸ rfl)) (hfresh u c₁ ts₁ hu')
      · exact hs.pendingUnique u v c₁ ts₁ c₂ ts₂ hu' hv' heq
  · intro u c' ts' h
    rcases hpend u c' ts' h with ⟨-, rfl, -⟩ | h
    · intro hret
      obtain ⟨r, hmem', hr⟩ := List.mem_map.mp hret
      obtain ⟨e', he', hid', -⟩ := hs.returnedPublished r.1 r.2 hmem'
      exact hcom e' he' (hid'.trans hr)
    · exact hs.pendingOnce u c' ts' h
  · intro u c' ts' h hnot
    rcases goto_cases s t (.commitInsert c ts) u with ⟨-, hu⟩ | ⟨-, hu⟩
    · have hun : ¬ ((s.goto t (.commitInsert c ts)).pc u).unpublished := hnot
      rw [hu] at hun
      exact absurd trivial hun
    · exact hs.pendingPublished u c' ts' (hu ▸ h) (hu ▸ hnot)
  · exact hs.returnedNodup
  · intro id ts' h
    obtain ⟨e', he', hrest⟩ := hs.returnedPublished id ts' h
    exact ⟨e', mem_append_left _ he', hrest⟩

/-- Returning a published commit; no other thread has it pending. -/
theorem OnceInv.returnTs (hs : OnceInv s) (hpc : (s.pc t).pending = some (c, ts))
    (hpub : ¬ (s.pc t).unpublished) (htxns : tm.txns = s.tm.txns) (hnext : tm.nextTxnId = s.tm.nextTxnId) :
    OnceInv { s.returnTs t c ts with tm := tm } := by
  obtain ⟨e, he, hid, -, hval⟩ := hs.pendingCommit t c ts hpc
  constructor
  · intro u id h
    show id < tm.nextTxnId ∧ tm.txns.lookup id = none ∧ _
    rw [hnext, htxns]
    exact hs.beginIds u id (goto_carried Pc.beginId rfl h).2.1
  · intro u v id hu hv
    exact hs.beginUnique u v id (goto_carried Pc.beginId rfl hu).2.1 (goto_carried Pc.beginId rfl hv).2.1
  · intro id x h
    show id < tm.nextTxnId
    rw [hnext]
    exact hs.txnIds id x (htxns ▸ h)
  · intro id key hkey
    show id < tm.nextTxnId
    rw [hnext]
    exact hs.recordedIds id key hkey
  · intro e' he'
    show e'.txnId < tm.nextTxnId
    rw [hnext]
    exact hs.commitIds e' he'
  · intro id x h
    exact hs.recordedWrites id x (htxns ▸ h)
  · intro e' he' x h
    exact hs.closed e' he' x (htxns ▸ h)
  · exact hs.commitsNodup
  · exact hs.commitWrites
  · exact hs.commitValidated
  · intro u c' h
    exact hs.copyValidated u c' (goto_carried Pc.validatedCopy rfl h).2.1
  · intro u c' ts' h
    exact hs.pendingCommit u c' ts' (goto_carried Pc.pending rfl h).2.1
  · intro u v c₁ ts₁ c₂ ts₂ hu hv
    exact hs.pendingUnique u v c₁ ts₁ c₂ ts₂ (goto_carried Pc.pending rfl hu).2.1
      (goto_carried Pc.pending rfl hv).2.1
  · intro u c' ts' h hret
    obtain ⟨hut, h', -⟩ := goto_carried Pc.pending rfl h
    rw [Sys.returnTs, map_append, mem_append] at hret
    rcases hret with hret | hret
    · exact hs.pendingOnce u c' ts' h' hret
    · exact hut (hs.pendingUnique u t c' ts' c ts h' hpc (mem_singleton.mp hret))
  · intro u c' ts' h hnot
    obtain ⟨-, h', hu⟩ := goto_carried Pc.pending rfl h
    exact hs.pendingPublished u c' ts' h' (hu ▸ hnot)
  · show ((s.hist.returned ++ [(c.txnId, ts)]).map Prod.fst).Nodup
    rw [map_append, nodup_append]
    refine ⟨hs.returnedNodup, nodup_singleton _, ?_⟩
    intro id hold id' hnew heq
    have hid' : id = c.txnId := heq.trans (mem_singleton.mp hnew)
    exact hs.pendingOnce t c ts hpc (hid' ▸ hold)
  · intro id ts' h
    rcases mem_append.mp h with h | h
    · exact hs.returnedPublished id ts' h
    · obtain ⟨rfl, rfl⟩ := Prod.mk.inj (mem_singleton.mp h)
      exact ⟨e, he, hid, hval ▸ hs.pendingPublished t c ts' hpc hpub⟩

/-! ### Every step -/

theorem SameOutcome.of_tm (htm : s'.tm = tm) (hhist : s'.hist = s.hist) (hnext : tm.nextTxnId = s.tm.nextTxnId)
    (htxns : Shrinks s.tm.txns tm.txns) : SameOutcome s s' := by
  subst htm
  exact ⟨hnext, by rw [hhist], by rw [hhist], by rw [hhist], by rw [hhist]; exact List.Subset.refl _,
    by rw [hhist]; exact List.Subset.refl _, htxns⟩

/-- A step to a section that carries nothing. -/
theorem OnceInv.plain (hs : OnceInv s) (hpc : s'.pc = Function.update s.pc t p)
    (hsame : SameOutcome s s') (hbegin : p.beginId = none) (hcopy : p.validatedCopy = none)
    (hpending : p.pending = none) : OnceInv s' := by
  refine hs.frame hpc hsame ?_ ?_ ?_ ?_
  · simp [hbegin]
  · simp [hcopy]
  · simp [hpending]
  · simp [hpending]

/-- A step of a thread whose published commit stays pending. -/
theorem OnceInv.carry (hs : OnceInv s) (hpc : s'.pc = Function.update s.pc t p)
    (hsame : SameOutcome s s') (hbegin : p.beginId = none) (hcopy : p.validatedCopy = none)
    (hpending : p.pending = (s.pc t).pending) (hpub : ¬ (s.pc t).unpublished) : OnceInv s' := by
  refine hs.frame hpc hsame ?_ ?_ ?_ ?_
  · simp [hbegin]
  · simp [hcopy]
  · intro c ts h
    exact hpending ▸ h
  · intro c ts h _
    exact hsame.published (hs.pendingPublished t c ts (hpending ▸ h) hpub)

theorem OnceInv.call (hs : OnceInv s) (t : ℕ) (c : Call) : OnceInv (s.goto t (entry c)) := by
  refine hs.plain (p := entry c) rfl (.of_tm rfl rfl rfl (.refl _)) ?_ ?_ ?_ <;> cases c <;> rfl

theorem OnceInv.advanceTxn (hs : OnceInv s) (hstep : advanceTxn s t (s.pc t) = some s') : OnceInv s' := by
  cases hpc : s.pc t with
  | beginFetch isolation =>
    rw [hpc] at hstep
    cases hstep
    exact hs.beginFetch t isolation
  | beginLoad isolation txnId =>
    rw [hpc] at hstep
    cases hstep
    refine hs.frame (p := .beginInsert isolation txnId s.tm.oracle.current) rfl
      ⟨rfl, rfl, rfl, rfl, List.Subset.refl _, List.Subset.refl _, .refl _⟩ ?_ ?_ ?_ ?_
    · intro id h
      rw [hpc]
      exact h
    · intro c h
      cases h
    · intro c ts h
      cases h
    · intro c ts h
      cases h
  | beginInsert isolation txnId readTs =>
    rw [hpc] at hstep
    cases hstep
    exact hs.beginInsert hpc
  | recordWrite txnId key =>
    rw [hpc] at hstep
    rcases recordWriteIn_cases s.tm.txns txnId key with ⟨e, hr⟩ | ⟨txn, hl, hactive, hr⟩
    · simp only [Interleaving.advanceTxn, ConcurrentTransactionManager.recordWrite, hr] at hstep
      cases hstep
      exact hs.plain (p := .idle) rfl (.of_tm rfl rfl rfl (.refl _)) rfl rfl rfl
    · simp only [Interleaving.advanceTxn, ConcurrentTransactionManager.recordWrite, hr] at hstep
      cases hstep
      exact hs.recordWrite hl hactive t
  | abort txnId =>
    rw [hpc] at hstep
    cases hstep
    exact hs.plain (p := .idle) rfl (.of_tm rfl rfl rfl (.abortIn _ _)) rfl rfl rfl
  | _ =>
    rw [hpc] at hstep
    cases hstep

theorem OnceInv.advanceCommit (hs : OnceInv s) (hok : ExactStep s (.advance t))
    (hstep : advanceCommit s t (s.pc t) = some s') : OnceInv s' := by
  cases hpc : s.pc t with
  | commitRead txnId =>
    rw [hpc] at hstep
    cases hread : s.tm.readForCommit txnId with
    | error e =>
      simp only [Interleaving.advanceCommit, hread] at hstep
      cases hstep
      exact hs.plain (p := .idle) rfl (.of_tm rfl rfl rfl (.refl _)) rfl rfl rfl
    | ok copy =>
      simp only [Interleaving.advanceCommit, hread] at hstep
      cases hstep
      exact hs.plain (p := .commitValidate ⟨txnId, copy.1, copy.2⟩) rfl
        (.of_tm rfl rfl rfl (.refl _)) rfl rfl rfl
  | commitValidate c =>
    rw [hpc] at hstep
    simp only [Interleaving.advanceCommit] at hstep
    split_ifs at hstep
    · cases hstep
      exact hs.plain (p := .commitAbort c.txnId) rfl (.of_tm rfl rfl rfl (.refl _)) rfl rfl rfl
    · cases hstep
      refine hs.frame (p := .commitNext c) rfl
        ⟨rfl, rfl, rfl, rfl, subset_append_left _ _, List.Subset.refl _, .refl _⟩ ?_ ?_ ?_ ?_
      · intro id h
        cases h
      · intro c' h
        cases h
        exact mem_append_right _ (mem_singleton_self _)
      · intro c' ts h
        cases h
      · intro c' ts h
        cases h
  | commitAbort txnId =>
    rw [hpc] at hstep
    cases hstep
    exact hs.plain (p := .idle) rfl (.of_tm rfl rfl rfl (.markAborted _ _)) rfl rfl rfl
  | commitNext c =>
    rw [hpc] at hstep
    cases hstep
    refine hs.frame (p := .commitMark c (s.tm.oracle.current + 1)) rfl
      (.of_tm rfl rfl rfl (.refl _)) ?_ ?_ ?_ ?_
    · intro id h
      cases h
    · intro c' h
      cases h
      exact hs.copyValidated t c (by rw [hpc]; rfl)
    · intro c' ts h
      cases h
    · intro c' ts h
      cases h
  | commitMark c ts =>
    rw [hpc] at hstep
    simp only [ExactStep, hpc] at hok
    cases hmark : s.tm.markCommitted c.txnId ts with
    | error e =>
      simp only [Interleaving.advanceCommit, hmark] at hstep
      cases hstep
      exact hs.plain (p := .idle) rfl (.of_tm rfl rfl rfl (.refl _)) rfl rfl rfl
    | ok tm =>
      simp only [Interleaving.advanceCommit, hmark] at hstep
      cases hstep
      obtain ⟨⟨txn, hl, hna⟩, rfl⟩ := markCommitted_ok.mp hmark
      obtain ⟨hnc, hcopy⟩ := hok txn hl hna
      have hopen : txn.IsOpen := by
        unfold Transaction.IsOpen
        cases hstate : txn.state with
        | active => exact .inl rfl
        | validation => exact .inr rfl
        | committed => exact absurd hstate hnc
        | aborted => exact absurd hstate hna
      exact hs.mark hpc hl hopen hcopy rfl rfl rfl
  | commitInsert c ts =>
    rw [hpc] at hstep
    cases hstep
    refine hs.frame (p := .commitPublish c ts) rfl (.of_tm rfl rfl rfl (.refl _)) ?_ ?_ ?_ ?_
    · intro id h
      cases h
    · intro c' h
      cases h
    · intro c' ts' h
      rw [hpc]
      exact h
    · intro c' ts' _ hnot
      exact absurd trivial hnot
  | commitPublish c ts =>
    rw [hpc] at hstep
    cases hstep
    refine hs.frame (p := .commitNotify c ts (superseded ts c.writeSet s.tm.latestWrites)) rfl
      ⟨rfl, rfl, rfl, rfl, List.Subset.refl _, subset_append_left _ _, .refl _⟩ ?_ ?_ ?_ ?_
    · intro id h
      cases h
    · intro c' h
      cases h
    · intro c' ts' h
      rw [hpc]
      exact h
    · intro c' ts' h _
      cases h
      exact mem_append_right _ (mem_singleton_self _)
  | commitNotify c ts versions =>
    rw [hpc] at hstep
    cases hstep
    exact hs.carry (p := .commitCount c ts) rfl
      ⟨rfl, rfl, rfl, rfl, List.Subset.refl _, List.Subset.refl _, .refl _⟩ rfl rfl
      (by rw [hpc]; rfl) (by rw [hpc]; exact id)
  | commitCount c ts =>
    rw [hpc] at hstep
    simp only [Interleaving.advanceCommit] at hstep
    split_ifs at hstep
    · cases hstep
      exact hs.carry (p := .gcHorizon (some (c, ts))) rfl (.of_tm rfl rfl rfl (.refl _)) rfl rfl
        (by rw [hpc]; rfl) (by rw [hpc]; exact id)
    · cases hstep
      exact hs.returnTs (by rw [hpc]; rfl) (by rw [hpc]; exact id) rfl rfl
  | commitReset c ts =>
    rw [hpc] at hstep
    cases hstep
    exact hs.returnTs (by rw [hpc]; rfl) (by rw [hpc]; exact id) rfl rfl
  | _ =>
    rw [hpc] at hstep
    cases hstep

/-- A collection keeps what its commit has pending. -/
theorem OnceInv.advanceGc (hs : OnceInv s) (hstep : advanceGc s t (s.pc t) = some s') : OnceInv s' := by
  cases hpc : s.pc t with
  | gcHorizon back =>
    rw [hpc] at hstep
    cases hstep
    exact hs.carry (p := .gcSet back s.tm.minActiveTs) rfl (.of_tm rfl rfl rfl (.refl _)) rfl rfl
      (by rw [hpc]; rfl) (by rw [hpc]; exact id)
  | gcSet back horizon =>
    rw [hpc] at hstep
    cases hstep
    exact hs.carry (p := .gcScan back horizon) rfl (.of_tm rfl rfl rfl (.refl _)) rfl rfl
      (by rw [hpc]; rfl) (by rw [hpc]; exact id)
  | gcScan back horizon =>
    rw [hpc] at hstep
    simp only [Interleaving.advanceGc] at hstep
    split_ifs at hstep
    cases hkeys : keysBelow horizon s.tm.latestWrites with
    | nil =>
      rw [hkeys] at hstep
      cases hstep
      exact hs.carry (p := .gcPruneCommitted back horizon 0) rfl
        (.of_tm rfl rfl rfl (.refl _)) rfl rfl (by rw [hpc]; rfl) (by rw [hpc]; exact id)
    | cons key keys =>
      rw [hkeys] at hstep
      cases hstep
      exact hs.carry (p := .gcRemove back horizon (key :: keys)) rfl
        (.of_tm rfl rfl rfl (.refl _)) rfl rfl (by rw [hpc]; rfl) (by rw [hpc]; exact id)
  | gcRemove back horizon keys =>
    rw [hpc] at hstep
    simp only [Interleaving.advanceGc] at hstep
    split_ifs at hstep
    cases hstep
    exact hs.carry (p := .gcPruneCommitted back horizon (removeKeys keys s.tm.latestWrites).1.length) rfl
      ⟨rfl, rfl, rfl, rfl, List.Subset.refl _, List.Subset.refl _, .refl _⟩ rfl rfl
      (by rw [hpc]; rfl) (by rw [hpc]; exact id)
  | gcPruneCommitted back horizon collected =>
    rw [hpc] at hstep
    cases hstep
    exact hs.carry (p := .gcPruneTxns back horizon collected) rfl
      (.of_tm rfl rfl rfl (.refl _)) rfl rfl (by rw [hpc]; rfl) (by rw [hpc]; exact id)
  | gcPruneTxns back horizon collected =>
    rw [hpc] at hstep
    cases hstep
    exact hs.carry (p := .gcRecord back collected) rfl
      (.of_tm rfl rfl rfl (.retain _ _)) rfl rfl (by rw [hpc]; rfl) (by rw [hpc]; exact id)
  | gcRecord back collected =>
    rw [hpc] at hstep
    cases hstep
    refine hs.carry (p := afterGc back) rfl (.of_tm rfl rfl rfl (.refl _)) ?_ ?_ ?_ (by rw [hpc]; exact id)
    · cases back <;> rfl
    · cases back <;> rfl
    · rw [hpc]
      cases back <;> rfl
  | _ =>
    rw [hpc] at hstep
    cases hstep

theorem OnceInv.step (hs : OnceInv s) {a : Act} (hok : ExactStep s a)
    (hstep : Interleaving.step s a = some s') : OnceInv s' := by
  cases a with
  | call t c =>
    simp only [Interleaving.step] at hstep
    split_ifs at hstep
    cases hstep
    exact hs.call t c
  | advance t =>
    rcases step_advance hstep with h | h | h
    · exact hs.advanceTxn h
    · exact hs.advanceCommit hok h
    · exact hs.advanceGc h

/-- **Every transaction commits at most once, with all its writes, in a run of exact steps.** -/
theorem commitsExactly_of_exact {gcInterval : ℕ} {gcCallback : Bool} {acts : List Act}
    (hok : Along step ExactStep (Sys.init gcInterval gcCallback) acts) :
    Throughout step CommitsExactly (Sys.init gcInterval gcCallback) acts :=
  throughout_of_along (fun _ _ _ hs hok hstep => hs.step hok hstep)
    (fun _ hs => hs.commitsExactly) (onceInv_init gcInterval gcCallback) hok

/-- Marking an open transaction with all its writes. -/
theorem exactStep_mark (hpc : s.pc t = .commitMark c ts)
    (h : (s.tm.txns.lookup c.txnId).map (fun txn => (txn.state, txn.writeSet)) = some (.active, c.writeSet)) :
    ExactStep s (.advance t) := by
  simp only [ExactStep, hpc]
  intro txn hl _
  rw [hl, map_some, Option.some.injEq, Prod.mk.injEq] at h
  obtain ⟨hactive, hwrites⟩ := h
  refine ⟨?_, fun key hkey => hwrites ▸ hkey⟩
  rw [hactive]
  decide

/-- Two threads write and commit transaction 1; the first thread commits before the second one
asks. -/
def sharedTransaction : List Act :=
  runCall 0 (.begin .snapshot) 3 ++ runCall 0 (.recordWrite 1 [120]) 1 ++
    runCall 1 (.recordWrite 1 [121]) 1 ++ runCall 0 (.commit 1) 8 ++ runCall 1 (.commit 1) 1

theorem commitsExactly_of_exact_sharedTransaction :
    Throughout step CommitsExactly (Sys.init 100 false) sharedTransaction ∧
      (run step (Sys.init 100 false) sharedTransaction).map (fun s => s.hist.published) =
        some [(1, 2, [[120], [121]])] := by
  refine ⟨commitsExactly_of_exact ?_, by decide⟩
  iterate 12 refine along_cons_of trivial rfl ?_
  refine along_cons_of (exactStep_mark rfl (by decide)) rfl ?_
  iterate 6 refine along_cons_of trivial rfl ?_
  trivial

/-- Two threads copy the empty write set of transaction 1, a third one records a write, and both
commits go on. -/
def doubleCommit : List Act :=
  runCall 0 (.begin .snapshot) 3 ++ runCall 0 (.commit 1) 1 ++ runCall 1 (.commit 1) 1 ++
    runCall 2 (.recordWrite 1 [120]) 1 ++ List.replicate 7 (.advance 0) ++
    List.replicate 7 (.advance 1)

/-- Both commits return, and neither publishes the acknowledged write. -/
theorem doubleCommit_returns_twice : ¬ Throughout step CommitsExactly (Sys.init 100 false) doubleCommit ∧
      (run step (Sys.init 100 false) doubleCommit).map (fun s => s.hist.published) =
        some [(1, 2, []), (1, 3, [])] := by
  refine ⟨?_, by decide⟩
  intro h
  have hfinal : (run step (Sys.init 100 false) doubleCommit).map (fun s => s.hist.returned) =
      some [(1, 2), (1, 3)] := by
    decide
  obtain ⟨s, hrun, hreturned⟩ := Option.map_eq_some_iff.mp hfinal
  have hnodup := (h _ s (prefix_refl _) hrun).1
  rw [hreturned] at hnodup
  exact absurd hnodup (by decide)

end CenDB.Tx.Interleaving
