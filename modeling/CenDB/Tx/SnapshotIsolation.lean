import CenDB.Tx.Interleaving

/-! # Snapshot isolation under interleaving

`NoLostUpdate` is the guarantee for two committed transactions with a common key: the later
one began at or after the earlier one's commit timestamp, and that timestamp was in the
committed table when it did.

Four steps can break it, and `IsolatedStep` forbids exactly these:

* `begin` loads the oracle while a commit holds a timestamp that is not in the committed
  table yet;
* a commit is marked although a write was acknowledged after its write set was copied;
* a collection removes a latest write newer than a snapshot that may still commit;
* a collection prunes the timestamp of a commit that wrote something.

`noLostUpdate_of_isolated` proves the guarantee for every interleaving without such a step.
The invariant `Inv` is the optimistic-validation argument: every committed write is below
each live snapshot, or covered by a latest write at least as new, or still being published by
the thread that holds the write lock. -/

namespace CenDB.Tx.Interleaving

open Transition ConcurrentTransactionManager List Function

/-- Two different transactions that both committed a common key do not overlap. -/
def NoLostUpdate (s : Sys) : Prop :=
  ∀ e₁ ∈ s.hist.commits, ∀ e₂ ∈ s.hist.commits, e₁.txnId ≠ e₂.txnId → e₁.ts < e₂.ts →
    (∃ key ∈ e₁.written, key ∈ e₂.written) →
    ∃ snap, s.hist.begun.lookup e₂.txnId = some snap ∧ e₁.ts ≤ snap.readTs ∧ e₁.ts ∈ snap.committedTs

/-- The thread holds the write lock on `latest_writes`. -/
def Pc.owns : Pc → Prop
  | .commitNext _ | .commitMark _ _ | .commitInsert _ _ | .commitPublish _ _ => True
  | _ => False

/-- The thread has taken a timestamp that is not in the committed table yet. -/
def Pc.inWindow : Pc → Prop
  | .commitMark _ _ | .commitInsert _ _ => True
  | _ => False

/-- The read timestamp of a transaction that may still commit: its record is open, or its
`begin` has loaded the oracle, or a commit has copied its record and not validated yet. -/
inductive Live (s : Sys) : ℕ → Prop where
  | isOpen {id txn} (hl : s.tm.txns.lookup id = some txn) (ho : txn.IsOpen) : Live s txn.readTs
  | beginning {t isolation id r} (hpc : s.pc t = .beginInsert isolation id r) : Live s r
  | committing {t c} (hpc : s.pc t = .commitValidate c) : Live s c.readTs

/-- The condition on the state before a step under which it loses no update. -/
def IsolatedStep (s : Sys) : Act → Prop
  | .call _ _ => True
  | .advance t =>
    match s.pc t with
    | .beginLoad _ _ => ∀ u, ¬ (s.pc u).inWindow
    | .commitMark c _ => ∀ txn, s.tm.txns.lookup c.txnId = some txn → txn.state ≠ .aborted →
      ∀ key ∈ txn.writeSet, key ∈ c.writeSet
    | .gcRemove _ _ keys => ∀ key ∈ keys, ∀ ts, s.tm.latestWrites.lookup key = some ts →
      ∀ r, Live s r → ts ≤ r
    | .gcPruneCommitted _ horizon _ => ∀ e ∈ s.hist.commits, e.written ≠ [] →
      e.ts ∈ s.tm.committedTs → horizon ≤ e.ts
    | _ => True

/-! ### The invariant -/

/-- The copy's read timestamp is the one its transaction began with. -/
def Copied (s : Sys) (c : TxnCopy) : Prop :=
  ∃ snap, s.hist.begun.lookup c.txnId = some snap ∧ snap.readTs = c.readTs

/-- Every commit of a key of the copy is at or below the copy's snapshot. -/
def Validated (s : Sys) (c : TxnCopy) : Prop :=
  ∀ e ∈ s.hist.commits, ∀ key ∈ c.writeSet, key ∈ e.written → e.ts ≤ c.readTs

/-- What holds of a thread at each section. -/
def ThreadOk (s : Sys) : Pc → Prop
  | .beginLoad _ id => id < s.tm.nextTxnId ∧ s.hist.begun.lookup id = none
  | .beginInsert _ id r => ∃ snap, s.hist.begun.lookup id = some snap ∧ snap.readTs = r
  | .commitValidate c => Copied s c
  | .commitNext c => Copied s c ∧ Validated s c
  | .commitMark c ts => Copied s c ∧ Validated s c ∧ ts = s.tm.oracle.current ∧
    (∀ e ∈ s.hist.commits, e.ts < ts) ∧
    ∀ id snap, s.hist.begun.lookup id = some snap → snap.readTs < ts
  | .commitInsert _ ts | .commitPublish _ ts => ts = s.tm.oracle.current
  | _ => True

/-- The timestamp is in the committed table, or a thread is about to insert it. -/
def InTable (s : Sys) (ts : ℕ) : Prop := ts ∈ s.tm.committedTs ∨ ∃ t c, s.pc t = .commitInsert c ts

/-- A write at `ts` is visible to validation: in the latest-write table, or about to be put
there by the thread that holds the lock. -/
def Covered (s : Sys) (key : Key) (ts : ℕ) : Prop :=
  (∃ l, s.tm.latestWrites.lookup key = some l ∧ ts ≤ l) ∨
    ∃ t c, key ∈ c.writeSet ∧ (s.pc t = .commitInsert c ts ∨ s.pc t = .commitPublish c ts)

structure Inv (s : Sys) : Prop where
  owner : ∀ t, (s.pc t).owns ↔ s.writer = some t
  begunIds : ∀ id snap, s.hist.begun.lookup id = some snap → id < s.tm.nextTxnId
  begunTs : ∀ id snap, s.hist.begun.lookup id = some snap → snap.readTs ≤ s.tm.oracle.current
  loading : ∀ t u i j id, s.pc t = .beginLoad i id → s.pc u = .beginLoad j id → t = u
  commitsTs : ∀ e ∈ s.hist.commits, e.ts ≤ s.tm.oracle.current
  records : ∀ id txn, s.tm.txns.lookup id = some txn →
    ∃ snap, s.hist.begun.lookup id = some snap ∧ snap.readTs = txn.readTs
  threads : ∀ t, ThreadOk s (s.pc t)
  table : ∀ e ∈ s.hist.commits, e.written ≠ [] → InTable s e.ts
  seen : ∀ id snap, s.hist.begun.lookup id = some snap → ∀ e ∈ s.hist.commits,
    e.written ≠ [] → e.ts ≤ snap.readTs → e.ts ∈ snap.committedTs
  occ : ∀ e ∈ s.hist.commits, ∀ key ∈ e.written, Covered s key e.ts ∨ ∀ r, Live s r → e.ts ≤ r
  noLostUpdate : NoLostUpdate s

theorem inv_init (gcInterval : ℕ) (gcCallback : Bool) : Inv (Sys.init gcInterval gcCallback) where
  owner := by intro t; simp [Sys.init, Pc.owns]
  begunIds := by intro id snap h; cases h
  begunTs := by intro id snap h; cases h
  loading := by intro t u i j id h; cases h
  commitsTs := by intro e he; cases he
  records := by intro id txn h; cases h
  threads := by intro t; trivial
  table := by intro e he; cases he
  seen := by intro id snap h; cases h
  occ := by intro e he; cases he
  noLostUpdate := by intro e he; cases he

variable {s s' : Sys} {t : ℕ} {p : Pc}

/-! ### Frame rules -/

/-- The step leaves the counters, the snapshots and the commits alone. -/
structure SameCommits (s s' : Sys) : Prop where
  oracle : s'.tm.oracle = s.tm.oracle
  nextTxnId : s'.tm.nextTxnId = s.tm.nextTxnId
  begun : s'.hist.begun = s.hist.begun
  commits : s'.hist.commits = s.hist.commits

theorem SameCommits.threadOk (h : SameCommits s s') : ThreadOk s' p ↔ ThreadOk s p := by
  cases p <;> simp only [ThreadOk, Copied, Validated, h.oracle, h.nextTxnId, h.begun, h.commits]

variable {u txnId readTs : ℕ} {isolation : IsolationLevel}

/-- Only one thread is between validation and publication. -/
theorem Inv.owner_unique (hs : Inv s) {t : ℕ} (ht : (s.pc t).owns) (hu : (s.pc u).owns) : t = u := by
  have hw := ((hs.owner t).mp ht).symm.trans ((hs.owner u).mp hu)
  exact Option.some.inj hw

/-- The general frame rule: a step that adds no snapshot, timestamp or commit keeps the
invariant if it keeps what validation relies on. -/
theorem Inv.frame (hs : Inv s) (hpc : s'.pc = Function.update s.pc t p)
    (hsame : SameCommits s s') (howner : ∀ u, (s'.pc u).owns ↔ s'.writer = some u)
    (hthread : ThreadOk s p) (hload : ∀ i id, p ≠ .beginLoad i id)
    (hrecords : ∀ id txn, s'.tm.txns.lookup id = some txn →
      ∃ snap, s.hist.begun.lookup id = some snap ∧ snap.readTs = txn.readTs)
    (hlive : ∀ r, Live s' r → Live s r)
    (htable : ∀ e ∈ s.hist.commits, e.written ≠ [] → InTable s e.ts → InTable s' e.ts)
    (hcover : ∀ e ∈ s.hist.commits, ∀ key ∈ e.written, Covered s key e.ts →
      Covered s' key e.ts ∨ ∀ r, Live s r → e.ts ≤ r) : Inv s' where
  owner := howner
  begunIds := by
    rw [hsame.begun, hsame.nextTxnId]
    exact hs.begunIds
  begunTs := by
    rw [hsame.begun, hsame.oracle]
    exact hs.begunTs
  loading := by
    intro u v i j id hu hv
    rw [hpc] at hu hv
    by_cases hut : u = t
    · subst hut
      rw [update_self] at hu
      exact absurd hu (hload i id)
    · by_cases hvt : v = t
      · subst hvt
        rw [update_self] at hv
        exact absurd hv (hload j id)
      · rw [update_of_ne hut] at hu
        rw [update_of_ne hvt] at hv
        exact hs.loading u v i j id hu hv
  commitsTs := by
    rw [hsame.commits, hsame.oracle]
    exact hs.commitsTs
  records := by
    rw [hsame.begun]
    exact hrecords
  threads := by
    intro u
    rw [hsame.threadOk, hpc]
    by_cases hut : u = t
    · subst hut
      rwa [update_self]
    · rw [update_of_ne hut]
      exact hs.threads u
  table := by
    rw [hsame.commits]
    intro e he hne
    exact htable e he hne (hs.table e he hne)
  seen := by
    rw [hsame.begun, hsame.commits]
    exact hs.seen
  occ := by
    rw [hsame.commits]
    intro e he key hkey
    rcases hs.occ e he key hkey with hcov | hle
    · rcases hcover e he key hkey hcov with hcov' | hle
      · exact .inl hcov'
      · exact .inr fun r hr => hle r (hlive r hr)
    · exact .inr fun r hr => hle r (hlive r hr)
  noLostUpdate := by
    have hlost := hs.noLostUpdate
    unfold NoLostUpdate at hlost ⊢
    rwa [hsame.commits, hsame.begun]

/-- Sections at which a thread owes nothing to the invariant. -/
def Pc.Plain : Pc → Prop
  | .beginLoad _ _ | .beginInsert _ _ _ | .commitValidate _ | .commitNext _ | .commitMark _ _
  | .commitInsert _ _ | .commitPublish _ _ => False
  | _ => True

theorem Inv.records_of_shrinks (hs : Inv s) {txns : Table ℕ Transaction}
    (h : Shrinks s.tm.txns txns) (id : ℕ) (txn : Transaction) (hl : txns.lookup id = some txn) :
    ∃ snap, s.hist.begun.lookup id = some snap ∧ snap.readTs = txn.readTs := by
  obtain ⟨txn₀, hl₀, hread, -, -⟩ := h id txn hl
  obtain ⟨snap, hsnap, hts⟩ := hs.records id txn₀ hl₀
  exact ⟨snap, hsnap, hts.trans hread⟩

/-- No snapshot becomes live when the open records were live and the thread moves on. -/
theorem live_mono (hpc : s'.pc = Function.update s.pc t p)
    (hopen : ∀ id txn, s'.tm.txns.lookup id = some txn → txn.IsOpen → Live s txn.readTs)
    (hinsert : ∀ i id r, p ≠ .beginInsert i id r)
    (hvalidate : ∀ c, p = .commitValidate c → Live s c.readTs) (r : ℕ) (hr : Live s' r) :
    Live s r := by
  cases hr with
  | isOpen hl ho => exact hopen _ _ hl ho
  | @beginning u i id r hu =>
    rw [hpc] at hu
    by_cases hut : u = t
    · subst hut
      rw [update_self] at hu
      exact absurd hu (hinsert i id r)
    · rw [update_of_ne hut] at hu
      exact .beginning hu
  | @committing u c hu =>
    rw [hpc] at hu
    by_cases hut : u = t
    · subst hut
      rw [update_self] at hu
      exact hvalidate c hu
    · rw [update_of_ne hut] at hu
      exact .committing hu

theorem live_of_shrinks (h : Shrinks s.tm.txns s'.tm.txns) (id : ℕ) (txn : Transaction)
    (hl : s'.tm.txns.lookup id = some txn) (ho : txn.IsOpen) : Live s txn.readTs := by
  obtain ⟨txn₀, hl₀, hread, -, hopen⟩ := h id txn hl
  exact hread ▸ .isOpen hl₀ (hopen ho)

/-- Pending insertions and publications of the other threads stay pending. -/
theorem pc_of_ne (hpc : s'.pc = Function.update s.pc t p) {pc' : Pc} (hu : s.pc u = pc') (hne : s.pc t ≠ pc') :
    s'.pc u = pc' := by
  have hut : u ≠ t := by
    rintro rfl
    exact hne hu
  rw [hpc, update_of_ne hut]
  exact hu

variable {ts : ℕ} {c : TxnCopy}

theorem Covered.mono (hpc : s'.pc = Function.update s.pc t p) (hown : ¬ (s.pc t).owns) {key : Key}
    (hlatest : ∀ l, s.tm.latestWrites.lookup key = some l → s'.tm.latestWrites.lookup key = some l)
    (h : Covered s key ts) : Covered s' key ts := by
  rcases h with ⟨l, hl, hle⟩ | ⟨u, c, hkey, hu | hu⟩
  · exact .inl ⟨l, hlatest l hl, hle⟩
  · refine .inr ⟨u, c, hkey, .inl (pc_of_ne hpc hu ?_)⟩
    intro ht
    exact hown (by rw [ht]; trivial)
  · refine .inr ⟨u, c, hkey, .inr (pc_of_ne hpc hu ?_)⟩
    intro ht
    exact hown (by rw [ht]; trivial)

theorem InTable.mono (hpc : s'.pc = Function.update s.pc t p) (hown : ¬ (s.pc t).owns)
    (hin : ts ∈ s.tm.committedTs → ts ∈ s'.tm.committedTs) (h : InTable s ts) :
    InTable s' ts := by
  rcases h with h | ⟨u, c, hu⟩
  · exact .inl (hin h)
  · refine .inr ⟨u, c, pc_of_ne hpc hu ?_⟩
    intro ht
    exact hown (by rw [ht]; trivial)

theorem Inv.owner_of_not_owns (hs : Inv s) (hpc : s'.pc = Function.update s.pc t p)
    (hwriter : s'.writer = s.writer) (hown : ¬ (s.pc t).owns) (hown' : ¬ p.owns) (u : ℕ) :
    (s'.pc u).owns ↔ s'.writer = some u := by
  rw [hwriter, ← hs.owner u, hpc]
  by_cases hut : u = t
  · subst hut
    rw [update_self]
    exact iff_of_false hown' hown
  · simp [hut]

theorem Pc.Plain.not_owns (h : p.Plain) : ¬ p.owns := by
  cases p <;> simp_all [Pc.Plain, Pc.owns]

theorem Pc.Plain.threadOk (h : p.Plain) : ThreadOk s p := by
  cases p <;> trivial

/-- The frame rule for a section that only closes or drops transactions and leads to a plain
section. -/
theorem Inv.plain (hs : Inv s) (hpc : s'.pc = Function.update s.pc t p)
    (hsame : SameCommits s s') (hwriter : s'.writer = s.writer) (hown : ¬ (s.pc t).owns)
    (hplain : p.Plain) (hlatest : s'.tm.latestWrites = s.tm.latestWrites)
    (htable : ∀ e ∈ s.hist.commits, e.written ≠ [] → e.ts ∈ s.tm.committedTs → e.ts ∈ s'.tm.committedTs)
    (htxns : Shrinks s.tm.txns s'.tm.txns) : Inv s' := by
  refine hs.frame hpc hsame (hs.owner_of_not_owns hpc hwriter hown hplain.not_owns)
    hplain.threadOk ?_ (hs.records_of_shrinks htxns) (live_mono hpc (live_of_shrinks htxns) ?_ ?_) ?_ ?_
  · rintro i id rfl
    cases hplain
  · rintro i id r rfl
    cases hplain
  · rintro c rfl
    cases hplain
  · intro e he hne hin
    exact hin.mono hpc hown (htable e he hne)
  · intro e he key hkey hcov
    exact .inl (hcov.mono hpc hown fun l hl => hlatest ▸ hl)

/-! ### The steps of `begin`, `record_write` and `abort` -/

theorem Inv.call (hs : Inv s) (t : ℕ) (c : Call) (hidle : s.pc t = .idle) : Inv (s.goto t (entry c)) := by
  refine hs.plain rfl ⟨rfl, rfl, rfl, rfl⟩ rfl ?_ ?_ rfl (fun _ _ _ h => h) (Shrinks.refl _)
  · rw [hidle]
    exact id
  · cases c <;> trivial

/-- A fresh id is loaded by no other thread, and no snapshot has it. -/
theorem Inv.beginFetch (hs : Inv s) (hpc : s.pc t = .beginFetch isolation) :
    Inv { s.goto t (.beginLoad isolation s.tm.nextTxnId) with tm := s.tm.fetchTxnId.2 } := by
  have hother {u : ℕ} (hut : u ≠ t) : (s.goto t (.beginLoad isolation s.tm.nextTxnId)).pc u = s.pc u :=
    update_of_ne hut _ _
  have hself : (s.goto t (.beginLoad isolation s.tm.nextTxnId)).pc t =
      .beginLoad isolation s.tm.nextTxnId := update_self _ _ _
  have hown : ¬ (s.pc t).owns := by
    rw [hpc]
    exact id
  constructor
  · exact hs.owner_of_not_owns rfl rfl hown id
  · intro id snap hl
    exact (hs.begunIds id snap hl).trans (Nat.lt_succ_self _)
  · exact hs.begunTs
  · -- another loading thread has an id below the counter
    intro u v i j id hu hv
    have hlt {w : ℕ} {k : IsolationLevel} (hw : w ≠ t)
        (h : (s.goto t (.beginLoad isolation s.tm.nextTxnId)).pc w = .beginLoad k id) :
        id < s.tm.nextTxnId := by
      have := hs.threads w
      rw [hother hw] at h
      rw [h] at this
      exact this.1
    by_cases hut : u = t
    · by_cases hvt : v = t
      · rw [hut, hvt]
      · have hid := hlt hvt hv
        subst hut
        obtain ⟨-, rfl⟩ := Pc.beginLoad.inj (hself.symm.trans hu)
        exact absurd hid (lt_irrefl _)
    · by_cases hvt : v = t
      · have hid := hlt hut hu
        subst hvt
        obtain ⟨-, rfl⟩ := Pc.beginLoad.inj (hself.symm.trans hv)
        exact absurd hid (lt_irrefl _)
      · exact hs.loading u v i j id ((hother hut).symm.trans hu) ((hother hvt).symm.trans hv)
  · exact hs.commitsTs
  · exact hs.records
  · intro u
    by_cases hut : u = t
    · subst hut
      show ThreadOk _ ((s.goto u (.beginLoad isolation s.tm.nextTxnId)).pc u)
      rw [hself]
      refine ⟨Nat.lt_succ_self _, ?_⟩
      show s.hist.begun.lookup s.tm.nextTxnId = none
      cases hl : s.hist.begun.lookup s.tm.nextTxnId with
      | none => rfl
      | some snap => exact absurd (hs.begunIds _ _ hl) (lt_irrefl _)
    · show ThreadOk _ ((s.goto t (.beginLoad isolation s.tm.nextTxnId)).pc u)
      rw [hother hut]
      have hthread := hs.threads u
      cases hu : s.pc u with
      | beginLoad i id =>
        rw [hu] at hthread
        exact ⟨hthread.1.trans (Nat.lt_succ_self _), hthread.2⟩
      | _ =>
        rw [hu] at hthread
        exact hthread
  · intro e he hne
    exact (hs.table e he hne).mono rfl hown fun h => h
  · exact hs.seen
  · intro e he key hkey
    rcases hs.occ e he key hkey with hcov | hle
    · exact .inl (hcov.mono rfl hown fun _ h => h)
    · refine .inr fun r hr => hle r ?_
      refine live_mono rfl ?_ (by simp) (by simp) r hr
      intro id txn hl ho
      exact .isOpen (s := s) hl ho
  · exact hs.noLostUpdate

/-- The state after `begin` has loaded the oracle. -/
def loaded (s : Sys) (t : ℕ) (isolation : IsolationLevel) (txnId : ℕ) : Sys :=
  { s.goto t (.beginInsert isolation txnId s.tm.oracle.current) with
    hist := { s.hist with
      begun := AList.insert txnId ⟨s.tm.oracle.current, s.tm.committedTs⟩ s.hist.begun } }

/-- Outside every window the new snapshot has seen all commits so far. -/
theorem Inv.beginLoad (hs : Inv s) (hpc : s.pc t = .beginLoad isolation txnId)
    (hwindow : ∀ u, ¬ (s.pc u).inWindow) :
    Inv (loaded s t isolation txnId) := by
  have hother {u : ℕ} (hut : u ≠ t) : (loaded s t isolation txnId).pc u = s.pc u :=
    update_of_ne hut _ _
  have hself : (loaded s t isolation txnId).pc t =
      .beginInsert isolation txnId s.tm.oracle.current := update_self _ _ _
  have hown : ¬ (s.pc t).owns := by
    rw [hpc]
    exact id
  obtain ⟨hid, hfresh⟩ : txnId < s.tm.nextTxnId ∧ s.hist.begun.lookup txnId = none := by
    have := hs.threads t
    rwa [hpc] at this
  -- the snapshots taken before are still there
  have hnew : (loaded s t isolation txnId).hist.begun.lookup txnId =
      some ⟨s.tm.oracle.current, s.tm.committedTs⟩ := AList.lookup_insert _
  have hold {id : ℕ} (hne : id ≠ txnId) :
      (loaded s t isolation txnId).hist.begun.lookup id = s.hist.begun.lookup id :=
    AList.lookup_insert_ne hne
  have hkeep {id : ℕ} {snap : Snapshot} (hl : s.hist.begun.lookup id = some snap) :
      (loaded s t isolation txnId).hist.begun.lookup id = some snap := by
    rw [hold, hl]
    rintro rfl
    rw [hfresh] at hl
    cases hl
  have hcases {id : ℕ} {snap : Snapshot} (hl : (loaded s t isolation txnId).hist.begun.lookup id = some snap) :
      (id = txnId ∧ snap = ⟨s.tm.oracle.current, s.tm.committedTs⟩) ∨ s.hist.begun.lookup id = some snap := by
    by_cases hne : id = txnId
    · subst hne
      exact .inl ⟨rfl, Option.some.inj (hl.symm.trans hnew)⟩
    · exact .inr ((hold hne).symm.trans hl)
  constructor
  · exact hs.owner_of_not_owns rfl rfl hown id
  · intro id snap hl
    rcases hcases hl with ⟨rfl, -⟩ | hl
    · exact hid
    · exact hs.begunIds id snap hl
  · intro id snap hl
    rcases hcases hl with ⟨-, rfl⟩ | hl
    · exact le_rfl
    · exact hs.begunTs id snap hl
  · intro u v i j id hu hv
    have hne {w : ℕ} {k : IsolationLevel}
        (h : (loaded s t isolation txnId).pc w = .beginLoad k id) : w ≠ t := by
      rintro rfl
      rw [hself] at h
      cases h
    exact hs.loading u v i j id ((hother (hne hu)).symm.trans hu) ((hother (hne hv)).symm.trans hv)
  · exact hs.commitsTs
  · intro id txn hl
    obtain ⟨snap, hsnap, hts⟩ := hs.records id txn hl
    exact ⟨snap, hkeep hsnap, hts⟩
  · intro u
    by_cases hut : u = t
    · subst hut
      rw [hself]
      exact ⟨_, hnew, rfl⟩
    · rw [hother hut]
      have hthread := hs.threads u
      have hcopied {c : TxnCopy} (hc : Copied s c) : Copied (loaded s t isolation txnId) c := by
        obtain ⟨snap, hl, hts⟩ := hc
        exact ⟨snap, hkeep hl, hts⟩
      cases hu : s.pc u with
      | beginLoad i id =>
        rw [hu] at hthread
        refine ⟨hthread.1, ?_⟩
        rw [hold]
        · exact hthread.2
        · rintro rfl
          exact hut (hs.loading u t i isolation id hu hpc)
      | beginInsert i id r =>
        rw [hu] at hthread
        obtain ⟨snap, hl, hts⟩ := hthread
        exact ⟨snap, hkeep hl, hts⟩
      | commitValidate c =>
        rw [hu] at hthread
        exact hcopied hthread
      | commitNext c =>
        rw [hu] at hthread
        exact ⟨hcopied hthread.1, hthread.2⟩
      | commitMark c ts =>
        have := hwindow u
        rw [hu] at this
        exact absurd trivial this
      | _ =>
        rw [hu] at hthread
        exact hthread
  · intro e he hne
    exact (hs.table e he hne).mono rfl hown fun h => h
  · intro id snap hl e he hne hle
    rcases hcases hl with ⟨-, rfl⟩ | hl
    · rcases hs.table e he hne with hin | ⟨u, c, hu⟩
      · exact hin
      · have := hwindow u
        rw [hu] at this
        exact absurd trivial this
    · exact hs.seen id snap hl e he hne hle
  · intro e he key hkey
    rcases hs.occ e he key hkey with hcov | hle
    · exact .inl (hcov.mono rfl hown fun _ h => h)
    · refine .inr fun r hr => ?_
      cases hr with
      | isOpen hl ho => exact hle _ (.isOpen hl ho)
      | @beginning u i id r hu =>
        by_cases hut : u = t
        · subst hut
          obtain ⟨-, -, rfl⟩ := Pc.beginInsert.inj (hself.symm.trans hu)
          exact hs.commitsTs e he
        · exact hle _ (.beginning ((hother hut).symm.trans hu))
      | @committing u c hu =>
        by_cases hut : u = t
        · subst hut
          cases hself.symm.trans hu
        · exact hle _ (.committing ((hother hut).symm.trans hu))
  · intro e₁ he₁ e₂ he₂ hne hlt hshare
    obtain ⟨snap, hl, hrest⟩ := hs.noLostUpdate e₁ he₁ e₂ he₂ hne hlt hshare
    exact ⟨snap, hkeep hl, hrest⟩

/-- The registered snapshot was live already. -/
theorem Inv.beginInsert (hs : Inv s) (hpc : s.pc t = .beginInsert isolation txnId readTs) :
    Inv { s.goto t .idle with
      tm := s.tm.insertTxn (Transaction.new txnId readTs isolation) } := by
  have hown : ¬ (s.pc t).owns := by
    rw [hpc]
    exact id
  obtain ⟨snap, hsnap, hts⟩ : ∃ snap, s.hist.begun.lookup txnId = some snap ∧ snap.readTs = readTs := by
    have := hs.threads t
    rwa [hpc] at this
  refine hs.frame (t := t) (p := .idle) rfl ⟨rfl, rfl, rfl, rfl⟩
    (hs.owner_of_not_owns rfl rfl hown id) trivial (by simp) ?_ ?_ ?_ ?_
  · intro id txn hl
    simp only [insertTxn, Table.lookup_insert_if] at hl
    split_ifs at hl with hid
    · cases hl
      exact hid ▸ ⟨snap, hsnap, hts⟩
    · exact hs.records id txn hl
  · refine live_mono (t := t) (p := .idle) rfl ?_ (by simp) (by simp)
    intro id txn hl ho
    simp only [insertTxn, Table.lookup_insert_if] at hl
    split_ifs at hl with hid
    · cases hl
      exact .beginning hpc
    · exact .isOpen hl ho
  · intro e he hne hin
    exact hin.mono (t := t) (p := .idle) rfl hown fun h => h
  · intro e he key hkey hcov
    exact .inl (hcov.mono (t := t) (p := .idle) rfl hown fun _ h => h)

theorem Inv.advanceTxn (hs : Inv s) (hok : IsolatedStep s (.advance t))
    (hstep : advanceTxn s t (s.pc t) = some s') : Inv s' := by
  cases hpc : s.pc t with
  | beginFetch isolation =>
    rw [hpc] at hstep
    cases hstep
    exact hs.beginFetch hpc
  | beginLoad isolation txnId =>
    rw [hpc] at hstep
    cases hstep
    simp only [IsolatedStep, hpc] at hok
    exact hs.beginLoad hpc hok
  | beginInsert isolation txnId readTs =>
    rw [hpc] at hstep
    cases hstep
    exact hs.beginInsert hpc
  | recordWrite txnId key =>
    rw [hpc] at hstep
    have hown : ¬ (s.pc t).owns := by
      rw [hpc]
      exact id
    rcases recordWriteIn_cases s.tm.txns txnId key with ⟨e, hr⟩ | ⟨txn, -, -, hr⟩
    · simp only [Interleaving.advanceTxn, ConcurrentTransactionManager.recordWrite, hr] at hstep
      cases hstep
      exact hs.plain (p := .idle) rfl ⟨rfl, rfl, rfl, rfl⟩ rfl hown trivial rfl
        (fun _ _ _ h => h) (Shrinks.refl _)
    · simp only [Interleaving.advanceTxn, ConcurrentTransactionManager.recordWrite, hr] at hstep
      cases hstep
      exact hs.plain (p := .idle) rfl ⟨rfl, rfl, rfl, rfl⟩ rfl hown trivial rfl
        (fun _ _ _ h => h) (Shrinks.pushWrite _ _ _)
  | abort txnId =>
    rw [hpc] at hstep
    cases hstep
    have hown : ¬ (s.pc t).owns := by
      rw [hpc]
      exact id
    exact hs.plain (p := .idle) rfl ⟨rfl, rfl, rfl, rfl⟩ rfl hown trivial rfl
      (fun _ _ _ h => h) (Shrinks.abortIn _ _)
  | _ =>
    rw [hpc] at hstep
    cases hstep

/-! ### The steps of `commit` -/

/-- While a thread holds the lock, a pending insertion or publication is its own. -/
theorem Inv.eq_of_pending (hs : Inv s) (hown : (s.pc t).owns)
    (hu : s.pc u = .commitInsert c ts ∨ s.pc u = .commitPublish c ts) : u = t := by
  refine hs.owner_unique ?_ hown
  rcases hu with hu | hu
  · rw [hu]
    trivial
  · rw [hu]
    trivial

theorem Inv.commitRead (hs : Inv s) {writeSet : List Key} (hpc : s.pc t = .commitRead txnId)
    (hread : s.tm.readForCommit txnId = .ok (readTs, writeSet)) :
    Inv (s.goto t (.commitValidate ⟨txnId, readTs, writeSet⟩)) := by
  obtain ⟨txn, hl, ho, rfl, rfl⟩ := readForCommit_ok.mp hread
  have hown : ¬ (s.pc t).owns := by
    rw [hpc]
    exact id
  refine hs.frame rfl ⟨rfl, rfl, rfl, rfl⟩ (hs.owner_of_not_owns rfl rfl hown id)
    (hs.records txnId txn hl) (by simp) hs.records ?_ ?_ ?_
  · refine live_mono rfl (live_of_shrinks (Shrinks.refl _)) (by simp) ?_
    rintro c hc
    cases hc
    exact .isOpen hl ho
  · intro e he hne hin
    exact hin.mono rfl hown fun h => h
  · intro e he key hkey hcov
    exact .inl (hcov.mono rfl hown fun _ h => h)

/-- With the lock free, validation against the latest writes is validation against every
commit so far. -/
theorem Inv.validated (hs : Inv s) (hpc : s.pc t = .commitValidate c) (hfree : s.writer = none)
    (hval : hasConflict s.tm.latestWrites c.readTs c.writeSet = false) :
    Validated s c := by
  intro e he key hkey hwritten
  rcases hs.occ e he key hwritten with (⟨l, hl, hle⟩ | ⟨u, c', -, hu⟩) | hlive
  · exact hle.trans (hasConflict_eq_false.mp hval key hkey l hl)
  · -- a pending publication would hold the lock
    have hwriter : s.writer = some u := by
      rw [← hs.owner u]
      rcases hu with hu | hu
      · rw [hu]
        trivial
      · rw [hu]
        trivial
    rw [hfree] at hwriter
    cases hwriter
  · exact hlive _ (.committing hpc)

theorem Inv.commitValidate (hs : Inv s) (hpc : s.pc t = .commitValidate c) (hfree : s.writer = none)
    (hval : hasConflict s.tm.latestWrites c.readTs c.writeSet = false) :
    Inv { s.goto t (.commitNext c) with
      writer := some t
      hist := { s.hist with validated := s.hist.validated ++ [(c.txnId, c.writeSet)] } } := by
  have hown : ¬ (s.pc t).owns := by
    rw [hpc]
    exact id
  have hcopied : Copied s c := by
    have := hs.threads t
    rwa [hpc] at this
  refine hs.frame (t := t) (p := .commitNext c) rfl ⟨rfl, rfl, rfl, rfl⟩ ?_
    ⟨hcopied, hs.validated hpc hfree hval⟩ (by simp) hs.records ?_ ?_ ?_
  · intro u
    show (Function.update s.pc t (.commitNext c) u).owns ↔ some t = some u
    by_cases hut : u = t
    · subst hut
      rw [update_self]
      exact iff_of_true trivial rfl
    · rw [update_of_ne hut, hs.owner u, hfree]
      simp [Ne.symm hut]
  · refine live_mono rfl ?_ (by simp) (by simp)
    intro id txn hl ho
    exact .isOpen (s := s) hl ho
  · intro e he hne hin
    exact hin.mono (t := t) (p := .commitNext c) rfl hown fun h => h
  · intro e he key hkey hcov
    exact .inl (hcov.mono (t := t) (p := .commitNext c) rfl hown fun _ h => h)

/-- The new timestamp is above every snapshot and every commit. -/
theorem Inv.commitNext (hs : Inv s) (hpc : s.pc t = .commitNext c) :
    Inv { s.goto t (.commitMark c (s.tm.oracle.current + 1)) with tm := s.tm.nextTs.2 } := by
  have hown : (s.pc t).owns := by
    rw [hpc]
    trivial
  obtain ⟨hcopied, hvalid⟩ : Copied s c ∧ Validated s c := by
    have := hs.threads t
    rwa [hpc] at this
  have hother {u : ℕ} (hut : u ≠ t) : (s.goto t (.commitMark c (s.tm.oracle.current + 1))).pc u = s.pc u :=
    update_of_ne hut _ _
  have hself : (s.goto t (.commitMark c (s.tm.oracle.current + 1))).pc t =
      .commitMark c (s.tm.oracle.current + 1) := update_self _ _ _
  constructor
  · intro u
    by_cases hut : u = t
    · subst hut
      show ((s.goto u (.commitMark c (s.tm.oracle.current + 1))).pc u).owns ↔ s.writer = some u
      rw [hself]
      exact iff_of_true trivial ((hs.owner u).mp hown)
    · show ((s.goto t (.commitMark c (s.tm.oracle.current + 1))).pc u).owns ↔ s.writer = some u
      rw [hother hut]
      exact hs.owner u
  · exact hs.begunIds
  · intro id snap hl
    exact (hs.begunTs id snap hl).trans (Nat.le_succ _)
  · intro u v i j id hu hv
    have hne {w : ℕ} {k : IsolationLevel}
        (h : (s.goto t (.commitMark c (s.tm.oracle.current + 1))).pc w = .beginLoad k id) :
        w ≠ t := by
      rintro rfl
      rw [hself] at h
      cases h
    exact hs.loading u v i j id ((hother (hne hu)).symm.trans hu) ((hother (hne hv)).symm.trans hv)
  · intro e he
    exact (hs.commitsTs e he).trans (Nat.le_succ _)
  · exact hs.records
  · intro u
    by_cases hut : u = t
    · subst hut
      show ThreadOk _ ((s.goto u (.commitMark c (s.tm.oracle.current + 1))).pc u)
      rw [hself]
      refine ⟨hcopied, hvalid, rfl, ?_, ?_⟩
      · intro e he
        exact Nat.lt_succ_of_le (hs.commitsTs e he)
      · intro id snap hl
        exact Nat.lt_succ_of_le (hs.begunTs id snap hl)
    · show ThreadOk _ ((s.goto t (.commitMark c (s.tm.oracle.current + 1))).pc u)
      rw [hother hut]
      have hthread := hs.threads u
      -- no other thread holds a timestamp
      have hfree : ¬ (s.pc u).owns := fun hu => hut (hs.owner_unique hu hown)
      cases hu : s.pc u with
      | commitMark | commitInsert | commitPublish =>
        rw [hu] at hfree
        exact absurd trivial hfree
      | _ =>
        rw [hu] at hthread
        exact hthread
  · intro e he hne
    rcases hs.table e he hne with hin | ⟨u, c', hu⟩
    · exact .inl hin
    · have hut := hs.eq_of_pending hown (.inl hu)
      rw [hut, hpc] at hu
      cases hu
  · exact hs.seen
  · intro e he key hkey
    rcases hs.occ e he key hkey with (⟨l, hl, hle⟩ | ⟨u, c', -, hu⟩) | hle
    · exact .inl (.inl ⟨l, hl, hle⟩)
    · have hut := hs.eq_of_pending hown hu
      rw [hut, hpc] at hu
      rcases hu with hu | hu <;> cases hu
    · refine .inr fun r hr => hle r ?_
      refine live_mono rfl ?_ (by simp) (by simp) r hr
      intro id txn hl ho
      exact .isOpen (s := s) hl ho
  · exact hs.noLostUpdate

/-- The lock is free once its holder has moved on. -/
theorem Inv.unlocked (hs : Inv s) (hown : (s.pc t).owns) {p : Pc} (hp : ¬ p.owns) (u : ℕ) :
    (Function.update s.pc t p u).owns ↔ none = some u := by
  by_cases hut : u = t
  · subst hut
    rw [update_self]
    exact iff_of_false hp (by simp)
  · rw [update_of_ne hut]
    exact iff_of_false (fun hu => hut (hs.owner_unique hu hown)) (by simp)

/-- The lock holder returns without marking: the lock is free again. -/
theorem Inv.markFails (hs : Inv s) (hpc : s.pc t = .commitMark c ts) :
    Inv { s.goto t .idle with writer := none } := by
  have hown : (s.pc t).owns := by
    rw [hpc]
    trivial
  refine hs.frame (t := t) (p := .idle) rfl ⟨rfl, rfl, rfl, rfl⟩ ?_ trivial (by simp) hs.records ?_ ?_ ?_
  · exact hs.unlocked hown id
  · refine live_mono rfl ?_ (by simp) (by simp)
    intro id txn hl ho
    exact .isOpen (s := s) hl ho
  · rintro e - - (hin | ⟨u, c', hu⟩)
    · exact .inl hin
    · have hut := hs.eq_of_pending hown (.inl hu)
      rw [hut, hpc] at hu
      cases hu
  · rintro e - key - (⟨l, hl, hle⟩ | ⟨u, c', -, hu⟩)
    · exact .inl (.inl ⟨l, hl, hle⟩)
    · have hut := hs.eq_of_pending hown hu
      rw [hut, hpc] at hu
      rcases hu with hu | hu <;> cases hu

/-- The state after a transaction has been marked committed. -/
def marked (s : Sys) (t : ℕ) (c : TxnCopy) (ts : ℕ) : Sys :=
  { s.goto t (.commitInsert c ts) with
    tm := { s.tm with txns := s.tm.txns.update c.txnId (Transaction.markCommitted ts) }
    hist := { s.hist with
      commits := s.hist.commits ++ [⟨c.txnId, c.readTs, ts, s.writeSetOf c.txnId, c.writeSet⟩] } }

/-- A marked transaction has validated every acknowledged write, so it overlaps no earlier
commit of a common key. -/
theorem Inv.mark (hs : Inv s) (hpc : s.pc t = .commitMark c ts)
    (hcopy : ∀ key ∈ s.writeSetOf c.txnId, key ∈ c.writeSet) : Inv (marked s t c ts) := by
  have hown : (s.pc t).owns := by
    rw [hpc]
    trivial
  obtain ⟨⟨snap, hsnap, hread⟩, hvalid, hts, hcommits, hsnaps⟩ : Copied s c ∧ Validated s c ∧
      ts = s.tm.oracle.current ∧ (∀ e ∈ s.hist.commits, e.ts < ts) ∧
      ∀ id snap, s.hist.begun.lookup id = some snap → snap.readTs < ts := by
    have := hs.threads t
    rwa [hpc] at this
  have hother {u : ℕ} (hut : u ≠ t) : (marked s t c ts).pc u = s.pc u := update_of_ne hut _ _
  have hself : (marked s t c ts).pc t = .commitInsert c ts := update_self _ _ _
  have hshrinks : Shrinks s.tm.txns (marked s t c ts).tm.txns := Shrinks.markCommitted _ _ _
  have hmem {e : CommitEvent} (he : e ∈ (marked s t c ts).hist.commits) :
      e ∈ s.hist.commits ∨ e = ⟨c.txnId, c.readTs, ts, s.writeSetOf c.txnId, c.writeSet⟩ := by
    rcases mem_append.mp he with he | he
    · exact .inl he
    · exact .inr (mem_singleton.mp he)
  have hlive (r : ℕ) (hr : Live (marked s t c ts) r) : Live s r :=
    live_mono rfl (live_of_shrinks hshrinks) (by simp) (by simp) r hr
  constructor
  · intro u
    by_cases hut : u = t
    · subst hut
      rw [hself]
      exact iff_of_true trivial ((hs.owner u).mp hown)
    · rw [hother hut]
      exact hs.owner u
  · exact hs.begunIds
  · exact hs.begunTs
  · intro u v i j id hu hv
    have hne {w : ℕ} {k : IsolationLevel} (h : (marked s t c ts).pc w = .beginLoad k id) : w ≠ t := by
      rintro rfl
      rw [hself] at h
      cases h
    exact hs.loading u v i j id ((hother (hne hu)).symm.trans hu) ((hother (hne hv)).symm.trans hv)
  · intro e he
    rcases hmem he with he | rfl
    · exact hs.commitsTs e he
    · exact hts.le
  · exact hs.records_of_shrinks hshrinks
  · intro u
    by_cases hut : u = t
    · subst hut
      rw [hself]
      exact hts
    · rw [hother hut]
      have hthread := hs.threads u
      have hfree : ¬ (s.pc u).owns := fun hu => hut (hs.owner_unique hu hown)
      cases hu : s.pc u with
      | commitNext | commitMark =>
        rw [hu] at hfree
        exact absurd trivial hfree
      | _ =>
        rw [hu] at hthread
        exact hthread
  · intro e he hne
    rcases hmem he with he | rfl
    · rcases hs.table e he hne with hin | ⟨u, c', hu⟩
      · exact .inl hin
      · have hut := hs.eq_of_pending hown (.inl hu)
        rw [hut, hpc] at hu
        cases hu
    · exact .inr ⟨t, c, hself⟩
  · intro id snap' hl e he hne hle
    rcases hmem he with he | rfl
    · exact hs.seen id snap' hl e he hne hle
    · exact absurd hle (Nat.not_le.mpr (hsnaps id snap' hl))
  · intro e he key hkey
    rcases hmem he with he | rfl
    · rcases hs.occ e he key hkey with (⟨l, hl, hle⟩ | ⟨u, c', -, hu⟩) | hle
      · exact .inl (.inl ⟨l, hl, hle⟩)
      · have hut := hs.eq_of_pending hown hu
        rw [hut, hpc] at hu
        rcases hu with hu | hu <;> cases hu
      · exact .inr fun r hr => hle r (hlive r hr)
    · exact .inl (.inr ⟨t, c, hcopy key hkey, .inl hself⟩)
  · rintro e₁ he₁ e₂ he₂ hne hlt ⟨key, hkey₁, hkey₂⟩
    rcases hmem he₂ with hold₂ | rfl
    · rcases hmem he₁ with hold₁ | rfl
      · exact hs.noLostUpdate e₁ hold₁ e₂ hold₂ hne hlt ⟨key, hkey₁, hkey₂⟩
      · exact absurd hlt (Nat.not_lt.mpr (hcommits e₂ hold₂).le)
    · rcases hmem he₁ with hold₁ | rfl
      · have hle : e₁.ts ≤ snap.readTs := hread ▸ hvalid e₁ hold₁ key (hcopy key hkey₂) hkey₁
        refine ⟨snap, hsnap, hle, ?_⟩
        exact hs.seen _ snap hsnap e₁ hold₁ (ne_nil_of_mem hkey₁) hle
      · omega

theorem Inv.commitInsert (hs : Inv s) (hpc : s.pc t = .commitInsert c ts) :
    Inv { s.goto t (.commitPublish c ts) with tm := s.tm.insertCommittedTs ts } := by
  have hown : (s.pc t).owns := by
    rw [hpc]
    trivial
  have hts : ts = s.tm.oracle.current := by
    have := hs.threads t
    rwa [hpc] at this
  refine hs.frame (t := t) (p := .commitPublish c ts) rfl ⟨rfl, rfl, rfl, rfl⟩ ?_ hts (by simp)
    hs.records ?_ ?_ ?_
  · intro u
    show (Function.update s.pc t (.commitPublish c ts) u).owns ↔ s.writer = some u
    by_cases hut : u = t
    · subst hut
      rw [update_self]
      exact iff_of_true trivial ((hs.owner u).mp hown)
    · rw [update_of_ne hut]
      exact hs.owner u
  · refine live_mono rfl ?_ (by simp) (by simp)
    intro id txn hl ho
    exact .isOpen (s := s) hl ho
  · rintro e - - (hin | ⟨u, c', hu⟩)
    · exact .inl (Finset.mem_insert_of_mem hin)
    · have hut := hs.eq_of_pending hown (.inl hu)
      rw [hut, hpc] at hu
      obtain ⟨-, hts'⟩ := Pc.commitInsert.inj hu
      exact .inl (hts' ▸ Finset.mem_insert_self _ _)
  · rintro e - key - (⟨l, hl, hle⟩ | ⟨u, c', hkey, hu⟩)
    · exact .inl (.inl ⟨l, hl, hle⟩)
    · have hut := hs.eq_of_pending hown hu
      rw [hut, hpc] at hu
      rcases hu with hu | hu
      · cases hu
        exact .inl (.inr ⟨t, c, hkey, .inr (update_self _ _ _)⟩)
      · cases hu

theorem Inv.commitPublish (hs : Inv s) (hpc : s.pc t = .commitPublish c ts) :
    Inv { s.goto t (.commitNotify c ts (superseded ts c.writeSet s.tm.latestWrites)) with
      tm := (s.tm.publishWrites ts c.writeSet).2
      writer := none
      hist := { s.hist with published := s.hist.published ++ [(c.txnId, ts, c.writeSet)] } } := by
  have hown : (s.pc t).owns := by
    rw [hpc]
    trivial
  have hts : ts = s.tm.oracle.current := by
    have := hs.threads t
    rwa [hpc] at this
  refine hs.frame (t := t) (p := .commitNotify c ts (superseded ts c.writeSet s.tm.latestWrites))
    rfl ⟨rfl, rfl, rfl, rfl⟩ ?_ trivial (by simp) hs.records ?_ ?_ ?_
  · exact hs.unlocked hown id
  · refine live_mono rfl ?_ (by simp) (by simp)
    intro id txn hl ho
    exact .isOpen (s := s) hl ho
  · rintro e - - (hin | ⟨u, c', hu⟩)
    · exact .inl hin
    · have hut := hs.eq_of_pending hown (.inl hu)
      rw [hut, hpc] at hu
      cases hu
  · -- the published timestamp is the newest one
    rintro e he key - hcov
    by_cases hkey : key ∈ c.writeSet
    · refine .inl (.inl ⟨ts, ?_, hts ▸ hs.commitsTs e he⟩)
      simp only [publishWrites, lookup_publish, if_pos hkey]
    · rcases hcov with ⟨l, hl, hle⟩ | ⟨u, c', hkey', hu⟩
      · refine .inl (.inl ⟨l, ?_, hle⟩)
        simp only [publishWrites, lookup_publish, if_neg hkey, hl]
      · have hut := hs.eq_of_pending hown hu
        rw [hut, hpc] at hu
        rcases hu with hu | hu
        · cases hu
        · obtain ⟨rfl, -⟩ := Pc.commitPublish.inj hu
          exact absurd hkey' hkey

theorem Inv.advanceCommit (hs : Inv s) (hok : IsolatedStep s (.advance t))
    (hstep : advanceCommit s t (s.pc t) = some s') : Inv s' := by
  have hown (h : ¬ (s.pc t).owns) {p : Pc} (hpc : s'.pc = Function.update s.pc t p)
      (hplain : p.Plain) (hsame : SameCommits s s') (hw : s'.writer = s.writer)
      (hl : s'.tm.latestWrites = s.tm.latestWrites)
      (hc : s'.tm.committedTs = s.tm.committedTs) (ht : Shrinks s.tm.txns s'.tm.txns) : Inv s' :=
    hs.plain hpc hsame hw h hplain hl (fun _ _ _ hin => hc ▸ hin) ht
  cases hpc : s.pc t with
  | commitRead txnId =>
    rw [hpc] at hstep hown
    simp only [Interleaving.advanceCommit] at hstep
    cases hread : s.tm.readForCommit txnId with
    | error e =>
      rw [hread] at hstep
      cases hstep
      exact hown id (p := .idle) rfl trivial ⟨rfl, rfl, rfl, rfl⟩ rfl rfl rfl (Shrinks.refl _)
    | ok copy =>
      rw [hread] at hstep
      cases hstep
      exact hs.commitRead hpc hread
  | commitValidate c =>
    rw [hpc] at hstep hown
    simp only [Interleaving.advanceCommit] at hstep
    split_ifs at hstep with hfree hconf
    · cases hstep
      exact hown id (p := .commitAbort c.txnId) rfl trivial ⟨rfl, rfl, rfl, rfl⟩ rfl rfl rfl (Shrinks.refl _)
    · cases hstep
      exact hs.commitValidate hpc (not_not.mp hfree) (by simpa using hconf)
  | commitAbort txnId =>
    rw [hpc] at hstep hown
    cases hstep
    exact hown id (p := .idle) rfl trivial ⟨rfl, rfl, rfl, rfl⟩ rfl rfl rfl (Shrinks.markAborted _ _)
  | commitNext c =>
    rw [hpc] at hstep
    cases hstep
    exact hs.commitNext hpc
  | commitMark c ts =>
    rw [hpc] at hstep
    simp only [IsolatedStep, hpc] at hok
    simp only [Interleaving.advanceCommit] at hstep
    cases hmark : s.tm.markCommitted c.txnId ts with
    | error e =>
      rw [hmark] at hstep
      cases hstep
      exact hs.markFails hpc
    | ok tm =>
      rw [hmark] at hstep
      obtain ⟨⟨txn, hl, hstate⟩, rfl⟩ := markCommitted_ok.mp hmark
      cases hstep
      refine hs.mark hpc ?_
      intro key hkey
      simp only [Sys.writeSetOf, hl, Option.map_some, Option.getD_some] at hkey
      exact hok txn hl hstate key hkey
  | commitInsert c ts =>
    rw [hpc] at hstep
    cases hstep
    exact hs.commitInsert hpc
  | commitPublish c ts =>
    rw [hpc] at hstep
    cases hstep
    exact hs.commitPublish hpc
  | commitNotify c ts versions =>
    rw [hpc] at hstep hown
    cases hstep
    exact hown id (p := .commitCount c ts) rfl trivial ⟨rfl, rfl, rfl, rfl⟩ rfl rfl rfl (Shrinks.refl _)
  | commitCount c ts =>
    rw [hpc] at hstep hown
    simp only [Interleaving.advanceCommit] at hstep
    split_ifs at hstep
    · cases hstep
      exact hown id (p := .gcHorizon (some (c, ts))) rfl trivial ⟨rfl, rfl, rfl, rfl⟩ rfl rfl
        rfl (Shrinks.refl _)
    · cases hstep
      exact hown id (p := .idle) rfl trivial ⟨rfl, rfl, rfl, rfl⟩ rfl rfl rfl (Shrinks.refl _)
  | commitReset c ts =>
    rw [hpc] at hstep hown
    cases hstep
    exact hown id (p := .idle) rfl trivial ⟨rfl, rfl, rfl, rfl⟩ rfl rfl rfl (Shrinks.refl _)
  | _ =>
    rw [hpc] at hstep
    cases hstep

/-! ### The steps of `run_gc` -/

/-- Removing latest writes that no live snapshot needs. -/
theorem Inv.gcRemove (hs : Inv s) {back : Option (TxnCopy × ℕ)} {horizon collected : ℕ}
    {keys : List Key} {callbacks : List (Key × ℕ)} (hpc : s.pc t = .gcRemove back horizon keys)
    (hok : ∀ key ∈ keys, ∀ ts, s.tm.latestWrites.lookup key = some ts → ∀ r, Live s r → ts ≤ r) :
    Inv { s.goto t (.gcPruneCommitted back horizon collected) with
      tm := (s.tm.removeLatest keys).2
      hist := { s.hist with callbacks := callbacks } } := by
  have hown : ¬ (s.pc t).owns := by
    rw [hpc]
    exact id
  refine hs.frame (t := t) (p := .gcPruneCommitted back horizon collected) rfl
    ⟨rfl, rfl, rfl, rfl⟩ (hs.owner_of_not_owns rfl rfl hown id) trivial (by simp) hs.records
    ?_ ?_ ?_
  · refine live_mono rfl ?_ (by simp) (by simp)
    intro id txn hl ho
    exact .isOpen (s := s) hl ho
  · intro e he hne hin
    exact hin.mono (t := t) (p := .gcPruneCommitted back horizon collected) rfl hown fun h => h
  · intro e he key hkey hcov
    by_cases hremoved : key ∈ keys
    · rcases hcov with ⟨l, hl, hle⟩ | ⟨u, c, hkeyc, hu⟩
      · exact .inr fun r hr => hle.trans (hok key hremoved l hl r hr)
      · refine .inl (.inr ⟨u, c, hkeyc, ?_⟩)
        have hut : u ≠ t := by
          rintro rfl
          rw [hpc] at hu
          rcases hu with hu | hu <;> cases hu
        show Function.update s.pc t _ u = _ ∨ Function.update s.pc t _ u = _
        rwa [update_of_ne hut]
    · refine .inl (hcov.mono (t := t) (p := .gcPruneCommitted back horizon collected) rfl hown ?_)
      intro l hl
      simp only [removeLatest, lookup_removeKeys, if_neg hremoved, hl]

theorem Inv.advanceGc (hs : Inv s) (hok : IsolatedStep s (.advance t))
    (hstep : advanceGc s t (s.pc t) = some s') : Inv s' := by
  have hown (h : ¬ (s.pc t).owns) {p : Pc} (hpc : s'.pc = Function.update s.pc t p)
      (hplain : p.Plain) (hsame : SameCommits s s') (hw : s'.writer = s.writer)
      (hl : s'.tm.latestWrites = s.tm.latestWrites)
      (hc : ∀ e ∈ s.hist.commits, e.written ≠ [] → e.ts ∈ s.tm.committedTs →
        e.ts ∈ s'.tm.committedTs) (ht : Shrinks s.tm.txns s'.tm.txns) : Inv s' :=
    hs.plain hpc hsame hw h hplain hl hc ht
  cases hpc : s.pc t with
  | gcHorizon back =>
    rw [hpc] at hstep hown
    cases hstep
    exact hown id rfl trivial ⟨rfl, rfl, rfl, rfl⟩ rfl rfl (fun _ _ _ h => h) (Shrinks.refl _)
  | gcSet back horizon =>
    rw [hpc] at hstep hown
    cases hstep
    exact hown id (p := .gcScan back horizon) rfl trivial ⟨rfl, rfl, rfl, rfl⟩ rfl rfl
      (fun _ _ _ h => h) (Shrinks.refl _)
  | gcScan back horizon =>
    rw [hpc] at hstep hown
    simp only [Interleaving.advanceGc] at hstep
    split_ifs at hstep
    cases hkeys : keysBelow horizon s.tm.latestWrites with
    | nil | cons key keys =>
      rw [hkeys] at hstep
      cases hstep
      exact hown id rfl trivial ⟨rfl, rfl, rfl, rfl⟩ rfl rfl (fun _ _ _ h => h) (Shrinks.refl _)
  | gcRemove back horizon keys =>
    rw [hpc] at hstep
    simp only [IsolatedStep, hpc] at hok
    simp only [Interleaving.advanceGc] at hstep
    split_ifs at hstep
    cases hstep
    exact hs.gcRemove hpc hok
  | gcPruneCommitted back horizon collected =>
    rw [hpc] at hstep hown
    simp only [IsolatedStep, hpc] at hok
    cases hstep
    refine hown id (p := .gcPruneTxns back horizon collected) rfl trivial ⟨rfl, rfl, rfl, rfl⟩
      rfl rfl ?_ (Shrinks.refl _)
    intro e he hne hin
    simpa [pruneCommittedTs] using ⟨hin, hok e he hne hin⟩
  | gcPruneTxns back horizon collected =>
    rw [hpc] at hstep hown
    cases hstep
    exact hown id (p := .gcRecord back collected) rfl trivial ⟨rfl, rfl, rfl, rfl⟩ rfl rfl
      (fun _ _ _ h => h) (Shrinks.retain _ _)
  | gcRecord back collected =>
    rw [hpc] at hstep hown
    cases back with
    | none =>
      cases hstep
      exact hown id (p := .idle) rfl trivial ⟨rfl, rfl, rfl, rfl⟩ rfl rfl (fun _ _ _ h => h) (Shrinks.refl _)
    | some commit =>
      cases hstep
      exact hown id (p := .commitReset commit.1 commit.2) rfl trivial ⟨rfl, rfl, rfl, rfl⟩
        rfl rfl (fun _ _ _ h => h) (Shrinks.refl _)
  | _ =>
    rw [hpc] at hstep
    cases hstep

theorem Inv.step (hs : Inv s) {a : Act} (hok : IsolatedStep s a)
    (hstep : Interleaving.step s a = some s') : Inv s' := by
  cases a with
  | call t c =>
    simp only [Interleaving.step] at hstep
    split_ifs at hstep with hidle
    cases hstep
    exact hs.call t c hidle
  | advance t =>
    rcases step_advance hstep with h | h | h
    · exact hs.advanceTxn hok h
    · exact hs.advanceCommit hok h
    · exact hs.advanceGc hok h

/-- **No update is lost in a run of isolated steps.** -/
theorem noLostUpdate_of_isolated {gcInterval : ℕ} {gcCallback : Bool} {acts : List Act}
    (hok : Along step IsolatedStep (Sys.init gcInterval gcCallback) acts) :
    Throughout step NoLostUpdate (Sys.init gcInterval gcCallback) acts :=
  throughout_of_along (fun _ _ _ hs hok hstep => hs.step hok hstep) (fun _ hs => hs.noLostUpdate)
    (inv_init gcInterval gcCallback) hok

/-- A commit that copied the whole write set may be marked. -/
theorem isolatedStep_mark (hpc : s.pc t = .commitMark c ts) (h : s.writeSetOf c.txnId = c.writeSet) :
    IsolatedStep s (.advance t) := by
  simp only [IsolatedStep, hpc]
  intro txn hl _ key hkey
  rw [← h, Sys.writeSetOf, hl]
  exact hkey

/-- Two transactions write one key, one after the other. -/
def twoInARow : List Act :=
  runCall 0 (.begin .snapshot) 3 ++ runCall 0 (.recordWrite 1 [120]) 1 ++
    runCall 0 (.commit 1) 8 ++ runCall 1 (.begin .snapshot) 3 ++
    runCall 1 (.recordWrite 2 [120]) 1 ++ runCall 1 (.commit 2) 8

theorem noLostUpdate_of_isolated_twoInARow : Throughout step NoLostUpdate (Sys.init 100 false) twoInARow ∧
      (run step (Sys.init 100 false) twoInARow).map (fun s => s.hist.returned) = some [(1, 2), (2, 3)] := by
  refine ⟨noLostUpdate_of_isolated ?_, by decide⟩
  -- the only steps that owe anything are the two loads and the two marks
  iterate 2 refine along_cons_of trivial rfl ?_
  refine along_cons_of ?_ rfl ?_
  · rintro (_ | u)
    · exact id
    · exact id
  iterate 7 refine along_cons_of trivial rfl ?_
  refine along_cons_of (isolatedStep_mark rfl (by decide)) rfl ?_
  iterate 6 refine along_cons_of trivial rfl ?_
  refine along_cons_of ?_ rfl ?_
  · rintro (_ | _ | u)
    · exact id
    · exact id
    · exact id
  iterate 7 refine along_cons_of trivial rfl ?_
  refine along_cons_of (isolatedStep_mark rfl (by decide)) rfl ?_
  iterate 4 refine along_cons_of trivial rfl ?_
  trivial

/-- Transaction 2 begins while the commit of transaction 1 holds timestamp 2 but has not put
it into the committed table. -/
def beginInWindow : List Act :=
  runCall 0 (.begin .snapshot) 3 ++ runCall 0 (.recordWrite 1 [120]) 1 ++
    runCall 0 (.commit 1) 3 ++ runCall 1 (.begin .snapshot) 3 ++
    List.replicate 5 (.advance 0) ++ runCall 1 (.recordWrite 2 [120]) 1 ++
    runCall 1 (.commit 2) 8

/-- Both transactions commit the key, although the second one could not see the first. -/
theorem beginInWindow_loses_update : ¬ Throughout step NoLostUpdate (Sys.init 100 false) beginInWindow := by
  intro h
  have hfinal : (run step (Sys.init 100 false) beginInWindow).map
      (fun s => (s.hist.commits, s.hist.begun.lookup 2)) =
      some ([⟨1, 1, 2, [[120]], [[120]]⟩, ⟨2, 2, 3, [[120]], [[120]]⟩], some ⟨2, ∅⟩) := by
    decide
  obtain ⟨s, hrun, heq⟩ := Option.map_eq_some_iff.mp hfinal
  obtain ⟨hcommits, hbegun⟩ := Prod.mk.inj heq
  obtain ⟨snap, hsnap, -, hseen⟩ := h _ s (prefix_refl _) hrun
    ⟨1, 1, 2, [[120]], [[120]]⟩ (by simp [hcommits]) ⟨2, 2, 3, [[120]], [[120]]⟩
    (by simp [hcommits]) (by decide) (by decide) ⟨[120], by simp, by simp⟩
  rw [hbegun, Option.some.injEq] at hsnap
  subst hsnap
  simp at hseen

end CenDB.Tx.Interleaving
