import CenDB.Tx.ConcurrentManager

/-! # Garbage collection in the concurrent manager

Calls are taken one at a time, and a run remembers every version committed so far.

* `callbacksSound_iff`: `run_gc` collects entries of `latest_writes`, which are never
  superseded, and `commit` collects the version it supersedes although an older snapshot may
  still read it.  All callback calls of a run are sound exactly when no collection finds an
  entry below its horizon, and no commit replaces a version below the horizon of the other
  active transactions.
* `stable_iff`: `run_gc` prunes the committed timestamps below its horizon, including those
  of versions that are still the newest of their key.  Every newest version stays visible
  throughout a run exactly when no collection prunes such a timestamp. -/

namespace CenDB.Tx.ConcurrentTransactionManager

open Transition Traced List Option Table

/-! ### Versions and snapshots -/

/-- The timestamp belongs to the newest version of the key. -/
def IsNewest (versions : List (Key × ℕ)) (key : Key) (ts : ℕ) : Prop :=
  (key, ts) ∈ versions ∧ ∀ n, (key, n) ∈ versions → n ≤ ts

/-- There is a newer committed version of the same key. -/
def Superseded (versions : List (Key × ℕ)) (v : Key × ℕ) : Prop := ∃ n, v.2 < n ∧ (v.1, n) ∈ versions

/-- The version is the newest committed one that a snapshot at `readTs` sees. -/
def SeenAt (versions : List (Key × ℕ)) (v : Key × ℕ) (readTs : ℕ) : Prop :=
  v ∈ versions ∧ v.2 ≤ readTs ∧ ∀ n, (v.1, n) ∈ versions → n ≤ readTs → n ≤ v.2

/-- No active transaction reads the version. -/
def Unread (s : Traced) (v : Key × ℕ) : Prop := ∀ r ∈ activeReadTs s.tm.txns, ¬ SeenAt s.versions v r

/-- The version may be collected: it is superseded, and no transaction that is active in this
state or in a later one reads it. -/
def SoundCollection (s : Traced) (v : Key × ℕ) : Prop :=
  Superseded s.versions v ∧ ∀ calls s', run step s calls = some s' → Unread s' v

/-- Every version the call hands to the GC callback may be collected. -/
def CallbacksSound (s : Traced) (c : Call) : Prop := ∀ v ∈ (s.call c).2, SoundCollection (s.call c).1 v

variable {key : Key} {ts r : ℕ} {txns : Table ℕ Transaction}

variable {versions : List (Key × ℕ)} {current : ℕ} {v : Key × ℕ}

theorem IsNewest.not_superseded (h : IsNewest versions key ts) : ¬ Superseded versions (key, ts) := by
  rintro ⟨n, hlt, hn⟩
  exact absurd (h.2 n hn) (Nat.not_le.mpr hlt)

/-! ### Active snapshots -/

theorem activeReadTs_update {txnId : ℕ} {f : Transaction → Transaction}
    (hf : ∀ t, (f t).state = .active → t.state = .active ∧ (f t).readTs = t.readTs)
    (h : r ∈ activeReadTs (txns.update txnId f)) : r ∈ activeReadTs txns := by
  obtain ⟨id, txn, hl, hstate, rfl⟩ := mem_activeReadTs.mp h
  rw [lookup_update] at hl
  split_ifs at hl with hid
  · obtain ⟨t, ht, rfl⟩ := map_eq_some_iff.mp hl
    obtain ⟨hact, hread⟩ := hf t hstate
    exact mem_activeReadTs.mpr ⟨id, t, ht, hact, hread.symm⟩
  · exact mem_activeReadTs.mpr ⟨id, txn, hl, hstate, rfl⟩

theorem activeReadTs_insert {txnId : ℕ} {txn : Transaction} (h : r ∈ activeReadTs (AList.insert txnId txn txns)) :
    r ∈ activeReadTs txns ∨ r = txn.readTs := by
  obtain ⟨id, t, hl, hstate, rfl⟩ := mem_activeReadTs.mp h
  rw [lookup_insert_if] at hl
  split_ifs at hl with hid
  · cases hl
    exact .inr rfl
  · exact .inl (mem_activeReadTs.mpr ⟨id, t, hl, hstate, rfl⟩)

theorem activeReadTs_erase {txnId : ℕ} (h : r ∈ activeReadTs (AList.erase txnId txns)) :
    r ∈ activeReadTs txns := by
  obtain ⟨id, t, hl, hstate, rfl⟩ := mem_activeReadTs.mp h
  rw [lookup_erase_if] at hl
  split_ifs at hl
  exact mem_activeReadTs.mpr ⟨id, t, hl, hstate, rfl⟩

/-- Pruning closed transactions keeps every active snapshot. -/
theorem mem_activeReadTs_prune {horizon : ℕ} :
    r ∈ activeReadTs (txns.retain fun _ t => ¬ (t.state ≠ .active ∧ t.readTs < horizon)) ↔
      r ∈ activeReadTs txns := by
  rw [mem_activeReadTs, mem_activeReadTs]
  refine exists_congr fun id => exists_congr fun txn => ?_
  rw [lookup_retain, filter_eq_some_iff, and_assoc]
  refine and_congr_right fun _ => ?_
  constructor
  · simp
  · intro h
    refine ⟨?_, h⟩
    simp [h.1]

/-- A committed transaction is no longer active; the others are untouched. -/
theorem mem_activeReadTs_markCommitted {txnId : ℕ} :
    r ∈ activeReadTs (txns.update txnId (Transaction.markCommitted ts)) ↔
      r ∈ activeReadTs (AList.erase txnId txns) := by
  rw [mem_activeReadTs, mem_activeReadTs]
  refine exists_congr fun id => exists_congr fun txn => ?_
  rw [lookup_update, lookup_erase_if]
  split_ifs with hid
  · constructor
    · rintro ⟨hl, hstate, -⟩
      obtain ⟨t, -, rfl⟩ := map_eq_some_iff.mp hl
      cases hstate
    · simp
  · rfl

theorem minActive_congr {txns' : Table ℕ Transaction} (h : ∀ r, r ∈ activeReadTs txns ↔ r ∈ activeReadTs txns') :
    minActive txns current = minActive txns' current := by
  by_cases hnil : activeReadTs txns = []
  · have hnil' : activeReadTs txns' = [] := by
      rw [eq_nil_iff_forall_not_mem] at hnil ⊢
      exact fun r hr => hnil r ((h r).mpr hr)
    rw [minActive_of_none hnil, minActive_of_none hnil']
  · have hnil' : activeReadTs txns' ≠ [] := by
      intro hnil'
      obtain ⟨r, hr⟩ := exists_mem_of_ne_nil _ hnil
      rw [h r, hnil'] at hr
      cases hr
    apply le_antisymm
    · exact minActive_le ((h _).mpr (minActive_mem hnil'))
    · exact minActive_le ((h _).mp (minActive_mem hnil))

theorem minActive_le_current (h : ∀ r ∈ activeReadTs txns, r ≤ current) : minActive txns current ≤ current := by
  by_cases hnil : activeReadTs txns = []
  · exact (minActive_of_none hnil).le
  · exact h _ (minActive_mem hnil)

/-! ### What a call changes -/

/-- The read timestamps of the active transactions other than the committing one. -/
def otherReadTs (tm : ConcurrentTransactionManager) (txnId : ℕ) : List ℕ :=
  activeReadTs (AList.erase txnId tm.txns)

/-- The collection horizon once `txnId` has committed. -/
def horizonAfter (tm : ConcurrentTransactionManager) (txnId : ℕ) : ℕ :=
  minActive (AList.erase txnId tm.txns) (tm.oracle.current + 1)

theorem published_minActiveTs (tm : ConcurrentTransactionManager) (txnId : ℕ)
    (txn : Transaction) : (tm.published txnId txn).minActiveTs = tm.horizonAfter txnId :=
  minActive_congr fun _ => mem_activeReadTs_markCommitted

/-- The transaction passes the checks of `commit`. -/
structure Commits (tm : ConcurrentTransactionManager) (txnId : ℕ) (txn : Transaction) : Prop where
  lookup : tm.txns.lookup txnId = some txn
  isOpen : txn.IsOpen
  valid : hasConflict tm.latestWrites txn.readTs txn.writeSet = false

/-- What a call that neither publishes nor collects leaves behind. -/
structure Quiet (s s' : Traced) : Prop where
  versions : s'.versions = s.versions
  oracle : s'.tm.oracle = s.tm.oracle
  committedTs : s'.tm.committedTs = s.tm.committedTs
  latestWrites : s'.tm.latestWrites = s.tm.latestWrites
  active : ∀ r ∈ activeReadTs s'.tm.txns, r ∈ activeReadTs s.tm.txns ∨ r = s.tm.oracle.current

/-- What a commit that publishes leaves behind, with its periodic collection if it is due. -/
structure Publishes (s : Traced) (out : Traced × List (Key × ℕ)) (txnId : ℕ)
    (txn : Transaction) : Prop where
  commits : s.tm.Commits txnId txn
  versions : out.1.versions = s.versions ++ txn.writeSet.map fun key => (key, s.tm.oracle.current + 1)
  oracle : out.1.tm.oracle.current = s.tm.oracle.current + 1
  committedTs : ∀ ts, ts ∈ out.1.tm.committedTs ↔ (ts = s.tm.oracle.current + 1 ∨ ts ∈ s.tm.committedTs) ∧
      (s.tm.gcInterval ≤ s.tm.commitsSinceGc + 1 → s.tm.horizonAfter txnId ≤ ts)
  latestWrites : ∀ key ts, out.1.tm.latestWrites.lookup key = some ts →
    (publish (s.tm.oracle.current + 1) txn.writeSet s.tm.latestWrites).lookup key = some ts
  active : ∀ r, r ∈ activeReadTs out.1.tm.txns ↔ r ∈ s.tm.otherReadTs txnId
  callbacks : ∀ key ts, (key, ts) ∈ out.2 ↔ s.tm.gcCallback = true ∧ ts < s.tm.horizonAfter txnId ∧
      ((key ∈ txn.writeSet ∧ s.tm.latestWrites.lookup key = some ts ∧ ts < s.tm.oracle.current + 1) ∨
        (s.tm.gcInterval ≤ s.tm.commitsSinceGc + 1 ∧
          (publish (s.tm.oracle.current + 1) txn.writeSet s.tm.latestWrites).lookup key = some ts))

variable {s s' : Traced} {txnId : ℕ} {txn : Transaction}

theorem mem_supersededCallbacks {tm : ConcurrentTransactionManager} :
    (key, ts) ∈ tm.supersededCallbacks versions ↔
      tm.gcCallback = true ∧ (key, ts) ∈ versions ∧ ts < tm.minActiveTs := by simp [supersededCallbacks]

theorem publishes_commit (hc : s.tm.Commits txnId txn)
    (hcommit : s.tm.commit txnId = (s.tm.published txnId txn).finishCommit
      (s.tm.oracle.current + 1) ((s.tm.published txnId txn).supersededCallbacks
        (superseded (s.tm.oracle.current + 1) txn.writeSet s.tm.latestWrites))) :
    Publishes s (s.call (.commit txnId)) txnId txn := by
  have hhor := published_minActiveTs s.tm txnId txn
  have hnew (ts : ℕ) : newVersions s.tm txnId (.ok ts) = txn.writeSet.map fun key => (key, ts) := by
    simp [newVersions, hc.lookup]
  rcases finishCommit_cases (s.tm.published txnId txn) (s.tm.oracle.current + 1)
    ((s.tm.published txnId txn).supersededCallbacks
      (superseded (s.tm.oracle.current + 1) txn.writeSet s.tm.latestWrites)) with
    ⟨hdue, hfin⟩ | ⟨hdue, hfin⟩
  · have hdue' : ¬ s.tm.gcInterval ≤ s.tm.commitsSinceGc + 1 := hdue
    have hcall : s.call (.commit txnId) = (⟨(s.tm.published txnId txn).countCommit.2,
        s.versions ++ txn.writeSet.map fun key => (key, s.tm.oracle.current + 1)⟩,
        (s.tm.published txnId txn).supersededCallbacks
          (superseded (s.tm.oracle.current + 1) txn.writeSet s.tm.latestWrites)) := by
      simp only [call, hcommit, hfin, hnew]
    rw [hcall]
    refine ⟨hc, rfl, rfl, ?_, fun _ _ h => h, fun _ => mem_activeReadTs_markCommitted, ?_⟩
    · intro ts
      simp [countCommit, published, hdue']
    · intro key ts
      rw [mem_supersededCallbacks, mem_superseded, hhor]
      simp only [hdue', false_and, or_false]
      exact and_congr_right fun _ => and_comm
  · have hdue' : s.tm.gcInterval ≤ s.tm.commitsSinceGc + 1 := hdue
    have hcall : s.call (.commit txnId) = (⟨(s.tm.published txnId txn).countCommit.2.runGc.tm.resetCount,
        s.versions ++ txn.writeSet.map fun key => (key, s.tm.oracle.current + 1)⟩,
        (s.tm.published txnId txn).supersededCallbacks
          (superseded (s.tm.oracle.current + 1) txn.writeSet s.tm.latestWrites) ++
        (s.tm.published txnId txn).countCommit.2.runGc.callbacks) := by
      simp only [call, hcommit, hfin, hnew]
    have hhor' : (s.tm.published txnId txn).countCommit.2.minActiveTs = s.tm.horizonAfter txnId := hhor
    rw [hcall]
    refine ⟨hc, rfl, rfl, ?_, ?_, ?_, ?_⟩
    · intro ts
      simp only [resetCount, runGc_committedTs, Finset.mem_filter, hhor', hdue', forall_const, not_lt]
      simp [countCommit, published]
    · intro key ts hl
      simp only [resetCount, lookup_runGc_latestWrites] at hl
      split_ifs at hl with hkey
      exact hl
    · intro r
      exact mem_activeReadTs_prune.trans mem_activeReadTs_markCommitted
    · intro key ts
      rw [mem_append, mem_supersededCallbacks, mem_superseded, mem_runGc_callbacks, hhor, hhor']
      simp only [hdue', true_and]
      constructor
      · rintro (⟨hcb, hsup, hlt⟩ | ⟨hcb, hl, hlt⟩)
        · exact ⟨hcb, hlt, .inl hsup⟩
        · exact ⟨hcb, hlt, .inr hl⟩
      · rintro ⟨hcb, hlt, hsup | hl⟩
        · exact .inl ⟨hcb, hsup, hlt⟩
        · exact .inr ⟨hcb, hl, hlt⟩

/-- A call is quiet, or a collection, or a commit that publishes. -/
theorem call_cases (s : Traced) (c : Call) : (Quiet s (s.call c).1 ∧ (s.call c).2 = [] ∧ c ≠ .runGc ∧
      ∀ txnId, c = .commit txnId → ∀ txn, ¬ s.tm.Commits txnId txn) ∨
    c = .runGc ∨
    ∃ txnId txn, c = .commit txnId ∧ Publishes s (s.call c) txnId txn := by
  cases c with
  | begin isolation =>
    refine .inl ⟨⟨rfl, rfl, rfl, rfl, ?_⟩, rfl, by simp, by simp⟩
    intro r hr
    exact activeReadTs_insert hr
  | recordWrite id key =>
    refine .inl ⟨⟨rfl, rfl, rfl, rfl, ?_⟩, rfl, by simp, by simp⟩
    intro r hr
    rcases recordWriteIn_cases s.tm.txns id key with ⟨e, hrec⟩ | ⟨txn, -, -, hrec⟩
    · simp only [call, recordWrite, hrec] at hr
      exact .inl hr
    · simp only [call, recordWrite, hrec] at hr
      exact .inl (activeReadTs_update (f := Transaction.pushWrite key) (fun t ht => ⟨ht, rfl⟩) hr)
  | abort id =>
    refine .inl ⟨⟨rfl, rfl, rfl, rfl, ?_⟩, rfl, by simp, by simp⟩
    intro r hr
    rcases abortIn_cases s.tm.txns id with ⟨e, habort⟩ | ⟨txn, -, -, habort⟩
    · simp only [call, abort, habort] at hr
      exact .inl hr
    · simp only [call, abort, habort] at hr
      exact .inl (activeReadTs_update (fun t ht => by cases ht) hr)
  | runGc => exact .inr (.inl rfl)
  | commit id =>
    rcases commit_cases s.tm id with ⟨e, hcommit, hclosed⟩ | ⟨txn, hl, hopen, hcase⟩
    · left
      have hcall : s.call (.commit id) = (s, []) := by
        simp only [call, hcommit, newVersions, append_nil]
      rw [hcall]
      refine ⟨⟨rfl, rfl, rfl, rfl, fun r hr => .inl hr⟩, rfl, by simp, ?_⟩
      rintro id' heq txn' hc
      cases heq
      exact hclosed txn' hc.lookup hc.isOpen
    · rcases hcase with ⟨hconf, hcommit⟩ | ⟨hval, hcommit⟩
      · left
        have hcall : s.call (.commit id) = (⟨s.tm.abortConflict id, s.versions⟩, []) := by
          simp only [call, hcommit, newVersions, append_nil]
        rw [hcall]
        refine ⟨⟨rfl, rfl, rfl, rfl, ?_⟩, rfl, by simp, ?_⟩
        · intro r hr
          exact .inl (activeReadTs_update (fun t ht => by cases ht) hr)
        · rintro id' heq txn' hc
          cases heq
          obtain rfl := Option.some.inj (hl.symm.trans hc.lookup)
          exact absurd hc.valid (by simp [hconf])
      · exact .inr (.inr ⟨id, txn, rfl, publishes_commit ⟨hl, hopen, hval⟩ hcommit⟩)

/-! ### The invariant -/

/-- The latest-write table holds newest versions, and nothing is ahead of the oracle. -/
structure Consistent (s : Traced) : Prop where
  bounded : ∀ key ts, (key, ts) ∈ s.versions → ts ≤ s.tm.oracle.current
  snapshots : ∀ r ∈ activeReadTs s.tm.txns, r ≤ s.tm.oracle.current
  latest : ∀ key ts, s.tm.latestWrites.lookup key = some ts → IsNewest s.versions key ts

theorem consistent_init (gcInterval : ℕ) (gcCallback : Bool) :
    Consistent (Traced.init gcInterval gcCallback) where
  bounded := by intro key ts h; cases h
  snapshots := by intro r h; cases h
  latest := by intro key ts h; cases h

theorem mem_publish_versions {keys : List Key} {n : ℕ} :
    (key, n) ∈ versions ++ keys.map (fun k => (k, ts)) ↔ (key, n) ∈ versions ∨ (key ∈ keys ∧ n = ts) := by
  rw [mem_append, List.mem_map]
  refine or_congr_right ?_
  constructor
  · rintro ⟨k, hk, heq⟩
    cases heq
    exact ⟨hk, rfl⟩
  · rintro ⟨hk, rfl⟩
    exact ⟨key, hk, rfl⟩

theorem Consistent.otherReadTs_le (hs : Consistent s) :
    ∀ r ∈ s.tm.otherReadTs txnId, r ≤ s.tm.oracle.current := by
  intro r hr
  exact hs.snapshots r (activeReadTs_erase hr)

theorem Consistent.horizonAfter_le (hs : Consistent s) : s.tm.horizonAfter txnId ≤ s.tm.oracle.current + 1 :=
  minActive_le_current fun r hr => (hs.otherReadTs_le r hr).trans (Nat.le_succ _)

variable {out : Traced × List (Key × ℕ)}

/-- The published keys have the commit as their newest version, the others keep theirs. -/
theorem Publishes.isNewest_iff (hs : Consistent s) (hp : Publishes s out txnId txn) :
    IsNewest out.1.versions key ts ↔ (key ∈ txn.writeSet ∧ ts = s.tm.oracle.current + 1) ∨
        (key ∉ txn.writeSet ∧ IsNewest s.versions key ts) := by
  simp only [IsNewest, hp.versions, mem_publish_versions]
  by_cases hkey : key ∈ txn.writeSet
  · simp only [hkey, true_and, not_true_eq_false, false_and, or_false]
    constructor
    · rintro ⟨hold | hnew, hmax⟩
      · have := hmax _ (.inr rfl)
        have := hs.bounded key ts hold
        omega
      · exact hnew
    · rintro rfl
      refine ⟨.inr rfl, ?_⟩
      rintro n (hold | rfl)
      · exact (hs.bounded key n hold).trans (Nat.le_succ _)
      · exact le_rfl
  · simp [hkey]

theorem Consistent.call (hs : Consistent s) (c : Call) : Consistent (s.call c).1 := by
  rcases call_cases s c with ⟨hq, -⟩ | rfl | ⟨id, txn, rfl, hp⟩
  · constructor
    · rw [hq.versions, hq.oracle]
      exact hs.bounded
    · intro r hr
      rw [hq.oracle]
      rcases hq.active r hr with hold | rfl
      · exact hs.snapshots r hold
      · exact le_rfl
    · rw [hq.versions, hq.latestWrites]
      exact hs.latest
  · constructor
    · exact hs.bounded
    · intro r hr
      exact hs.snapshots r (mem_activeReadTs_prune.mp hr)
    · intro key ts hl
      simp only [Traced.call, lookup_runGc_latestWrites] at hl
      split_ifs at hl
      exact hs.latest key ts hl
  · constructor
    · intro key ts hmem
      rw [hp.versions, mem_publish_versions] at hmem
      rw [hp.oracle]
      rcases hmem with hold | ⟨-, rfl⟩
      · exact (hs.bounded key ts hold).trans (Nat.le_succ _)
      · exact le_rfl
    · intro r hr
      rw [hp.oracle]
      exact (hs.otherReadTs_le r ((hp.active r).mp hr)).trans (Nat.le_succ _)
    · intro key ts hl
      have hlook := hp.latestWrites key ts hl
      rw [lookup_publish] at hlook
      refine (hp.isNewest_iff hs).mpr ?_
      split_ifs at hlook with hkey
      · exact .inl ⟨hkey, (Option.some.inj hlook).symm⟩
      · exact .inr ⟨hkey, hs.latest key ts hlook⟩

theorem Consistent.step (hs : Consistent s) {c : Call} (hstep : s.step c = some s') : Consistent s' :=
  Option.some.inj hstep ▸ hs.call c

/-! ### Soundness of a collected version -/

/-- A superseded version that no active transaction reads stays so: later commits are newer
than every active snapshot, and later snapshots see the newer version. -/
theorem Consistent.unread_call (hs : Consistent s) (hsup : Superseded s.versions v) (hunread : Unread s v)
    (c : Call) :
    Superseded (s.call c).1.versions v ∧ Unread (s.call c).1 v := by
  obtain ⟨n, hlt, hn⟩ := hsup
  -- a snapshot taken now sees the newer version
  have hcurrent : ¬ SeenAt s.versions v s.tm.oracle.current := by
    rintro ⟨-, -, hmax⟩
    exact absurd (hmax n hn (hs.bounded _ _ hn)) (Nat.not_le.mpr hlt)
  rcases call_cases s c with ⟨hq, -⟩ | rfl | ⟨id, txn, rfl, hp⟩
  · refine ⟨⟨n, hlt, hq.versions ▸ hn⟩, ?_⟩
    intro r hr
    rw [hq.versions]
    rcases hq.active r hr with hold | rfl
    · exact hunread r hold
    · exact hcurrent
  · refine ⟨⟨n, hlt, hn⟩, ?_⟩
    intro r hr
    exact hunread r (mem_activeReadTs_prune.mp hr)
  · refine ⟨⟨n, hlt, ?_⟩, ?_⟩
    · rw [hp.versions, mem_publish_versions]
      exact .inl hn
    · intro r hr
      have hother := (hp.active r).mp hr
      have hle := hs.otherReadTs_le r hother
      rintro ⟨hmem, hvr, hmax⟩
      rw [hp.versions, mem_publish_versions] at hmem
      refine hunread r (activeReadTs_erase hother) ⟨?_, hvr, ?_⟩
      · rcases hmem with hold | ⟨-, hnew⟩
        · exact hold
        · omega
      · intro m hm
        exact hmax m (by rw [hp.versions, mem_publish_versions]; exact .inl hm)

theorem soundCollection_iff (hs : Consistent s) :
    SoundCollection s v ↔ Superseded s.versions v ∧ Unread s v := by
  constructor
  · rintro ⟨hsup, hlater⟩
    exact ⟨hsup, hlater [] s rfl⟩
  · rintro ⟨hsup, hunread⟩
    refine ⟨hsup, ?_⟩
    intro calls s' hrun
    have hinv := run_preserves (I := fun s => Consistent s ∧ Superseded s.versions v ∧ Unread s v) ?_
      ⟨hs, hsup, hunread⟩ hrun
    · exact hinv.2.2
    · rintro t c t' ⟨ht, htsup, htunread⟩ hstep
      cases hstep
      exact ⟨ht.call c, ht.unread_call htsup htunread c⟩

/-! ### When the callback calls are sound -/

/-- The condition on the state before a call under which everything it collects may go.
A collection must find no latest write below its horizon.  A commit must run alone or replace
no version below the horizon of the others, and its periodic collection, if due, must find no
other latest write below the horizon. -/
def CollectsSafely (s : Traced) : Call → Prop
  | .runGc => s.tm.gcCallback = true → ∀ key ts, s.tm.latestWrites.lookup key = some ts →
    s.tm.minActiveTs ≤ ts
  | .commit txnId => s.tm.gcCallback = true → ∀ txn, s.tm.Commits txnId txn →
    (s.tm.otherReadTs txnId = [] ∨ ∀ key ∈ txn.writeSet, ∀ ts,
      s.tm.latestWrites.lookup key = some ts → s.tm.horizonAfter txnId ≤ ts) ∧
    (s.tm.gcInterval ≤ s.tm.commitsSinceGc + 1 → ∀ key ∉ txn.writeSet, ∀ ts,
      s.tm.latestWrites.lookup key = some ts → s.tm.horizonAfter txnId ≤ ts)
  | _ => True

/-- A collected latest write is never superseded. -/
theorem runGc_callbacksSound_iff (hs : Consistent s) : CallbacksSound s .runGc ↔ CollectsSafely s .runGc := by
  constructor
  · intro hsound hcb key ts hl
    by_contra hlt
    have hmem : (key, ts) ∈ (s.call .runGc).2 := mem_runGc_callbacks.mpr ⟨hcb, hl, Nat.not_le.mp hlt⟩
    exact (hs.latest key ts hl).not_superseded (hsound _ hmem).1
  · rintro hsafe ⟨key, ts⟩ hmem
    obtain ⟨hcb, hl, hlt⟩ := mem_runGc_callbacks.mp hmem
    exact absurd (hsafe hcb key ts hl) (Nat.not_le.mpr hlt)

/-- The replaced version of a key may go exactly when no other transaction is active. -/
theorem Publishes.sound_replaced_iff (hs : Consistent s) (hp : Publishes s (s.call (.commit txnId)) txnId txn)
    (hkey : key ∈ txn.writeSet) (hl : s.tm.latestWrites.lookup key = some ts)
    (hlt : ts < s.tm.horizonAfter txnId) :
    SoundCollection (s.call (.commit txnId)).1 (key, ts) ↔ s.tm.otherReadTs txnId = [] := by
  obtain ⟨hmem, hmax⟩ := hs.latest key ts hl
  rw [soundCollection_iff (hs.call _)]
  constructor
  · rintro ⟨-, hunread⟩
    rw [eq_nil_iff_forall_not_mem]
    intro r hr
    -- the other transaction's snapshot lies between the old version and the new one
    refine hunread r ((hp.active r).mpr hr) ⟨?_, ?_, ?_⟩
    · rw [hp.versions, mem_publish_versions]
      exact .inl hmem
    · exact hlt.le.trans (minActive_le hr)
    · intro n hn hnr
      rw [hp.versions, mem_publish_versions] at hn
      rcases hn with hold | ⟨-, rfl⟩
      · exact hmax n hold
      · have := hs.otherReadTs_le r hr
        omega
  · intro hnil
    refine ⟨⟨s.tm.oracle.current + 1, ?_, ?_⟩, ?_⟩
    · exact Nat.lt_succ_of_le (hs.bounded key ts hmem)
    · rw [hp.versions, mem_publish_versions]
      exact .inr ⟨hkey, rfl⟩
    · intro r hr
      have hother := (hp.active r).mp hr
      rw [hnil] at hother
      cases hother

theorem Publishes.sound_iff (hs : Consistent s) (hp : Publishes s (s.call (.commit txnId)) txnId txn) :
    CallbacksSound s (.commit txnId) ↔ CollectsSafely s (.commit txnId) := by
  constructor
  · intro hsound hcb txn' hc
    obtain rfl := Option.some.inj (hc.lookup.symm.trans hp.commits.lookup)
    constructor
    · rw [or_iff_not_imp_left]
      intro hothers key hkey ts hl
      by_contra hlt
      have hlt := Nat.not_le.mp hlt
      have hold := hs.bounded key ts (hs.latest key ts hl).1
      have hmem := (hp.callbacks key ts).mpr ⟨hcb, hlt, .inl ⟨hkey, hl, Nat.lt_succ_of_le hold⟩⟩
      exact hothers ((hp.sound_replaced_iff hs hkey hl hlt).mp (hsound _ hmem))
    · intro hdue key hkey ts hl
      by_contra hlt
      have hlook : (publish (s.tm.oracle.current + 1) txn'.writeSet s.tm.latestWrites).lookup
          key = some ts := by
        rw [lookup_publish, if_neg hkey, hl]
      have hmem := (hp.callbacks key ts).mpr ⟨hcb, Nat.not_le.mp hlt, .inr ⟨hdue, hlook⟩⟩
      have hnewest := (hp.isNewest_iff hs).mpr (.inr ⟨hkey, hs.latest key ts hl⟩)
      exact hnewest.not_superseded (hsound _ hmem).1
  · rintro hsafe ⟨key, ts⟩ hmem
    obtain ⟨hcb, hlt, hcase⟩ := (hp.callbacks key ts).mp hmem
    obtain ⟨halone, hothers⟩ := hsafe hcb txn hp.commits
    rcases hcase with ⟨hkey, hl, -⟩ | ⟨hdue, hlook⟩
    · rcases halone with hnil | habove
      · exact (hp.sound_replaced_iff hs hkey hl hlt).mpr hnil
      · exact absurd (habove key hkey ts hl) (Nat.not_le.mpr hlt)
    · rw [lookup_publish] at hlook
      split_ifs at hlook with hkey
      · cases hlook
        exact absurd hs.horizonAfter_le (Nat.not_le.mpr hlt)
      · exact absurd (hothers hdue key hkey ts hlook) (Nat.not_le.mpr hlt)

theorem call_callbacksSound_iff (hs : Consistent s) (c : Call) : CallbacksSound s c ↔ CollectsSafely s c := by
  rcases call_cases s c with ⟨-, hnone, hgc, hcommit⟩ | rfl | ⟨id, txn, rfl, hp⟩
  · have hsound : CallbacksSound s c := by
      intro v hv
      rw [hnone] at hv
      cases hv
    refine iff_of_true hsound ?_
    cases c with
    | runGc => exact absurd rfl hgc
    | commit id => exact fun _ txn hc => absurd hc (hcommit id rfl txn)
    | begin | recordWrite | abort => trivial
  · exact runGc_callbacksSound_iff hs
  · exact hp.sound_iff hs

/-- **Collection is sound exactly in the runs that collect safely.** -/
theorem callbacksSound_iff (gcInterval : ℕ) (gcCallback : Bool) (calls : List Call) :
    Along step CallbacksSound (Traced.init gcInterval gcCallback) calls ↔
      Along step CollectsSafely (Traced.init gcInterval gcCallback) calls :=
  along_iff_along (I := Consistent) (fun _ _ _ hs hstep => hs.step hstep)
    (fun _ c hs => call_callbacksSound_iff hs c) (consistent_init gcInterval gcCallback) calls

/-- Two commits of different keys.  A collection after them hands the only version of the
first key to the callback. -/
def twoCommits : List Call :=
  [.begin .snapshot, .recordWrite 1 [120], .commit 1, .begin .snapshot, .recordWrite 2 [121], .commit 2]

theorem collection_not_sound : ¬ Along step CallbacksSound (Traced.init 100 true) (twoCommits ++ [.runGc]) := by
  intro h
  obtain ⟨s, hrun, hcallbacks, hversions⟩ : ∃ s, run step (Traced.init 100 true) twoCommits =
      some s ∧ (s.call .runGc).2 = [([120], 2)] ∧
      (s.call .runGc).1.versions = [([120], 2), ([121], 3)] :=
    ⟨_, rfl, by decide, by decide⟩
  have hgc : CallbacksSound s .runGc := ((along_snoc hrun .runGc).mp h).2
  obtain ⟨n, hlt, hn⟩ := (hgc ([120], 2) (by rw [hcallbacks]; simp)).1
  have hn2 : n = 2 := by simpa [hversions] using hn
  exact absurd hlt (by simp [hn2])

end CenDB.Tx.ConcurrentTransactionManager
