import CenDB.Tx.GarbageCollection

/-! # Visibility of newest versions

A row version carries its begin timestamp forever, and the visibility test looks it up in the
committed table that `run_gc` prunes by age.  `stable_iff` says exactly when the newest
version of every key stays visible throughout a run: no collection, called or periodic, finds
below its horizon a timestamp whose version is still the newest of some key. -/

namespace CenDB.Tx.ConcurrentTransactionManager

open Transition Traced

/-- The newest version of every key counts as committed, and its live row version is visible to
every transaction with a snapshot at or after it. -/
def Stable (s : Traced) : Prop :=
  ∀ key ts, IsNewest s.versions key ts → s.tm.isCommitted ts = true ∧
    ∀ (header : VersionHeader) (readTs reader : ℕ), header.beginTs = ts →
      header.endTs = VersionHeader.LIVE → ts ≤ readTs → readTs < VersionHeader.LIVE →
      header.isVisibleTo readTs reader s.tm.isCommitted = true

/-- The condition on the state before a call under which it prunes no newest version's
timestamp. -/
def PrunesSafely (s : Traced) : Call → Prop
  | .runGc => ∀ key ts, IsNewest s.versions key ts → s.tm.minActiveTs ≤ ts
  | .commit txnId => ∀ txn, s.tm.Commits txnId txn →
    s.tm.gcInterval ≤ s.tm.commitsSinceGc + 1 →
    ∀ key ∉ txn.writeSet, ∀ ts, IsNewest s.versions key ts → s.tm.horizonAfter txnId ≤ ts
  | _ => True

variable {s s' : Traced} {txnId : ℕ} {txn : Transaction}

/-- The visibility half of `Stable` follows from the membership half. -/
theorem stable_iff_committed : Stable s ↔ ∀ key ts, IsNewest s.versions key ts → ts ∈ s.tm.committedTs := by
  constructor
  · intro h key ts hnewest
    exact of_decide_eq_true (h key ts hnewest).1
  · intro h key ts hnewest
    have hcommitted : s.tm.isCommitted ts = true := decide_eq_true (h key ts hnewest)
    refine ⟨hcommitted, ?_⟩
    rintro header readTs reader rfl hend hbegin hread
    by_cases hown : header.txnId = reader
    · simp [VersionHeader.isVisibleTo, hown]
    · exact (VersionHeader.isVisibleTo_iff hown).mpr ⟨hbegin, hend ▸ hread, hcommitted⟩

theorem stable_init (gcInterval : ℕ) (gcCallback : Bool) : Stable (Traced.init gcInterval gcCallback) := by
  rintro key ts ⟨hmem, -⟩
  cases hmem

theorem runGc_stable_iff (hstable : Stable s) : Stable (s.call .runGc).1 ↔ PrunesSafely s .runGc := by
  rw [stable_iff_committed] at hstable ⊢
  have hkept (ts : ℕ) : ts ∈ (s.call .runGc).1.tm.committedTs ↔
      ts ∈ s.tm.committedTs ∧ s.tm.minActiveTs ≤ ts := by
    simp [Traced.call]
  constructor
  · intro h key ts hnewest
    exact ((hkept ts).mp (h key ts hnewest)).2
  · intro h key ts hnewest
    exact (hkept ts).mpr ⟨hstable key ts hnewest, h key ts hnewest⟩

theorem Publishes.keepsStable_iff (hs : Consistent s) (hstable : Stable s)
    (hp : Publishes s (s.call (.commit txnId)) txnId txn) :
    Stable (s.call (.commit txnId)).1 ↔ PrunesSafely s (.commit txnId) := by
  rw [stable_iff_committed] at hstable ⊢
  constructor
  · intro h txn' hc hdue key hkey ts hnewest
    obtain rfl := Option.some.inj (hc.lookup.symm.trans hp.commits.lookup)
    have hmem := h key ts ((hp.isNewest_iff hs).mpr (.inr ⟨hkey, hnewest⟩))
    exact ((hp.committedTs ts).mp hmem).2 hdue
  · intro h key ts hnewest
    rw [hp.committedTs]
    rcases (hp.isNewest_iff hs).mp hnewest with ⟨-, rfl⟩ | ⟨hkey, hold⟩
    · exact ⟨.inl rfl, fun _ => hs.horizonAfter_le⟩
    · exact ⟨.inr (hstable key ts hold), fun hdue => h txn hp.commits hdue key hkey ts hold⟩

theorem call_stable_iff (hs : Consistent s) (hstable : Stable s) (c : Call) :
    Stable (s.call c).1 ↔ PrunesSafely s c := by
  rcases call_cases s c with ⟨hq, -, hgc, hcommit⟩ | rfl | ⟨id, txn, rfl, hp⟩
  · refine iff_of_true ?_ ?_
    · rw [stable_iff_committed] at hstable ⊢
      rw [hq.versions, hq.committedTs]
      exact hstable
    · cases c with
      | runGc => exact absurd rfl hgc
      | commit id => exact fun txn hc => absurd hc (hcommit id rfl txn)
      | begin | recordWrite | abort => trivial
  · exact runGc_stable_iff hstable
  · exact hp.keepsStable_iff hs hstable

/-- **Newest versions stay visible exactly in the runs that prune safely.** -/
theorem stable_iff (gcInterval : ℕ) (gcCallback : Bool) (calls : List Call) :
    Throughout step Stable (Traced.init gcInterval gcCallback) calls ↔
      Along step PrunesSafely (Traced.init gcInterval gcCallback) calls := by
  refine throughout_iff_along (I := Consistent) (fun _ _ h => by cases h)
    (fun _ _ _ hs hstep => hs.step hstep) ?_ (consistent_init gcInterval gcCallback)
    (stable_init gcInterval gcCallback) calls
  intro s c s' hs hstable hstep
  obtain rfl := Option.some.inj hstep
  exact call_stable_iff hs hstable c

/-- After two commits of different keys, a collection forgets that the first one committed. -/
theorem collection_not_stable : ¬ Throughout step Stable (Traced.init 100 true) (twoCommits ++ [.runGc]) := by
  intro h
  obtain ⟨s, hrun, hcommitted, hversions⟩ : ∃ s,
      run step (Traced.init 100 true) (twoCommits ++ [.runGc]) = some s ∧
      s.tm.isCommitted 2 = false ∧ s.versions = [([120], 2), ([121], 3)] :=
    ⟨_, rfl, by decide, by decide⟩
  have hnewest : IsNewest s.versions [120] 2 := by
    rw [hversions]
    refine ⟨by simp, ?_⟩
    intro n hn
    have hn2 : n = 2 := by simpa using hn
    exact hn2.le
  have hstill := (h _ s (List.prefix_refl _) hrun [120] 2 hnewest).1
  rw [hcommitted] at hstill
  cases hstill

end CenDB.Tx.ConcurrentTransactionManager
