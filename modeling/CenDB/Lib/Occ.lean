import Mathlib

/-! # Optimistic commits: first committer wins

A committed transaction is a record of its snapshot, its commit timestamp and the keys it
wrote.  Its lifetime is the half-open interval from the snapshot to the commit.

`FirstCommitterWins h` is the guarantee a history of commits (in commit order) should give:
the timestamps increase, and of two commits that share a key the later one read at or after
the earlier one committed.  `FirstCommitterWins.disjoint_lifetimes` restates it as "no two
conflicting commits overlap".

`Covers latest h` is what a table of latest writes has to keep for the usual validation to
be enough: for every key a commit wrote, a latest write at least as new.
`Covers.validated` and `firstCommitterWins_snoc` are the induction step of a run. -/

namespace Occ

variable {ι κ : Type*}

/-- A committed transaction. -/
structure Commit (ι κ : Type*) where
  id : ι
  readTs : ℕ
  commitTs : ℕ
  keys : List κ

namespace Commit

/-- The two commits wrote a common key. -/
def Conflicts (c d : Commit ι κ) : Prop := ∃ k ∈ c.keys, k ∈ d.keys

/-- From the snapshot up to, but not including, the commit. -/
def lifetime (c : Commit ι κ) : Set ℕ := Set.Ico c.readTs c.commitTs

theorem Conflicts.symm {c d : Commit ι κ} (h : c.Conflicts d) : d.Conflicts c := by
  obtain ⟨k, hc, hd⟩ := h
  exact ⟨k, hd, hc⟩

end Commit

/-- The guarantee of optimistic validation on a history in commit order. -/
structure FirstCommitterWins (h : List (Commit ι κ)) : Prop where
  increasing : h.Pairwise fun c d => c.commitTs < d.commitTs
  ordered : h.Pairwise fun c d => c.Conflicts d → c.commitTs ≤ d.readTs

theorem firstCommitterWins_nil : FirstCommitterWins ([] : List (Commit ι κ)) :=
  ⟨List.Pairwise.nil, List.Pairwise.nil⟩

variable {h : List (Commit ι κ)} {c : Commit ι κ}

theorem firstCommitterWins_snoc :
    FirstCommitterWins (h ++ [c]) ↔ FirstCommitterWins h ∧ (∀ d ∈ h, d.commitTs < c.commitTs) ∧
      ∀ d ∈ h, d.Conflicts c → d.commitTs ≤ c.readTs := by
  constructor
  · rintro ⟨hinc, hord⟩
    rw [List.pairwise_append] at hinc hord
    refine ⟨⟨hinc.1, hord.1⟩, ?_, ?_⟩
    · intro d hd
      exact hinc.2.2 d hd c (List.mem_singleton_self c)
    · intro d hd
      exact hord.2.2 d hd c (List.mem_singleton_self c)
  · rintro ⟨⟨hinc, hord⟩, hnew, hval⟩
    constructor
    · refine List.pairwise_append.mpr ⟨hinc, List.pairwise_singleton _ _, ?_⟩
      intro d hd e he
      rw [List.mem_singleton.mp he]
      exact hnew d hd
    · refine List.pairwise_append.mpr ⟨hord, List.pairwise_singleton _ _, ?_⟩
      intro d hd e he
      rw [List.mem_singleton.mp he]
      exact hval d hd

/-- Two conflicting commits of the history do not overlap. -/
theorem FirstCommitterWins.disjoint_lifetimes (hw : FirstCommitterWins h) {d : Commit ι κ} (hc : c ∈ h)
    (hd : d ∈ h) (hne : c ≠ d) (hconf : c.Conflicts d) : Disjoint c.lifetime d.lifetime := by
  have hpair : h.Pairwise fun c d => c.Conflicts d → Disjoint c.lifetime d.lifetime := by
    refine hw.ordered.imp ?_
    intro c d hord hcd
    rw [Set.disjoint_left]
    intro t ht ht'
    exact absurd (ht.2.trans_le (hord hcd)) (Nat.not_lt.mpr ht'.1)
  have : Std.Symm fun c d : Commit ι κ => c.Conflicts d → Disjoint c.lifetime d.lifetime :=
    ⟨fun c d hcd hdc => (hcd hdc.symm).symm⟩
  exact hpair.forall hc hd hne hconf

/-- The table keeps, for every key the history wrote, a write at least as new. -/
def Covers (latest : κ → Option ℕ) (h : List (Commit ι κ)) : Prop :=
  ∀ c ∈ h, ∀ k ∈ c.keys, ∃ l, latest k = some l ∧ c.commitTs ≤ l

/-- Validating against a covering table is validating against the whole history. -/
theorem Covers.validated {latest : κ → Option ℕ} (hcov : Covers latest h)
    (hval : ∀ k ∈ c.keys, ∀ l, latest k = some l → l ≤ c.readTs) :
    ∀ d ∈ h, d.Conflicts c → d.commitTs ≤ c.readTs := by
  rintro d hd ⟨k, hkd, hkc⟩
  obtain ⟨l, hl, hle⟩ := hcov d hd k hkd
  exact hle.trans (hval k hkc l hl)

/-- Publishing a newest commit keeps the table covering. -/
theorem Covers.snoc {latest latest' : κ → Option ℕ} (hcov : Covers latest h)
    (hnew : ∀ d ∈ h, d.commitTs < c.commitTs) (hput : ∀ k ∈ c.keys, latest' k = some c.commitTs)
    (hkeep : ∀ k ∉ c.keys, latest' k = latest k) : Covers latest' (h ++ [c]) := by
  intro d hd k hk
  rcases List.mem_append.mp hd with hold | hlast
  · by_cases hkc : k ∈ c.keys
    · exact ⟨c.commitTs, hput k hkc, (hnew d hold).le⟩
    · rw [hkeep k hkc]
      exact hcov d hold k hk
  · obtain rfl := List.mem_singleton.mp hlast
    exact ⟨d.commitTs, hput k hk, le_rfl⟩

end Occ
