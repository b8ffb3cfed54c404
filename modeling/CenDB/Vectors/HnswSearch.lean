import CenDB.Vectors.HnswIndex

/-! # What a search finds

A search in a layer returns nodes at their distances, each once and the closest first (`searchLayer_ranked`),
and one node at least (`searchLayer_ne_nil`).  If it may keep as many nodes as there are, it drops none and
never stops early, so it returns the nodes that links lead to (`searchLayer_complete`). -/

namespace CenDB.Vectors

open List Option Transition

/-! ### Ranks of nodes -/

section Ranks

variable {D : Type} {lt : D → D → Bool}

theorem ranksBy_found (h : RanksBy fun a b => lt a b = true) :
    RanksBy fun a b : DistNode D => lt a.dist b.dist = true where
  asymm a b := h.asymm a.dist b.dist
  connected a b c := h.connected a.dist b.dist c.dist

end Ranks

namespace HnswIndex

variable {V D S : Type} {μ : Metric V D S} {ix : HnswIndex V} {q : V} {ef level : ℕ} {s s' : Search D}

/-! ### Steps of a search -/

/-- The node is stored, at its distance from the vector. -/
def IsAt (μ : Metric V D S) (ix : HnswIndex V) (q : V) (c : DistNode D) : Prop :=
  ∃ node, ix.nodes.lookup c.id = some node ∧ c.dist = μ.distance q node.vector

variable {ep nb curr : UInt64} {dn : DistNode D}

theorem enter_cases (h : ix.enter μ q s ep = some s') :
    (ep ∈ s.visited ∧ s' = s) ∨ ep ∉ s.visited ∧ ∃ dn, IsAt μ ix q dn ∧ dn.id = ep ∧
      s' = ⟨ep :: s.visited, μ.candidates.push s.candidates dn, μ.found.push s.found dn⟩ := by
  unfold enter at h
  by_cases hseen : s.visited.contains ep = true
  · rw [if_pos hseen, Option.some.injEq] at h
    exact Or.inl ⟨contains_iff_mem.mp hseen, h.symm⟩
  · rw [if_neg hseen, bind_eq_bind, bind_eq_some_iff] at h
    obtain ⟨node, hnode, h⟩ := h
    exact Or.inr ⟨fun hmem => hseen (contains_iff_mem.mpr hmem), ⟨μ.distance q node.vector, ep⟩,
      ⟨node, hnode, rfl⟩, rfl, (Option.some.inj h).symm⟩

/-- A look at a neighbour: it was seen, it is found, or it is too far away. -/
theorem visit_cases (h : ix.visit μ q ef s nb = some s') :
    (nb ∈ s.visited ∧ s' = s) ∨ nb ∉ s.visited ∧ ∃ dn, IsAt μ ix q dn ∧ dn.id = nb ∧
      (s' = ⟨nb :: s.visited, μ.candidates.push s.candidates dn, keepClosest μ ef s.found dn⟩ ∨
        ef ≤ s.found.length ∧ s' = { s with visited := nb :: s.visited }) := by
  unfold visit at h
  by_cases hseen : s.visited.contains nb = true
  · rw [if_pos hseen, Option.some.injEq] at h
    exact Or.inl ⟨contains_iff_mem.mp hseen, h.symm⟩
  · rw [if_neg hseen, bind_eq_bind, bind_eq_some_iff] at h
    obtain ⟨node, hnode, h⟩ := h
    rw [bind_eq_bind, bind_eq_some_iff] at h
    obtain ⟨worst, -, h⟩ := h
    refine Or.inr ⟨fun hmem => hseen (contains_iff_mem.mpr hmem), ⟨μ.distance q node.vector, nb⟩,
      ⟨node, hnode, rfl⟩, rfl, ?_⟩
    split at h
    · exact Or.inl (Option.some.inj h).symm
    · rename_i hfar
      rw [Bool.or_eq_true, decide_eq_true_eq, not_or, Nat.not_lt] at hfar
      exact Or.inr ⟨hfar.2, (Option.some.inj h).symm⟩

variable {fuel : ℕ} {res : List (DistNode D)}

/-- A round of a search: it ends with what was found, or goes on after the neighbours of a candidate. -/
theorem explore_cases (h : ix.explore μ q ef level (fuel + 1) s = some res) :
    (res = μ.found.intoSortedVec s.found ∧ (s.candidates = [] ∨ ∃ curr rest worst,
        μ.candidates.pop s.candidates = some (curr, rest) ∧ μ.found.peek s.found = some worst ∧
          μ.lt worst.dist curr.dist = true)) ∨
      ∃ curr rest s', μ.candidates.pop s.candidates = some (curr, rest) ∧
        Transition.run (ix.visit μ q ef) { s with candidates := rest }
          (neighbours ix.nodes curr.id level) = some s' ∧ ix.explore μ q ef level fuel s' = some res := by
  rw [explore] at h
  cases hpop : μ.candidates.pop s.candidates with
  | none =>
    rw [hpop] at h
    exact Or.inl ⟨(Option.some.inj h).symm, Or.inl ((μ.candidates.pop_eq_none _).mp hpop)⟩
  | some e =>
    obtain ⟨curr, rest⟩ := e
    rw [hpop] at h
    dsimp only at h
    rw [bind_eq_bind, bind_eq_some_iff] at h
    obtain ⟨worst, hworst, h⟩ := h
    split at h
    · rename_i hfar
      exact Or.inl ⟨(Option.some.inj h).symm, Or.inr ⟨curr, rest, worst, rfl, hworst, hfar⟩⟩
    · rw [bind_eq_bind, bind_eq_some_iff, foldlM_eq_run] at h
      obtain ⟨s', hs', h⟩ := h
      exact Or.inr ⟨curr, rest, s', rfl, hs', h⟩

/-! ### Ranked results -/

/-- What was found is stored at its distance, each node once. -/
structure Ranked (μ : Metric V D S) (ix : HnswIndex V) (q : V) (s : Search D) : Prop where
  nodup : (s.found.map DistNode.id).Nodup
  seen : ∀ c ∈ s.found, c.id ∈ s.visited
  isAt : ∀ c ∈ s.found, IsAt μ ix q c

/-- One more node is found, and perhaps another one dropped. -/
theorem Ranked.cons (h : Ranked μ ix q s) (hnew : dn.id ∉ s.visited) (hdn : IsAt μ ix q dn)
    {candidates found : List (DistNode D)} (hfound : ∃ l, found.Sublist l ∧ l.Perm (dn :: s.found)) :
    Ranked μ ix q ⟨dn.id :: s.visited, candidates, found⟩ := by
  obtain ⟨l, hsub, hperm⟩ := hfound
  have hmem : ∀ c ∈ found, c = dn ∨ c ∈ s.found := fun c hc =>
    mem_cons.mp (hperm.subset (hsub.subset hc))
  refine ⟨?_, fun c hc => ?_, fun c hc => ?_⟩
  · have hcons : ((dn :: s.found).map DistNode.id).Nodup := by
      rw [map_cons, nodup_cons, List.mem_map]
      refine ⟨?_, h.nodup⟩
      rintro ⟨c, hc, hid⟩
      exact hnew (hid ▸ h.seen c hc)
    exact (((hperm.map DistNode.id).nodup_iff).mpr hcons).sublist (hsub.map DistNode.id)
  · rcases hmem c hc with rfl | hc
    · simp
    · exact mem_cons_of_mem _ (h.seen c hc)
  · rcases hmem c hc with rfl | hc
    · exact hdn
    · exact h.isAt c hc

theorem keepClosest_sublist (ef : ℕ) (found : List (DistNode D)) (dn : DistNode D) :
    ∃ l, (keepClosest μ ef found dn).Sublist l ∧ l.Perm (dn :: found) := by
  unfold keepClosest
  dsimp only
  split
  · obtain ⟨a, rest, hpop⟩ := Heap.exists_pop (h := μ.found) (l := μ.found.push found dn)
      (ne_nil_of_mem (Heap.mem_push.mpr (Or.inl rfl)))
    rw [hpop, map_some, getD_some]
    exact ⟨a :: rest, sublist_cons_self a rest,
      (μ.found.perm_pop _ a rest hpop).trans (μ.found.perm_push found dn)⟩
  · exact ⟨_, List.Sublist.refl _, μ.found.perm_push found dn⟩

theorem Ranked.enter (h : Ranked μ ix q s) (hs : ix.enter μ q s ep = some s') : Ranked μ ix q s' := by
  rcases enter_cases hs with ⟨-, rfl⟩ | ⟨hnew, dn, hdn, rfl, rfl⟩
  · exact h
  · exact h.cons hnew hdn ⟨_, List.Sublist.refl _, μ.found.perm_push s.found dn⟩

theorem Ranked.visit (h : Ranked μ ix q s) (hs : ix.visit μ q ef s nb = some s') : Ranked μ ix q s' := by
  rcases visit_cases hs with ⟨-, rfl⟩ | ⟨hnew, dn, hdn, rfl, rfl | ⟨-, rfl⟩⟩
  · exact h
  · exact h.cons hnew hdn (keepClosest_sublist ef s.found dn)
  · exact ⟨h.nodup, fun c hc => mem_cons_of_mem _ (h.seen c hc), h.isAt⟩

/-- Nodes at their distances, each once and the closest first. -/
structure Ordered (μ : Metric V D S) (ix : HnswIndex V) (q : V) (res : List (DistNode D)) : Prop where
  nodup : (res.map DistNode.id).Nodup
  isAt : ∀ c ∈ res, IsAt μ ix q c
  ordered : RanksBy (fun a b => μ.lt a b = true) → res.Pairwise fun a b => ¬ μ.lt b.dist a.dist = true

theorem Ranked.ordered (h : Ranked μ ix q s) : Ordered μ ix q (μ.found.intoSortedVec s.found) where
  nodup := ((μ.found.perm_intoSortedVec s.found).map DistNode.id).nodup_iff.mpr h.nodup
  isAt c hc := h.isAt c ((μ.found.perm_intoSortedVec s.found).subset hc)
  ordered hlt := μ.found.sorted_intoSortedVec (ranksBy_found hlt) s.found

theorem explore_ranked (h : Ranked μ ix q s) (hres : ix.explore μ q ef level fuel s = some res) :
    Ordered μ ix q res := by
  induction fuel generalizing s with
  | zero => cases hres
  | succ fuel ih =>
    rcases explore_cases hres with ⟨rfl, -⟩ | ⟨curr, rest, s', -, hrun, hres⟩
    · exact h.ordered
    · refine ih (run_preserves (fun t nb t' ht hstep => ht.visit hstep) ?_ hrun) hres
      exact ⟨h.nodup, h.seen, h.isAt⟩

theorem ranked_start : Ranked μ ix q ⟨[], [], []⟩ := ⟨nodup_nil, nofun, nofun⟩

theorem ranked_entered {eps : List UInt64} (hs : Transition.run (ix.enter μ q) ⟨[], [], []⟩ eps = some s) :
    Ranked μ ix q s :=
  run_preserves (fun _ _ _ ht hstep => ht.enter hstep) ranked_start hs

/-- **A search in a layer returns nodes at their distances, each once and the closest first.** -/
theorem searchLayer_ranked {eps : List UInt64} (hres : ix.searchLayer μ q eps ef level = some res) :
    Ordered μ ix q res := by
  rw [searchLayer, bind_eq_bind, bind_eq_some_iff, foldlM_eq_run] at hres
  obtain ⟨s, hs, hres⟩ := hres
  exact explore_ranked (ranked_entered hs) hres

theorem explore_ne_nil (hfound : s.found ≠ []) (hres : ix.explore μ q ef level fuel s = some res) :
    res ≠ [] := by
  induction fuel generalizing s with
  | zero => cases hres
  | succ fuel ih =>
    rcases explore_cases hres with ⟨rfl, -⟩ | ⟨curr, rest, s', -, hrun, hres⟩
    · intro hnil
      have hperm := μ.found.perm_intoSortedVec s.found
      rw [hnil] at hperm
      exact hfound hperm.nil_eq.symm
    · refine ih (run_preserves (I := fun t => t.found ≠ []) (fun t nb t' ht hstep => ?_) hfound hrun)
        hres
      rcases visit_cases hstep with ⟨-, rfl⟩ | ⟨-, dn, -, -, rfl | ⟨-, rfl⟩⟩
      · exact ht
      · exact keepClosest_ne_nil ht dn
      · exact ht

/-- A search that starts somewhere finds a node. -/
theorem searchLayer_ne_nil {eps : List UInt64} (heps : eps ≠ [])
    (hres : ix.searchLayer μ q eps ef level = some res) : res ≠ [] := by
  rw [searchLayer, bind_eq_bind, bind_eq_some_iff, foldlM_eq_run] at hres
  obtain ⟨s, hs, hres⟩ := hres
  refine explore_ne_nil ?_ hres
  obtain ⟨ep, eps, rfl⟩ := exists_cons_of_ne_nil heps
  obtain ⟨s₁, hs₁, hrun⟩ := run_cons_some.mp hs
  have hpush : ∀ (l : List (DistNode D)) (dn : DistNode D), μ.found.push l dn ≠ [] := fun l dn =>
    ne_nil_of_mem (Heap.mem_push.mpr (Or.inl rfl))
  refine run_preserves (I := fun t => t.found ≠ []) (fun t ep t' ht hstep => ?_) ?_ hrun
  · rcases enter_cases hstep with ⟨-, rfl⟩ | ⟨-, dn, -, -, rfl⟩
    · exact ht
    · exact hpush _ dn
  · rcases enter_cases hs₁ with ⟨hmem, -⟩ | ⟨-, dn, -, -, rfl⟩
    · cases hmem
    · exact hpush _ dn

/-! ### Complete results -/

/-- Links of a layer lead from one node to the other. -/
def Reaches (ix : HnswIndex V) (level : ℕ) : UInt64 → UInt64 → Prop :=
  Relation.ReflTransGen fun a b => b ∈ neighbours ix.nodes a level

theorem Reaches.mem_of_closed {a b : UInt64} {l : List UInt64} (h : ix.Reaches level a b)
    (hclosed : ∀ id ∈ l, ∀ nb ∈ neighbours ix.nodes id level, nb ∈ l) (ha : a ∈ l) : b ∈ l := by
  induction h with
  | refl => exact ha
  | tail _ hlink ih => exact hclosed _ ih _ hlink

/-- A search that has found all that it has seen. -/
structure Full (ix : HnswIndex V) (eps : List UInt64) (level : ℕ) (s : Search D) : Prop where
  nodup : s.visited.Nodup
  stored : ∀ id ∈ s.visited, id ∈ ix.nodes
  found : (s.found.map DistNode.id).Perm s.visited
  candidates : s.candidates ⊆ s.found
  reached : ∀ id ∈ s.visited, ∃ ep ∈ eps, ix.Reaches level ep id

/-- All nodes that were seen, but one, are candidates or have only neighbours that were seen. -/
def ClosedBut (ix : HnswIndex V) (level : ℕ) (s : Search D) (curr : UInt64) : Prop :=
  ∀ id ∈ s.visited, id = curr ∨ (∃ c ∈ s.candidates, c.id = id) ∨
    ∀ nb ∈ neighbours ix.nodes id level, nb ∈ s.visited

variable {eps : List UInt64}

theorem Full.length_found (h : Full ix eps level s) : s.found.length = s.visited.length := by
  rw [← length_map DistNode.id, h.found.length_eq]

/-- There is room for a node that was not seen. -/
theorem Full.length_lt (h : Full ix eps level s) {id : UInt64} (hnew : id ∉ s.visited) (hid : id ∈ ix.nodes) :
    s.visited.length < Table.size ix.nodes := by
  have hsub : id :: s.visited ⊆ ix.nodes.keys := by
    intro x hx
    rcases mem_cons.mp hx with rfl | hx
    · omega
    · exact AList.mem_keys.mp (h.stored x hx)
  have hle := ((nodup_cons.mpr ⟨hnew, h.nodup⟩).subperm hsub).length_le
  rwa [AList.keys, List.keys, length_map, length_cons] at hle

theorem IsAt.mem {c : DistNode D} (h : IsAt μ ix q c) : c.id ∈ ix.nodes := by
  obtain ⟨node, hnode, -⟩ := h
  rw [← AList.lookup_isSome, hnode]
  rfl

/-- A node that is seen becomes a candidate and is found. -/
theorem Full.push (h : Full ix eps level s) (hnew : dn.id ∉ s.visited) (hdn : dn.id ∈ ix.nodes)
    (hreached : ∃ ep ∈ eps, ix.Reaches level ep dn.id) :
    Full ix eps level ⟨dn.id :: s.visited, μ.candidates.push s.candidates dn, μ.found.push s.found dn⟩ where
  nodup := nodup_cons.mpr ⟨hnew, h.nodup⟩
  stored := forall_mem_cons.mpr ⟨hdn, h.stored⟩
  found := ((μ.found.perm_push s.found dn).map DistNode.id).trans (h.found.cons dn.id)
  candidates c hc := by
    rw [Heap.mem_push] at hc ⊢
    exact hc.imp_right fun hc => h.candidates hc
  reached := forall_mem_cons.mpr ⟨hreached, h.reached⟩

/-- A look at a neighbour, where as many nodes may be kept as there are. -/
theorem Full.visit (h : Full ix eps level s) (hef : Table.size ix.nodes ≤ ef) (hcurr : curr ∈ s.visited)
    (hnb : nb ∈ neighbours ix.nodes curr level) (hclosed : ClosedBut ix level s curr)
    (hs : ix.visit μ q ef s nb = some s') :
    Full ix eps level s' ∧ ClosedBut ix level s' curr ∧ s.visited ⊆ s'.visited ∧ nb ∈ s'.visited := by
  rcases visit_cases hs with ⟨hmem, rfl⟩ | ⟨hnew, dn, hdn, rfl, hs'⟩
  · exact ⟨h, hclosed, List.Subset.refl _, hmem⟩
  · have hroom := h.length_lt hnew hdn.mem
    have hlength := h.length_found
    rcases hs' with rfl | ⟨hfull, -⟩
    · have hkept : keepClosest μ ef s.found dn = μ.found.push s.found dn := by
        unfold keepClosest
        dsimp only
        rw [if_neg (by rw [Heap.length_push]; omega)]
      rw [hkept]
      obtain ⟨ep, hep, hreach⟩ := h.reached curr hcurr
      refine ⟨h.push hnew hdn.mem ⟨ep, hep, hreach.tail hnb⟩, fun id hid => ?_, subset_cons_self _ _,
        mem_cons_self⟩
      rcases mem_cons.mp hid with rfl | hid
      · exact Or.inr (Or.inl ⟨dn, Heap.mem_push.mpr (Or.inl rfl), rfl⟩)
      · rcases hclosed id hid with hcurr | ⟨c, hc, hid⟩ | hnbs
        · exact Or.inl hcurr
        · exact Or.inr (Or.inl ⟨c, Heap.mem_push.mpr (Or.inr hc), hid⟩)
        · exact Or.inr (Or.inr fun nb hnb => mem_cons_of_mem _ (hnbs nb hnb))
    · omega

/-- A look at all neighbours of a candidate. -/
theorem Full.visits (h : Full ix eps level s) (hef : Table.size ix.nodes ≤ ef) {nbs : List UInt64}
    (hcurr : curr ∈ s.visited) (hnbs : nbs ⊆ neighbours ix.nodes curr level)
    (hclosed : ClosedBut ix level s curr) (hrun : Transition.run (ix.visit μ q ef) s nbs = some s') :
    Full ix eps level s' ∧ ClosedBut ix level s' curr ∧ s.visited ⊆ s'.visited ∧ nbs ⊆ s'.visited := by
  induction nbs generalizing s with
  | nil =>
    rw [run_nil, Option.some.injEq] at hrun
    subst hrun
    exact ⟨h, hclosed, List.Subset.refl _, nil_subset _⟩
  | cons nb nbs ih =>
    obtain ⟨s₁, hs₁, hrun⟩ := run_cons_some.mp hrun
    obtain ⟨hfull, hclosed₁, hsub, hmem⟩ := h.visit hef hcurr (hnbs mem_cons_self) hclosed hs₁
    obtain ⟨hfull', hclosed', hsub', hmem'⟩ := ih hfull (hsub hcurr)
      (fun x hx => hnbs (mem_cons_of_mem nb hx)) hclosed₁ hrun
    exact ⟨hfull', hclosed', List.Subset.trans hsub hsub', cons_subset.mpr ⟨hsub' hmem, hmem'⟩⟩

/-- No candidate is farther than all that was found. -/
theorem Full.not_far (h : Full ix eps level s) (hlt : RanksBy fun a b => μ.lt a b = true)
    {curr worst : DistNode D} {rest : List (DistNode D)} (hpop : μ.candidates.pop s.candidates = some (curr, rest))
    (hworst : μ.found.peek s.found = some worst) : ¬ μ.lt worst.dist curr.dist = true :=
  Heap.not_lt_of_peek (ranksBy_found hlt) hworst (h.candidates (Heap.mem_of_pop hpop))

/-- A search that may keep all nodes returns those that links lead to from the nodes it has seen. -/
theorem explore_complete (hlt : RanksBy fun a b => μ.lt a b = true) (hef : Table.size ix.nodes ≤ ef)
    (h : Full ix eps level s)
    (hclosed : ∀ id ∈ s.visited, (∃ c ∈ s.candidates, c.id = id) ∨ ∀ nb ∈ neighbours ix.nodes id level, nb ∈ s.visited)
    (heps : eps ⊆ s.visited) (hres : ix.explore μ q ef level fuel s = some res) (id : UInt64) :
    id ∈ res.map DistNode.id ↔ ∃ ep ∈ eps, ix.Reaches level ep id := by
  induction fuel generalizing s with
  | zero => cases hres
  | succ fuel ih =>
    rcases explore_cases hres with ⟨rfl, hstop⟩ | ⟨curr, rest, s', hpop, hrun, hres⟩
    · have hnone : s.candidates = [] := by
        rcases hstop with hnone | ⟨curr, rest, worst, hpop, hworst, hfar⟩
        · exact hnone
        · exact absurd hfar (h.not_far hlt hpop hworst)
      rw [((μ.found.perm_intoSortedVec s.found).map DistNode.id).mem_iff, h.found.mem_iff]
      refine ⟨h.reached id, ?_⟩
      rintro ⟨ep, hep, hreach⟩
      refine hreach.mem_of_closed (fun x hx => ?_) (heps hep)
      rcases hclosed x hx with ⟨c, hc, -⟩ | hnbs
      · rw [hnone] at hc
        cases hc
      · exact hnbs
    · have hcurr : curr.id ∈ s.visited := h.found.subset (mem_map_of_mem (h.candidates (Heap.mem_of_pop hpop)))
      have hperm := μ.candidates.perm_pop s.candidates curr rest hpop
      have hrest : Full ix eps level { s with candidates := rest } :=
        ⟨h.nodup, h.stored, h.found, fun c hc => h.candidates (Heap.subset_of_pop hpop hc), h.reached⟩
      have hbut : ClosedBut ix level { s with candidates := rest } curr.id := by
        intro x hx
        rcases hclosed x hx with ⟨c, hc, hid⟩ | hnbs
        · rcases mem_cons.mp (hperm.symm.subset hc) with rfl | hc
          · exact Or.inl hid.symm
          · exact Or.inr (Or.inl ⟨c, hc, hid⟩)
        · exact Or.inr (Or.inr hnbs)
      obtain ⟨hfull, hclosed', hsub, hnbs⟩ := hrest.visits hef hcurr (List.Subset.refl _) hbut hrun
      refine ih hfull (fun x hx => ?_) (List.Subset.trans heps hsub) hres
      rcases hclosed' x hx with rfl | hopen
      · exact Or.inr fun nb hnb => hnbs hnb
      · exact hopen

theorem full_start : Full ix eps level (⟨[], [], []⟩ : Search D) :=
  ⟨nodup_nil, nofun, List.Perm.refl _, List.Subset.refl _, nofun⟩

/-- Every node that is entered is a candidate and found. -/
theorem full_entered {all : List UInt64} (hall : eps ⊆ all) (h : Full ix all level s)
    (hopen : ∀ id ∈ s.visited, ∃ c ∈ s.candidates, c.id = id)
    (hrun : Transition.run (ix.enter μ q) s eps = some s') :
    Full ix all level s' ∧ (∀ id ∈ s'.visited, ∃ c ∈ s'.candidates, c.id = id) ∧
      s.visited ⊆ s'.visited ∧ eps ⊆ s'.visited := by
  induction eps generalizing s with
  | nil =>
    rw [run_nil, Option.some.injEq] at hrun
    subst hrun
    exact ⟨h, hopen, List.Subset.refl _, nil_subset _⟩
  | cons ep eps ih =>
    obtain ⟨s₁, hs₁, hrest⟩ := run_cons_some.mp hrun
    rw [cons_subset] at hall ⊢
    rcases enter_cases hs₁ with ⟨hmem, rfl⟩ | ⟨hnew, dn, hdn, rfl, rfl⟩
    · obtain ⟨hfull, hopen', hsub, heps⟩ := ih hall.2 h hopen hrest
      exact ⟨hfull, hopen', hsub, hsub hmem, heps⟩
    · have hpush := h.push (μ := μ) hnew hdn.mem ⟨dn.id, hall.1, Relation.ReflTransGen.refl⟩
      have hpushed : ∀ id ∈ dn.id :: s.visited, ∃ c ∈ μ.candidates.push s.candidates dn, c.id = id := by
        intro id hid
        rcases mem_cons.mp hid with rfl | hid
        · exact ⟨dn, Heap.mem_push.mpr (Or.inl rfl), rfl⟩
        · obtain ⟨c, hc, hcid⟩ := hopen id hid
          exact ⟨c, Heap.mem_push.mpr (Or.inr hc), hcid⟩
      obtain ⟨hfull, hopen', hsub, heps⟩ := ih hall.2 hpush hpushed hrest
      rw [cons_subset] at hsub
      exact ⟨hfull, hopen', hsub.2, hsub.1, heps⟩

/-- **A search in a layer that may keep as many nodes as there are returns the nodes that links lead to.** -/
theorem searchLayer_complete (hlt : RanksBy fun a b => μ.lt a b = true) (hef : Table.size ix.nodes ≤ ef)
    (hres : ix.searchLayer μ q eps ef level = some res) (id : UInt64) :
    id ∈ res.map DistNode.id ↔ ∃ ep ∈ eps, ix.Reaches level ep id := by
  rw [searchLayer, bind_eq_bind, bind_eq_some_iff, foldlM_eq_run] at hres
  obtain ⟨s, hs, hres⟩ := hres
  obtain ⟨hfull, hopen, -, heps⟩ := full_entered (List.Subset.refl eps) full_start (fun _ h => by cases h) hs
  exact explore_complete hlt hef hfull (fun id hid => Or.inl (hopen id hid)) heps hres id

end HnswIndex

end CenDB.Vectors
