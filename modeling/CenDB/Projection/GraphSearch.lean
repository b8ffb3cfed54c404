import CenDB.Lib.Levels
import CenDB.Projection.Graph

/-! # Search in a graph

`bfs` goes through the overlay level by level, and marks the nodes that it has visited.  `Expanded` says what a
part of a level has added; a whole level adds the next level of the graph (`Expanded.nextLevel`), so the search
finds every node with the length of a shortest walk (`traversal_exact`).

The overlay has an offset for every node id up to the largest one: edges of larger ids than it has room for make
`build` panic (`build_isSome_iff`), and `neighbors` panics at the largest id of all. -/

namespace CenDB.Projection

open CenDB.Storage List

namespace CsrOverlay

/-- `neighbors` with its panics. -/
def neighborsAt (csr : CsrOverlay) (node : NodeId) : Except Halt (List NodeId) :=
  let s := node.toNat
  -- `s + 1` overflows
  if s + 1 = 2 ^ 64 then .error .panic
  else if csr.offsets.length ≤ s + 1 then .ok []
  else
    match csr.offsets[s]?, csr.offsets[s + 1]? with
    | some lo, some hi =>
      if lo ≤ hi ∧ hi ≤ csr.adjacency.length then .ok ((csr.adjacency.drop lo).take (hi - lo))
      else .error .panic
    | _, _ => .error .panic

variable {edges : List EdgeEntry} {csr : CsrOverlay}

/-- The overlay gives the targets of a node in their order. -/
theorem neighborsAt_build (h : build edges = some csr) {node : NodeId} (hnode : node.toNat + 1 < 2 ^ 64) :
    csr.neighborsAt node = .ok (targetsOf edges node) := by
  obtain ⟨nodeCount, hcsr⟩ := overlays_of_build h
  rw [← targetsOf_mergeSort, ← hcsr.neighbors]
  unfold neighborsAt neighbors
  dsimp only
  rw [if_neg hnode.ne]
  by_cases hbig : csr.offsets.length ≤ node.toNat + 1
  · simp [hbig]
  · have hcount := hcsr.length
    have hlo := hcsr.offset node.toNat (by omega)
    have hhi := hcsr.offset (node.toNat + 1) (by omega)
    have hend : Buckets.below source (edges.mergeSort fun e e' => e.1 ≤ e'.1) (node.toNat + 1) ≤
        csr.adjacency.length := by
      rw [hcsr.adjacency, length_map]
      exact Buckets.below_le_length _ _ _
    have hle := Nat.le_add_right (Buckets.below source (edges.mergeSort fun e e' => e.1 ≤ e'.1) node.toNat)
      (Buckets.within source (edges.mergeSort fun e e' => e.1 ≤ e'.1) node.toNat)
    rw [← Buckets.below_succ] at hle
    rw [if_neg hbig, if_neg hbig, hlo, hhi, getD_eq_getElem?_getD, getD_eq_getElem?_getD, hlo, hhi]
    dsimp only [Option.getD_some]
    rw [if_pos ⟨hle, hend⟩]

/-- There is room for the offsets exactly if no node id is larger than `2 ^ 60 - 3`. -/
theorem build_isSome_iff (edges : List EdgeEntry) : (∃ csr, build edges = some csr) ↔
    ∀ e ∈ edges, e.1.toNat ≤ 2 ^ 60 - 3 ∧ e.2.1.toNat ≤ 2 ^ 60 - 3 := by
  have hmax (l : List EdgeEntry) (m b : ℕ) : l.foldl (fun m e => max m (max e.1.toNat e.2.1.toNat)) m ≤ b ↔
      m ≤ b ∧ ∀ e ∈ l, e.1.toNat ≤ b ∧ e.2.1.toNat ≤ b := by
    induction l generalizing m with
    | nil => simp
    | cons e l ih => rw [foldl_cons, ih, max_le_iff, max_le_iff, forall_mem_cons, and_assoc]
  have hroom (maxNode : ℕ) : ¬maxElements < maxNode + 1 + 1 ↔ maxNode ≤ 2 ^ 60 - 3 := by
    unfold maxElements
    omega
  have hmem : (∀ e ∈ edges, e.1.toNat ≤ 2 ^ 60 - 3 ∧ e.2.1.toNat ≤ 2 ^ 60 - 3) ↔
      ∀ e ∈ edges.mergeSort fun e e' => e.1 ≤ e'.1, e.1.toNat ≤ 2 ^ 60 - 3 ∧ e.2.1.toNat ≤ 2 ^ 60 - 3 := by simp
  rw [hmem, ← (hmax _ 0 (2 ^ 60 - 3)).trans (and_iff_right (Nat.zero_le _)), ← hroom]
  unfold build
  dsimp only
  split_ifs with h
  · exact iff_of_false nofun (not_not_intro h)
  · exact iff_of_true ⟨_, rfl⟩ h

end CsrOverlay

/-! ### The search -/

/-- A search while it goes through a level. -/
structure Search where
  visited : Table UInt64 ℕ
  nextFrontier : List NodeId
  out : List (ℕ × NodeId)

namespace Search

def visit (depth : ℕ) (s : Search) (neighbor : NodeId) : Search :=
  if (s.visited.lookup neighbor).isSome then s
  else
    ⟨AList.insert neighbor depth s.visited, s.nextFrontier ++ [neighbor], s.out ++ [(depth, neighbor)]⟩

/-- Visit the neighbors of the nodes of a frontier. -/
def expand (csr : CsrOverlay) (depth : ℕ) : List NodeId → Search → Except Halt Search
  | [], s => .ok s
  | node :: nodes, s =>
    match csr.neighborsAt node with
    | .error e => .error e
    | .ok neighbors => expand csr depth nodes (neighbors.foldl (visit depth) s)

/-- The rounds that are left, from `depth` on. -/
def rounds (csr : CsrOverlay) : ℕ → ℕ → List NodeId → Search → Except Halt (List (ℕ × NodeId))
  | 0, _, _, s => .ok s.out
  | n + 1, depth, frontier, s =>
    match expand csr depth frontier { s with nextFrontier := [] } with
    | .error e => .error e
    | .ok s => if s.nextFrontier.isEmpty then .ok s.out else rounds csr n (depth + 1) s.nextFrontier s

end Search

/-- The nodes within `maxDepth` steps, with their depths. -/
def GraphProjection.bfs (s : GraphProjection) (start : NodeId) (maxDepth : ℕ) :
    Except Halt (List (ℕ × NodeId)) :=
  match s.csr with
  | none => .error (constraint "bfs: CSR not built")
  | some csr => Search.rounds csr maxDepth 1 [start] ⟨AList.insert start 0 ∅, [], [(0, start)]⟩

/-! ### A round finds the next level -/

namespace Search

variable {csr : CsrOverlay} {next : NodeId → List NodeId} {depth : ℕ} {found : List (ℕ × NodeId)}
  {seen : List NodeId} {s : Search}

/-- What the successors `seen` have added to `found`. -/
structure Expanded (depth : ℕ) (found : List (ℕ × NodeId)) (seen : List NodeId) (s : Search) : Prop where
  out : s.out = found ++ s.nextFrontier.map fun node => (depth, node)
  nodup : s.nextFrontier.Nodup
  mem : ∀ node, node ∈ s.nextFrontier ↔ node ∉ found.map Prod.snd ∧ node ∈ seen
  visited : ∀ node, (s.visited.lookup node).isSome ↔ node ∈ found.map Prod.snd ∨ node ∈ s.nextFrontier

theorem Expanded.visit (h : Expanded depth found seen s) (neighbor : NodeId) :
    Expanded depth found (seen ++ [neighbor]) (s.visit depth neighbor) := by
  unfold Search.visit
  have hvisited := h.visited neighbor
  by_cases hseen : (s.visited.lookup neighbor).isSome
  · rw [if_pos hseen]
    refine ⟨h.out, h.nodup, fun node => ?_, h.visited⟩
    rw [mem_append, mem_singleton, h.mem, and_congr_right_iff]
    intro hnew
    refine ⟨Or.inl, fun hor => hor.elim id ?_⟩
    rintro rfl
    exact ((h.mem node).mp ((hvisited.mp hseen).resolve_left hnew)).2
  · rw [if_neg hseen]
    rw [hvisited, not_or] at hseen
    refine ⟨?_, ?_, fun node => ?_, fun node => ?_⟩
    · simp [h.out]
    · rw [nodup_append_comm, singleton_append, nodup_cons]
      exact ⟨hseen.2, h.nodup⟩
    · rw [mem_append, mem_append, mem_singleton, h.mem]
      constructor
      · rintro (⟨hnew, hmem⟩ | rfl)
        · exact ⟨hnew, Or.inl hmem⟩
        · exact ⟨hseen.1, Or.inr rfl⟩
      · rintro ⟨hnew, hmem | rfl⟩
        · exact Or.inl ⟨hnew, hmem⟩
        · simp
    · rw [Table.lookup_insert_if, mem_append, mem_singleton]
      split_ifs with heq
      · exact iff_of_true rfl (Or.inr (Or.inr heq))
      · rw [h.visited, or_iff_left heq]

theorem Expanded.foldl_visit (h : Expanded depth found seen s) (neighbors : List NodeId) :
    Expanded depth found (seen ++ neighbors) (neighbors.foldl (Search.visit depth) s) := by
  induction neighbors generalizing seen s with
  | nil =>
    rw [append_nil]
    exact h
  | cons neighbor neighbors ih =>
    rw [foldl_cons, append_cons]
    exact ih (h.visit neighbor)

theorem Expanded.expand (h : Expanded depth found seen s) {nodes : List NodeId}
    (hnext : ∀ node ∈ nodes, csr.neighborsAt node = .ok (next node)) :
    ∃ s', Search.expand csr depth nodes s = .ok s' ∧ Expanded depth found (seen ++ nodes.flatMap next) s' := by
  induction nodes generalizing seen s with
  | nil => exact ⟨s, rfl, by rwa [flatMap_nil, append_nil]⟩
  | cons node nodes ih =>
    rw [forall_mem_cons] at hnext
    rw [Search.expand, hnext.1, flatMap_cons, ← append_assoc]
    exact ih (h.foldl_visit (next node)) hnext.2

/-- A level that is gone through adds the next level. -/
theorem Expanded.nextLevel {frontier : List NodeId} (h : Expanded depth found (frontier.flatMap next) s) :
    Levels.NextLevel next frontier found s.nextFrontier where
  nodup := h.nodup
  mem node := by simp [h.mem]

/-- The rounds explore all levels up to the last one. -/
theorem rounds_spec {start : NodeId} {n : ℕ} {frontier : List NodeId}
    (hnext : ∀ d node, Levels.Shortest next start d node → d < depth + n → csr.neighborsAt node = .ok (next node))
    (hfound : Levels.Explored next start depth s.out)
    (hfrontier : ∀ node, node ∈ frontier ↔ Levels.Shortest next start depth node)
    (hvisited : ∀ node, (s.visited.lookup node).isSome ↔ node ∈ s.out.map Prod.snd) :
    ∃ out, rounds csr n (depth + 1) frontier s = .ok out ∧ Levels.Explored next start (depth + n) out := by
  induction n generalizing depth frontier s with
  | zero => exact ⟨s.out, rfl, hfound⟩
  | succ n ih =>
    have hstart : Expanded (depth + 1) s.out [] { s with nextFrontier := [] } :=
      ⟨(append_nil _).symm, nodup_nil, by simp, by simpa using hvisited⟩
    obtain ⟨s', hexpand, hs'⟩ := hstart.expand fun node hnode =>
      hnext depth node ((hfrontier node).mp hnode) (by omega)
    rw [List.nil_append] at hs'
    have hlevel (node : NodeId) := hfound.mem_level (b := node) hfrontier hs'.nextLevel
    have hstep := hfound.step hfrontier hs'.nextLevel
    rw [← hs'.out] at hstep
    have hadd : depth + 1 + n = depth + (n + 1) := by omega
    rw [rounds, hexpand]
    dsimp only
    by_cases hempty : s'.nextFrontier.isEmpty = true
    · rw [if_pos hempty]
      rw [List.isEmpty_iff.mp hempty] at hlevel
      refine ⟨s'.out, rfl, hadd ▸ hstep.complete (fun node hnode => ?_) (by omega)⟩
      have hnone (node : NodeId) : ¬Levels.Shortest next start (depth + 1) node := fun h =>
        not_mem_nil ((hlevel node).mpr h)
      exact Levels.not_shortest_of_empty hnone (by omega) node hnode
    · rw [if_neg hempty, ← hadd]
      refine ih (fun d node hd hlt => hnext d node hd (by omega)) hstep hlevel fun node => ?_
      rw [hs'.visited, hs'.out, map_append, mem_append, map_map, Function.comp_def, map_id']

end Search

/-- **Adjacency and search are exact** if the node ids leave room for the offsets, which is exactly when an
overlay is built: each node but the largest has its targets in their order, and a search finds each node within
`maxDepth` steps once, with the length of a shortest walk. -/
theorem traversal_exact (edges : List EdgeEntry) : ((∃ csr, CsrOverlay.build edges = some csr) ↔
        ∀ e ∈ edges, e.1.toNat ≤ 2 ^ 60 - 3 ∧ e.2.1.toNat ≤ 2 ^ 60 - 3) ∧
      ∀ csr, CsrOverlay.build edges = some csr → (∀ node : NodeId, node.toNat < 2 ^ 64 - 1 →
          csr.neighborsAt node = .ok (CsrOverlay.targetsOf edges node)) ∧
        ∀ (s : GraphProjection) (start : NodeId) maxDepth, s.csr = some csr →
          start.toNat < 2 ^ 64 - 1 ∨ maxDepth = 0 →
          ∃ out, s.bfs start maxDepth = .ok out ∧ (out.map Prod.snd).Nodup ∧ ∀ d node, (d, node) ∈ out ↔
              d ≤ maxDepth ∧ Levels.Shortest (CsrOverlay.targetsOf edges) start d node := by
  refine ⟨CsrOverlay.build_isSome_iff edges, fun csr hbuild => ⟨fun node hnode => ?_, ?_⟩⟩
  · exact CsrOverlay.neighborsAt_build hbuild (by omega)
  · intro s start maxDepth hcsr hstart
    have hids := (CsrOverlay.build_isSome_iff edges).mp ⟨csr, hbuild⟩
    have hnext (d : ℕ) (node : NodeId) (hnode : Levels.Shortest (CsrOverlay.targetsOf edges) start d node)
        (hlt : d < 0 + maxDepth) : csr.neighborsAt node = .ok (CsrOverlay.targetsOf edges node) := by
      refine CsrOverlay.neighborsAt_build hbuild ?_
      cases d with
      | zero =>
        obtain rfl := Levels.shortest_zero.mp hnode
        omega
      | succ d =>
        obtain ⟨⟨b, -, htarget⟩, -⟩ := Levels.shortest_succ.mp hnode
        obtain ⟨e, he, rfl⟩ := List.mem_map.mp htarget
        have := (hids e (mem_filter.mp he).1).2
        omega
    have hfrontier (node : NodeId) : node ∈ [start] ↔
        Levels.Shortest (CsrOverlay.targetsOf edges) start 0 node := by
      rw [mem_singleton, Levels.shortest_zero]
    have hvisited (node : NodeId) : ((AList.insert start 0 ∅ : Table UInt64 ℕ).lookup node).isSome ↔
        node ∈ [(0, start)].map Prod.snd := by
      rw [Table.lookup_insert_if, map_singleton, mem_singleton]
      split_ifs with heq
      · exact iff_of_true rfl heq
      · exact iff_of_false (by simp) heq
    obtain ⟨out, hout, hexplored⟩ := Search.rounds_spec (s := ⟨AList.insert start 0 ∅, [], [(0, start)]⟩) hnext
      (Levels.explored_start _ start) hfrontier hvisited
    rw [Nat.zero_add] at hexplored
    refine ⟨out, ?_, hexplored.nodup, hexplored.mem⟩
    rw [GraphProjection.bfs, hcsr]
    exact hout

/-- There is no overlay for a node with the largest id. -/
theorem build_largest : ¬∃ csr, CsrOverlay.build [(0xFFFFFFFFFFFFFFFF, 0, (0, 0))] = some csr ∧
    ∀ node, csr.neighborsAt node = .ok (CsrOverlay.targetsOf [(0xFFFFFFFFFFFFFFFF, 0, (0, 0))] node) := by
  rintro ⟨csr, hbuild, -⟩
  have hids := (CsrOverlay.build_isSome_iff _).mp ⟨csr, hbuild⟩
  exact absurd (hids _ mem_cons_self).1 (by decide)

end CenDB.Projection
