import CenDB.Lib.Heap
import CenDB.Lib.Table
import CenDB.Lib.Transition

/-! # HNSW index

A node has lists of neighbours, one for each of its layers.  A search walks down the layers from the
entry point; an insertion links a node in both directions on its layers and prunes lists that grow too
long.

`none` is a panic: a node or a layer that is not there.  In a sound index (`Sound`) there is none
(`exists_insertAt`, `search_isSome`).  An insertion keeps the index sound if and only if neither a list
of another node nor the entry point needs a layer that the inserted node loses (`sound_insertAt`). -/

namespace CenDB.Vectors

open List Option Transition

/-! ### Distances -/

structure DistNode (D : Type) where
  dist : D
  id : UInt64

/-- Distances of vectors with their order, the similarity that a search reports for a distance, and
the heaps of a search. -/
structure Metric (V D S : Type) where
  distance : V → V → D
  lt : D → D → Bool
  similarity : D → S
  candidates : Heap (DistNode D) fun a b => lt b.dist a.dist
  found : Heap (DistNode D) fun a b => lt a.dist b.dist

def cosineSimilarity (a b : List Float32) : Float :=
  let sums := (a.zip b).foldl (fun (s : Float × Float × Float) e =>
    (s.1 + e.1.toFloat * e.2.toFloat, s.2.1 + e.1.toFloat * e.1.toFloat,
      s.2.2 + e.2.toFloat * e.2.toFloat)) (0.0, 0.0, 0.0)
  if sums.2.1 == 0.0 || sums.2.2 == 0.0 then 0.0
  else sums.1 / (sums.2.1.sqrt * sums.2.2.sqrt)

/-- The metric of the index. -/
def cosine : Metric (List Float32) Float Float32 where
  distance q v := 1.0 - cosineSimilarity q v
  lt a b := decide (a < b)
  similarity dist := (1.0 - dist).toFloat32
  candidates := Heap.ofSort _
  found := Heap.ofSort _

/-! ### The index -/

structure HnswConfig where
  m : ℕ
  efSearch : ℕ
  efConstruction : ℕ

structure Node (V : Type) where
  vector : V
  layers : List (List UInt64)

structure HnswIndex (V : Type) where
  config : HnswConfig
  nodes : Table UInt64 (Node V)
  entryPoint : Option UInt64
  maxLevel : ℕ

namespace HnswIndex

variable {V D S : Type} (μ : Metric V D S)

def new (config : HnswConfig) : HnswIndex V := ⟨config, ∅, none, 0⟩

/-- Levels up to 16, from the number of nodes. -/
def randomLevel (ix : HnswIndex V) : ℕ :=
  let ml := 1.0 / ix.config.m.toFloat.log
  climb ml 16 0 (UInt64.ofNat (Table.size ix.nodes) ^^^ 0x517cc1b727220a95)
where
  climb (ml : Float) : ℕ → ℕ → UInt64 → ℕ
    | 0, level, _ => level
    | n + 1, level, rng =>
      let rng := rng ^^^ (rng <<< 13)
      let rng := rng ^^^ (rng >>> 7)
      let rng := rng ^^^ (rng <<< 17)
      if rng.toFloat / (0xffffffffffffffff : UInt64).toFloat > ml then level
      else climb ml n (level + 1) rng

/-! ### Search in a layer -/

structure Search (D : Type) where
  visited : List UInt64
  candidates : List (DistNode D)
  found : List (DistNode D)

/-- Start from a node. -/
def enter (ix : HnswIndex V) (q : V) (s : Search D) (ep : UInt64) : Option (Search D) :=
  if s.visited.contains ep then some s
  else do
    let node ← ix.nodes.lookup ep
    let dist := μ.distance q node.vector
    some ⟨ep :: s.visited, μ.candidates.push s.candidates ⟨dist, ep⟩, μ.found.push s.found ⟨dist, ep⟩⟩

/-- Add a node to what was found; of more than `ef` nodes the farthest is dropped. -/
def keepClosest (ef : ℕ) (found : List (DistNode D)) (dn : DistNode D) : List (DistNode D) :=
  let found := μ.found.push found dn
  if found.length > ef then ((μ.found.pop found).map Prod.snd).getD [] else found

/-- Look at a neighbour. -/
def visit (ix : HnswIndex V) (q : V) (ef : ℕ) (s : Search D) (nb : UInt64) : Option (Search D) :=
  if s.visited.contains nb then some s
  else do
    let node ← ix.nodes.lookup nb
    let dist := μ.distance q node.vector
    let worst ← μ.found.peek s.found
    if μ.lt dist worst.dist || s.found.length < ef then
      some ⟨nb :: s.visited, μ.candidates.push s.candidates ⟨dist, nb⟩, keepClosest μ ef s.found ⟨dist, nb⟩⟩
    else some { s with visited := nb :: s.visited }

/-- The neighbours of a node in a layer.  A node that is missing, or has fewer layers, has none. -/
def neighbours (nodes : Table UInt64 (Node V)) (id : UInt64) (level : ℕ) : List UInt64 :=
  match nodes.lookup id with
  | some node => (node.layers[level]?).getD []
  | none => []

/-- Search on from the closest candidate, until it is farther than all that was found. -/
def explore (ix : HnswIndex V) (q : V) (ef level : ℕ) : ℕ → Search D → Option (List (DistNode D))
  | 0, _ => none
  | fuel + 1, s =>
    match μ.candidates.pop s.candidates with
    | none => some (μ.found.intoSortedVec s.found)
    | some (curr, rest) => do
      let worst ← μ.found.peek s.found
      if μ.lt worst.dist curr.dist then some (μ.found.intoSortedVec s.found)
      else
        let nbs := neighbours ix.nodes curr.id level
        let s' ← nbs.foldlM (ix.visit μ q ef) { s with candidates := rest }
        ix.explore q ef level fuel s'

/-- A round visits a candidate, and a node becomes a candidate once. -/
def searchLayer (ix : HnswIndex V) (q : V) (enterPoints : List UInt64) (ef level : ℕ) :
    Option (List (DistNode D)) := do
  let s ← enterPoints.foldlM (ix.enter μ q) ⟨[], [], []⟩
  ix.explore μ q ef level (Table.size ix.nodes + 1) s

/-- Walk down `n` layers to the one above `level`, closer to the vector in each. -/
def descend (ix : HnswIndex V) (q : V) (level : ℕ) : ℕ → List UInt64 → Option (List UInt64)
  | 0, eps => some eps
  | n + 1, eps => do
    let res ← ix.searchLayer μ q eps 1 (level + n + 1)
    match res.head? with
    | some closest => ix.descend q level n [closest.id]
    | none => ix.descend q level n eps

def search (ix : HnswIndex V) (query : V) (k : ℕ) : Option (List (UInt64 × S)) :=
  if Table.size ix.nodes = 0 then some []
  else do
    let ep ← ix.entryPoint
    let eps ← ix.descend μ query 0 ix.maxLevel [ep]
    let ef := max ix.config.efSearch k
    let candidates ← ix.searchLayer μ query eps ef 0
    some ((candidates.take k).map fun dn => (dn.id, μ.similarity dn.dist))

/-! ### Insertion -/

/-- The number of links of a node in a layer. -/
def mConn (ix : HnswIndex V) (level : ℕ) : ℕ :=
  if level = 0 then ix.config.m * 2 else ix.config.m

/-- Choose neighbours, layer by layer down to the ground. -/
def connect (ix : HnswIndex V) (vector : V) : ℕ → List UInt64 → List (List UInt64) → Option (List (List UInt64))
  | level, eps, connections => do
    let candidates ← ix.searchLayer μ vector eps ix.config.efConstruction level
    let selected := (candidates.take (ix.mConn level)).map DistNode.id
    let connections := connections.set level selected
    match level with
    | 0 => some connections
    | level + 1 => ix.connect vector level selected connections

/-- The closest neighbours of a list that has become too long. -/
def prune (nodes : Table UInt64 (Node V)) (vector : V) (mConn : ℕ) (neighbours : List UInt64) :
    Option (List UInt64) :=
  if neighbours.length > mConn * 2 then do
    let dists ← neighbours.mapM fun id => (nodes.lookup id).map fun node =>
      (μ.distance vector node.vector, id)
    some (((dists.mergeSort fun a b => !μ.lt b.1 a.1).map Prod.snd).take mConn)
  else some neighbours

/-- Link a neighbour back to the node `id`. -/
def linkBack (mConn level : ℕ) (id : UInt64) (nodes : Table UInt64 (Node V)) (nbId : UInt64) :
    Option (Table UInt64 (Node V)) :=
  match nodes.lookup nbId with
  | none => some nodes
  | some nb => do
    let linked ← nb.layers[level]?
    let linked ← prune μ nodes nb.vector mConn (linked ++ [id])
    some (AList.insert nbId { nb with layers := nb.layers.set level linked } nodes)

/-- Insert a node with the layers up to `level`. -/
def insertAt (ix : HnswIndex V) (id : UInt64) (vector : V) (level : ℕ) : Option (HnswIndex V) :=
  if Table.size ix.nodes = 0 then
    some { ix with
      nodes := AList.insert id ⟨vector, List.replicate (level + 1) []⟩ ix.nodes
      entryPoint := some id
      maxLevel := level }
  else do
    let ep ← ix.entryPoint
    let eps ← ix.descend μ vector level (ix.maxLevel - level) [ep]
    let top := min level ix.maxLevel
    let connections ← ix.connect μ vector top eps (List.replicate (level + 1) [])
    let nodes := AList.insert id ⟨vector, connections⟩ ix.nodes
    let nodes ← (List.range (top + 1)).foldlM (fun nodes lvl =>
      (connections.getD lvl []).foldlM (linkBack μ (ix.mConn lvl) lvl id) nodes) nodes
    if level > ix.maxLevel then
      some { ix with nodes := nodes, entryPoint := some id, maxLevel := level }
    else some { ix with nodes := nodes }

def insert (ix : HnswIndex V) (id : UInt64) (vector : V) : Option (HnswIndex V) :=
  ix.insertAt μ id vector ix.randomLevel

/-! ### Sound indexes -/

/-- A node that is stored with a layer. -/
def HasLayer (nodes : Table UInt64 (Node V)) (id : UInt64) (level : ℕ) : Prop :=
  ∃ node, nodes.lookup id = some node ∧ level < node.layers.length

/-- The entry point is stored with a layer at the maximal level, and every neighbour in a layer is
stored with that layer. -/
structure Sound (ix : HnswIndex V) : Prop where
  entry : Table.size ix.nodes ≠ 0 → ∃ ep, ix.entryPoint = some ep
  entryLayer : ∀ ep, ix.entryPoint = some ep → HasLayer ix.nodes ep ix.maxLevel
  neighbour : ∀ id level, ∀ nb ∈ neighbours ix.nodes id level, HasLayer ix.nodes nb level

theorem HasLayer.mono {nodes : Table UInt64 (Node V)} {id : UInt64} {level level' : ℕ}
    (h : HasLayer nodes id level) (hle : level' ≤ level) : HasLayer nodes id level' := by
  obtain ⟨node, hnode, hlt⟩ := h
  exact ⟨node, hnode, by omega⟩

theorem HasLayer.mem_keys {nodes : Table UInt64 (Node V)} {id : UInt64} {level : ℕ}
    (h : HasLayer nodes id level) : id ∈ nodes.keys := by
  obtain ⟨node, hnode, -⟩ := h
  rw [← AList.mem_keys, ← AList.lookup_isSome, hnode]
  rfl

/-! ### What a search sees -/

variable {μ} {ix : HnswIndex V} {q : V} {ef level : ℕ}

/-- A search in a layer that only visits nodes with that layer. -/
structure Searching (ix : HnswIndex V) (level : ℕ) (s : Search D) : Prop where
  nodup : s.visited.Nodup
  hasLayer : ∀ id ∈ s.visited, HasLayer ix.nodes id level
  candidates : ∀ c ∈ s.candidates, c.id ∈ s.visited
  found : ∀ c ∈ s.found, c.id ∈ s.visited

variable {s : Search D} {connections : List (List UInt64)} {top : ℕ}

theorem Searching.length_visited (h : Searching ix level s) : s.visited.length ≤ Table.size ix.nodes := by
  have hsub : s.visited ⊆ ix.nodes.keys := fun id hid => (h.hasLayer id hid).mem_keys
  have hle := (h.nodup.subperm hsub).length_le
  rwa [AList.keys, List.keys, length_map] at hle

variable {found : List (DistNode D)} {eps : List UInt64} {lvl : ℕ} {ix' : HnswIndex V} {vector : V}

/-- Visiting one more node. -/
theorem Searching.cons (h : Searching ix level s) {id : UInt64} (hnew : id ∉ s.visited)
    (hid : HasLayer ix.nodes id level) {candidates : List (DistNode D)}
    (hcandidates : ∀ c ∈ candidates, c.id = id ∨ c ∈ s.candidates)
    (hfound : ∀ c ∈ found, c.id = id ∨ c ∈ s.found) :
    Searching ix level ⟨id :: s.visited, candidates, found⟩ where
  nodup := nodup_cons.mpr ⟨hnew, h.nodup⟩
  hasLayer := forall_mem_cons.mpr ⟨hid, h.hasLayer⟩
  candidates c hc := mem_cons.mpr ((hcandidates c hc).imp_right (h.candidates c))
  found c hc := mem_cons.mpr ((hfound c hc).imp_right (h.found c))

/-- An entered node is a candidate and found. -/
theorem enter_spec (q : V) (h : Searching ix level s)
    (hlen : s.candidates.length = s.visited.length ∧ s.found.length = s.visited.length) {ep : UInt64}
    (hep : HasLayer ix.nodes ep level) :
    ∃ s', ix.enter μ q s ep = some s' ∧ Searching ix level s' ∧
      s'.candidates.length = s'.visited.length ∧ s'.found.length = s'.visited.length := by
  unfold enter
  by_cases hseen : s.visited.contains ep = true
  · exact ⟨s, if_pos hseen, h, hlen⟩
  · obtain ⟨node, hnode, -⟩ := id hep
    have hnew : ep ∉ s.visited := fun hmem => hseen (contains_iff_mem.mpr hmem)
    rw [if_neg hseen, hnode]
    refine ⟨_, rfl, h.cons hnew hep (fun c hc => ?_) (fun c hc => ?_), ?_, ?_⟩
    · exact (Heap.mem_push.mp hc).imp_left (congrArg DistNode.id)
    · exact (Heap.mem_push.mp hc).imp_left (congrArg DistNode.id)
    · rw [Heap.length_push, hlen.1, length_cons]
    · rw [Heap.length_push, hlen.2, length_cons]

theorem mem_keepClosest {dn c : DistNode D} (h : c ∈ keepClosest μ ef found dn) : c = dn ∨ c ∈ found := by
  unfold keepClosest at h
  dsimp only at h
  split at h
  · obtain ⟨a, rest, hpop⟩ := Heap.exists_pop (h := μ.found) (l := μ.found.push found dn)
      (ne_nil_of_mem (Heap.mem_push.mpr (Or.inl rfl)))
    rw [hpop, map_some, getD_some] at h
    exact Heap.mem_push.mp (Heap.subset_of_pop hpop h)
  · exact Heap.mem_push.mp h

theorem keepClosest_ne_nil (hne : found ≠ []) (dn : DistNode D) : keepClosest μ ef found dn ≠ [] := by
  unfold keepClosest
  have hpos := length_pos_iff.mpr hne
  have hlen := Heap.length_push (h := μ.found) found dn
  dsimp only
  split
  · obtain ⟨a, rest, hpop⟩ := Heap.exists_pop (h := μ.found) (l := μ.found.push found dn)
      (ne_nil_of_mem (Heap.mem_push.mpr (Or.inl rfl)))
    have hrest := Heap.length_of_pop hpop
    rw [hpop, map_some, getD_some]
    apply ne_nil_of_length_pos
    dsimp only
    omega
  · apply ne_nil_of_length_pos
    omega

/-- A look at a neighbour keeps what was found from being empty, and makes at most the visited node a
candidate. -/
theorem visit_spec (q : V) (ef : ℕ) (h : Searching ix level s) (hne : s.found ≠ []) {nb : UInt64}
    (hnb : HasLayer ix.nodes nb level) :
    ∃ s', ix.visit μ q ef s nb = some s' ∧ Searching ix level s' ∧ s'.found ≠ [] ∧
      s'.candidates.length + s.visited.length ≤ s.candidates.length + s'.visited.length := by
  unfold visit
  by_cases hseen : s.visited.contains nb = true
  · exact ⟨s, if_pos hseen, h, hne, le_rfl⟩
  · obtain ⟨node, hnode, -⟩ := id hnb
    obtain ⟨worst, hworst⟩ := Heap.exists_peek (h := μ.found) hne
    have hnew : nb ∉ s.visited := fun hmem => hseen (contains_iff_mem.mpr hmem)
    rw [if_neg hseen, hnode, bind_eq_bind, bind_some, hworst]
    dsimp only [bind_eq_bind, bind_some]
    split
    · refine ⟨_, rfl, h.cons hnew hnb (fun c hc => ?_) (fun c hc => ?_), keepClosest_ne_nil hne _, ?_⟩
      · exact (Heap.mem_push.mp hc).imp_left (congrArg DistNode.id)
      · exact (mem_keepClosest hc).imp_left (congrArg DistNode.id)
      · rw [Heap.length_push, length_cons]
        omega
    · refine ⟨_, rfl, h.cons hnew hnb (fun c hc => Or.inr hc) (fun c hc => Or.inr hc), hne, ?_⟩
      dsimp only
      rw [length_cons]
      omega

/-- A search in a layer of a sound index returns nodes with that layer. -/
theorem explore_spec (hsound : ix.Sound) (h : Searching ix level s) (hfound : s.found = [] → s.candidates = [])
    {fuel : ℕ} (hfuel : s.candidates.length + Table.size ix.nodes < fuel + s.visited.length) :
    ∃ res, ix.explore μ q ef level fuel s = some res ∧ ∀ r ∈ res, HasLayer ix.nodes r.id level := by
  have hsorted {s : Search D} (h : Searching ix level s) :
      ∀ r ∈ μ.found.intoSortedVec s.found, HasLayer ix.nodes r.id level := fun r hr =>
    h.hasLayer r.id (h.found r ((μ.found.perm_intoSortedVec s.found).subset hr))
  induction fuel generalizing s with
  | zero =>
    have hvisited := h.length_visited
    omega
  | succ fuel ih =>
    rw [explore]
    cases hpop : μ.candidates.pop s.candidates with
    | none => exact ⟨_, rfl, hsorted h⟩
    | some e =>
      obtain ⟨curr, rest⟩ := e
      have hcurr := Heap.mem_of_pop hpop
      have hne : s.found ≠ [] := fun hnil => by
        rw [hfound hnil] at hcurr
        cases hcurr
      obtain ⟨worst, hworst⟩ := Heap.exists_peek (h := μ.found) hne
      rw [hworst]
      dsimp only [bind_eq_bind, bind_some]
      split
      · exact ⟨_, rfl, hsorted h⟩
      · have hrest : Searching ix level { s with candidates := rest } :=
          ⟨h.nodup, h.hasLayer, fun c hc => h.candidates c (Heap.subset_of_pop hpop hc), h.found⟩
        have hlen := Heap.length_of_pop hpop
        -- the neighbours of the candidate are stored with the layer, so each visit goes on
        obtain ⟨s', hs', hsearching, hne', hle⟩ : ∃ s', Transition.run (ix.visit μ q ef)
            { s with candidates := rest } (neighbours ix.nodes curr.id level) = some s' ∧
              Searching ix level s' ∧ s'.found ≠ [] ∧
                s'.candidates.length + s.visited.length ≤ rest.length + s'.visited.length := by
          refine exists_run_of_invariant (fun t nb hnb ht => ?_) ⟨hrest, hne, le_rfl⟩
          obtain ⟨t', ht', hsearching, hne', hle⟩ := visit_spec (μ := μ) q ef ht.1 ht.2.1
            (hsound.neighbour curr.id level nb hnb)
          exact ⟨t', ht', hsearching, hne', by omega⟩
        rw [foldlM_eq_run, hs', bind_some]
        exact ih hsearching (fun hnil => absurd hnil hne') (by omega)

theorem searchLayer_spec (q : V) (ef : ℕ) (hsound : ix.Sound) (heps : ∀ ep ∈ eps, HasLayer ix.nodes ep level) :
    ∃ res, ix.searchLayer μ q eps ef level = some res ∧ ∀ r ∈ res, HasLayer ix.nodes r.id level := by
  obtain ⟨s, hs, hsearching, hcandidates, hfound⟩ : ∃ s, Transition.run (ix.enter μ q) ⟨[], [], []⟩ eps =
      some s ∧ Searching ix level s ∧ s.candidates.length = s.visited.length ∧
        s.found.length = s.visited.length :=
    exists_run_of_invariant (fun s ep hep hs => enter_spec q hs.1 hs.2 (heps ep hep))
      ⟨⟨nodup_nil, by simp, by simp, by simp⟩, rfl, rfl⟩
  rw [searchLayer, foldlM_eq_run, hs]
  refine explore_spec hsound hsearching (fun hnil => ?_) (by omega)
  rw [← length_eq_zero_iff, hcandidates, ← hfound, hnil, length_nil]

/-! ### Walking down -/

theorem descend_spec (q : V) (level : ℕ) (hsound : ix.Sound) (n : ℕ)
    (heps : ∀ ep ∈ eps, HasLayer ix.nodes ep (level + n)) :
    ∃ eps', ix.descend μ q level n eps = some eps' ∧ ∀ ep ∈ eps', HasLayer ix.nodes ep level := by
  induction n generalizing eps with
  | zero => exact ⟨eps, rfl, heps⟩
  | succ n ih =>
    obtain ⟨res, hres, hlayers⟩ := searchLayer_spec (μ := μ) q 1 hsound heps
    rw [descend, ← Nat.add_assoc] at *
    rw [hres, bind_eq_bind, bind_some]
    cases hfirst : res.head? with
    | none => exact ih fun ep hep => (heps ep hep).mono (Nat.le_succ _)
    | some closest =>
      refine ih fun ep hep => ?_
      rw [mem_singleton.mp hep]
      exact (hlayers closest (mem_of_head? hfirst)).mono (Nat.le_succ _)

theorem search_isSome (hsound : ix.Sound) (query : V) (k : ℕ) : (ix.search μ query k).isSome := by
  unfold search
  split
  · rfl
  · rename_i hsize
    obtain ⟨ep, hep⟩ := hsound.entry hsize
    obtain ⟨eps, heps, hlayers⟩ := descend_spec (μ := μ) query 0 hsound ix.maxLevel
      (forall_mem_singleton.mpr (by simpa using hsound.entryLayer ep hep))
    obtain ⟨res, hres, -⟩ := searchLayer_spec (μ := μ) query (max ix.config.efSearch k) hsound hlayers
    rw [hep, bind_eq_bind, bind_some, heps]
    dsimp only [bind_eq_bind, bind_some]
    rw [hres]
    rfl

/-! ### Choosing neighbours -/

/-- The nodes listed for a layer have that layer. -/
def Listed (nodes : Table UInt64 (Node V)) (connections : List (List UInt64)) : Prop :=
  ∀ level, ∀ nb ∈ connections.getD level [], HasLayer nodes nb level

theorem mem_getD_set {α : Type} {ls : List (List α)} {i j : ℕ} {l : List α} {a : α}
    (h : a ∈ (ls.set i l).getD j []) : (j = i ∧ a ∈ l) ∨ (j ≠ i ∧ a ∈ ls.getD j []) := by
  rw [getD_eq_getElem?_getD, getElem?_set] at h
  by_cases hij : i = j
  · rw [if_pos hij] at h
    split at h
    · exact Or.inl ⟨hij.symm, h⟩
    · cases h
  · rw [if_neg hij, ← getD_eq_getElem?_getD] at h
    exact Or.inr ⟨fun hji => hij hji.symm, h⟩

theorem Listed.set {nodes : Table UInt64 (Node V)} (h : Listed nodes connections) {selected : List UInt64}
    (hselected : ∀ nb ∈ selected, HasLayer nodes nb level) :
    Listed nodes (connections.set level selected) := by
  intro l nb hnb
  rcases mem_getD_set hnb with ⟨rfl, hmem⟩ | ⟨-, hmem⟩
  · exact hselected nb hmem
  · exact h l nb hmem

theorem connect_spec (q : V) (hsound : ix.Sound) (level : ℕ) (heps : ∀ ep ∈ eps, HasLayer ix.nodes ep level)
    (hlisted : Listed ix.nodes connections) :
    ∃ connections', ix.connect μ q level eps connections = some connections' ∧
      Listed ix.nodes connections' ∧ connections'.length = connections.length := by
  induction level generalizing eps connections with
  | zero =>
    obtain ⟨res, hres, hlayers⟩ := searchLayer_spec (μ := μ) q ix.config.efConstruction hsound heps
    rw [connect, hres]
    refine ⟨_, rfl, hlisted.set fun nb hnb => ?_, length_set⟩
    obtain ⟨dn, hdn, rfl⟩ := List.mem_map.mp hnb
    exact hlayers dn (mem_of_mem_take hdn)
  | succ level ih =>
    obtain ⟨res, hres, hlayers⟩ := searchLayer_spec (μ := μ) q ix.config.efConstruction hsound heps
    have hselected : ∀ nb ∈ (res.take (ix.mConn (level + 1))).map DistNode.id,
        HasLayer ix.nodes nb (level + 1) := by
      intro nb hnb
      obtain ⟨dn, hdn, rfl⟩ := List.mem_map.mp hnb
      exact hlayers dn (mem_of_mem_take hdn)
    obtain ⟨connections', hconnect, hlisted', hlength⟩ := ih
      (fun nb hnb => (hselected nb hnb).mono (Nat.le_succ level)) (hlisted.set hselected)
    rw [connect, hres]
    exact ⟨connections', hconnect, hlisted', hlength.trans length_set⟩

/-! ### Linking back -/

variable {nodes nodes' nodes'' : Table UInt64 (Node V)} {id : UInt64}

theorem hasLayer_insert (nodes : Table UInt64 (Node V)) (id : UInt64) (node : Node V) (x : UInt64)
    (l : ℕ) : HasLayer (AList.insert id node nodes) x l ↔
      if x = id then l < node.layers.length else HasLayer nodes x l := by
  unfold HasLayer
  rw [Table.lookup_insert_if]
  by_cases hx : x = id
  · simp [hx]
  · simp [hx]

theorem neighbours_insert (nodes : Table UInt64 (Node V)) (id : UInt64) (node : Node V) (x : UInt64)
    (l : ℕ) : neighbours (AList.insert id node nodes) x l =
      if x = id then (node.layers[l]?).getD [] else neighbours nodes x l := by
  unfold neighbours
  rw [Table.lookup_insert_if]
  by_cases hx : x = id
  · simp [hx]
  · simp [hx]

/-- What linking back to a node changes: nodes keep their layers, and the node may be added to lists
in the layers up to `top`. -/
structure Linked (id : UInt64) (top : ℕ) (nodes nodes' : Table UInt64 (Node V)) : Prop where
  hasLayer : ∀ x l, HasLayer nodes' x l ↔ HasLayer nodes x l
  neighbours : ∀ x l, ∀ nb ∈ neighbours nodes' x l, nb ∈ neighbours nodes x l ∨ (nb = id ∧ HasLayer nodes id l)
  above : ∀ x l, top < l → HnswIndex.neighbours nodes' x l = HnswIndex.neighbours nodes x l

theorem Linked.refl (id : UInt64) (top : ℕ) (nodes : Table UInt64 (Node V)) : Linked id top nodes nodes :=
  ⟨fun _ _ => Iff.rfl, fun _ _ _ h => Or.inl h, fun _ _ _ => rfl⟩

theorem Linked.trans (h : Linked id top nodes nodes') (h' : Linked id top nodes' nodes'') :
    Linked id top nodes nodes'' where
  hasLayer x l := (h'.hasLayer x l).trans (h.hasLayer x l)
  neighbours x l nb hnb := by
    rcases h'.neighbours x l nb hnb with hold | ⟨heq, hlayer⟩
    · exact h.neighbours x l nb hold
    · exact Or.inr ⟨heq, (h.hasLayer id l).mp hlayer⟩
  above x l hl := (h'.above x l hl).trans (h.above x l hl)

/-- Every neighbour is stored. -/
def Stored (nodes : Table UInt64 (Node V)) : Prop := ∀ x l, ∀ nb ∈ neighbours nodes x l, HasLayer nodes nb 0

theorem Linked.stored (h : Linked id top nodes nodes') (hstored : Stored nodes) : Stored nodes' := by
  intro x l nb hnb
  rw [h.hasLayer]
  rcases h.neighbours x l nb hnb with hold | ⟨rfl, hlayer⟩
  · exact hstored x l nb hold
  · exact hlayer.mono (Nat.zero_le l)

theorem prune_spec {ids : List UInt64} (h : ∀ nb ∈ ids, HasLayer nodes nb 0) (vector : V) (mConn : ℕ) :
    ∃ pruned, prune μ nodes vector mConn ids = some pruned ∧ pruned ⊆ ids := by
  have hmap : ∀ ids : List UInt64, (∀ nb ∈ ids, HasLayer nodes nb 0) → ∃ dists : List (D × UInt64),
      (ids.mapM fun id => (nodes.lookup id).map fun node => (μ.distance vector node.vector, id)) =
        some dists ∧ dists.map Prod.snd = ids := by
    intro ids
    induction ids with
    | nil => exact fun _ => ⟨[], rfl, rfl⟩
    | cons nb ids ih =>
      intro h
      obtain ⟨⟨node, hnode, -⟩, hrest⟩ := forall_mem_cons.mp h
      obtain ⟨dists, hdists, hids⟩ := ih hrest
      refine ⟨(μ.distance vector node.vector, nb) :: dists, ?_, by rw [map_cons, hids]⟩
      rw [mapM_cons, hnode, hdists]
      rfl
  unfold prune
  split
  · obtain ⟨dists, hdists, hids⟩ := hmap ids h
    refine ⟨_, by rw [hdists]; rfl, fun nb hnb => ?_⟩
    obtain ⟨e, he, rfl⟩ := List.mem_map.mp (mem_of_mem_take hnb)
    rw [← hids]
    exact mem_map_of_mem (mem_mergeSort.mp he)
  · simp

theorem neighbours_of_lookup {node : Node V} (h : nodes.lookup id = some node) (l : ℕ) :
    neighbours nodes id l = (node.layers[l]?).getD [] := by
  rw [neighbours, h]

/-- A node with the layer gets the link; its list in the layer keeps some of the old neighbours. -/
theorem linkBack_spec (hstored : Stored nodes) (hlvl : lvl ≤ top) (hid : HasLayer nodes id lvl) {nbId : UInt64}
    (hnb : HasLayer nodes nbId lvl) (mConn : ℕ) :
    ∃ nodes', linkBack μ mConn lvl id nodes nbId = some nodes' ∧ Linked id top nodes nodes' := by
  obtain ⟨nb, hlookup, hlt⟩ := hnb
  have hlist : nb.layers[lvl]? = some nb.layers[lvl] := getElem?_eq_getElem hlt
  have hold := neighbours_of_lookup hlookup lvl
  rw [hlist, getD_some] at hold
  -- the link and the old neighbours are stored, so that the list can be pruned
  have hmem : ∀ x ∈ nb.layers[lvl] ++ [id], x ∈ neighbours nodes nbId lvl ∨ x = id := by simp [hold]
  have hall : ∀ x ∈ nb.layers[lvl] ++ [id], HasLayer nodes x 0 := by
    intro x hx
    rcases hmem x hx with hx' | rfl
    · exact hstored nbId lvl x hx'
    · exact hid.mono (Nat.zero_le lvl)
  obtain ⟨linked, hlinked, hsub⟩ := prune_spec (μ := μ) hall nb.vector mConn
  refine ⟨AList.insert nbId { nb with layers := nb.layers.set lvl linked } nodes, ?_, ?_, ?_, ?_⟩
  · rw [linkBack, hlookup]
    dsimp only
    rw [hlist, bind_eq_bind, bind_some, hlinked]
    rfl
  · intro x l
    rw [hasLayer_insert, length_set]
    by_cases hx : x = nbId
    · rw [if_pos hx, hx]
      refine ⟨fun hl => ⟨nb, hlookup, hl⟩, fun ⟨node, hnode, hl⟩ => ?_⟩
      rw [hlookup, Option.some.injEq] at hnode
      exact hnode ▸ hl
    · rw [if_neg hx]
  · intro x l y hy
    rw [neighbours_insert] at hy
    by_cases hx : x = nbId
    · subst hx
      rw [if_pos rfl, ← getD_eq_getElem?_getD] at hy
      rcases mem_getD_set hy with ⟨rfl, hnew⟩ | ⟨-, hrest⟩
      · exact (hmem y (hsub hnew)).imp_right fun heq => ⟨heq, hid⟩
      · rw [getD_eq_getElem?_getD, ← neighbours_of_lookup hlookup] at hrest
        exact Or.inl hrest
    · rw [if_neg hx] at hy
      exact Or.inl hy
  · intro x l hl
    rw [neighbours_insert]
    by_cases hx : x = nbId
    · subst hx
      rw [if_pos rfl, getElem?_set_ne (by omega), neighbours_of_lookup hlookup]
    · rw [if_neg hx]

/-- The links of one layer. -/
theorem linkLayer_spec (hstored : Stored nodes) (hlvl : lvl ≤ top) (hid : HasLayer nodes id lvl)
    {nbs : List UInt64} (hnbs : ∀ nb ∈ nbs, HasLayer nodes nb lvl) (mConn : ℕ) :
    ∃ nodes', nbs.foldlM (linkBack μ mConn lvl id) nodes = some nodes' ∧ Linked id top nodes nodes' := by
  rw [foldlM_eq_run]
  refine exists_run_of_invariant (I := Linked id top nodes) (fun mid nb hnb hmid => ?_)
    (Linked.refl id top nodes)
  obtain ⟨next, hnext, hlinked⟩ := linkBack_spec (μ := μ) (hmid.stored hstored) hlvl
    ((hmid.hasLayer id lvl).mpr hid) ((hmid.hasLayer nb lvl).mpr (hnbs nb hnb)) mConn
  exact ⟨next, hnext, hmid.trans hlinked⟩

theorem linkLayers_spec (hstored : Stored nodes) (hid : HasLayer nodes id top)
    (hlisted : Listed nodes connections) (mConn : ℕ → ℕ) :
    ∃ nodes', (List.range (top + 1)).foldlM (fun nodes lvl =>
      (connections.getD lvl []).foldlM (linkBack μ (mConn lvl) lvl id) nodes) nodes = some nodes' ∧
        Linked id top nodes nodes' := by
  rw [foldlM_eq_run]
  refine exists_run_of_invariant (I := Linked id top nodes) (fun mid lvl hmem hmid => ?_)
    (Linked.refl id top nodes)
  have hlvl : lvl ≤ top := Nat.le_of_lt_succ (mem_range.mp hmem)
  obtain ⟨next, hnext, hlinked⟩ := linkLayer_spec (μ := μ) (hmid.stored hstored) hlvl
    ((hmid.hasLayer id lvl).mpr (hid.mono hlvl))
    (fun nb hnb => (hmid.hasLayer nb lvl).mpr (hlisted lvl nb hnb)) (mConn lvl)
  exact ⟨next, hnext, hmid.trans hlinked⟩

/-! ### Insertions -/

theorem lookup_of_empty (h : Table.size nodes = 0) (id : UInt64) : nodes.lookup id = none := by
  rw [AList.lookup_eq_none, AList.mem_keys, AList.keys, List.keys, length_eq_zero_iff.mp h]
  exact not_mem_nil

theorem not_hasLayer_of_empty (h : Table.size nodes = 0) (id : UInt64) (level : ℕ) :
    ¬ HasLayer nodes id level := by
  rintro ⟨node, hnode, -⟩
  rw [lookup_of_empty h] at hnode
  cases hnode

/-- The table with the new node, before it is linked back. -/
structure Replaced (ix : HnswIndex V) (id : UInt64) (level : ℕ) (nodes : Table UInt64 (Node V)) :
    Prop where
  hasLayer : ∀ x l, HasLayer nodes x l ↔ if x = id then l ≤ level else HasLayer ix.nodes x l
  own : ∀ l, ∀ nb ∈ neighbours nodes id l, HasLayer nodes nb l
  others : ∀ x l, x ≠ id → neighbours nodes x l = neighbours ix.nodes x l

theorem replaced (id : UInt64) {level : ℕ} (hlisted : Listed ix.nodes connections)
    (hlength : connections.length = level + 1) (vector : V) :
    Replaced ix id level (AList.insert id ⟨vector, connections⟩ ix.nodes) := by
  have hlayer (x : UInt64) (l : ℕ) : HasLayer (AList.insert id ⟨vector, connections⟩ ix.nodes) x l ↔
      if x = id then l ≤ level else HasLayer ix.nodes x l := by simp [hasLayer_insert, hlength]
  refine ⟨hlayer, fun l nb hnb => ?_, fun x l hx => by rw [neighbours_insert, if_neg hx]⟩
  rw [neighbours_insert, if_pos rfl, ← getD_eq_getElem?_getD] at hnb
  rw [hlayer]
  split
  · by_contra hgt
    have hnone : connections[l]? = none := getElem?_eq_none (by omega)
    rw [getD_eq_getElem?_getD, hnone] at hnb
    cases hnb
  · exact hlisted l nb hnb

theorem Replaced.stored {level : ℕ} (h : Replaced ix id level nodes) (hsound : ix.Sound) : Stored nodes := by
  intro x l nb hnb
  by_cases hx : x = id
  · rw [hx] at hnb
    exact (h.own l nb hnb).mono (Nat.zero_le l)
  · rw [h.others x l hx] at hnb
    rw [h.hasLayer]
    split
    · omega
    · exact (hsound.neighbour x l nb hnb).mono (Nat.zero_le l)

/-- In a sound index an insertion returns: the node is replaced, then linked back. -/
theorem insertAt_spec (hsound : ix.Sound) (hsize : Table.size ix.nodes ≠ 0) (id : UInt64) (vector : V)
    (level : ℕ) : ∃ mid nodes, Replaced ix id level mid ∧ Linked id (min level ix.maxLevel) mid nodes ∧
      ix.insertAt μ id vector level = some
        { ix with
          nodes := nodes
          entryPoint := if level > ix.maxLevel then some id else ix.entryPoint
          maxLevel := max level ix.maxLevel } := by
  obtain ⟨ep, hep⟩ := hsound.entry hsize
  have hentry := hsound.entryLayer ep hep
  obtain ⟨eps, hdescend, heps⟩ : ∃ eps, ix.descend μ vector level (ix.maxLevel - level) [ep] = some eps ∧
      ∀ ep ∈ eps, HasLayer ix.nodes ep (min level ix.maxLevel) := by
    by_cases hlevel : ix.maxLevel ≤ level
    · refine ⟨[ep], by rw [Nat.sub_eq_zero_of_le hlevel, descend], ?_⟩
      rw [Nat.min_eq_right hlevel]
      exact forall_mem_singleton.mpr hentry
    · rw [Nat.min_eq_left (by omega)]
      refine descend_spec vector level hsound _ (forall_mem_singleton.mpr ?_)
      rwa [Nat.add_sub_of_le (by omega)]
  have hnone : Listed ix.nodes (List.replicate (level + 1) []) := by
    intro l nb hnb
    rw [getD_eq_getElem?_getD, getElem?_replicate] at hnb
    split at hnb
    · cases hnb
    · cases hnb
  obtain ⟨connections, hconnect, hlisted, hlength⟩ := connect_spec (μ := μ) vector hsound _ heps hnone
  rw [length_replicate] at hlength
  have hreplaced := replaced id hlisted hlength vector
  have hlisted' : Listed (AList.insert id ⟨vector, connections⟩ ix.nodes) connections := by
    intro l nb hnb
    refine hreplaced.own l nb ?_
    rw [getD_eq_getElem?_getD] at hnb
    rw [neighbours_insert, if_pos rfl]
    exact hnb
  have hid := (hreplaced.hasLayer id (min level ix.maxLevel)).mpr (by simp)
  have hstored := hreplaced.stored hsound
  obtain ⟨nodes, hnodes, hlinked⟩ := linkLayers_spec (μ := μ) hstored hid hlisted' ix.mConn
  refine ⟨_, nodes, hreplaced, hlinked, ?_⟩
  unfold insertAt
  rw [if_neg hsize, hep, bind_eq_bind, bind_some, hdescend]
  dsimp only [bind_eq_bind, bind_some]
  rw [hconnect, bind_some, hnodes, bind_some]
  split
  · rename_i hlevel
    rw [Nat.max_eq_left (by omega)]
  · rename_i hlevel
    rw [Nat.max_eq_right (by omega)]

/-- The replaced node is not the entry point of a level it loses, and no other node lists it in a layer
that it loses. -/
def Keeps (ix : HnswIndex V) (id : UInt64) (level : ℕ) : Prop :=
  (ix.entryPoint = some id → ix.maxLevel ≤ level) ∧ ∀ x l, x ≠ id → id ∈ neighbours ix.nodes x l → l ≤ level

theorem exists_insertAt (hsound : ix.Sound) (id : UInt64) (vector : V) (level : ℕ) :
    ∃ ix', ix.insertAt μ id vector level = some ix' := by
  by_cases hsize : Table.size ix.nodes = 0
  · exact ⟨_, if_pos hsize⟩
  · obtain ⟨mid, nodes, -, -, hinsert⟩ := insertAt_spec (μ := μ) hsound hsize id vector level
    exact ⟨_, hinsert⟩

theorem insertAt_empty (hsize : Table.size ix.nodes = 0) {id : UInt64} {level : ℕ}
    (h : ix.insertAt μ id vector level = some ix') : ix'.Sound := by
  rw [insertAt, if_pos hsize, Option.some.injEq] at h
  subst h
  refine ⟨fun _ => ⟨id, rfl⟩, fun ep hep => ?_, fun x l nb hnb => ?_⟩
  · cases hep
    rw [hasLayer_insert, if_pos rfl, length_replicate]
    exact Nat.lt_succ_self level
  · rw [neighbours_insert] at hnb
    split at hnb
    · rw [getElem?_replicate] at hnb
      split at hnb
      · cases hnb
      · cases hnb
    · rw [neighbours, lookup_of_empty hsize] at hnb
      cases hnb

/-- **An insertion into a sound index leaves it sound if and only if it keeps the layers of the node
that others need.** -/
theorem sound_insertAt (hsound : ix.Sound) {id : UInt64} {level : ℕ}
    (h : ix.insertAt μ id vector level = some ix') : ix'.Sound ↔ ix.Keeps id level := by
  by_cases hsize : Table.size ix.nodes = 0
  · refine iff_of_true (insertAt_empty hsize h) ⟨fun hep => ?_, fun x l _ hmem => ?_⟩
    · exact absurd (hsound.entryLayer id hep) (not_hasLayer_of_empty hsize _ _)
    · exact absurd (hsound.neighbour x l id hmem) (not_hasLayer_of_empty hsize _ _)
  · obtain ⟨mid, nodes, hreplaced, hlinked, hinsert⟩ := insertAt_spec (μ := μ) hsound hsize id vector level
    obtain rfl := Option.some.inj (hinsert.symm.trans h)
    have hlayer (x : UInt64) (l : ℕ) : HasLayer nodes x l ↔
        if x = id then l ≤ level else HasLayer ix.nodes x l :=
      (hlinked.hasLayer x l).trans (hreplaced.hasLayer x l)
    constructor
    · intro hsound'
      refine ⟨fun hep => ?_, fun x l hx hmem => ?_⟩
      · -- the entry point stays unless the level rises
        by_contra hlt
        have hstays := hsound'.entryLayer id (by
          dsimp only
          rw [if_neg (by omega), hep])
        dsimp only at hstays
        rw [hlayer, if_pos rfl] at hstays
        omega
      · -- lists above the level are left as they are
        by_contra hlt
        have hkept : id ∈ neighbours nodes x l := by
          rw [hlinked.above x l (by omega), hreplaced.others x l hx]
          exact hmem
        have hlost := hsound'.neighbour x l id hkept
        dsimp only at hlost
        rw [hlayer, if_pos rfl] at hlost
        omega
    · rintro ⟨hentry, hothers⟩
      refine ⟨fun _ => ?_, fun ep hep => ?_, fun x l nb hnb => ?_⟩
      · dsimp only
        split
        · simp
        · exact hsound.entry hsize
      · dsimp only at hep ⊢
        rw [hlayer]
        split at hep
        · rename_i hrises
          cases hep
          rw [if_pos rfl]
          omega
        · rename_i hstays
          rw [Nat.max_eq_right (by omega)]
          split
          · rename_i heq
            exact hentry (heq ▸ hep)
          · exact hsound.entryLayer ep hep
      · dsimp only at hnb ⊢
        rcases hlinked.neighbours x l nb hnb with hold | ⟨rfl, hown⟩
        · by_cases hx : x = id
          · rw [hx] at hold
            exact (hlinked.hasLayer nb l).mpr (hreplaced.own l nb hold)
          · rw [hreplaced.others x l hx] at hold
            rw [hlayer]
            split
            · rename_i heq
              exact hothers x l hx (heq ▸ hold)
            · exact hsound.neighbour x l nb hold
        · exact (hlinked.hasLayer nb l).mpr hown

/-! ### Runs -/

/-- An insertion with the level that was drawn. -/
structure Call (V : Type) where
  id : UInt64
  vector : V
  level : ℕ

def step (μ : Metric V D S) (ix : HnswIndex V) (c : Call V) : Option (HnswIndex V) :=
  ix.insertAt μ c.id c.vector c.level

/-- The index is sound, and no insertion or search comes upon a node or a layer that is not there. -/
structure Safe (μ : Metric V D S) (ix : HnswIndex V) : Prop where
  sound : ix.Sound
  insertAt : ∀ id vector level, (ix.insertAt μ id vector level).isSome
  search : ∀ query k, (ix.search μ query k).isSome

theorem Sound.safe (h : ix.Sound) : ix.Safe μ where
  sound := h
  insertAt id vector level := by
    obtain ⟨ix', hix'⟩ := exists_insertAt (μ := μ) h id vector level
    rw [hix']
    rfl
  search := search_isSome h

theorem sound_new (config : HnswConfig) : (new config : HnswIndex V).Sound where
  entry h := absurd rfl h
  entryLayer _ h := by cases h
  neighbour _ _ _ h := by cases h

/-- **The index is safe in every state of a run of insertions if and only if each of them keeps the
layers that others need.** -/
theorem safe_throughout_iff (μ : Metric V D S) (config : HnswConfig) (calls : List (Call V)) :
    Transition.Throughout (step μ) (Safe μ) (new config) calls ↔
      Transition.Along (step μ) (fun ix c => ix.Keeps c.id c.level) (new config) calls := by
  have hside : Transition.Along (step μ) (fun _ _ => True) (new config) calls :=
    Transition.along_of_forall (fun _ _ _ => trivial) _
  refine Transition.throughout_iff_along_of_leaves_of_side (I := Sound) (fun ix h => h.safe)
    (fun ix c h hstuck => ?_) (fun ix c ix' h _ hok hstep => ?_)
    (fun ix c ix' h _ hno hstep hsafe => ?_) (sound_new config) hside
  · obtain ⟨ix', hix'⟩ := exists_insertAt (μ := μ) h c.id c.vector c.level
    rw [step, hix'] at hstuck
    cases hstuck
  · exact (sound_insertAt h hstep).mpr hok
  · exact hno ((sound_insertAt h hstep).mp hsafe.sound)

/-! ### A lost layer -/

/-- Numbers by their difference. -/
def differences : Metric ℕ ℕ ℕ where
  distance q v := max q v - min q v
  lt a b := decide (a < b)
  similarity dist := dist
  candidates := Heap.ofSort _
  found := Heap.ofSort _

/-- The second node is inserted again with fewer layers; the levels are those that the index draws for
`m = 4`. -/
def lostLayer : List (Call ℕ) := [⟨1, 10, 2⟩, ⟨2, 20, 3⟩, ⟨2, 21, 2⟩, ⟨3, 30, 2⟩]

/-- **A node that is inserted again with fewer layers leaves the entry point without its layer, and
an insertion panics.** -/
theorem reinsert_loses_layer :
    (((Transition.run (step differences) (new ⟨4, 50, 64⟩) (lostLayer.take 3)).map fun ix =>
        (ix.entryPoint, ix.maxLevel, (ix.nodes.lookup 2).map fun node => node.layers.length)) =
          some (some 2, 3, some 3)) ∧
      (Transition.run (step differences) (new ⟨4, 50, 64⟩) (lostLayer ++ [⟨4, 40, 10⟩]) = none) ∧
      (Transition.run (step differences) (new ⟨4, 50, 64⟩) lostLayer).isSome ∧
      ¬ Transition.Throughout (step differences) (Safe differences) (new ⟨4, 50, 64⟩) lostLayer := by
  have hlost : ((Transition.run (step differences) (new ⟨4, 50, 64⟩) (lostLayer.take 3)).map fun ix =>
      (ix.entryPoint, ix.maxLevel, (ix.nodes.lookup 2).map fun node => node.layers.length)) =
        some (some 2, 3, some 3) := by decide +kernel
  refine ⟨hlost, by decide +kernel, by decide +kernel, fun hsafe => ?_⟩
  obtain ⟨ix, hix, hfields⟩ := Option.map_eq_some_iff.mp hlost
  obtain ⟨hentry, hrest⟩ := Prod.mk.inj hfields
  obtain ⟨hlevel, hlayers⟩ := Prod.mk.inj hrest
  obtain ⟨node, hnode, hlt⟩ := (hsafe _ ix ( take_prefix 3 _) hix).sound.entryLayer 2 hentry
  rw [hnode, Option.map_some, Option.some.injEq] at hlayers
  omega

end HnswIndex

end CenDB.Vectors
