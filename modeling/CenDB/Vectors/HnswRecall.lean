import CenDB.Vectors.HnswSearch

/-! # Recall

A search returns vectors that were inserted, each once and the closest first (`search_answers`).  A search
for as many vectors as there are returns those that the links of the ground layer lead to from the node
that the descent arrives at.

Links are mutual, and lead from every node to every other, until a list of neighbours is pruned
(`Meshed`).  A list is pruned when it has more than `4 * m` neighbours, so up to `4 * m + 1` vectors are all
found.  `hub_loses_vector` is an index with one more, in which a vector is never found again. -/

namespace CenDB.Vectors

open List Table Transition

namespace HnswIndex

variable {V D S : Type} {μ : Metric V D S} {ix ix' : HnswIndex V} {q : V} {level : ℕ}

/-! ### The end of the descent -/

variable {eps : List UInt64} {query : V}

theorem descend_single {n : ℕ} {ep : UInt64} (h : ix.descend μ q level n [ep] = some eps) : ∃ e, eps = [e] := by
  induction n generalizing ep with
  | zero => exact ⟨ep, (Option.some.inj h).symm⟩
  | succ n ih =>
    rw [descend, Option.bind_eq_bind, Option.bind_eq_some_iff] at h
    obtain ⟨res, hres, h⟩ := h
    obtain ⟨closest, rest, rfl⟩ := exists_cons_of_ne_nil (searchLayer_ne_nil (cons_ne_nil ep []) hres)
    exact ih h

/-- The descent to the ground layer ends in the node. -/
def ArrivesAt (μ : Metric V D S) (ix : HnswIndex V) (query : V) (e : UInt64) : Prop :=
  ∃ ep, ix.entryPoint = some ep ∧ ix.descend μ query 0 ix.maxLevel [ep] = some [e]

/-- A search is the first part of a search in the ground layer. -/
theorem search_cases (hsize : Table.size ix.nodes ≠ 0) {k : ℕ} {results : List (UInt64 × S)}
    (h : ix.search μ query k = some results) : ∃ e res, ix.ArrivesAt μ query e ∧
      ix.searchLayer μ query [e] (max ix.config.efSearch k) 0 = some res ∧
        results = (res.take k).map fun dn => (dn.id, μ.similarity dn.dist) := by
  rw [search, if_neg hsize, Option.bind_eq_bind, Option.bind_eq_some_iff] at h
  obtain ⟨ep, hep, h⟩ := h
  rw [Option.bind_eq_bind, Option.bind_eq_some_iff] at h
  obtain ⟨eps, heps, h⟩ := h
  obtain ⟨e, rfl⟩ := descend_single heps
  dsimp only at h
  rw [Option.bind_eq_bind, Option.bind_eq_some_iff] at h
  obtain ⟨res, hres, h⟩ := h
  exact ⟨e, res, ⟨ep, hep, heps⟩, hres, (Option.some.inj h).symm⟩

/-! ### What an insertion changes -/

/-- The parts of a node that links leave as they are. -/
def shape (node : Node V) : V × ℕ := (node.vector, node.layers.length)

variable {nodes nodes' : Table UInt64 (Node V)} {id nbId : UInt64} {mConn : ℕ}

theorem linkBack_cases (h : linkBack μ mConn level id nodes nbId = some nodes') :
    (nodes.lookup nbId = none ∧ nodes' = nodes) ∨ ∃ nb old linked, nodes.lookup nbId = some nb ∧
      nb.layers[level]? = some old ∧ prune μ nodes nb.vector mConn (old ++ [id]) = some linked ∧
        nodes' = AList.insert nbId { nb with layers := nb.layers.set level linked } nodes := by
  unfold linkBack at h
  cases hlookup : nodes.lookup nbId with
  | none =>
    rw [hlookup] at h
    exact Or.inl ⟨rfl, (Option.some.inj h).symm⟩
  | some nb =>
    rw [hlookup] at h
    dsimp only at h
    rw [Option.bind_eq_bind, Option.bind_eq_some_iff] at h
    obtain ⟨old, hold, h⟩ := h
    rw [Option.bind_eq_some_iff] at h
    obtain ⟨linked, hlinked, h⟩ := h
    exact Or.inr ⟨nb, old, linked, rfl, hold, hlinked, (Option.some.inj h).symm⟩

theorem shape_linkBack (h : linkBack μ mConn level id nodes nbId = some nodes') (x : UInt64) :
    (nodes'.lookup x).map shape = (nodes.lookup x).map shape := by
  rcases linkBack_cases h with ⟨-, rfl⟩ | ⟨nb, old, linked, hnb, -, -, rfl⟩
  · rfl
  · rw [lookup_insert_if]
    split
    · rename_i hx
      rw [hx, hnb, Option.map_some, Option.map_some, shape, shape, length_set]
    · rfl

variable {l : ℕ} {x : UInt64} {connections connections' : List (List UInt64)}

/-- Links of another layer stay. -/
theorem neighbours_linkBack_of_ne (h : linkBack μ mConn level id nodes nbId = some nodes') (hl : l ≠ level)
    (x : UInt64) : neighbours nodes' x l = neighbours nodes x l := by
  rcases linkBack_cases h with ⟨-, rfl⟩ | ⟨nb, old, linked, hnb, -, -, rfl⟩
  · rfl
  · rw [neighbours_insert]
    split
    · rename_i hx
      rw [hx, getElem?_set_ne (Ne.symm hl), neighbours_of_lookup hnb]
    · rfl

/-- A list that has room gets the link. -/
theorem neighbours_linkBack (h : linkBack μ mConn level id nodes nbId = some nodes')
    (hlayer : HasLayer nodes nbId level) (hroom : (neighbours nodes nbId level).length < mConn * 2) (x : UInt64) :
    neighbours nodes' x level = neighbours nodes x level ++ if x = nbId then [id] else [] := by
  obtain ⟨node, hnode, hlt⟩ := hlayer
  rcases linkBack_cases h with ⟨hnone, -⟩ | ⟨nb, old, linked, hnb, hold, hlinked, rfl⟩
  · rw [hnone] at hnode
    cases hnode
  · rw [hnb, Option.some.injEq] at hnode
    subst hnode
    have hlist : neighbours nodes nbId level = old := by
      rw [neighbours_of_lookup hnb, hold, Option.getD_some]
    rw [hlist] at hroom
    rw [prune, if_neg (by rw [length_append, length_singleton]; omega), Option.some.injEq] at hlinked
    rw [neighbours_insert]
    split
    · rename_i hx
      rw [hx, hlist, getElem?_set_self hlt, Option.getD_some, hlinked]
    · rw [append_nil]

theorem hasLayer_of_shape (h : ∀ x, (nodes'.lookup x).map shape = (nodes.lookup x).map shape)
    (hlayer : HasLayer nodes x l) : HasLayer nodes' x l := by
  obtain ⟨node, hnode, hl⟩ := hlayer
  have hx := h x
  rw [hnode, Option.map_some, Option.map_eq_some_iff] at hx
  obtain ⟨node', hnode', hshape⟩ := hx
  have hlength := congrArg Prod.snd hshape
  exact ⟨node', hnode', by rw [show node'.layers.length = _ from hlength]; exact hl⟩

/-- The links of a layer, where all lists have room. -/
theorem neighbours_linkLayer {nbs : List UInt64} (hnodup : nbs.Nodup)
    (hnbs : ∀ nb ∈ nbs, HasLayer nodes nb level ∧ (neighbours nodes nb level).length < mConn * 2)
    (h : Transition.run (linkBack μ mConn level id) nodes nbs = some nodes') (x : UInt64) :
    neighbours nodes' x level = neighbours nodes x level ++ if x ∈ nbs then [id] else [] := by
  induction nbs generalizing nodes with
  | nil =>
    rw [run_nil, Option.some.injEq] at h
    rw [h, if_neg not_mem_nil, append_nil]
  | cons nb nbs ih =>
    obtain ⟨mid, hmid, hrest⟩ := run_cons_some.mp h
    rw [nodup_cons] at hnodup
    rw [forall_mem_cons] at hnbs
    have hlinked := neighbours_linkBack hmid hnbs.1.1 hnbs.1.2
    have hkept : ∀ y ∈ nbs, HasLayer mid y level ∧ (neighbours mid y level).length < mConn * 2 := by
      intro y hy
      have hne : y ≠ nb := fun heq => hnodup.1 (heq ▸ hy)
      rw [hlinked y, if_neg hne, append_nil]
      exact ⟨hasLayer_of_shape (shape_linkBack hmid) (hnbs.2 y hy).1, (hnbs.2 y hy).2⟩
    rw [ih hnodup.2 hkept hrest, hlinked]
    by_cases hx : x = nb
    · rw [if_pos hx, if_neg (hx ▸ hnodup.1), if_pos (by simp [hx]), append_nil]
    · simp [hx]

/-! ### Insertions -/

/-- The neighbours that are chosen for a new node in the ground layer. -/
structure Chosen (ix : HnswIndex V) (nbs : List UInt64) : Prop where
  ne_nil : nbs ≠ []
  nodup : nbs.Nodup
  stored : ∀ nb ∈ nbs, nb ∈ ix.nodes

theorem chosen_selected {ef : ℕ} (heps : eps ≠ []) (hm : 0 < mConn) {res : List (DistNode D)}
    (hres : ix.searchLayer μ q eps ef level = some res) :
    Chosen ix ((res.take mConn).map DistNode.id) where
  ne_nil hnil := by
    have hne := searchLayer_ne_nil heps hres
    rw [map_eq_nil_iff, take_eq_nil_iff] at hnil
    exact hnil.elim (by omega) hne
  nodup := (searchLayer_ranked hres).nodup.sublist ((take_sublist mConn res).map DistNode.id)
  stored nb hnb := by
    obtain ⟨dn, hdn, rfl⟩ := List.mem_map.mp hnb
    exact ((searchLayer_ranked hres).isAt dn (mem_of_mem_take hdn)).mem

theorem mConn_pos (hm : 0 < ix.config.m) (level : ℕ) : 0 < ix.mConn level := by
  unfold mConn
  split <;> omega

theorem length_connect (h : ix.connect μ q level eps connections = some connections') :
    connections'.length = connections.length := by
  induction level generalizing eps connections with
  | zero =>
    rw [connect, Option.bind_eq_bind, Option.bind_eq_some_iff] at h
    obtain ⟨res, -, h⟩ := h
    rw [← Option.some.inj h, length_set]
  | succ level ih =>
    rw [connect, Option.bind_eq_bind, Option.bind_eq_some_iff] at h
    obtain ⟨res, -, h⟩ := h
    exact (ih h).trans length_set

theorem chosen_connect (hm : 0 < ix.config.m) (heps : eps ≠ []) (hlength : 0 < connections.length)
    (h : ix.connect μ q level eps connections = some connections') :
    Chosen ix (connections'.getD 0 []) := by
  induction level generalizing eps connections with
  | zero =>
    rw [connect, Option.bind_eq_bind, Option.bind_eq_some_iff] at h
    obtain ⟨res, hres, h⟩ := h
    cases h
    rw [getD_eq_getElem?_getD, getElem?_set_self hlength, Option.getD_some]
    exact chosen_selected heps (mConn_pos hm 0) hres
  | succ level ih =>
    rw [connect, Option.bind_eq_bind, Option.bind_eq_some_iff] at h
    obtain ⟨res, hres, h⟩ := h
    have hselected := chosen_selected heps (mConn_pos hm (level + 1)) hres
    exact ih hselected.ne_nil (by rwa [length_set]) h

/-- The links of a new node, layer by layer. -/
def linkLayers (μ : Metric V D S) (ix : HnswIndex V) (id : UInt64) (connections : List (List UInt64))
    (nodes : Table UInt64 (Node V)) (lvl : ℕ) : Option (Table UInt64 (Node V)) :=
  Transition.run (linkBack μ (ix.mConn lvl) lvl id) nodes (connections.getD lvl [])

theorem insertAt_cases (hsize : Table.size ix.nodes ≠ 0) {vector : V}
    (h : ix.insertAt μ id vector level = some ix') : ∃ ep eps connections,
      ix.descend μ vector level (ix.maxLevel - level) [ep] = some eps ∧
      ix.connect μ vector (min level ix.maxLevel) eps (List.replicate (level + 1) []) = some connections ∧
      Transition.run (ix.linkLayers μ id connections) (AList.insert id ⟨vector, connections⟩ ix.nodes)
        (List.range (min level ix.maxLevel + 1)) = some ix'.nodes ∧ ix'.config = ix.config := by
  rw [insertAt, if_neg hsize, Option.bind_eq_bind, Option.bind_eq_some_iff] at h
  obtain ⟨ep, -, h⟩ := h
  rw [Option.bind_eq_bind, Option.bind_eq_some_iff] at h
  obtain ⟨eps, heps, h⟩ := h
  dsimp only at h
  rw [Option.bind_eq_bind, Option.bind_eq_some_iff] at h
  obtain ⟨connections, hconnect, h⟩ := h
  rw [Option.bind_eq_bind, Option.bind_eq_some_iff] at h
  obtain ⟨nodes, hnodes, h⟩ := h
  have hlayers : ∀ nodes lvl, (connections.getD lvl []).foldlM (linkBack μ (ix.mConn lvl) lvl id) nodes =
      ix.linkLayers μ id connections nodes lvl := fun nodes lvl => foldlM_eq_run _ _
  simp only [hlayers] at hnodes
  rw [foldlM_eq_run] at hnodes
  refine ⟨ep, eps, connections, heps, hconnect, ?_⟩
  split at h
  · cases h
    exact ⟨hnodes, rfl⟩
  · cases h
    exact ⟨hnodes, rfl⟩

theorem shape_linkLayers {lvls : List ℕ}
    (h : Transition.run (ix.linkLayers μ id connections) nodes lvls = some nodes') (x : UInt64) :
    (nodes'.lookup x).map shape = (nodes.lookup x).map shape :=
  run_preserves (I := fun mid => (mid.lookup x).map shape = (nodes.lookup x).map shape)
    (fun _ _ _ hmid hstep => run_preserves
      (I := fun mid => (mid.lookup x).map shape = (nodes.lookup x).map shape)
      (fun _ _ _ hmid hlink => (shape_linkBack hlink x).trans hmid) hmid hstep) rfl h

/-- **A new node keeps the vectors of the others.** -/
theorem shape_insertAt (h : ix.insertAt μ id q level = some ix') (x : UInt64) :
    (ix'.nodes.lookup x).map shape = if x = id then some (q, level + 1) else (ix.nodes.lookup x).map shape := by
  by_cases hsize : Table.size ix.nodes = 0
  · rw [insertAt, if_pos hsize, Option.some.injEq] at h
    subst h
    dsimp only
    rw [lookup_insert_if, apply_ite (Option.map shape)]
    simp [shape]
  · obtain ⟨ep, eps, connections, -, hconnect, hrun, -⟩ := insertAt_cases hsize h
    rw [shape_linkLayers hrun, lookup_insert_if, apply_ite (Option.map shape)]
    simp [shape, length_connect hconnect]

theorem config_insertAt (h : ix.insertAt μ id q level = some ix') : ix'.config = ix.config := by
  by_cases hsize : Table.size ix.nodes = 0
  · rw [insertAt, if_pos hsize, Option.some.injEq] at h
    rw [← h]
  · obtain ⟨-, -, -, -, -, -, hconfig⟩ := insertAt_cases hsize h
    exact hconfig

/-- **A new node is linked to and from the neighbours that are chosen for it**, where all lists have
room. -/
theorem neighbours_insertAt (hsize : Table.size ix.nodes ≠ 0) (hm : 0 < ix.config.m) (hnew : id ∉ ix.nodes)
    (hlayers : ∀ x ∈ ix.nodes, HasLayer ix.nodes x 0)
    (hroom : ∀ x, (neighbours ix.nodes x 0).length < 4 * ix.config.m)
    (h : ix.insertAt μ id q level = some ix') : ∃ nbs, Chosen ix nbs ∧ ∀ x, neighbours ix'.nodes x 0 =
        if x = id then nbs else neighbours ix.nodes x 0 ++ if x ∈ nbs then [id] else [] := by
  obtain ⟨ep, eps, connections, hdescend, hconnect, hrun, -⟩ := insertAt_cases hsize h
  obtain ⟨e, rfl⟩ := descend_single hdescend
  have hchosen := chosen_connect hm (cons_ne_nil e []) (by rw [length_replicate]; omega) hconnect
  refine ⟨connections.getD 0 [], hchosen, fun x => ?_⟩
  -- the ground layer is linked first, and the layers above it leave it as it is
  rw [range_succ_eq_map] at hrun
  obtain ⟨ground, hground, habove⟩ := run_cons_some.mp hrun
  have hkept : neighbours ix'.nodes x 0 = neighbours ground x 0 := by
    have hlink : ∀ mid lvl mid', neighbours mid x 0 = neighbours ground x 0 → lvl ≠ 0 →
        ix.linkLayers μ id connections mid lvl = some mid' → neighbours mid' x 0 = neighbours ground x 0 :=
      fun mid lvl mid' hmid hlvl hstep => run_preserves
        (I := fun mid => neighbours mid x 0 = neighbours ground x 0)
        (fun _ _ _ hmid hlink => (neighbours_linkBack_of_ne hlink (Ne.symm hlvl) x).trans hmid) hmid hstep
    refine run_invariant (I := fun mid => neighbours mid x 0 = neighbours ground x 0) hlink rfl
      (along_of_forall (fun _ lvl hlvl => ?_) ground) habove
    obtain ⟨l, -, rfl⟩ := List.mem_map.mp hlvl
    exact Nat.succ_ne_zero l
  have hinserted := neighbours_insert ix.nodes id ⟨q, connections⟩
  have hnbs : ∀ nb ∈ connections.getD 0 [], HasLayer (AList.insert id ⟨q, connections⟩ ix.nodes) nb 0 ∧
      (neighbours (AList.insert id ⟨q, connections⟩ ix.nodes) nb 0).length < ix.mConn 0 * 2 := by
    intro nb hnb
    have hne : nb ≠ id := fun heq => hnew (heq ▸ hchosen.stored nb hnb)
    have hlt := hroom nb
    rw [hasLayer_insert, if_neg hne, hinserted, if_neg hne, mConn, if_pos rfl]
    exact ⟨hlayers nb (hchosen.stored nb hnb), by omega⟩
  rw [hkept, neighbours_linkLayer hchosen.nodup hnbs hground, hinserted]
  split
  · rename_i hx
    have hown : id ∉ connections.getD 0 [] := fun hmem => hnew (hchosen.stored id hmem)
    rw [hx, if_neg hown, append_nil, getD_eq_getElem?_getD]
  · rfl

/-! ### Mutual links -/

/-- The links of the ground layer are mutual, and lead from every node to every other. -/
structure Meshed (ix : HnswIndex V) : Prop where
  nodup : ∀ x, (neighbours ix.nodes x 0).Nodup
  stored : ∀ x, ∀ y ∈ neighbours ix.nodes x 0, y ∈ ix.nodes
  irrefl : ∀ x, x ∉ neighbours ix.nodes x 0
  symm : ∀ x, ∀ y ∈ neighbours ix.nodes x 0, x ∈ neighbours ix.nodes y 0
  connected : ∀ x ∈ ix.nodes, ∀ y ∈ ix.nodes, ix.Reaches 0 x y

/-- A node is a neighbour of others only. -/
theorem Meshed.length_lt (h : ix.Meshed) (hsize : Table.size ix.nodes ≠ 0) (x : UInt64) :
    (neighbours ix.nodes x 0).length < Table.size ix.nodes := by
  by_cases hx : x ∈ ix.nodes
  · have hsub : x :: neighbours ix.nodes x 0 ⊆ ix.nodes.keys := by
      intro y hy
      rcases mem_cons.mp hy with rfl | hy
      · omega
      · exact AList.mem_keys.mp (h.stored x y hy)
    have hle := ((nodup_cons.mpr ⟨h.irrefl x, h.nodup x⟩).subperm hsub).length_le
    rwa [AList.keys, List.keys, length_map, length_cons] at hle
  · rw [neighbours, AList.lookup_eq_none.mpr hx]
    exact Nat.pos_of_ne_zero hsize

theorem mem_insertAt (h : ix.insertAt μ id q level = some ix') (x : UInt64) :
    x ∈ ix'.nodes ↔ x = id ∨ x ∈ ix.nodes := by
  have hshape := congrArg Option.isSome (shape_insertAt h x)
  rw [Option.isSome_map] at hshape
  rw [← AList.lookup_isSome, hshape, ← AList.lookup_isSome]
  by_cases hx : x = id
  · simp [hx]
  · simp [hx]

/-- A new node is linked to the others by a chosen neighbour. -/
theorem Meshed.insertAt (h : ix.Meshed) (hsize : Table.size ix.nodes ≠ 0) (hm : 0 < ix.config.m)
    (hnew : id ∉ ix.nodes) (hlayers : ∀ x ∈ ix.nodes, HasLayer ix.nodes x 0)
    (hroom : Table.size ix.nodes ≤ 4 * ix.config.m) (hinsert : ix.insertAt μ id q level = some ix') :
    ix'.Meshed := by
  obtain ⟨nbs, hchosen, hlinks⟩ := neighbours_insertAt hsize hm hnew hlayers
    (fun x => (h.length_lt hsize x).trans_le hroom) hinsert
  have hmem := mem_insertAt hinsert
  have hold : ∀ x y, x ≠ id → (y ∈ neighbours ix'.nodes x 0 ↔
      y ∈ neighbours ix.nodes x 0 ∨ x ∈ nbs ∧ y = id) := by
    intro x y hx
    rw [hlinks, if_neg hx, mem_append]
    by_cases hxn : x ∈ nbs
    · simp [hxn]
    · simp [hxn]
  have hown : neighbours ix'.nodes id 0 = nbs := by rw [hlinks, if_pos rfl]
  have hne : ∀ x ∈ ix.nodes, x ≠ id := fun x hx heq => hnew (heq ▸ hx)
  have hnone : neighbours ix.nodes id 0 = [] := by rw [neighbours, AList.lookup_eq_none.mpr hnew]
  have hlink : ∀ x y, y ∈ neighbours ix.nodes x 0 → y ∈ neighbours ix'.nodes x 0 := by
    intro x y hy
    refine (hold x y ?_).mpr (Or.inl hy)
    rintro rfl
    rw [hnone] at hy
    cases hy
  have hreach : ∀ x y, ix.Reaches 0 x y → ix'.Reaches 0 x y := fun x y hxy =>
    Relation.ReflTransGen.mono hlink x y hxy
  obtain ⟨c, hc⟩ := exists_mem_of_ne_nil nbs hchosen.ne_nil
  have hcstored := hchosen.stored c hc
  -- every node leads to the chosen neighbour and back
  have hto : ∀ x ∈ ix'.nodes, ix'.Reaches 0 x c ∧ ix'.Reaches 0 c x := by
    intro x hx
    rcases (hmem x).mp hx with rfl | hx
    · exact ⟨.single (by rwa [hown]), .single ((hold c x (hne c hcstored)).mpr (Or.inr ⟨hc, rfl⟩))⟩
    · exact ⟨hreach x c (h.connected x hx c hcstored), hreach c x (h.connected c hcstored x hx)⟩
  refine ⟨fun x => ?_, fun x y hy => ?_, fun x hx => ?_, fun x y hy => ?_, fun x hx y hy =>
    (hto x hx).1.trans (hto y hy).2⟩
  · rw [hlinks]
    split
    · exact hchosen.nodup
    · split
      · refine nodup_append.mpr ⟨h.nodup x, nodup_singleton id, fun y hy z hz => ?_⟩
        rw [mem_singleton.mp hz]
        exact hne y (h.stored x y hy)
      · rw [append_nil]
        exact h.nodup x
  · rw [hmem]
    by_cases hx : x = id
    · rw [hx, hown] at hy
      exact Or.inr (hchosen.stored y hy)
    · rcases (hold x y hx).mp hy with hy | ⟨-, rfl⟩
      · exact Or.inr (h.stored x y hy)
      · simp
  · by_cases hxid : x = id
    · rw [hxid, hown] at hx
      exact hnew (hchosen.stored id hx)
    · rcases (hold x x hxid).mp hx with hx | ⟨-, heq⟩
      · exact h.irrefl x hx
      · exact hxid heq
  · by_cases hx : x = id
    · rw [hx, hown] at hy
      rw [hx]
      exact (hold y id (hne y (hchosen.stored y hy))).mpr (Or.inr ⟨hy, rfl⟩)
    · rcases (hold x y hx).mp hy with hy | ⟨hxn, rfl⟩
      · exact hlink y x (h.symm x y hy)
      · rwa [hown]

theorem meshed_first (hsize : Table.size ix.nodes = 0) (h : ix.insertAt μ id q level = some ix') :
    ix'.Meshed := by
  have hnone : ∀ x, neighbours ix'.nodes x 0 = [] := by
    intro x
    rw [insertAt, if_pos hsize, Option.some.injEq] at h
    rw [← h, neighbours_insert]
    split
    · simp
    · rw [neighbours, lookup_of_empty hsize]
  have hall : ∀ x ∈ ix'.nodes, x = id := by
    intro x hx
    rcases (mem_insertAt h x).mp hx with hx | hx
    · exact hx
    · rw [← AList.lookup_isSome, lookup_of_empty hsize] at hx
      cases hx
  refine ⟨fun x => ?_, fun x y hy => ?_, fun x hx => ?_, fun x y hy => ?_, fun x hx y hy => ?_⟩
  · simp [hnone]
  · rw [hnone] at hy
    cases hy
  · rw [hnone] at hx
    cases hx
  · rw [hnone] at hy
    cases hy
  · rw [hall x hx, hall y hy]
    exact .refl

/-! ### Runs of insertions -/

/-- The index holds the vectors that were inserted, and nothing was pruned while few were. -/
structure Holds (config : HnswConfig) (ix : HnswIndex V) (calls : List (Call V)) : Prop where
  sound : ix.Sound
  config_eq : ix.config = config
  shape : ∀ x, (ix.nodes.lookup x).map shape =
    (calls.find? fun c => c.id = x).map fun c => (c.vector, c.level + 1)
  meshed : calls.length ≤ 4 * config.m + 1 → ix.Meshed

variable {config : HnswConfig} {calls : List (Call V)}

theorem Holds.mem_iff (h : Holds config ix calls) : x ∈ ix.nodes ↔ x ∈ calls.map Call.id := by
  have hshape := congrArg Option.isSome (h.shape x)
  rw [Option.isSome_map, Option.isSome_map] at hshape
  rw [← AList.lookup_isSome, hshape, find?_isSome, List.mem_map]
  simp

theorem Holds.hasLayer (h : Holds config ix calls) (hx : x ∈ ix.nodes) : HasLayer ix.nodes x 0 := by
  obtain ⟨node, hnode⟩ := Option.isSome_iff_exists.mp (AList.lookup_isSome.mpr hx)
  have hshape := h.shape x
  rw [hnode, Option.map_some, eq_comm, Option.map_eq_some_iff] at hshape
  obtain ⟨c, -, heq⟩ := hshape
  have hlength : c.level + 1 = node.layers.length := congrArg Prod.snd heq
  exact ⟨node, hnode, by omega⟩

theorem Holds.size_eq (h : Holds config ix calls) (hids : (calls.map Call.id).Nodup) :
    Table.size ix.nodes = calls.length := by
  rw [size_eq_length hids fun x => ?_, length_map]
  rw [AList.lookup_isSome, h.mem_iff]

theorem Holds.isAt (h : Holds config ix calls) {dn : DistNode D} (hdn : IsAt μ ix query dn) :
    ∃ c ∈ calls, dn = ⟨μ.distance query c.vector, c.id⟩ := by
  obtain ⟨node, hnode, hdist⟩ := hdn
  have hshape := h.shape dn.id
  rw [hnode, Option.map_some, eq_comm, Option.map_eq_some_iff] at hshape
  obtain ⟨c, hfind, heq⟩ := hshape
  have hvector : c.vector = node.vector := congrArg Prod.fst heq
  have hid : c.id = dn.id := by simpa using find?_some hfind
  refine ⟨c, mem_of_find?_eq_some hfind, ?_⟩
  rw [hvector, ← hdist, hid]

theorem holds_new (config : HnswConfig) : Holds config (new config : HnswIndex V) [] where
  sound := sound_new config
  config_eq := rfl
  shape _ := rfl
  meshed _ := ⟨fun _ => nodup_nil, nofun, nofun, nofun, nofun⟩

theorem Holds.step (h : Holds config ix calls) (hm : 0 < config.m) {c : Call V}
    (hids : ((calls ++ [c]).map Call.id).Nodup) :
    ∃ ix', step μ ix c = some ix' ∧ Holds config ix' (calls ++ [c]) := by
  rw [map_append, map_singleton, nodup_append] at hids
  have hnew : c.id ∉ ix.nodes := fun hmem =>
    hids.2.2 c.id (h.mem_iff.mp hmem) c.id (mem_singleton_self _) rfl
  obtain ⟨ix', hix'⟩ := exists_insertAt (μ := μ) h.sound c.id c.vector c.level
  have hkeeps : ix.Keeps c.id c.level := by
    refine ⟨fun hentry => ?_, fun x l _ hnb => ?_⟩
    · exact absurd (AList.mem_keys.mpr (h.sound.entryLayer c.id hentry).mem_keys) hnew
    · exact absurd (AList.mem_keys.mpr (h.sound.neighbour x l c.id hnb).mem_keys) hnew
  refine ⟨ix', hix', (sound_insertAt h.sound hix').mpr hkeeps, (config_insertAt hix').trans h.config_eq,
    fun x => ?_, fun hfew => ?_⟩
  · rw [shape_insertAt hix', find?_append, h.shape]
    by_cases hx : x = c.id
    · have hnone : calls.find? (fun e => e.id = x) = none := by
        rw [find?_eq_none]
        intro e he heq
        rw [decide_eq_true_eq, hx] at heq
        exact hnew (h.mem_iff.mpr (heq ▸ mem_map_of_mem he))
      rw [hnone, if_pos hx]
      simp [hx]
    · simp [hx, Ne.symm hx]
  · rw [length_append, length_singleton] at hfew
    have hsize := h.size_eq hids.1
    by_cases hempty : Table.size ix.nodes = 0
    · exact meshed_first hempty hix'
    · refine (h.meshed (by omega)).insertAt hempty (by rwa [h.config_eq]) hnew (fun x hx => h.hasLayer hx) ?_ hix'
      rw [h.config_eq]
      omega

/-- Every list of insertions with distinct ids runs. -/
theorem holds_run (hm : 0 < config.m) (hids : (calls.map Call.id).Nodup) :
    ∃ ix, Transition.run (step μ) (new config) calls = some ix ∧ Holds config ix calls := by
  induction calls using List.reverseRecOn with
  | nil => exact ⟨_, rfl, holds_new config⟩
  | append_singleton calls c ih =>
    have hfirst : (calls.map Call.id).Nodup := by
      rw [map_append] at hids
      exact hids.of_append_left
    obtain ⟨ix, hrun, hholds⟩ := ih hfirst
    obtain ⟨ix', hstep, hholds'⟩ := hholds.step (μ := μ) hm hids
    refine ⟨ix', ?_, hholds'⟩
    rw [run_append_some hrun, run_cons, hstep]
    rfl

/-! ### Answers -/

/-- A search returns these vectors: inserted ones, each once, and, where distances are ordered, the closest
first; and among at most `k` vectors those that links of the ground layer lead to, which are all while no
list of neighbours has been pruned. -/
structure Answers (μ : Metric V D S) (config : HnswConfig) (calls : List (Call V)) (ix : HnswIndex V)
    (query : V) (k : ℕ) (found : List (Call V)) : Prop where
  result : ix.search μ query k = some (found.map fun c => (c.id, μ.similarity (μ.distance query c.vector)))
  length_le : found.length ≤ k
  inserted : found ⊆ calls
  nodup : (found.map Call.id).Nodup
  ordered : RanksBy (fun a b => μ.lt a b = true) →
    found.Pairwise fun a b => ¬ μ.lt (μ.distance query b.vector) (μ.distance query a.vector) = true
  reached : RanksBy (fun a b => μ.lt a b = true) → calls.length ≤ k → ∀ c,
    c ∈ found ↔ c ∈ calls ∧ ∃ e, ix.ArrivesAt μ query e ∧ ix.Reaches 0 e c.id
  all : RanksBy (fun a b => μ.lt a b = true) → calls.length ≤ k → calls.length ≤ 4 * config.m + 1 →
    found.Perm calls

/-- Nodes at their distances are inserted vectors. -/
theorem Holds.exists_calls (h : Holds config ix calls) {l : List (DistNode D)}
    (hl : ∀ dn ∈ l, IsAt μ ix query dn) : ∃ found : List (Call V), found ⊆ calls ∧
      l = found.map fun c => ⟨μ.distance query c.vector, c.id⟩ := by
  induction l with
  | nil => exact ⟨[], nil_subset calls, rfl⟩
  | cons dn l ih =>
    rw [forall_mem_cons] at hl
    obtain ⟨c, hc, rfl⟩ := h.isAt hl.1
    obtain ⟨found, hfound, rfl⟩ := ih hl.2
    exact ⟨c :: found, cons_subset.mpr ⟨hc, hfound⟩, rfl⟩

theorem Holds.arrivesAt_mem (h : Holds config ix calls) {e : UInt64} (he : ix.ArrivesAt μ query e) :
    e ∈ ix.nodes := by
  obtain ⟨ep, hep, hdescend⟩ := he
  obtain ⟨eps, heps, hlayers⟩ := descend_spec (μ := μ) query 0 h.sound ix.maxLevel
    (forall_mem_singleton.mpr (by simpa using h.sound.entryLayer ep hep))
  rw [hdescend, Option.some.injEq] at heps
  exact AList.mem_keys.mpr (hlayers e (heps ▸ mem_singleton_self e)).mem_keys

theorem Holds.answers (h : Holds config ix calls) (hids : (calls.map Call.id).Nodup) (query : V) (k : ℕ) :
    ∃ found, Answers μ config calls ix query k found := by
  have hlength := h.size_eq hids
  obtain ⟨results, hresults⟩ := Option.isSome_iff_exists.mp (search_isSome (μ := μ) h.sound query k)
  by_cases hsize : Table.size ix.nodes = 0
  · rw [search, if_pos hsize, Option.some.injEq] at hresults
    have hnil : calls = [] := length_eq_zero_iff.mp (hlength.symm.trans hsize)
    subst hnil
    refine ⟨[], by rw [search, if_pos hsize]; rfl, Nat.zero_le k, List.Subset.refl _, nodup_nil,
      fun _ => List.Pairwise.nil, fun _ _ c => ?_, fun _ _ _ => List.Perm.refl _⟩
    simp
  · obtain ⟨e, res, harrives, hres, rfl⟩ := search_cases hsize hresults
    have hordered := searchLayer_ranked hres
    obtain ⟨found, hfound, htake⟩ := h.exists_calls (l := res.take k) fun dn hdn =>
      hordered.isAt dn (mem_of_mem_take hdn)
    have hnodup : (found.map Call.id).Nodup := by
      have hsub := hordered.nodup.sublist ((take_sublist k res).map DistNode.id)
      rw [htake, map_map] at hsub
      exact hsub
    have hreached : RanksBy (fun a b => μ.lt a b = true) → calls.length ≤ k → ∀ c,
        c ∈ found ↔ c ∈ calls ∧ ∃ e, ix.ArrivesAt μ query e ∧ ix.Reaches 0 e c.id := by
      intro hlt hk c
      have hcomplete := searchLayer_complete hlt (by omega) hres
      have hshort : res.length ≤ k := by
        have hsub : res.map DistNode.id ⊆ calls.map Call.id := by
          intro x hx
          obtain ⟨dn, hdn, rfl⟩ := List.mem_map.mp hx
          exact h.mem_iff.mp (hordered.isAt dn hdn).mem
        have hle := (hordered.nodup.subperm hsub).length_le
        rw [length_map, length_map] at hle
        omega
      rw [take_of_length_le hshort] at htake
      have hmem : ∀ x, x ∈ found.map Call.id ↔ ix.Reaches 0 e x := by
        intro x
        have hx := hcomplete x
        rw [htake, map_map] at hx
        simpa using hx
      constructor
      · exact fun hc => ⟨hfound hc, e, harrives, (hmem c.id).mp (mem_map_of_mem hc)⟩
      · rintro ⟨hc, e', ⟨ep', hep', hdescend'⟩, hreach⟩
        obtain ⟨ep, hep, hdescend⟩ := harrives
        obtain rfl := Option.some.inj (hep.symm.trans hep')
        obtain rfl := singleton_inj.mp (Option.some.inj (hdescend.symm.trans hdescend'))
        obtain ⟨c', hc', hid⟩ := List.mem_map.mp ((hmem c.id).mpr hreach)
        rwa [← inj_on_of_nodup_map hids (hfound hc') hc hid]
    refine ⟨found, ?_, ?_, hfound, hnodup, fun hlt => ?_, hreached, fun hlt hk hfew => ?_⟩
    · simp [hresults, htake]
    · have hle := length_take_le k res
      rwa [htake, length_map] at hle
    · have hpairwise := (hordered.ordered hlt).sublist (take_sublist k res)
      rw [htake, pairwise_map] at hpairwise
      exact hpairwise
    · refine (perm_ext_iff_of_nodup hnodup.of_map hids.of_map).mpr fun c => ?_
      rw [hreached hlt hk c, and_iff_left_iff_imp]
      intro hc
      exact ⟨e, harrives, (h.meshed hfew).connected e (h.arrivesAt_mem harrives) c.id
        (h.mem_iff.mpr (mem_map_of_mem hc))⟩

/-- **After any insertions of distinct ids, every search returns inserted vectors, each once and the
closest first; a search for as many as there are returns those that links lead to.** -/
theorem search_answers (μ : Metric V D S) (hm : 0 < config.m) (hids : (calls.map Call.id).Nodup) :
    ∃ ix, Transition.run (step μ) (new config) calls = some ix ∧
      ∀ query k, ∃ found, Answers μ config calls ix query k found := by
  obtain ⟨ix, hrun, hholds⟩ := holds_run (μ := μ) hm hids
  exact ⟨ix, hrun, hholds.answers hids⟩

/-! ### A lost vector -/

/-- A far vector, and a close one that all others are linked to; the levels are those that the index draws
for `m = 2`. -/
def hub : List (Call ℕ) :=
  [⟨1, 1000, 16⟩, ⟨2, 100, 16⟩, ⟨3, 164, 16⟩, ⟨4, 36, 16⟩, ⟨5, 130, 16⟩, ⟨6, 70, 16⟩, ⟨7, 114, 16⟩,
    ⟨8, 86, 16⟩, ⟨9, 106, 16⟩, ⟨10, 94, 16⟩]

theorem search_answers_hub : ∃ ix, Transition.run (step differences) (new ⟨2, 50, 1⟩) hub = some ix ∧
    ∀ query k, ∃ found, Answers differences ⟨2, 50, 1⟩ hub ix query k found :=
  search_answers differences (by decide) (by decide)

/-- **The close vector drops its link to the far one, which is never found again.** -/
theorem hub_loses_vector : (hub.map Call.id).Nodup ∧ RanksBy (fun a b => differences.lt a b = true) ∧
    ∃ ix results, Transition.run (step differences) (new ⟨2, 50, 1⟩) hub = some ix ∧
      ix.search differences 100 hub.length = some results ∧ results.map Prod.fst = [2, 10, 9, 8, 7] := by
  have hranks : RanksBy (fun a b => differences.lt a b = true) := by
    refine ⟨fun a b hab hba => ?_, fun a b c hac => ?_⟩
    · simp only [differences, decide_eq_true_eq] at hab hba
      omega
    · simp only [differences, decide_eq_true_eq] at hac ⊢
      omega
  have hfound : ((Transition.run (step differences) (new ⟨2, 50, 1⟩) hub).bind fun ix =>
      (ix.search differences 100 hub.length).map (List.map Prod.fst)) = some [2, 10, 9, 8, 7] := by
    -- merge sort is no structural recursion; insertion sort evaluates
    have hpairs : RanksBy fun a b : ℕ × UInt64 => differences.lt a.1 b.1 = true :=
      ⟨fun a b => hranks.asymm a.1 b.1, fun a b c => hranks.connected a.1 b.1 c.1⟩
    have hsort : ∀ dists : List (ℕ × UInt64), dists.mergeSort (fun a b => !differences.lt b.1 a.1) =
        Heap.sort (fun a b => differences.lt a.1 b.1 = true) dists :=
      Heap.mergeSort_eq_sort _ hpairs fun a b => by simp
    unfold step insertAt linkBack prune
    simp only [hsort]
    decide +kernel
  obtain ⟨ix, hrun, hsearch⟩ := Option.bind_eq_some_iff.mp hfound
  obtain ⟨results, hresults, hids⟩ := Option.map_eq_some_iff.mp hsearch
  exact ⟨by decide, hranks, ix, results, hrun, hresults, hids⟩

end HnswIndex

end CenDB.Vectors
