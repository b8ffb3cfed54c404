import CenDB.Lib.Buckets
import CenDB.Lib.Transition
import CenDB.Storage.PaxRoundTrip

/-! # Graph projection

Edges wait in a list, are sealed into a block sorted by source and type, and are read from the block
into an overlay that holds the targets of each node in one slice.

`neighbors_build` says that the overlay of a list of edges has exactly its targets, and
`holdsEdges_of_build` that a sealed block gives its edges back. -/

namespace CenDB.Projection

open CenDB.Storage List

abbrev NodeId := UInt64

/-! ### The overlay -/

/-- An edge as the overlay reads it: source, target, and the place of its record. -/
abbrev EdgeEntry := NodeId × NodeId × (UInt32 × UInt32)

structure CsrOverlay where
  offsets : List ℕ
  adjacency : List NodeId
  edgeRefs : List (UInt32 × UInt32)

namespace CsrOverlay

/-- The most elements of eight bytes that a vector can have. -/
def maxElements : ℕ := (2 ^ 63 - 1) / 8

/-- Arrays of the overlay while they are filled, with the number of edges placed for each node. -/
structure Filling where
  adjacency : List NodeId
  edgeRefs : List (UInt32 × UInt32)
  cursor : List ℕ

def Filling.place (offsets : List ℕ) (f : Filling) (e : EdgeEntry) : Filling :=
  let s := e.1.toNat
  let pos := offsets.getD s 0 + f.cursor.getD s 0
  ⟨f.adjacency.set pos e.2.1, f.edgeRefs.set pos e.2.2, f.cursor.modify s (· + 1)⟩

/-- The overlay of a list of edges; `none` when there is no room for the offsets of all nodes.
Counts are below the number of rows of a block, so the 64-bit counters do not wrap. -/
def build (edges : List EdgeEntry) : Option CsrOverlay :=
  let edges := edges.mergeSort fun e e' => e.1 ≤ e'.1
  let maxNode := edges.foldl (fun m e => max m (max e.1.toNat e.2.1.toNat)) 0
  let nodeCount := maxNode + 1
  if maxElements < nodeCount + 1 then none
  else
    let counts := Buckets.histogram (fun e : EdgeEntry => e.1.toNat + 1) (nodeCount + 1) edges
    let offsets := Buckets.prefixSums 0 counts
    let empty : Filling :=
      ⟨List.replicate edges.length 0, List.replicate edges.length (0, 0), List.replicate nodeCount 0⟩
    let filled := edges.foldl (Filling.place offsets) empty
    some ⟨offsets, filled.adjacency, filled.edgeRefs⟩

/-- The slice of a node; `neighborsAt` has the panics too. -/
def neighbors (csr : CsrOverlay) (node : NodeId) : List NodeId :=
  let s := node.toNat
  if csr.offsets.length ≤ s + 1 then []
  else
    let lo := csr.offsets.getD s 0
    let hi := csr.offsets.getD (s + 1) 0
    (csr.adjacency.drop lo).take (hi - lo)

/-! ### The overlay has the targets of its edges -/

/-- The targets of the edges of a node. -/
def targetsOf (edges : List EdgeEntry) (node : NodeId) : List NodeId :=
  (edges.filter fun e => e.1 = node).map fun e => e.2.1

/-- The key that the overlay sorts by. -/
def source (e : EdgeEntry) : ℕ := e.1.toNat

theorem le_foldl_max (edges : List EdgeEntry) (m : ℕ) :
    m ≤ edges.foldl (fun m e => max m (max e.1.toNat e.2.1.toNat)) m ∧
      ∀ e ∈ edges, source e ≤ edges.foldl (fun m e => max m (max e.1.toNat e.2.1.toNat)) m := by
  induction edges generalizing m with
  | nil => exact ⟨le_refl m, nofun⟩
  | cons e edges ih =>
    rw [foldl_cons]
    obtain ⟨hm, hall⟩ := ih (max m (max e.1.toNat e.2.1.toNat))
    refine ⟨(le_max_left _ _).trans hm, ?_⟩
    intro e' he'
    cases mem_cons.mp he' with
    | inl heq =>
      subst heq
      exact ((le_max_left _ _).trans (le_max_right _ _)).trans hm
    | inr hmem => exact hall e' hmem

section Fill

variable {edges : List EdgeEntry} {nodeCount : ℕ} {offsets : List ℕ}

/-- The edges placed so far stand in their order. -/
theorem fill_spec (hsorted : edges.Pairwise fun e e' => source e ≤ source e')
    (hoffsets : ∀ i < nodeCount, offsets[i]? = some (Buckets.below source edges i))
    (hbound : ∀ e ∈ edges, source e < nodeCount) {front back : List EdgeEntry}
    (hsplit : edges = front ++ back) (refs : List (UInt32 × UInt32)) {filled : Filling}
    (hfilled : filled = front.foldl (Filling.place offsets)
      ⟨List.replicate edges.length 0, refs, List.replicate nodeCount 0⟩) :
    filled.adjacency = front.map (fun e => e.2.1) ++ List.replicate back.length 0 ∧
      ∀ i < nodeCount, filled.cursor[i]? = some (Buckets.within source front i) := by
  induction front using List.reverseRecOn generalizing back filled with
  | nil =>
    subst hfilled
    refine ⟨by rw [hsplit]; rfl, ?_⟩
    intro i hi
    rw [foldl_nil, getElem?_replicate_of_lt hi]
    rfl
  | append_singleton front e ih =>
    have hsplit' : edges = front ++ e :: back := by rw [hsplit, append_assoc]; rfl
    obtain ⟨hadj, hcursor⟩ := ih hsplit' rfl
    rw [foldl_append, foldl_cons, foldl_nil] at hfilled
    generalize front.foldl (Filling.place offsets) _ = before at hadj hcursor hfilled
    have hs : source e < nodeCount := hbound e (hsplit' ▸ mem_append_right front mem_cons_self)
    have hpos : offsets.getD e.1.toNat 0 + before.cursor.getD e.1.toNat 0 = front.length := by
      have hstart : offsets[e.1.toNat]? = _ := hoffsets (source e) hs
      have hplaced : before.cursor[e.1.toNat]? = _ := hcursor (source e) hs
      rw [getD_eq_getElem?_getD, getD_eq_getElem?_getD, hstart, hplaced, hsplit']
      exact Buckets.position (hsplit' ▸ hsorted)
    subst hfilled
    refine ⟨?_, ?_⟩
    · have hlen : front.length = (front.map fun e => e.2.1).length := (length_map _).symm
      show before.adjacency.set _ _ = _
      rw [hpos, hadj, hlen, set_append_right _ _ le_rfl, Nat.sub_self, length_cons,
        replicate_succ, set_cons_zero, map_append, append_assoc]
      rfl
    · intro i hi
      show (before.cursor.modify e.1.toNat (· + 1))[i]? = _
      rw [getElem?_modify, hcursor i hi, Buckets.within_append, Buckets.within_singleton]
      by_cases heq : e.1.toNat = i
      · simp [heq, source]
      · simp [heq, source]

end Fill

theorem source_trans (a b c : EdgeEntry) (hab : decide (a.1 ≤ b.1) = true) (hbc : decide (b.1 ≤ c.1) = true) :
    decide (a.1 ≤ c.1) = true :=
  decide_eq_true (UInt64.le_trans (of_decide_eq_true hab) (of_decide_eq_true hbc))

theorem source_total (a b : EdgeEntry) : (decide (a.1 ≤ b.1) || decide (b.1 ≤ a.1)) = true := by
  simpa using UInt64.le_total a.1 b.1

theorem pairwise_source (edges : List EdgeEntry) :
    (edges.mergeSort fun e e' => decide (e.1 ≤ e'.1)).Pairwise fun e e' => source e ≤ source e' := by
  refine (pairwise_mergeSort source_trans source_total edges).imp fun hle => ?_
  exact UInt64.le_iff_toNat_le.mp (of_decide_eq_true hle)

/-- What an overlay of sorted edges looks like. -/
structure Overlays (csr : CsrOverlay) (sorted : List EdgeEntry) (nodeCount : ℕ) : Prop where
  ordered : sorted.Pairwise fun e e' => source e ≤ source e'
  bound : ∀ e ∈ sorted, source e < nodeCount
  length : csr.offsets.length = nodeCount + 1
  offset : ∀ i < nodeCount + 1, csr.offsets[i]? = some (Buckets.below source sorted i)
  adjacency : csr.adjacency = sorted.map fun e => e.2.1

variable {edges : List EdgeEntry} {csr : CsrOverlay}

theorem overlays_of_build (h : build edges = some csr) :
    ∃ nodeCount, Overlays csr (edges.mergeSort fun e e' => e.1 ≤ e'.1) nodeCount := by
  unfold build at h
  dsimp only at h
  have hsorted := pairwise_source edges
  generalize edges.mergeSort (fun e e' => decide (e.1 ≤ e'.1)) = sorted at h hsorted ⊢
  obtain ⟨-, hmax⟩ := le_foldl_max sorted 0
  generalize sorted.foldl (fun m e => max m (max e.1.toNat e.2.1.toNat)) 0 = maxNode at h hmax
  split at h
  · cases h
  · cases h
    have hbound : ∀ e ∈ sorted, source e < maxNode + 1 := fun e he => Nat.lt_succ_of_le (hmax e he)
    have hoffset (i : ℕ) (hi : i < maxNode + 1 + 1) :
        (Buckets.prefixSums 0 (Buckets.histogram (fun e : EdgeEntry => e.1.toNat + 1)
          (maxNode + 1 + 1) sorted))[i]? = some (Buckets.below source sorted i) := by
      rw [Buckets.getElem?_prefixSums_histogram _ hi]
      congr 1
      refine countP_congr fun e _ => ?_
      rw [decide_eq_true_eq, decide_eq_true_eq]
      exact Nat.add_lt_add_iff_right
    have hlen : (Buckets.prefixSums 0 (Buckets.histogram (fun e : EdgeEntry => e.1.toNat + 1)
        (maxNode + 1 + 1) sorted)).length = maxNode + 1 + 1 := by
      rw [Buckets.length_prefixSums, Buckets.length_histogram]
    generalize Buckets.prefixSums 0 _ = offsets at hoffset hlen ⊢
    obtain ⟨hadj, -⟩ := fill_spec hsorted (fun i hi => hoffset i (Nat.lt_succ_of_lt hi)) hbound
      (append_nil sorted).symm (List.replicate sorted.length (0, 0)) rfl
    rw [length_nil, replicate_zero, append_nil] at hadj
    exact ⟨maxNode + 1, hsorted, hbound, hlen, hoffset, hadj⟩

/-- Sorting by source keeps the edges of a node in their order. -/
theorem targetsOf_mergeSort (edges : List EdgeEntry) (node : NodeId) :
    targetsOf (edges.mergeSort fun e e' => decide (e.1 ≤ e'.1)) node = targetsOf edges node := by
  have hsame : (edges.filter fun e => e.1 = node).Pairwise fun e e' => decide (e.1 ≤ e'.1) = true := by
    refine pairwise_iff_forall_sublist.mpr fun {a b} hab => ?_
    have ha := mem_filter.mp (hab.subset mem_cons_self)
    have hb := mem_filter.mp (hab.subset (mem_cons_of_mem a mem_cons_self))
    have hsource : a.1 = b.1 := (of_decide_eq_true ha.2).trans (of_decide_eq_true hb.2).symm
    exact decide_eq_true (UInt64.le_of_eq hsource)
  have hsub := (sublist_mergeSort source_trans source_total hsame filter_sublist).filter fun e => e.1 = node
  rw [filter_filter] at hsub
  simp only [Bool.and_self] at hsub
  have hperm := (mergeSort_perm edges fun e e' => decide (e.1 ≤ e'.1)).filter fun e => e.1 = node
  rw [targetsOf, targetsOf, hsub.eq_of_length hperm.length_eq.symm]

theorem Overlays.neighbors {sorted : List EdgeEntry} {nodeCount : ℕ} (h : Overlays csr sorted nodeCount)
    (node : NodeId) : csr.neighbors node = targetsOf sorted node := by
  have htargets : targetsOf sorted node = (sorted.filter fun e => source e = node.toNat).map
      fun e => e.2.1 := by
    unfold targetsOf
    congr 1
    refine filter_congr fun e _ => ?_
    simp [source, UInt64.toNat_inj]
  rw [htargets]
  unfold CsrOverlay.neighbors
  dsimp only
  rw [h.adjacency, h.length]
  split
  · rename_i hbig
    rw [filter_eq_nil_iff.mpr fun e he => ?_]
    · rfl
    · have := h.bound e he
      simp only [decide_eq_true_eq]
      omega
  · rename_i hsmall
    have hlo := h.offset node.toNat (by omega)
    have hhi := h.offset (node.toNat + 1) (by omega)
    rw [getD_eq_getElem?_getD, getD_eq_getElem?_getD, hlo, hhi, Option.getD_some,
      Option.getD_some, Buckets.below_succ, Nat.add_sub_cancel_left, ← map_drop,
      ← map_take, Buckets.slice_sorted h.ordered]

/-- **The overlay has exactly the targets of its edges**, at every node. -/
theorem neighbors_build (h : build edges = some csr) (node : NodeId) :
    (csr.neighbors node).Perm (targetsOf edges node) := by
  obtain ⟨nodeCount, hcsr⟩ := overlays_of_build h
  rw [hcsr.neighbors, targetsOf_mergeSort]

end CsrOverlay

/-! ### The projection -/

/-- An edge as it is added: source, target and type. -/
abbrev Edge := NodeId × NodeId × String

structure GraphProjection where
  blockSize : UInt32
  nodesBlock : Option PaxBlock
  edgesBlock : Option PaxBlock
  csr : Option CsrOverlay
  pendingEdges : List Edge
  pendingNodes : List (NodeId × String)

def nodeSpecs : List ColumnSpec := [(ColumnSpec.new 0 .u64).pk, .new 1 .bytes]

def edgeSpecs : List ColumnSpec := [(ColumnSpec.new 0 .u64).pk, .new 1 .u64, .new 2 .bytes]

def nodeRow (n : NodeId × String) : List Value := [.u64 n.1, .bytes n.2.toUTF8.toList]

def edgeRow (e : Edge) : List Value := [.u64 e.1, .u64 e.2.1, .bytes e.2.2.toUTF8.toList]

/-- The order of sealed edges: by source, then by type. -/
def edgeLe (e e' : Edge) : Bool := e.1 < e'.1 || (e.1 = e'.1 && e.2.2 ≤ e'.2.2)

namespace GraphProjection

def new (blockSize : UInt32) : GraphProjection := ⟨blockSize, none, none, none, [], []⟩

def addEdge (s : GraphProjection) (src dst : NodeId) (edgeType : String) : GraphProjection :=
  { s with pendingEdges := s.pendingEdges ++ [(src, dst, edgeType)], csr := none }

/-- Seal the pending nodes.  The builder takes the schema, so a call that fails has drained them. -/
def flushNodes (fmt : TextFormat) (s : GraphProjection) : Except Halt Unit × GraphProjection :=
  if s.pendingNodes.isEmpty then (.ok (), s)
  else
    let drained := { s with pendingNodes := [] }
    match PaxBlockBuilder.build fmt s.blockSize nodeSpecs (s.pendingNodes.map nodeRow) with
    | .error e => (.error e, drained)
    | .ok block => (.ok (), { drained with nodesBlock := some block })

def flushEdges (fmt : TextFormat) (s : GraphProjection) : Except Halt Unit × GraphProjection :=
  if s.pendingEdges.isEmpty then (.ok (), s)
  else
    let sorted := s.pendingEdges.mergeSort edgeLe
    let drained := { s with pendingEdges := [] }
    match PaxBlockBuilder.build fmt s.blockSize edgeSpecs (sorted.map edgeRow) with
    | .error e => (.error e, drained)
    | .ok block => (.ok (), { drained with edgesBlock := some block })

def flush (fmt : TextFormat) (s : GraphProjection) : Except Halt Unit × GraphProjection :=
  match s.flushNodes fmt with
  | (.error e, s) => (.error e, s)
  | (.ok (), s) => s.flushEdges fmt

/-- The overlay entries of the decoded columns; the only block has the number 0. -/
def entries (srcVals dstVals : List Int64) : List EdgeEntry :=
  (srcVals.zip dstVals).mapIdx fun i v => (v.1.toUInt64, v.2.toUInt64, (0, UInt32.ofNat i))

def buildCsr (s : GraphProjection) : Except Halt CsrOverlay × GraphProjection :=
  match s.csr with
  | some csr => (.ok csr, s)
  | none =>
    match s.edgesBlock with
    | none => (.error (constraint "build_csr: no edges block (call flush first)"), s)
    | some block =>
      match block.decodeI64Column 0 with
      | .error e => (.error e, s)
      | .ok srcVals =>
        match block.decodeI64Column 1 with
        | .error e => (.error e, s)
        | .ok dstVals =>
          match CsrOverlay.build (entries srcVals dstVals) with
          | none => (.error .panic, s)
          | some csr => (.ok csr, { s with csr := some csr })

def neighbors (s : GraphProjection) (node : NodeId) : Except Halt (List NodeId) :=
  match s.csr with
  | none => .error (constraint "neighbors: CSR not built (call build_csr first)")
  | some csr => .ok (csr.neighbors node)

end GraphProjection

/-! ### A sealed block gives its edges back -/

/-- The targets of the edges from a node. -/
def targets (edges : List Edge) (node : NodeId) : List NodeId :=
  (edges.filter fun e => e.1 = node).map fun e => e.2.1

/-- A block that holds edges. -/
structure HoldsEdges (block : PaxBlock) (edges : List Edge) : Prop where
  srcColumn : block.decodeI64Column 0 = .ok (edges.map fun e => e.1.toInt64)
  dstColumn : block.decodeI64Column 1 = .ok (edges.map fun e => e.2.1.toInt64)

variable {edges : List Edge} {block : PaxBlock}

theorem holdsEdges_of_build {fmt : TextFormat} {blockSize : UInt32}
    (h : PaxBlockBuilder.build fmt blockSize edgeSpecs (edges.map edgeRow) = .ok block)
    (hsize : blockSize.toNat + minipageAlign ≤ 2 ^ 32) : HoldsEdges block edges := by
  obtain ⟨varheap, hb⟩ := build_spec h hsize
  have hfew : (edges.map edgeRow).length < 2 ^ 32 := by
    have hfit := hb.slots_fit (i := 2) rfl rfl
    have hbuf := hb.length_buf
    omega
  constructor
  · rw [hb.decodeI64Column_raw (i := 0) rfl rfl (Nat.succ_ne_zero 7) hfew, columnOf, map_map, map_map]
    rfl
  · rw [hb.decodeI64Column_raw (i := 1) rfl rfl (Nat.succ_ne_zero 7) hfew, columnOf, map_map, map_map]
    rfl

theorem targetsOf_mapIdx (vals : List (Int64 × Int64)) (place : ℕ → UInt32 × UInt32) (node : NodeId) :
    CsrOverlay.targetsOf (vals.mapIdx fun i v => (v.1.toUInt64, v.2.toUInt64, place i)) node =
      (vals.filter fun v => v.1.toUInt64 = node).map fun v => v.2.toUInt64 := by
  induction vals generalizing place with
  | nil => rfl
  | cons v vals ih =>
    have hrest := ih fun i => place (i + 1)
    unfold CsrOverlay.targetsOf at hrest ⊢
    rw [mapIdx_cons, filter_cons, filter_cons]
    by_cases heq : v.1.toUInt64 = node
    · simp only [heq, decide_true, if_true, map_cons, hrest]
    · simp only [heq, decide_false, Bool.false_eq_true, if_false, hrest]

/-- The overlay of a block has the targets of its edges. -/
theorem HoldsEdges.neighbors (h : HoldsEdges block edges) {srcVals dstVals : List Int64}
    (hsrc : block.decodeI64Column 0 = .ok srcVals) (hdst : block.decodeI64Column 1 = .ok dstVals)
    {csr : CsrOverlay} (hbuild : CsrOverlay.build (GraphProjection.entries srcVals dstVals) = some csr)
    (node : NodeId) :
    (csr.neighbors node).Perm (targets edges node) := by
  rw [h.srcColumn, Except.ok.injEq] at hsrc
  rw [h.dstColumn, Except.ok.injEq] at hdst
  have hsame : CsrOverlay.targetsOf (GraphProjection.entries srcVals dstVals) node = targets edges node := by
    rw [GraphProjection.entries, targetsOf_mapIdx, ← hsrc, ← hdst, zip_map', filter_map, map_map, targets]
    rfl
  rw [← hsame]
  exact CsrOverlay.neighbors_build hbuild node

end CenDB.Projection
