import CenDB.Index.ArtInsert

/-! # Ordered iteration of the adaptive radix tree

The iterator keeps a stack of interior nodes, each with the index of the next child to visit.
`pending` lists what it still has to yield; a call of `next` takes the first of these pairs
(`next_spec`), whatever the tree.  In a well-formed tree the pairs of a node are listed in
strictly ascending lexicographic order of their keys (`WF.entries_sorted`). -/

namespace CenDB.Index

open ByteMap Prefixes List

variable {V : Type}

namespace ArtNode

/-- The (byte, child) pairs in sorted order. -/
def iterChildren : ArtNode V → List (UInt8 × ArtNode V)
  | leaf _ _ => []
  | inner _ children => children.iterChildren

theorem sizeOf_iterChildren {node : ArtNode V} {x : UInt8 × ArtNode V}
    (h : x ∈ node.iterChildren) : sizeOf x.2 < sizeOf node := by
  cases node with
  | leaf k v => cases h
  | inner pfx children =>
    have hlt := Layout.sizeOf_iterChildren (l := children) h
    simp only [inner.sizeOf_spec]
    omega

variable {pfx k : Key} {children : Layout (ArtNode V)} {v : V}

theorem sizeOf_first {b : UInt8} {child : ArtNode V} {rest : List (UInt8 × ArtNode V)}
    (h : children.iterChildren = (b, child) :: rest) :
    sizeOf child < sizeOf (inner pfx children) := by
  have hmem : (b, child) ∈ (inner pfx children).iterChildren := by
    show (b, child) ∈ children.iterChildren
    rw [h]
    exact mem_cons_self
  exact sizeOf_iterChildren hmem

/-- The pairs below a node, in iteration order. -/
def entries (node : ArtNode V) : List (Key × V) :=
  match node with
  | leaf k v => [(k, v)]
  | inner _ children => children.iterChildren.attach.flatMap fun x => entries x.1.2
  termination_by sizeOf node
  decreasing_by
    have hlt := Layout.sizeOf_iterChildren x.2
    simp only [inner.sizeOf_spec]
    omega

/-- The number of nodes an iteration visits. -/
def weight (node : ArtNode V) : ℕ :=
  match node with
  | leaf _ _ => 1
  | inner _ children => (children.iterChildren.attach.map fun x => weight x.1.2).sum + 1
  termination_by sizeOf node
  decreasing_by
    have hlt := Layout.sizeOf_iterChildren x.2
    simp only [inner.sizeOf_spec]
    omega

theorem entries_leaf : entries (leaf k v) = [(k, v)] := by
  rw [entries]

theorem entries_inner :
    entries (inner pfx children) = children.iterChildren.flatMap fun x => entries x.2 := by
  have hattach := attach_map_val (l := children.iterChildren) (f := fun x => entries x.2)
  rw [entries, flatMap_def, flatMap_def, hattach]

theorem weight_leaf : weight (leaf k v) = 1 := by
  rw [weight]

theorem weight_inner :
    weight (inner pfx children) = (children.iterChildren.map fun x => weight x.2).sum + 1 := by
  have hattach := attach_map_val (l := children.iterChildren) (f := fun x => weight x.2)
  rw [weight, hattach]

end ArtNode

/-! ### The iterator -/

/-- The nodes being visited, innermost first, each with the index of its next child. -/
abbrev Stack (V : Type) := List (ArtNode V × ℕ)

namespace Stack

variable {stack : Stack V}

/-- What the children still to visit hold. -/
def pending (stack : Stack V) : List (Key × V) :=
  stack.flatMap fun x => (x.1.iterChildren.drop x.2).flatMap fun c => c.2.entries

/-- The number of nodes still to visit. -/
def weight (stack : Stack V) : ℕ :=
  (stack.map fun x => ((x.1.iterChildren.drop x.2).map fun c => c.2.weight).sum + 1).sum

/-- Go down to the first leaf below a node: the stack and the leaf, if there is one. -/
def descend (stack : Stack V) (node : ArtNode V) : Stack V × Option (Key × V) :=
  match node with
  | .leaf k v => (stack, some (k, v))
  | .inner pfx children =>
    match _h : children.iterChildren with
    | [] => (stack, none)
    | (_, child) :: _ => descend ((.inner pfx children, 1) :: stack) child
  termination_by sizeOf node
  decreasing_by exact ArtNode.sizeOf_first _h

theorem descend_leaf {k : Key} {v : V} : descend stack (.leaf k v) = (stack, some (k, v)) := by
  rw [descend]

variable {pfx : Key} {children : Layout (ArtNode V)}

theorem descend_nil (h : children.iterChildren = []) : descend stack (.inner pfx children) = (stack, none) := by
  rw [descend]
  split
  · rfl
  · rename_i heq
    rw [h] at heq
    cases heq

variable {b : UInt8} {child node : ArtNode V} {idx : ℕ}

theorem descend_cons {rest : List (UInt8 × ArtNode V)} (h : children.iterChildren = (b, child) :: rest) :
    descend stack (.inner pfx children) = descend ((.inner pfx children, 1) :: stack) child := by
  rw [descend]
  split
  · rename_i heq
    rw [h] at heq
    cases heq
  · rename_i heq
    rw [h] at heq
    cases heq
    rfl

theorem weight_cons (node : ArtNode V) (idx : ℕ) (stack : Stack V) : weight ((node, idx) :: stack) =
      ((node.iterChildren.drop idx).map fun c => c.2.weight).sum + 1 + stack.weight := rfl

theorem pending_cons (node : ArtNode V) (idx : ℕ) (stack : Stack V) : pending ((node, idx) :: stack) =
      (node.iterChildren.drop idx).flatMap (fun c => c.2.entries) ++ stack.pending := rfl

theorem descend_weight (node : ArtNode V) (stack : Stack V) :
    (descend stack node).1.weight + 1 ≤ stack.weight + node.weight := by
  induction stack, node using descend.induct with
  | case1 stack k v =>
    rw [descend_leaf, ArtNode.weight_leaf]
  | case2 stack pfx children h =>
    rw [descend_nil h, ArtNode.weight_inner]
    exact Nat.add_le_add_left (Nat.le_add_left _ _) _
  | case3 stack pfx children b child rest h ih =>
    have hchildren : (ArtNode.inner pfx children).iterChildren = (b, child) :: rest := h
    rw [weight_cons, hchildren, drop_succ_cons, drop_zero] at ih
    rw [descend_cons h, ArtNode.weight_inner, h, map_cons, sum_cons]
    dsimp only
    omega

/-- Visiting a child that holds no leaf makes progress. -/
theorem weight_of_descend {stack' : Stack V} (h : node.iterChildren[idx]? = some (b, child))
    (h' : descend ((node, idx + 1) :: stack) child = (stack', none)) :
    stack'.weight < weight ((node, idx) :: stack) := by
  have hle := descend_weight child ((node, idx + 1) :: stack)
  obtain ⟨hlt, hchild⟩ := List.getElem?_eq_some_iff.mp h
  rw [h', weight_cons] at hle
  rw [weight_cons, drop_eq_getElem_cons hlt, map_cons, sum_cons, hchild]
  dsimp only at hle ⊢
  omega

/-- Going down loses nothing: the leaf comes first, then what the stack holds. -/
theorem descend_pending (node : ArtNode V) (stack : Stack V) :
    (descend stack node).2.toList ++ (descend stack node).1.pending = node.entries ++ stack.pending := by
  induction stack, node using descend.induct with
  | case1 stack k v =>
    rw [descend_leaf, ArtNode.entries_leaf]
    rfl
  | case2 stack pfx children h =>
    rw [descend_nil h, ArtNode.entries_inner, h]
    rfl
  | case3 stack pfx children b child rest h ih =>
    have hchildren : (ArtNode.inner pfx children).iterChildren = (b, child) :: rest := h
    rw [pending_cons, hchildren, drop_succ_cons, drop_zero] at ih
    rw [descend_cons h, ih, ArtNode.entries_inner, h, flatMap_cons, append_assoc]

/-- Visit children until a leaf is found: the leaf and the stack. -/
def advance (stack : Stack V) : Option (Key × V) × Stack V :=
  match stack with
  | [] => (none, [])
  | (node, idx) :: stack =>
    match _h : node.iterChildren[idx]? with
    | none => advance stack
    | some (_, child) =>
      match _h' : descend ((node, idx + 1) :: stack) child with
      | (stack, some leaf) => (some leaf, stack)
      | (stack, none) => advance stack
  termination_by stack.weight
  decreasing_by
    · rw [weight_cons]
      omega
    · exact weight_of_descend _h _h'

theorem advance_done (h : node.iterChildren[idx]? = none) : advance ((node, idx) :: stack) = advance stack := by
  rw [advance]
  split
  · rfl
  · rename_i heq
    rw [h] at heq
    cases heq

theorem advance_child (h : node.iterChildren[idx]? = some (b, child)) : advance ((node, idx) :: stack) =
      match descend ((node, idx + 1) :: stack) child with
      | (stack, some leaf) => (some leaf, stack)
      | (stack, none) => advance stack := by
  rw [advance]
  split
  · rename_i heq
    rw [h] at heq
    cases heq
  · rename_i heq
    rw [h] at heq
    cases heq
    split
    · rename_i heq
      rw [heq]
    · rename_i heq
      rw [heq]

theorem pending_child (h : node.iterChildren[idx]? = some (b, child)) :
    pending ((node, idx) :: stack) = child.entries ++ pending ((node, idx + 1) :: stack) := by
  obtain ⟨hlt, hchild⟩ := List.getElem?_eq_some_iff.mp h
  rw [pending_cons, drop_eq_getElem_cons hlt, hchild, flatMap_cons, append_assoc, pending_cons]

/-- The first pair of the stack and the rest; without a pair the stack is exhausted. -/
theorem advance_spec (stack : Stack V) : (advance stack).1.toList ++ (advance stack).2.pending = stack.pending ∧
      ((advance stack).1 = none → (advance stack).2 = []) := by
  induction stack using advance.induct with
  | case1 =>
    rw [advance]
    exact ⟨rfl, fun _ => rfl⟩
  | case2 node idx stack h ih =>
    rw [advance_done h, pending_cons, drop_eq_nil_of_le (List.getElem?_eq_none_iff.mp h)]
    exact ih
  | case3 node idx stack b child h stack' leaf h' =>
    have hpend := descend_pending child ((node, idx + 1) :: stack)
    rw [h'] at hpend
    rw [advance_child h, h', pending_child h]
    exact ⟨hpend, fun hnone => by cases hnone⟩
  | case4 node idx stack b child h stack' h' ih =>
    have hpend := descend_pending child ((node, idx + 1) :: stack)
    rw [h'] at hpend
    rw [advance_child h, h', pending_child h, ← hpend]
    exact ih

end Stack

/-- The iterator of a tree; before the first call nothing has been visited. -/
structure ArtIter (V : Type) where
  stack : Stack V
  currentLeaf : Option (Key × V)
  root : Option (ArtNode V)
  started : Bool
  fresh : started = false → stack = [] ∧ currentLeaf = none

namespace ArtIter

/-- The first descent. -/
def start (it : ArtIter V) : ArtIter V :=
  if it.started then it
  else
    match it.root with
    | none => { it with started := true, fresh := nofun }
    | some root =>
      { stack := (it.stack.descend root).1
        currentLeaf := (it.stack.descend root).2.or it.currentLeaf
        root := it.root
        started := true
        fresh := nofun }

theorem started_start (it : ArtIter V) : it.start.started = true := by
  unfold start
  by_cases h : it.started
  · rw [if_pos h, h]
  · rw [if_neg h]
    cases it.root <;> rfl

/-- The next pair. -/
def next (it : ArtIter V) : Option (Key × V) × ArtIter V :=
  match it.start.currentLeaf with
  | some leaf => (some leaf, { it.start with
    currentLeaf := none
    fresh := fun h => absurd h (by rw [started_start]; decide) })
  | none => (it.start.stack.advance.1, { it.start with
    stack := it.start.stack.advance.2
    fresh := fun h => absurd h (by rw [started_start]; decide) })

/-- What is still to be yielded. -/
def pending (it : ArtIter V) : List (Key × V) :=
  if it.started then it.currentLeaf.toList ++ it.stack.pending
  else match it.root with
    | none => []
    | some root => root.entries

theorem pending_start (it : ArtIter V) : it.start.pending = it.pending ∧
      it.start.pending = it.start.currentLeaf.toList ++ it.start.stack.pending := by
  have hstarted : it.start.pending = it.start.currentLeaf.toList ++ it.start.stack.pending :=
    if_pos (started_start it)
  refine ⟨?_, hstarted⟩
  by_cases h : it.started = true
  · have hsame : it.start = it := if_pos h
    rw [hsame]
  · rw [hstarted]
    obtain ⟨hstack, hleaf⟩ := it.fresh (Bool.not_eq_true _ ▸ h)
    unfold start pending
    rw [if_neg h, if_neg h]
    cases it.root with
    | none =>
      dsimp only
      rw [hstack, hleaf]
      rfl
    | some root =>
      have hpend := Stack.descend_pending root it.stack
      dsimp only
      rw [hleaf, Option.or_none, hpend, hstack]
      exact append_nil _

/-- **One call** yields the first pending pair, or there is none left. -/
theorem next_spec (it : ArtIter V) : it.next.1.toList ++ it.next.2.pending = it.pending ∧
      (it.next.1 = none → it.pending = []) := by
  obtain ⟨hstart, hpend⟩ := pending_start it
  have hstarted := started_start it
  rw [← hstart, hpend]
  unfold next
  cases hleaf : it.start.currentLeaf with
  | some leaf =>
    dsimp only
    refine ⟨?_, fun hnone => by cases hnone⟩
    unfold pending
    rw [if_pos hstarted]
    rfl
  | none =>
    obtain ⟨hadv, hdone⟩ := Stack.advance_spec it.start.stack
    dsimp only
    refine ⟨?_, ?_⟩
    · unfold pending
      rw [if_pos hstarted]
      show _ ++ (it.start.currentLeaf.toList ++ it.start.stack.advance.2.pending) = _
      rw [hleaf]
      exact hadv
    · intro hnone
      rw [← hadv, hnone, hdone hnone]
      rfl

/-- All pairs the iterator yields. -/
def collect (it : ArtIter V) : List (Key × V) :=
  match _h : it.next with
  | (none, _) => []
  | (some x, it') => x :: it'.collect
  termination_by it.pending.length
  decreasing_by
    have hspec := (next_spec it).1
    rw [_h] at hspec
    rw [← hspec]
    exact Nat.lt_succ_self _

theorem collect_eq (it : ArtIter V) : it.collect = it.pending := by
  induction it using collect.induct with
  | case1 it it' h =>
    rw [collect]
    split
    · rw [(next_spec it).2 (by rw [h])]
    · rename_i heq
      rw [h] at heq
      cases heq
  | case2 it x it' h ih =>
    have hspec := (next_spec it).1
    rw [h] at hspec
    rw [collect]
    split
    · rename_i heq
      rw [h] at heq
      cases heq
    · rename_i heq
      rw [h] at heq
      cases heq
      rw [ih, ← hspec]
      rfl

end ArtIter

/-! ### Order and completeness -/

namespace ArtNode

variable {m : ℕ} {path : Key} {node : ArtNode V}

theorem WF.mem_entries (h : WF m path node) {k : Key} {v : V} : (k, v) ∈ node.entries ↔ Holds node k v := by
  induction h with
  | leaf hpath => rw [entries_leaf, mem_singleton, Prod.mk.injEq, holds_leaf]
  | inner hvalid hsize hchild ih =>
    rw [entries_inner, mem_flatMap, holds_inner]
    constructor
    · rintro ⟨⟨b, c⟩, hmem, hc⟩
      rw [Layout.iterChildren_eq hvalid, mem_graph] at hmem
      exact ⟨b, c, hmem, (ih b c hmem).mp hc⟩
    · rintro ⟨b, c, hbc, hc⟩
      refine ⟨(b, c), ?_, (ih b c hbc).mpr hc⟩
      rw [Layout.iterChildren_eq hvalid, mem_graph]
      exact hbc

/-- The pairs of a well-formed node ascend strictly. -/
theorem WF.entries_sorted (h : WF m path node) : node.entries.Pairwise fun x y => x.1 < y.1 := by
  induction h with
  | leaf hpath =>
    rw [entries_leaf]
    exact pairwise_singleton _ _
  | inner hvalid hsize hchild ih =>
    have hwf := WF.inner hvalid hsize hchild
    rw [entries_inner, pairwise_flatMap, Layout.iterChildren_eq hvalid]
    refine ⟨?_, ?_⟩
    · rintro ⟨b, c⟩ hmem
      exact ih b c (mem_graph.mp hmem)
    · refine (graph_ascending _).imp_of_mem ?_
      rintro ⟨b, c⟩ ⟨b', c'⟩ hmem hmem' hlt x hx y hy
      have hbc := mem_graph.mp hmem
      have hbc' := mem_graph.mp hmem'
      have hx' := hwf.child_initial hbc ((hchild b c hbc).mem_entries.mp hx)
      have hy' := hwf.child_initial hbc' ((hchild b' c' hbc').mem_entries.mp hy)
      exact lt_of_next hx' hy' hlt

end ArtNode

namespace ArtTree

variable {t : ArtTree V}

/-- Iterate over all pairs in sorted order. -/
def iter (t : ArtTree V) : ArtIter V := ⟨[], none, t.root, false, fun _ => ⟨rfl, rfl⟩⟩

/-- All pairs with a key from `start` on, below `stop`. -/
def rangeScan (t : ArtTree V) (start stop : Key) : List (Key × V) :=
  t.iter.collect.filter fun x => start ≤ x.1 ∧ x.1 < stop

/-- The same with an optional end. -/
def range (t : ArtTree V) (start : Key) (stop : Option Key) : List (Key × V) :=
  t.iter.collect.filter fun x => decide (start ≤ x.1) && (match stop with
    | none => true
    | some e => decide (x.1 < e))

variable {m : ℕ}

theorem WF.mem_collect (h : t.WF m) {k : Key} {v : V} : (k, v) ∈ t.iter.collect ↔ t.Holds k v := by
  rw [ArtIter.collect_eq]
  unfold ArtIter.pending iter
  rw [if_neg Bool.false_ne_true]
  cases hroot : t.root with
  | none =>
    refine iff_of_false not_mem_nil ?_
    rintro ⟨node, hnode, -⟩
    rw [hroot] at hnode
    cases hnode
  | some node => rw [holds_root hroot, (h node hroot).mem_entries]

theorem WF.collect_sorted (h : t.WF m) : t.iter.collect.Pairwise fun x y => x.1 < y.1 := by
  rw [ArtIter.collect_eq]
  unfold ArtIter.pending iter
  rw [if_neg Bool.false_ne_true]
  cases hroot : t.root with
  | none => exact List.Pairwise.nil
  | some node => exact (h node hroot).entries_sorted

/-- **Ordered iteration**: after inserting prefix-free keys the iterator yields each stored pair
once, in strictly ascending lexicographic order of the keys, and a range yields those of its
pairs whose keys lie in the range, in the same order. -/
theorem iter_insertAll {ops : List (Key × V)} (h : PrefixFree (keysOf ops)) :
    let t := (new : ArtTree V).insertAll ops
    (t.iter.collect.Pairwise fun x y => x.1 < y.1) ∧
      (∀ k v, (k, v) ∈ t.iter.collect ↔ (tableOf ops).lookup k = some v) ∧
      (∀ start stop, (t.rangeScan start stop).Sublist t.iter.collect ∧ ∀ k v, (k, v) ∈ t.rangeScan start stop ↔
          (tableOf ops).lookup k = some v ∧ start ≤ k ∧ k < stop) ∧
      ∀ start stop, (t.range start stop).Sublist t.iter.collect ∧ ∀ k v, (k, v) ∈ t.range start stop ↔
          (tableOf ops).lookup k = some v ∧ start ≤ k ∧ ∀ e ∈ stop, k < e := by
  have hrep := insertAll_represents h
  have hmem (k : Key) (v : V) : (k, v) ∈ ((new : ArtTree V).insertAll ops).iter.collect ↔
      (tableOf ops).lookup k = some v := by
    rw [hrep.wf.mem_collect, hrep.holds]
  refine ⟨hrep.wf.collect_sorted, hmem, ?_, ?_⟩
  · intro start stop
    refine ⟨filter_sublist, ?_⟩
    intro k v
    unfold rangeScan
    rw [mem_filter, hmem, decide_eq_true_iff]
  · intro start stop
    refine ⟨filter_sublist, ?_⟩
    intro k v
    unfold range
    rw [mem_filter, hmem, Bool.and_eq_true, decide_eq_true_iff]
    cases stop with
    | none => simp
    | some e => simp

/-- Ordered iteration of `b` and `aa`. -/
theorem iter_insertAll_two : let t := (new : ArtTree ℕ).insertAll [([98], 1), ([97, 97], 2)]
    (t.iter.collect.Pairwise fun x y => x.1 < y.1) ∧ t.iter.collect = [([97, 97], 2), ([98], 1)] := by
  have hfree : PrefixFree (keysOf [(([98] : Key), 1), ([97, 97], 2)]) := by
    simp [PrefixFree, keysOf]
  exact ⟨(iter_insertAll hfree).1, by decide +kernel⟩

end ArtTree

end CenDB.Index
