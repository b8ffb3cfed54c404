import CenDB.Index.Layout
import CenDB.Lib.Prefixes

/-! # The adaptive radix tree

The tree as the code computes it: `insert`, `get` and `remove` descend along the key and match
the compressed prefix of every interior node on the way.

`Holds node k v` says that a leaf below the node holds the pair, and `WF m path node` that every
leaf lies on its key's path and every interior node has at least `m` children.  In a
well-formed tree `get` finds exactly what is stored (`getFrom_eq_some`). -/

namespace CenDB.Index

open ByteMap Prefixes List Option

abbrev Key := List UInt8

/-- A node: a leaf with the full key, or an interior node with its compressed prefix. -/
inductive ArtNode (V : Type) where
  | leaf (key : Key) (value : V)
  | inner (pfx : Key) (children : Layout (ArtNode V))

namespace ArtNode

variable {V : Type}

/-- An interior node with empty prefix and no children. -/
def newNode4 : Layout (ArtNode V) := .node4 [] []

/-! ### Insertion -/

/-- A leaf split into an interior node over both keys.  Where one key ends inside the other
only the longer one is kept. -/
def splitLeaf (existingKey : Key) (existingValue : V) (key : Key) (value : V) (depth : ℕ) : ArtNode V :=
  let common := commonLength (key.drop depth) (existingKey.drop depth)
  let newDepth := depth + common
  let pfx := (key.drop depth).take common
  match existingKey[newDepth]?, key[newDepth]? with
  | some b, some b' =>
    inner pfx ((newNode4.insertChild b (leaf existingKey existingValue)).insertChild b' (leaf key value))
  | none, none => leaf existingKey existingValue
  | none, some b' => inner pfx (newNode4.insertChild b' (leaf key value))
  | some b, none => inner pfx (newNode4.insertChild b (leaf existingKey existingValue))

/-- An interior node whose prefix does not match split at the first `matchLen` bytes.  The new
key becomes a leaf if it has more bytes. -/
def splitNode (pfx : Key) (children : Layout (ArtNode V)) (matchLen : ℕ) (key : Key) (value : V)
    (depth : ℕ) : ArtNode V :=
  match pfx[matchLen]? with
  | none => inner pfx children
  | some b =>
    let parent := newNode4.insertChild b (inner (pfx.drop (matchLen + 1)) children)
    match key[depth + matchLen]? with
    | none => inner (pfx.take matchLen) parent
    | some b' => inner (pfx.take matchLen) (parent.insertChild b' (leaf key value))

/-- Insert below a slot: the previous value and the new content of the slot. -/
def insertRecursive (slot : Option (ArtNode V)) (key : Key) (depth : ℕ) (value : V) :
    Option V × Option (ArtNode V) :=
  match slot with
  | none => (none, some (leaf key value))
  | some (leaf k v) =>
    if k = key then (some v, some (leaf k value))
    else (none, some (splitLeaf k v key value depth))
  | some (inner pfx children) =>
    let matchLen := commonLength pfx (key.drop depth)
    if matchLen < pfx.length then
      (none, some (splitNode pfx children matchLen key value depth))
    else
      match _h : key[depth + pfx.length]? with
      -- the key ends at an interior node: no value is stored
      | none => (none, some (inner pfx children))
      | some byte =>
        if (children.findChild byte).isSome then
          match children.removeChild byte with
          | (none, rest) => (none, some (inner pfx rest))
          | (some child, rest) =>
            match insertRecursive (some child) key (depth + pfx.length + 1) value with
            | (result, none) => (result, some (inner pfx rest))
            | (result, some child) => (result, some (inner pfx (rest.insertChild byte child)))
        else (none, some (inner pfx (children.insertChild byte (leaf key value))))
  termination_by key.length - depth
  decreasing_by
    have hlt := (List.getElem?_eq_some_iff.mp _h).1
    omega

/-! ### Lookup -/

/-- The descent of a lookup. -/
def getFrom (node : ArtNode V) (key : Key) (depth : ℕ) : Option V :=
  match node with
  | leaf k v => if k = key then some v else none
  | inner pfx children =>
    if pfx <+: key.drop depth then
      match _h : key[depth + pfx.length]? with
      | none => none
      | some byte =>
        match children.findChild byte with
        | none => none
        | some child => getFrom child key (depth + pfx.length + 1)
    else none
  termination_by key.length - depth
  decreasing_by
    have hlt := (List.getElem?_eq_some_iff.mp _h).1
    omega

/-! ### Removal -/

/-- An interior node after a removal below it: a node left with one child is replaced by that
child. -/
def compress (pfx : Key) (children : Layout (ArtNode V)) (removed : Bool) : ArtNode V :=
  if children.childCount = 1 ∧ removed then
    match children.iterChildren with
    | (_, onlyChild) :: _ => onlyChild
    | [] => inner pfx children
  else inner pfx children

/-- Remove below a slot: the removed value and the new content of the slot. -/
def removeRecursive (slot : Option (ArtNode V)) (key : Key) (depth : ℕ) : Option V × Option (ArtNode V) :=
  match slot with
  | none => (none, none)
  | some (leaf k v) => if k = key then (some v, none) else (none, some (leaf k v))
  | some (inner pfx children) =>
    if pfx <+: key.drop depth then
      match _h : key[depth + pfx.length]? with
      | none => (none, some (inner pfx children))
      | some byte =>
        if (children.findChild byte).isSome then
          match children.removeChild byte with
          | (none, rest) => (none, some (inner pfx rest))
          | (some child, rest) =>
            match removeRecursive (some child) key (depth + pfx.length + 1) with
            | (result, none) => (result, some (compress pfx rest result.isSome))
            | (result, some child) =>
              (result, some (compress pfx (rest.insertChild byte child) result.isSome))
        else (none, some (inner pfx children))
    else (none, some (inner pfx children))
  termination_by key.length - depth
  decreasing_by
    have hlt := (List.getElem?_eq_some_iff.mp _h).1
    omega

end ArtNode

/-- The tree: the root node and the number of keys it counts. -/
structure ArtTree (V : Type) where
  root : Option (ArtNode V)
  len : ℕ

namespace ArtTree

variable {V : Type}

/-- The empty tree. -/
def new : ArtTree V := ⟨none, 0⟩

/-- Insert a pair: the value the call returns and the tree. -/
def insert (t : ArtTree V) (key : Key) (value : V) : Option V × ArtTree V :=
  let (result, root) := ArtNode.insertRecursive t.root key 0 value
  (result, ⟨root, if result.isNone then t.len + 1 else t.len⟩)

/-- Look up a key. -/
def get (t : ArtTree V) (key : Key) : Option V :=
  if key.isEmpty then
    match t.root with
    | some (.leaf k v) => if k.isEmpty then some v else none
    | _ => none
  else
    match t.root with
    | none => none
    | some node => node.getFrom key 0

/-- Remove a key: the removed value and the tree. -/
def remove (t : ArtTree V) (key : Key) : Option V × ArtTree V :=
  let (result, root) := ArtNode.removeRecursive t.root key 0
  (result, ⟨root, if result.isSome then t.len - 1 else t.len⟩)

end ArtTree

namespace ArtNode

variable {V : Type}

/-! ### What a node stores -/

/-- A leaf below the node holds the pair. -/
inductive Holds : ArtNode V → Key → V → Prop
  | leaf (k : Key) (v : V) : Holds (leaf k v) k v
  | child {pfx : Key} {children : Layout (ArtNode V)} {b : UInt8} {c : ArtNode V} {k : Key} {v : V}
    (hchild : children.findChild b = some c) (hc : Holds c k v) : Holds (inner pfx children) k v

/-- Well-formed below a path: the leaves lie on the paths of their keys, and an interior node
has a valid layout with at least `m` children. -/
inductive WF (m : ℕ) : Key → ArtNode V → Prop
  | leaf {path key : Key} {value : V} (hpath : path <+: key) : WF m path (leaf key value)
  | inner {path pfx : Key} {children : Layout (ArtNode V)} (hvalid : children.Valid)
    (hsize : m ≤ size fun b => children.findChild b)
    (hchild : ∀ b c, children.findChild b = some c → WF m (path ++ pfx ++ [b]) c) :
    WF m path (inner pfx children)

variable {k pfx key : Key} {v : V} {children : Layout (ArtNode V)}

@[simp] theorem holds_leaf {k' : Key} {v' : V} :
    Holds (leaf k v) k' v' ↔ k' = k ∧ v' = v := by
  constructor
  · intro h
    cases h
    exact ⟨rfl, rfl⟩
  · rintro ⟨rfl, rfl⟩
    exact Holds.leaf _ _

theorem holds_inner : Holds (inner pfx children) k v ↔ ∃ b c, children.findChild b = some c ∧ Holds c k v := by
  constructor
  · intro h
    cases h with
    | child hchild hc => exact ⟨_, _, hchild, hc⟩
  · rintro ⟨b, c, hchild, hc⟩
    exact Holds.child hchild hc

variable {m : ℕ} {path : Key} {node : ArtNode V}

theorem WF.inner_iff : WF m path (ArtNode.inner pfx children) ↔ children.Valid ∧
      (m ≤ size fun b => children.findChild b) ∧
      ∀ b c, children.findChild b = some c → WF m (path ++ pfx ++ [b]) c := by
  constructor
  · intro h
    cases h with
    | inner hvalid hsize hchild => exact ⟨hvalid, hsize, hchild⟩
  · rintro ⟨hvalid, hsize, hchild⟩
    exact WF.inner hvalid hsize hchild

/-- Every stored key extends the path of the node. -/
theorem WF.path_initial (h : WF m path node) (hk : Holds node k v) : path <+: k := by
  induction h with
  | leaf hpath => exact (holds_leaf.mp hk).1 ▸ hpath
  | inner hvalid hsize hchild ih =>
    obtain ⟨b, c, hbc, hc⟩ := holds_inner.mp hk
    have hext := ih b c hbc hc
    rw [append_assoc] at hext
    exact (prefix_append _ _).trans hext

variable {b : UInt8} {depth : ℕ}

/-- A key below an interior node continues with the byte of its child. -/
theorem WF.child_initial (h : WF m path (ArtNode.inner pfx children)) {c : ArtNode V}
    (hbc : children.findChild b = some c) (hk : Holds c k v) :
    path ++ pfx ++ [b] <+: k :=
  ((WF.inner_iff.mp h).2.2 b c hbc).path_initial hk

theorem WF.exists_holds (hm : 1 ≤ m) (h : WF m path node) : ∃ k v, Holds node k v := by
  induction h with
  | leaf hpath => exact ⟨_, _, Holds.leaf _ _⟩
  | inner hvalid hsize hchild ih =>
    obtain ⟨b, c, hbc⟩ := exists_of_size_pos (lt_of_lt_of_le hm hsize)
    obtain ⟨k, v, hk⟩ := ih b c hbc
    exact ⟨k, v, Holds.child hbc hk⟩

/-- A shorter path. -/
theorem WF.shorten {path' : Key} (h : WF m path (ArtNode.leaf k v)) (hpath : path' <+: path) :
    WF m path' (ArtNode.leaf k v) := by
  cases h with
  | leaf hk => exact WF.leaf (hpath.trans hk)

/-! ### Lookup -/

theorem getFrom_leaf : getFrom (leaf k v) key depth = if k = key then some v else none := by
  rw [getFrom]

theorem getFrom_inner : getFrom (inner pfx children) key depth = if pfx <+: key.drop depth then
        (key[depth + pfx.length]?).bind fun byte =>
          (children.findChild byte).bind fun child => getFrom child key (depth + pfx.length + 1)
      else none := by
  rw [getFrom]
  by_cases hpfx : pfx <+: key.drop depth
  · rw [if_pos hpfx, if_pos hpfx]
    cases hnext : key[depth + pfx.length]? with
    | none => rfl
    | some byte =>
      dsimp only [bind_some]
      cases children.findChild byte with
      | none | some child => rfl
  · simp [hpfx]

/-- A lookup returns only what is stored, whatever the tree. -/
theorem holds_of_getFrom (h : getFrom node key depth = some v) : Holds node key v := by
  induction node, depth using getFrom.induct key with
  | case1 depth v' =>
    rw [getFrom_leaf, if_pos rfl] at h
    exact holds_leaf.mpr ⟨rfl, (Option.some.inj h).symm⟩
  | case2 depth k v' hk =>
    rw [getFrom_leaf, if_neg hk] at h
    cases h
  | case3 depth pfx children hpfx hnext =>
    rw [getFrom_inner, if_pos hpfx, hnext] at h
    cases h
  | case4 depth pfx children hpfx byte hnext hchild =>
    rw [getFrom_inner, if_pos hpfx, hnext, bind_some, hchild] at h
    cases h
  | case5 depth pfx children hpfx byte hnext child hchild ih =>
    rw [getFrom_inner, if_pos hpfx, hnext, bind_some, hchild, bind_some] at h
    exact Holds.child hchild (ih h)
  | case6 depth pfx children hpfx =>
    rw [getFrom_inner, if_neg hpfx] at h
    cases h

theorem initial_drop (hkey : path <+: key) : pfx <+: key.drop path.length ↔ path ++ pfx <+: key := by
  obtain ⟨s, rfl⟩ := hkey
  rw [drop_left, prefix_append_right_inj]

/-- The byte a key continues with after the path and the prefix of a node. -/
theorem next_byte (hkey : path ++ pfx <+: key) :
    key[path.length + pfx.length]? = some b ↔ path ++ pfx ++ [b] <+: key := by
  rw [← length_append]
  exact next_of_initial hkey

theorem length_child (path pfx : Key) (b : UInt8) :
    (path ++ pfx ++ [b]).length = path.length + pfx.length + 1 := by
  rw [length_append, length_append, length_singleton]

/-- In a well-formed tree a lookup finds exactly what is stored. -/
theorem WF.getFrom_eq_some (h : WF m path node) (hkey : path <+: key) :
    getFrom node key path.length = some v ↔ Holds node key v := by
  refine ⟨holds_of_getFrom, ?_⟩
  intro hk
  induction h with
  | leaf hpath =>
    obtain ⟨rfl, rfl⟩ := holds_leaf.mp hk
    rw [getFrom_leaf, if_pos rfl]
  | inner hvalid hsize hchild ih =>
    rename_i path pfx children
    obtain ⟨b, c, hbc, hc⟩ := holds_inner.mp hk
    have hext := (hchild b c hbc).path_initial hc
    have hpfx : path ++ pfx <+: key := (prefix_append _ _).trans hext
    rw [getFrom_inner, if_pos ((initial_drop hkey).mpr hpfx), (next_byte hpfx).mpr hext,
      bind_some, hbc, bind_some, ← length_child path pfx b]
    exact ih b c hbc hext hc

end ArtNode

namespace ArtTree

variable {V : Type} {m : ℕ} {t : ArtTree V}

/-- The pairs of a tree. -/
def Holds (t : ArtTree V) (k : Key) (v : V) : Prop := ∃ node, t.root = some node ∧ node.Holds k v

/-- A tree whose root, if any, is well-formed. -/
def WF (m : ℕ) (t : ArtTree V) : Prop := ∀ node, t.root = some node → node.WF m []

theorem WF.new : (new : ArtTree V).WF m := by
  intro node hnode
  cases hnode

variable {k : Key} {v : V}

theorem not_holds_new : ¬ (new : ArtTree V).Holds k v := by
  rintro ⟨node, hnode, -⟩
  cases hnode

theorem holds_of_get (h : t.get k = some v) : t.Holds k v := by
  unfold get at h
  cases hroot : t.root with
  | none =>
    rw [hroot] at h
    by_cases hk : k.isEmpty
    · rw [if_pos hk] at h
      cases h
    · rw [if_neg hk] at h
      cases h
  | some node =>
    refine ⟨node, hroot, ?_⟩
    rw [hroot] at h
    by_cases hk : k.isEmpty
    · rw [if_pos hk] at h
      rw [List.isEmpty_iff] at hk
      cases node with
      | inner pfx children => cases h
      | leaf k' v' =>
        dsimp only at h
        by_cases hk' : k'.isEmpty
        · rw [if_pos hk'] at h
          rw [List.isEmpty_iff] at hk'
          exact ArtNode.holds_leaf.mpr ⟨hk.trans hk'.symm, (Option.some.inj h).symm⟩
        · rw [if_neg hk'] at h
          cases h
    · rw [if_neg hk] at h
      exact ArtNode.holds_of_getFrom h

/-- `get` finds exactly the pairs of the tree. -/
theorem WF.get_eq_some (h : t.WF m) : t.get k = some v ↔ t.Holds k v := by
  refine ⟨holds_of_get, ?_⟩
  rintro ⟨node, hroot, hk⟩
  have hwf := h node hroot
  unfold get
  rw [hroot]
  by_cases hempty : k.isEmpty
  · rw [if_pos hempty]
    rw [List.isEmpty_iff] at hempty
    subst hempty
    cases node with
    | leaf k' v' =>
      obtain ⟨rfl, rfl⟩ := ArtNode.holds_leaf.mp hk
      rfl
    | inner pfx children =>
      -- a key below an interior node is not empty
      obtain ⟨b, c, hbc, hc⟩ := ArtNode.holds_inner.mp hk
      have hext := hwf.child_initial hbc hc
      rw [prefix_nil] at hext
      simp at hext
  · rw [if_neg hempty]
    exact (hwf.getFrom_eq_some nil_prefix).mpr hk

theorem WF.get_eq_getFrom (h : t.WF m) {node : ArtNode V} (hroot : t.root = some node) (k : Key) :
    t.get k = node.getFrom k 0 := by
  apply Option.ext
  intro v
  have hnode : node.getFrom k 0 = some v ↔ node.Holds k v := (h node hroot).getFrom_eq_some nil_prefix
  rw [h.get_eq_some, hnode]
  constructor
  · rintro ⟨node', hroot', hk⟩
    rw [hroot] at hroot'
    exact Option.some.inj hroot' ▸ hk
  · intro hk
    exact ⟨node, hroot, hk⟩

theorem WF.get_eq_none (h : t.WF m) : t.get k = none ↔ ∀ v, ¬ t.Holds k v := by
  rw [eq_none_iff_forall_ne_some]
  exact forall_congr' fun v => not_congr h.get_eq_some

end ArtTree

end CenDB.Index
