import CenDB.Index.ArtInsert
import CenDB.Lib.Transition

/-! # Removal from the adaptive radix tree

A node left with one child is replaced by that child.  For a leaf this is right; an interior
child keeps its own prefix, the bytes of the replaced node are not joined to it, and keys below
become unreachable.  `Strands node key` says that removing the key does this: some node has
exactly the leaf of the key and one interior node as children.

`removeRecursive_spec` says what one removal does in both cases, and `agrees_iff` that over
prefix-free keys a sequence of operations agrees with a finite map exactly as long as no removal
strands a subtree. -/

namespace CenDB.Index

open ByteMap Prefixes Transition List Option Table

variable {V : Type} {key k : Key} {v : V}

namespace ArtNode

variable {m : ℕ} {path pfx : Key} {children : Layout (ArtNode V)} {byte : UInt8} {node : ArtNode V}

/-- Some node below has exactly two children, the leaf of the key and an interior node. -/
inductive Strands : ArtNode V → Key → Prop
  | parent {pfx pfx' key : Key} {children children' : Layout (ArtNode V)} {byte b : UInt8} {v : V}
    (hleaf : children.findChild byte = some (leaf key v)) (hne : b ≠ byte)
    (hinner : children.findChild b = some (inner pfx' children'))
    (htwo : (size fun b => children.findChild b) = 2) : Strands (inner pfx children) key
  | child {pfx key : Key} {children : Layout (ArtNode V)} {byte : UInt8} {c : ArtNode V}
    (hchild : children.findChild byte = some c) (hc : Strands c key) :
    Strands (inner pfx children) key

theorem Strands.holds (h : Strands node key) : ∃ v, Holds node key v := by
  induction h with
  | parent hleaf hne hinner htwo => exact ⟨_, Holds.child hleaf (Holds.leaf _ _)⟩
  | child hchild hc ih =>
    obtain ⟨v, hv⟩ := ih
    exact ⟨v, Holds.child hchild hv⟩

theorem not_strands_leaf {v : V} : ¬ Strands (leaf k v) key := by
  intro h
  cases h

variable {c child : ArtNode V} {depth : ℕ} {rest : Layout (ArtNode V)}

/-- The children on the path of the key decide. -/
theorem WF.strands_iff (h : WF m path (ArtNode.inner pfx children)) (hkey : path ++ pfx ++ [byte] <+: key)
    (hbyte : children.findChild byte = some c) :
    Strands (ArtNode.inner pfx children) key ↔ Strands c key ∨
      (∃ v, c = ArtNode.leaf key v) ∧ (size fun b => children.findChild b) = 2 ∧ ∃ b pfx' children', b ≠ byte ∧
          children.findChild b = some (ArtNode.inner pfx' children') := by
  -- a child with the key is the one at the byte
  have hat {b : UInt8} {c' : ArtNode V} {v : V} (hb : children.findChild b = some c')
      (hv : Holds c' key v) : b = byte := by
    by_contra hne
    exact not_initial_of_next (h.child_initial hb hv) hkey hne (prefix_refl key)
  constructor
  · intro hs
    cases hs with
    | parent hleaf hne hinner htwo =>
      obtain rfl := hat hleaf (Holds.leaf _ _)
      rw [hbyte] at hleaf
      exact .inr ⟨⟨_, Option.some.inj hleaf⟩, htwo, _, _, _, hne, hinner⟩
    | child hchild hc =>
      obtain ⟨v, hv⟩ := hc.holds
      obtain rfl := hat hchild hv
      rw [hbyte] at hchild
      exact .inl (Option.some.inj hchild ▸ hc)
  · intro hs
    obtain hs | ⟨⟨v, rfl⟩, htwo, b, pfx', children', hne, hinner⟩ := hs
    · exact Strands.child hbyte hs
    · exact Strands.parent hbyte hne hinner htwo

/-! ### Equations -/

theorem removeRecursive_leaf {v : V} : removeRecursive (some (leaf k v)) key depth =
      if k = key then (some v, none) else (none, some (leaf k v)) := by
  rw [removeRecursive]

/-- A key that is not found leaves the node as it is. -/
theorem removeRecursive_absent
    (h : ∀ b c, pfx <+: key.drop depth → key[depth + pfx.length]? = some b → children.findChild b ≠ some c) :
    removeRecursive (some (inner pfx children)) key depth = (none, some (inner pfx children)) := by
  rw [removeRecursive]
  by_cases hpfx : pfx <+: key.drop depth
  · rw [if_pos hpfx]
    split
    · rfl
    · rename_i b hnext
      have hnone : children.findChild b = none := by
        rw [eq_none_iff_forall_ne_some]
        exact fun c => h b c hpfx hnext
      rw [hnone, isSome_none, if_neg Bool.false_ne_true]
  · rw [if_neg hpfx]

/-- The node after a removal below the child at a byte. -/
theorem removeRecursive_descend {result : Option V} {slot : Option (ArtNode V)} (hpfx : pfx <+: key.drop depth)
    (hnext : key[depth + pfx.length]? = some byte) (hbyte : children.findChild byte = some child)
    (hremove : children.removeChild byte = (some child, rest))
    (hrec : removeRecursive (some child) key (depth + pfx.length + 1) = (result, slot)) :
    removeRecursive (some (inner pfx children)) key depth = (result, some (compress pfx (match slot with
          | none => rest
          | some child => rest.insertChild byte child) result.isSome)) := by
  rw [removeRecursive, if_pos hpfx]
  split
  · rename_i heq
    rw [hnext] at heq
    cases heq
  · rename_i heq
    rw [hnext] at heq
    cases heq
    rw [hbyte, isSome_some, if_pos rfl, hremove]
    dsimp only
    rw [hrec]
    cases slot with
    | none | some child => rfl

theorem compress_of_two_le (hvalid : children.Valid)
    (hsize : 2 ≤ size fun b => children.findChild b) (removed : Bool) :
    compress pfx children removed = inner pfx children := by
  unfold compress
  rw [if_neg]
  rw [Layout.childCount_eq hvalid]
  omega

/-- A single child replaces the node. -/
theorem compress_one (hvalid : children.Valid) {b : UInt8} (hchild : children.findChild b = some c)
    (hsize : (size fun b => children.findChild b) = 1) :
    compress pfx children true = c := by
  have hmem : (b, c) ∈ children.iterChildren := by
    rw [Layout.iterChildren_eq hvalid, mem_graph]
    exact hchild
  have hlen : children.iterChildren.length = 1 := by
    rw [Layout.iterChildren_eq hvalid]
    exact hsize
  unfold compress
  rw [if_pos ⟨(Layout.childCount_eq hvalid).trans hsize, rfl⟩]
  match hlist : children.iterChildren, hlen with
  | [x], _ =>
    rw [hlist, mem_singleton] at hmem
    rw [← hmem]

/-! ### One removal -/

/-- An interior node put in the place of its parent hides a key: two keys below it continue
with the same byte at the place where its children are told apart. -/
theorem exists_hidden {pfx' : Key} {children' : Layout (ArtNode V)}
    (h : WF 2 (path ++ pfx ++ [byte]) (ArtNode.inner pfx' children')) :
    ∃ k v, Holds (ArtNode.inner pfx' children') k v ∧
      getFrom (ArtNode.inner pfx' children') k path.length = none := by
  -- a key that is found lies below the child of its own byte
  have hfound {b : UInt8} {c : ArtNode V} {k : Key} {v w : V}
      (hbc : children'.findChild b = some c) (hk : Holds c k v)
      (hget : getFrom (inner pfx' children') k path.length = some w) :
      k[path.length + pfx'.length]? = some b := by
    rw [getFrom_inner] at hget
    by_cases hpfx : pfx' <+: k.drop path.length
    · rw [if_pos hpfx] at hget
      obtain ⟨x, hx, hget⟩ := bind_eq_some_iff.mp hget
      obtain ⟨c', hc', hget⟩ := bind_eq_some_iff.mp hget
      have hext := h.child_initial hbc hk
      have hext' := h.child_initial hc' (holds_of_getFrom hget)
      have hxb : x = b := by
        by_contra hne
        exact not_initial_of_next hext' hext hne (prefix_refl k)
      rw [hx, hxb]
    · rw [if_neg hpfx] at hget
      cases hget
  obtain ⟨b₁, c₁, hbc₁⟩ := exists_of_size_pos (lt_of_lt_of_le two_pos h.size_le)
  obtain ⟨b₂, c₂, hne, hbc₂⟩ := exists_ne_of_two_le h.size_le b₁
  obtain ⟨k₁, v₁, hk₁⟩ := (h.toBelow.child b₁ c₁ hbc₁).exists_holds one_le_two
  obtain ⟨k₂, v₂, hk₂⟩ := (h.toBelow.child b₂ c₂ hbc₂).exists_holds one_le_two
  cases hget₁ : getFrom (inner pfx' children') k₁ path.length with
  | none => exact ⟨k₁, v₁, Holds.child hbc₁ hk₁, hget₁⟩
  | some w₁ =>
    cases hget₂ : getFrom (inner pfx' children') k₂ path.length with
    | none => exact ⟨k₂, v₂, Holds.child hbc₂ hk₂, hget₂⟩
    | some w₂ =>
      have hat₁ := hfound hbc₁ hk₁ hget₁
      have hat₂ := hfound hbc₂ hk₂ hget₂
      have hshared (k : Key) (hk : path ++ pfx ++ [byte] ++ pfx' <+: k) : k[path.length + pfx'.length]? =
            (path ++ pfx ++ [byte] ++ pfx')[path.length + pfx'.length]? := by
        obtain ⟨s, rfl⟩ := hk
        rw [getElem?_append_left]
        simp only [length_append, length_singleton]
        omega
      have hext₁ := (prefix_append _ _).trans (h.child_initial hbc₁ hk₁)
      have hext₂ := (prefix_append _ _).trans (h.child_initial hbc₂ hk₂)
      rw [hshared k₁ hext₁] at hat₁
      rw [hshared k₂ hext₂, hat₁] at hat₂
      exact absurd (Option.some.inj hat₂).symm hne

/-- What a removal leaves of a node. -/
structure Removal (path key : Key) (node node' : ArtNode V) : Prop where
  kept : ¬ Strands node key → WF 2 path node' ∧ ∀ k v, Holds node' k v ↔ k ≠ key ∧ Holds node k v
  lost : Strands node key → ∃ k v, k ≠ key ∧ Holds node k v ∧ getFrom node' k path.length = none

theorem Removal.absent (h : WF 2 path node) (hno : ∀ v, ¬ Holds node key v) : Removal path key node node := by
  refine ⟨fun _ => ⟨h, ?_⟩, ?_⟩
  · intro k v
    refine ⟨fun hk => ⟨?_, hk⟩, And.right⟩
    rintro rfl
    exact hno v hk
  · intro hs
    obtain ⟨v, hv⟩ := hs.holds
    exact absurd hv (hno v)

/-- The leaf of the key is taken out of its parent. -/
theorem removal_leaf {v₀ : V} (h : WF 2 path (inner pfx children)) (hkey : path ++ pfx ++ [byte] <+: key)
    (hbyte : children.findChild byte = some (leaf key v₀)) (hrest : Below 2 (path ++ pfx) rest)
    (hfree : rest.findChild byte = none) (hothers : ∀ b, b ≠ byte → rest.findChild b = children.findChild b)
    (hcount : (size fun b => children.findChild b) = (size fun b => rest.findChild b) + 1) :
    Removal path key (inner pfx children) (compress pfx rest true) := by
  have hsize := h.size_le
  have hkept (k : Key) (v : V) : Others children byte k v ↔ k ≠ key ∧ Holds (inner pfx children) k v := by
    rw [holds_of_findChild_some hbyte, holds_leaf]
    constructor
    · intro hk
      refine ⟨?_, .inl hk⟩
      rintro rfl
      exact (h.toBelow.apart hkey k v hk).1 (prefix_refl _)
    · rintro ⟨hne, hk | ⟨rfl, -⟩⟩
      · exact hk
      · exact absurd rfl hne
  have hrestHolds (k : Key) (v : V) : Holds (inner pfx rest) k v ↔ Others children byte k v := by
    rw [holds_of_findChild_none hfree, others_congr hothers]
  by_cases htwo : 2 ≤ size fun b => rest.findChild b
  · rw [compress_of_two_le hrest.valid htwo]
    refine ⟨fun _ => ⟨hrest.wf htwo, ?_⟩, ?_⟩
    · simp [hrestHolds, hkept]
    · intro hs
      obtain hs | ⟨-, hpair, -⟩ := (h.strands_iff hkey hbyte).mp hs
      · exact absurd hs not_strands_leaf
      · omega
  · -- the sibling replaces the node
    have hone : (size fun b => rest.findChild b) = 1 := by omega
    obtain ⟨b, c, hbc⟩ := exists_of_size_pos (lt_of_lt_of_eq one_pos hone.symm)
    have hb : b ≠ byte := by
      rintro rfl
      rw [hfree] at hbc
      cases hbc
    have hbc' : children.findChild b = some c := by rw [← hothers b hb, hbc]
    have honly (k : Key) (v : V) : Holds c k v ↔ Others children byte k v := by
      rw [← hrestHolds, holds_inner]
      constructor
      · exact fun hk => ⟨b, c, hbc, hk⟩
      · rintro ⟨b', c', hbc'', hk⟩
        rw [eq_of_size_one hone hbc hbc'', hbc] at hbc''
        exact Option.some.inj hbc'' ▸ hk
    rw [compress_one hrest.valid hbc hone]
    have hc := h.toBelow.child b c hbc'
    cases c with
    | leaf k₁ v₁ =>
      refine ⟨fun _ => ⟨?_, ?_⟩, ?_⟩
      · apply hc.shorten
        rw [append_assoc]
        exact prefix_append _ _
      · simp [honly, hkept]
      · intro hs
        obtain hs | ⟨-, -, b', pfx', children', hb', hinner⟩ := (h.strands_iff hkey hbyte).mp hs
        · exact absurd hs not_strands_leaf
        · -- the only other child is a leaf
          have hinner' := (hothers b' hb').trans hinner
          rw [eq_of_size_one hone hbc hinner', hbc] at hinner'
          cases hinner'
    | inner pfx' children' =>
      refine ⟨?_, ?_⟩
      · intro hs
        refine absurd ((h.strands_iff hkey hbyte).mpr (.inr ⟨⟨v₀, rfl⟩, ?_, ?_⟩)) hs
        · omega
        · exact ⟨b, pfx', children', hb, hbc'⟩
      · intro _
        obtain ⟨k, v, hk, hget⟩ := exists_hidden hc
        obtain ⟨hne, hold⟩ := (hkept k v).mp ((honly k v).mp hk)
        exact ⟨k, v, hne, hold, hget⟩

/-- The child at the byte of the key is changed in place. -/
theorem removal_child {child' : ArtNode V} (h : WF 2 path (inner pfx children))
    (hkey : path ++ pfx ++ [byte] <+: key) (hbyte : children.findChild byte = some child)
    (hnot : ∀ v, child ≠ leaf key v) (hrest : Below 2 (path ++ pfx) rest) (hfree : rest.findChild byte = none)
    (hothers : ∀ b, b ≠ byte → rest.findChild b = children.findChild b)
    (hcount : (size fun b => children.findChild b) = (size fun b => rest.findChild b) + 1)
    (hchild : Removal (path ++ pfx ++ [byte]) key child child') (removed : Bool) :
    Removal path key (inner pfx children) (compress pfx (rest.insertChild byte child') removed) := by
  have hsize := h.size_le
  have hstrands : Strands (inner pfx children) key ↔ Strands child key := by
    rw [h.strands_iff hkey hbyte]
    refine or_iff_left ?_
    rintro ⟨⟨v, hv⟩, -⟩
    exact hnot v hv
  have hspec := Layout.insertChild_spec hrest.valid hfree child'
  have hself : (rest.insertChild byte child').findChild byte = some child' := by
    have hat := congrFun hspec.2 byte
    rwa [Function.update_self] at hat
  have hother (b : UInt8) (hb : b ≠ byte) : (rest.insertChild byte child').findChild b = children.findChild b := by
    have hat := congrFun hspec.2 b
    rw [Function.update_of_ne hb] at hat
    exact hat.trans (hothers b hb)
  have htwo : 2 ≤ size fun b => (rest.insertChild byte child').findChild b := by
    have hgrow := size_update_some (f := fun b => rest.findChild b) child' hfree
    rw [hspec.2]
    omega
  rw [compress_of_two_le hspec.1 htwo]
  refine ⟨?_, ?_⟩
  · intro hs
    obtain ⟨hwf, hholds⟩ := hchild.kept (mt hstrands.mpr hs)
    obtain ⟨hbelow, -⟩ := hrest.insertChild hfree hwf
    refine ⟨hbelow.wf htwo, ?_⟩
    intro k v
    rw [holds_of_findChild_some hself, others_congr hother, hholds, holds_of_findChild_some hbyte]
    constructor
    · rintro (hk | ⟨hne, hk⟩)
      · refine ⟨?_, .inl hk⟩
        rintro rfl
        exact (h.toBelow.apart hkey k v hk).1 (prefix_refl _)
      · exact ⟨hne, .inr hk⟩
    · rintro ⟨hne, hk | hk⟩
      · exact .inl hk
      · exact .inr ⟨hne, hk⟩
  · intro hs
    obtain ⟨k, v, hne, hk, hget⟩ := hchild.lost (hstrands.mp hs)
    refine ⟨k, v, hne, Holds.child hbyte hk, ?_⟩
    have hext := h.child_initial hbyte hk
    have hpath : path ++ pfx <+: k := (prefix_append _ _).trans hext
    have hkpath : path <+: k := (prefix_append _ _).trans hpath
    rw [getFrom_inner, if_pos ((initial_drop hkpath).mpr hpath), (next_byte hpath).mpr hext,
      bind_some, hself, bind_some, ← length_child path pfx byte, hget]

/-- **One removal**: the leaf of the key goes; below an interior node the call returns what a
lookup finds, and loses another key exactly if it strands a subtree. -/
theorem removeRecursive_spec (h : WF 2 path node) (hkey : path <+: key) : (∃ v, node = leaf key v ∧
        removeRecursive (some node) key path.length = (some v, none)) ∨
      (∀ v, node ≠ leaf key v) ∧ ∃ node', removeRecursive (some node) key path.length =
            (getFrom node key path.length, some node') ∧ Removal path key node node' := by
  induction h with
  | leaf hpath =>
    rename_i path k₀ v₀
    by_cases hk : k₀ = key
    · subst hk
      exact .inl ⟨v₀, rfl, by rw [removeRecursive_leaf, if_pos rfl]⟩
    · refine .inr ⟨?_, leaf k₀ v₀, ?_, Removal.absent (WF.leaf hpath) ?_⟩
      · intro v heq
        injection heq with heq
        exact hk heq
      · rw [removeRecursive_leaf, getFrom_leaf, if_neg hk, if_neg hk]
      · intro v hv
        exact hk (holds_leaf.mp hv).1.symm
  | inner hvalid hsize hchild ih =>
    rename_i path pfx children
    have hwf := WF.inner hvalid hsize hchild
    refine .inr ⟨fun v => by simp, ?_⟩
    by_cases hdescend : ∃ b c, path ++ pfx ++ [b] <+: key ∧ children.findChild b = some c
    · obtain ⟨byte, child, hkey', hbyte⟩ := hdescend
      have hpath : path ++ pfx <+: key := (prefix_append _ _).trans hkey'
      have hpfx := (initial_drop hkey).mpr hpath
      have hnext := (next_byte hpath).mpr hkey'
      obtain ⟨rest, hremove, hrest, hfree, hothers, hcount⟩ := hwf.toBelow.removeChild byte
      have hsplit := hcount child hbyte
      rw [hbyte] at hremove
      rw [getFrom_inner, if_pos hpfx, hnext, bind_some, hbyte, bind_some, ← length_child path pfx byte]
      obtain ⟨v, rfl, hrec⟩ | ⟨hnot, child', hrec, hremoval⟩ := ih byte child hbyte hkey'
      · rw [length_child] at hrec
        rw [removeRecursive_descend hpfx hnext hbyte hremove hrec, getFrom_leaf, if_pos rfl]
        exact ⟨_, rfl, removal_leaf hwf hkey' hbyte hrest hfree hothers hsplit⟩
      · rw [length_child] at hrec
        rw [removeRecursive_descend hpfx hnext hbyte hremove hrec, length_child]
        exact ⟨_, rfl, removal_child hwf hkey' hbyte hnot hrest hfree hothers hsplit hremoval _⟩
    · have hno (v : V) : ¬ Holds (inner pfx children) key v := by
        intro hv
        obtain ⟨b, c, hbc, hc⟩ := holds_inner.mp hv
        exact hdescend ⟨b, c, hwf.child_initial hbc hc, hbc⟩
      have habsent : removeRecursive (some (inner pfx children)) key path.length =
          (none, some (inner pfx children)) := by
        apply removeRecursive_absent
        intro b c hpfx hnext hbc
        have hpath := (initial_drop hkey).mp hpfx
        exact hdescend ⟨b, c, (next_byte hpath).mp hnext, hbc⟩
      rw [habsent, getFrom_eq_none hno]
      exact ⟨_, rfl, Removal.absent hwf hno⟩

end ArtNode

namespace ArtTree

variable {t : ArtTree V}

/-- Removing the key strands a subtree. -/
def Strands (t : ArtTree V) (key : Key) : Prop := ∃ node, t.root = some node ∧ node.Strands key

variable {root : Option (ArtNode V)} {M : Table Key V}

theorem remove_eq {result : Option V} (h : ArtNode.removeRecursive t.root key 0 = (result, root)) :
    t.remove key = (result, ⟨root, if result.isSome then t.len - 1 else t.len⟩) := by
  unfold remove
  rw [h]

theorem Represents.of_removed (h : t.Represents M) {n : ℕ} (hwf : (⟨root, n⟩ : ArtTree V).WF 2)
    (hholds : ∀ k v, (⟨root, n⟩ : ArtTree V).Holds k v ↔ k ≠ key ∧ t.Holds k v)
    (hlen : n = if (M.lookup key).isSome then t.len - 1 else t.len) :
    (⟨root, n⟩ : ArtTree V).Represents (AList.erase key M) := by
  refine ⟨hwf, ?_, ?_⟩
  · intro k v
    rw [hholds, h.holds, lookup_erase_if]
    by_cases hk : k = key
    · simp [hk]
    · simp [hk]
  · show n = _
    rw [hlen, h.len]
    cases hlook : M.lookup key with
    | none => rw [size_erase_of_none hlook, isSome_none, if_neg Bool.false_ne_true]
    | some v => rw [size_erase hlook, isSome_some, if_pos rfl, Nat.add_sub_cancel]

/-- A removal that strands no subtree acts as one on the map. -/
theorem Represents.remove (h : t.Represents M) (hs : ¬ t.Strands key) :
    (t.remove key).1 = M.lookup key ∧ (t.remove key).2.Represents (AList.erase key M) := by
  have hget := h.get_eq key
  cases hroot : t.root with
  | none =>
    have hempty (k : Key) (v : V) : ¬ t.Holds k v := by
      rintro ⟨node, hnode, -⟩
      rw [hroot] at hnode
      cases hnode
    have hlook : M.lookup key = none := by
      rw [← hget]
      exact h.wf.get_eq_none.mpr (hempty key)
    rw [remove_eq (by rw [hroot, ArtNode.removeRecursive]), hlook]
    refine ⟨rfl, h.of_removed ?_ ?_ (by rw [hlook])⟩
    · intro node hnode
      cases hnode
    · intro k v
      refine iff_of_false ?_ fun hk => hempty k v hk.2
      rintro ⟨node, hnode, -⟩
      cases hnode
  | some node =>
    have hwf := h.wf node hroot
    obtain ⟨v, rfl, hrec⟩ | ⟨-, node', hrec, hremoval⟩ :=
      ArtNode.removeRecursive_spec hwf (show [] <+: key from nil_prefix)
    · have hlook : M.lookup key = some v := by
        rw [← hget, h.wf.get_eq_some, holds_root hroot]
        exact ArtNode.Holds.leaf _ _
      have hremove : ArtNode.removeRecursive t.root key 0 = (some v, none) := by
        rw [hroot]
        exact hrec
      rw [remove_eq hremove, hlook]
      refine ⟨rfl, h.of_removed ?_ ?_ (by rw [hlook])⟩
      · intro node hnode
        cases hnode
      · intro k w
        rw [holds_root hroot, ArtNode.holds_leaf]
        constructor
        · rintro ⟨node, hnode, -⟩
          cases hnode
        · rintro ⟨hne, rfl, -⟩
          exact absurd rfl hne
    · rw [length_nil, ← h.wf.get_eq_getFrom hroot, hget] at hrec
      have hkept := hremoval.kept fun hnode => hs ⟨node, hroot, hnode⟩
      have hremove : ArtNode.removeRecursive t.root key 0 = (M.lookup key, some node') := by
        rw [hroot]
        exact hrec
      rw [remove_eq hremove]
      refine ⟨rfl, h.of_removed ?_ ?_ rfl⟩
      · intro node'' hnode
        exact Option.some.inj hnode ▸ hkept.1
      · intro k v
        rw [holds_root rfl, hkept.2, holds_root hroot]

/-- A removal that strands a subtree loses another key. -/
theorem Represents.strands (h : t.Represents M) (hs : t.Strands key) :
    ∃ k v, k ≠ key ∧ M.lookup k = some v ∧ (t.remove key).2.get k = none := by
  obtain ⟨node, hroot, hnode⟩ := hs
  have hwf := h.wf node hroot
  obtain ⟨v, rfl, -⟩ | ⟨-, node', hrec, hremoval⟩ :=
    ArtNode.removeRecursive_spec hwf (show [] <+: key from nil_prefix)
  · exact absurd hnode ArtNode.not_strands_leaf
  · obtain ⟨k, v, hne, hk, hget⟩ := hremoval.lost hnode
    refine ⟨k, v, hne, (h.holds k v).mp ⟨node, hroot, hk⟩, ?_⟩
    -- a key below an interior node is not empty
    have hempty : k.isEmpty = false := by
      cases hnode with
      | parent hleaf | child hchild =>
        obtain ⟨b, c, hbc, hc⟩ := ArtNode.holds_inner.mp hk
        obtain ⟨s, rfl⟩ := hwf.child_initial hbc hc
        simp
    have hremove : ArtNode.removeRecursive t.root key 0 = (node.getFrom key 0, some node') := by
      rw [hroot]
      exact hrec
    rw [remove_eq hremove]
    unfold get
    rw [hempty, if_neg Bool.false_ne_true]
    exact hget

end ArtTree

/-! ### Sequences of operations -/

/-- An operation whose inserted keys come from a given set. -/
inductive Op (S : Set Key) (V : Type) where
  | insert (key : S) (value : V)
  | remove (key : Key)
  | get (key : Key)

/-- The tree and a map run side by side, with the results of the calls so far. -/
structure Session (V : Type) where
  tree : ArtTree V
  map : Table Key V
  treeResults : List (Option V)
  mapResults : List (Option V)

namespace Session

variable {S : Set Key}

/-- Nothing inserted yet. -/
def init : Session V := ⟨.new, ∅, [], []⟩

/-- One call on both sides. -/
def step (s : Session V) : Op S V → Option (Session V)
  | .insert key value =>
    some ⟨(s.tree.insert key value).2, AList.insert key.1 value s.map,
      (s.tree.insert key value).1 :: s.treeResults, s.map.lookup key.1 :: s.mapResults⟩
  | .remove key =>
    some ⟨(s.tree.remove key).2, AList.erase key s.map,
      (s.tree.remove key).1 :: s.treeResults, s.map.lookup key :: s.mapResults⟩
  | .get key =>
    some { s with
      treeResults := s.tree.get key :: s.treeResults
      mapResults := s.map.lookup key :: s.mapResults }

/-- The tree agrees with the map: every lookup, the length and the results of all calls. -/
structure Agrees (s : Session V) : Prop where
  get : ∀ k, s.tree.get k = s.map.lookup k
  len : s.tree.len = s.map.size
  results : s.treeResults = s.mapResults

/-- The call removes no leaf whose only sibling is an interior node. -/
def Joins (s : Session V) : Op S V → Prop
  | .remove key => ¬ s.tree.Strands key
  | _ => True

/-- The tree is the map, with keys from the set, and the calls returned the same. -/
structure Inv (S : Set Key) (s : Session V) : Prop where
  represents : s.tree.Represents s.map
  keys : ∀ k, k ∈ s.map → k ∈ S
  results : s.treeResults = s.mapResults

variable {s : Session V}

theorem Inv.agrees (h : Inv S s) : s.Agrees := ⟨h.represents.get_eq, h.represents.len, h.results⟩

theorem Inv.init : Inv S (init : Session V) :=
  ⟨ArtTree.Represents.new, fun k hk => absurd hk (AList.notMem_empty k), rfl⟩

theorem Inv.step (hS : PrefixFree S) {s' : Session V} {op : Op S V} (h : Inv S s) (hop : s.Joins op)
    (hstep : s.step op = some s') : Inv S s' := by
  cases op with
  | insert key value =>
    cases hstep
    have hfree : ∀ k, k ∈ s.map → k <+: key.1 ∨ key.1 <+: k → k = key.1 := by
      intro k hk hcmp
      cases hcmp with
      | inl hle => exact hS k (h.keys k hk) key.1 key.2 hle
      | inr hle => exact (hS key.1 key.2 k (h.keys k hk) hle).symm
    obtain ⟨hres, hrep⟩ := h.represents.insert hfree value
    refine ⟨hrep, ?_, by rw [hres, h.results]⟩
    intro k hk
    cases (AList.mem_insert s.map).mp hk with
    | inl heq => exact heq ▸ key.2
    | inr hk => exact h.keys k hk
  | remove key =>
    cases hstep
    obtain ⟨hres, hrep⟩ := h.represents.remove hop
    refine ⟨hrep, ?_, by rw [hres, h.results]⟩
    intro k hk
    exact h.keys k (AList.mem_erase.mp hk).2
  | get key =>
    cases hstep
    refine ⟨h.represents, h.keys, ?_⟩
    show _ :: _ = _ :: _
    rw [h.represents.get_eq, h.results]

/-- **The tree agrees with a finite map exactly as long as** no call removes a key whose leaf
has an interior node as its only sibling: throughout a sequence of operations that inserts
prefix-free keys, all lookups, the length and all results are those of the map iff no removal
strands a subtree. -/
theorem agrees_iff (hS : PrefixFree S) (ops : List (Op S V)) :
    Throughout step Agrees init ops ↔ Along step Joins init ops := by
  refine throughout_iff_along_of_leaves (fun s (hs : Inv S s) => hs.agrees) ?_ ?_ ?_ Inv.init ops
  · intro s op hstuck
    cases op <;> cases hstuck
  · intro s op s' hs hop hstep
    exact hs.step hS hop hstep
  · intro s op s' hs hop hstep hagrees
    cases op with
    | insert key value => exact hop trivial
    | get key => exact hop trivial
    | remove key =>
      obtain rfl := Option.some.inj hstep
      obtain ⟨k, v, hne, hk, hget⟩ := hs.represents.strands (not_not.mp hop)
      have hsame := hagrees.get k
      rw [hget, AList.lookup_erase_ne hne, hk] at hsame
      cases hsame

/-! ### A lost key -/

/-- Three keys: removing the last leaves the subtree of the other two as an only child. -/
def lossyKeys : Set Key := {[97, 97, 97], [97, 97, 98], [97, 98, 99]}

theorem lossyKeys_prefixFree : PrefixFree lossyKeys := by
  simp [PrefixFree, lossyKeys]

/-- Insert `aaa`, `aab` and `abc`, then remove `abc`. -/
def lossyOps : List (Op lossyKeys ℕ) :=
  [.insert ⟨[97, 97, 97], by simp [lossyKeys]⟩ 1, .insert ⟨[97, 97, 98], by simp [lossyKeys]⟩ 2,
    .insert ⟨[97, 98, 99], by simp [lossyKeys]⟩ 3, .remove [97, 98, 99]]

/-- After the removal of `abc` the tree has lost `aab`. -/
theorem remove_loses_sibling : (run step (init : Session ℕ) lossyOps).map
        (fun s => (s.tree.get [97, 97, 98], s.map.lookup [97, 97, 98])) =
      some (none, some 2) := by
  decide +kernel

theorem agrees_iff_lossy : Throughout step Agrees (init : Session ℕ) lossyOps ↔ Along step Joins init lossyOps :=
  agrees_iff lossyKeys_prefixFree lossyOps

end Session

end CenDB.Index
