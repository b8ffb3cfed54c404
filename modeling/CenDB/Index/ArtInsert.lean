import CenDB.Index.ArtTree
import CenDB.Lib.Table

/-! # Insertion into the adaptive radix tree

The tree has no place for a value on an interior node: of two keys where one is an initial part
of the other only the longer one is kept.  `Inserted E key value` is the set of pairs after an
insertion, and `insertRecursive_spec` proves it of every split, growth and descent.  Over a
sequence of insertions (`insertAll`) the tree keeps the last value of every key that no inserted
key extends (`holds_insertAll`); with prefix-free keys it is a map (`insertAll_prefixFree`). -/

namespace CenDB.Index

open ByteMap Prefixes List Option Function Table

variable {V : Type}

/-! ### The pairs after an insertion -/

/-- A stored key properly extends the key. -/
def Extends (E : Key → V → Prop) (key : Key) : Prop := ∃ k v, E k v ∧ key <+: k ∧ k ≠ key

/-- The pairs after an insertion: nothing changes if a stored key extends the new one, else the
stored initial parts of the new key are replaced by it. -/
def Inserted (E : Key → V → Prop) (key : Key) (value : V) (k : Key) (v : V) : Prop :=
  Extends E key ∧ E k v ∨ ¬ Extends E key ∧ (k = key ∧ v = value ∨ ¬ k <+: key ∧ E k v)

/-- The key is no initial part of a stored one, nor the other way round. -/
def Apart (E : Key → V → Prop) (key : Key) : Prop := ∀ k v, E k v → ¬ k <+: key ∧ ¬ key <+: k

variable {E E₀ E₁ : Key → V → Prop} {key k : Key} {value v : V}

theorem inserted_of_extends (h : Extends E key) : Inserted E key value k v ↔ E k v := by
  unfold Inserted
  simp only [h, true_and, not_true_eq_false, false_and, or_false]

theorem inserted_of_not_extends (h : ¬ Extends E key) :
    Inserted E key value k v ↔ k = key ∧ v = value ∨ ¬ k <+: key ∧ E k v := by
  unfold Inserted
  simp only [h, false_and, false_or, not_false_eq_true, true_and]

/-- Pairs apart from the key stay, whatever happens to the others. -/
theorem inserted_or (h : Apart E₀ key) : Inserted (fun k v => E₀ k v ∨ E₁ k v) key value k v ↔
      E₀ k v ∨ Inserted E₁ key value k v := by
  have hext : Extends (fun k v => E₀ k v ∨ E₁ k v) key ↔ Extends E₁ key := by
    constructor
    · intro hk
      obtain ⟨k, v, hkv, hle, hne⟩ := hk
      cases hkv with
      | inl hkv => exact absurd hle (h k v hkv).2
      | inr hkv => exact ⟨k, v, hkv, hle, hne⟩
    · intro hk
      obtain ⟨k, v, hkv, hle, hne⟩ := hk
      exact ⟨k, v, .inr hkv, hle, hne⟩
  by_cases hE : Extends E₁ key
  · rw [inserted_of_extends (hext.mpr hE), inserted_of_extends hE]
  · rw [inserted_of_not_extends (mt hext.mp hE), inserted_of_not_extends hE]
    constructor
    · intro hkv
      obtain hkv | ⟨hle, hkv | hkv⟩ := hkv
      · exact .inr (.inl hkv)
      · exact .inl hkv
      · exact .inr (.inr ⟨hle, hkv⟩)
    · intro hkv
      obtain hkv | hkv | ⟨hle, hkv⟩ := hkv
      · exact .inr ⟨(h k v hkv).1, .inl hkv⟩
      · exact .inl hkv
      · exact .inr ⟨hle, .inr hkv⟩

theorem inserted_apart (h : Apart E key) : Inserted E key value k v ↔ E k v ∨ k = key ∧ v = value := by
  have hext : ¬ Extends E key := by
    intro hk
    obtain ⟨k, v, hkv, hle, -⟩ := hk
    exact (h k v hkv).2 hle
  rw [inserted_of_not_extends hext]
  constructor
  · intro hkv
    obtain hkv | ⟨-, hkv⟩ := hkv
    · exact .inr hkv
    · exact .inl hkv
  · intro hkv
    obtain hkv | hkv := hkv
    · exact .inr ⟨(h k v hkv).1, hkv⟩
    · exact .inl hkv

theorem inserted_congr {E' : Key → V → Prop} (h : ∀ k v, E k v ↔ E' k v) :
    Inserted E key value k v ↔ Inserted E' key value k v := by
  have heq : E = E' := funext₂ fun k v => propext (h k v)
  rw [heq]

namespace ArtNode

variable {m : ℕ} {path pfx : Key} {children : Layout (ArtNode V)} {byte : UInt8}

/-! ### The children of a node -/

/-- A valid layout whose children are well-formed below the path of the node. -/
structure Below (m : ℕ) (path : Key) (children : Layout (ArtNode V)) : Prop where
  valid : children.Valid
  child : ∀ b c, children.findChild b = some c → WF m (path ++ [b]) c

/-- The pairs below the children at the other bytes. -/
def Others (children : Layout (ArtNode V)) (byte : UInt8) (k : Key) (v : V) : Prop :=
  ∃ b c, b ≠ byte ∧ children.findChild b = some c ∧ Holds c k v

theorem WF.toBelow (h : WF m path (ArtNode.inner pfx children)) : Below m (path ++ pfx) children :=
  ⟨(WF.inner_iff.mp h).1, (WF.inner_iff.mp h).2.2⟩

theorem WF.size_le (h : WF m path (ArtNode.inner pfx children)) :
    m ≤ size fun b => children.findChild b := (WF.inner_iff.mp h).2.1

theorem Below.wf (h : Below m (path ++ pfx) children)
    (hsize : m ≤ size fun b => children.findChild b) : WF m path (inner pfx children) :=
  WF.inner h.valid hsize h.child

theorem holds_iff_others (byte : UInt8) : Holds (inner pfx children) k v ↔
      Others children byte k v ∨ ∃ c, children.findChild byte = some c ∧ Holds c k v := by
  rw [holds_inner]
  constructor
  · intro h
    obtain ⟨b, c, hbc, hc⟩ := h
    by_cases hb : b = byte
    · exact .inr ⟨c, hb ▸ hbc, hc⟩
    · exact .inl ⟨b, c, hb, hbc, hc⟩
  · intro h
    obtain ⟨b, c, -, hbc, hc⟩ | ⟨c, hbc, hc⟩ := h
    · exact ⟨b, c, hbc, hc⟩
    · exact ⟨byte, c, hbc, hc⟩

variable {c : ArtNode V} {depth : ℕ}

theorem holds_of_findChild_some (hbyte : children.findChild byte = some c) :
    Holds (inner pfx children) k v ↔ Others children byte k v ∨ Holds c k v := by
  rw [holds_iff_others byte, hbyte]
  simp

theorem holds_of_findChild_none (hbyte : children.findChild byte = none) :
    Holds (inner pfx children) k v ↔ Others children byte k v := by
  rw [holds_iff_others byte, hbyte]
  simp

/-- The pairs at the other bytes are apart from the key. -/
theorem Below.apart (h : Below m path children) (hkey : path ++ [byte] <+: key) :
    Apart (Others children byte) key := by
  intro k v hk
  obtain ⟨b, c, hb, hbc, hc⟩ := hk
  have hext := (h.child b c hbc).path_initial hc
  exact ⟨not_initial_of_next hext hkey hb, not_initial_of_next hkey hext (Ne.symm hb)⟩

theorem findChild_newNode4 (b : UInt8) : (newNode4 : Layout (ArtNode V)).findChild b = none := rfl

theorem Below.newNode4 : Below m path (newNode4 : Layout (ArtNode V)) := by
  refine ⟨⟨List.Pairwise.nil, rfl, Nat.zero_le _⟩, ?_⟩
  intro b c hbc
  cases hbc

theorem not_others_newNode4 : ¬ Others (newNode4 : Layout (ArtNode V)) byte k v := by
  rintro ⟨b, c, -, hbc, -⟩
  cases hbc

/-- A child put at a free byte. -/
theorem Below.insertChild (h : Below m path children) (hbyte : children.findChild byte = none)
    (hc : WF m (path ++ [byte]) c) :
    Below m path (children.insertChild byte c) ∧ (children.insertChild byte c).findChild byte = some c ∧
      (∀ b, b ≠ byte → (children.insertChild byte c).findChild b = children.findChild b) ∧
      (size fun b => (children.insertChild byte c).findChild b) = (size fun b => children.findChild b) + 1 := by
  obtain ⟨hvalid, hmap⟩ := Layout.insertChild_spec h.valid hbyte c
  have hself : (children.insertChild byte c).findChild byte = some c := by
    have hat := congrFun hmap byte
    rwa [update_self] at hat
  have hother (b : UInt8) (hb : b ≠ byte) : (children.insertChild byte c).findChild b = children.findChild b := by
    have hat := congrFun hmap b
    rwa [update_of_ne hb] at hat
  refine ⟨⟨hvalid, ?_⟩, hself, hother, ?_⟩
  · intro b c' hbc
    by_cases hb : b = byte
    · subst hb
      rw [hself] at hbc
      exact Option.some.inj hbc ▸ hc
    · rw [hother b hb] at hbc
      exact h.child b c' hbc
  · rw [hmap]
    exact size_update_some c hbyte

theorem others_congr {children' : Layout (ArtNode V)}
    (h : ∀ b, b ≠ byte → children'.findChild b = children.findChild b) :
    Others children' byte k v ↔ Others children byte k v := by
  unfold Others
  refine exists₂_congr fun b c => and_congr_right fun hb => ?_
  rw [h b hb]

/-- The children without the one at a byte. -/
theorem Below.removeChild (h : Below m path children) (byte : UInt8) :
    ∃ rest, children.removeChild byte = (children.findChild byte, rest) ∧
      Below m path rest ∧ rest.findChild byte = none ∧
      (∀ b, b ≠ byte → rest.findChild b = children.findChild b) ∧
      ∀ c, children.findChild byte = some c →
        (size fun b => children.findChild b) = (size fun b => rest.findChild b) + 1 := by
  obtain ⟨hchild, hvalid, hmap⟩ := Layout.removeChild_spec h.valid byte
  have hself : (children.removeChild byte).2.findChild byte = none := by
    have hat := congrFun hmap byte
    rwa [update_self] at hat
  have hother (b : UInt8) (hb : b ≠ byte) : (children.removeChild byte).2.findChild b = children.findChild b := by
    have hat := congrFun hmap b
    rwa [update_of_ne hb] at hat
  refine ⟨(children.removeChild byte).2, ?_, ⟨hvalid, ?_⟩, hself, hother, ?_⟩
  · exact Prod.ext hchild rfl
  · intro b c hbc
    have hb : b ≠ byte := by
      rintro rfl
      rw [hself] at hbc
      cases hbc
    rw [hother b hb] at hbc
    exact h.child b c hbc
  · intro c hc
    rw [hmap]
    exact size_update_none (f := fun b => children.findChild b) hc

/-! ### The splits -/

variable {node : ArtNode V} {k₀ : Key} {v₀ : V}

theorem getFrom_eq_none (h : ∀ v, ¬ Holds node key v) : getFrom node key depth = none := by
  cases hget : getFrom node key depth with
  | none => rfl
  | some v => exact absurd (holds_of_getFrom hget) (h v)

/-- A node over one child. -/
theorem wf_one (hm : m ≤ 1) (hc : WF m (path ++ pfx ++ [byte]) c) :
    WF m path (inner pfx (newNode4.insertChild byte c)) ∧
      ∀ k v, Holds (inner pfx (newNode4.insertChild byte c)) k v ↔ Holds c k v := by
  obtain ⟨hbelow, hself, hother, hsize⟩ := Below.newNode4.insertChild rfl hc
  refine ⟨hbelow.wf (by omega), ?_⟩
  intro k v
  rw [holds_of_findChild_some hself, others_congr hother]
  simp only [not_others_newNode4, false_or]

/-- A node over two children. -/
theorem wf_two {byte' : UInt8} {c' : ArtNode V} (hm : m ≤ 2) (hne : byte ≠ byte')
    (hc : WF m (path ++ pfx ++ [byte]) c) (hc' : WF m (path ++ pfx ++ [byte']) c') :
    WF m path (inner pfx ((newNode4.insertChild byte c).insertChild byte' c')) ∧
      ∀ k v, Holds (inner pfx ((newNode4.insertChild byte c).insertChild byte' c')) k v ↔
        Holds c k v ∨ Holds c' k v := by
  obtain ⟨hbelow, hself, hother, hsize⟩ := Below.newNode4.insertChild rfl hc
  have hfree : (newNode4.insertChild byte c).findChild byte' = none := by
    rw [hother byte' hne.symm, findChild_newNode4]
  obtain ⟨hbelow', hself', hother', hsize'⟩ := hbelow.insertChild hfree hc'
  refine ⟨hbelow'.wf (by omega), ?_⟩
  intro k v
  rw [holds_of_findChild_some hself', others_congr hother']
  have hfirst : Holds (inner pfx (newNode4.insertChild byte c)) k v ↔
      Others (newNode4.insertChild byte c) byte' k v := holds_of_findChild_none hfree
  rw [← hfirst, holds_of_findChild_some hself, others_congr hother]
  simp only [not_others_newNode4, false_or]

/-- The key is comparable with no stored key but itself. -/
def Fresh (node : ArtNode V) (key : Key) : Prop := ∀ k v, Holds node k v → k <+: key ∨ key <+: k → k = key

theorem splitLeaf_spec (hm : 1 ≤ m) (hm' : m ≤ 2) (hk₀ : path <+: k₀) (hkey : path <+: key) (hne : k₀ ≠ key)
    (hfresh : m = 2 → Fresh (leaf k₀ v₀) key) :
    WF m path (splitLeaf k₀ v₀ key value path.length) ∧ ∀ k v, Holds (splitLeaf k₀ v₀ key value path.length) k v ↔
        Inserted (Holds (leaf k₀ v₀)) key value k v := by
  obtain ⟨s₀, rfl⟩ := hk₀
  obtain ⟨s, rfl⟩ := hkey
  unfold splitLeaf
  dsimp only
  rw [drop_left, drop_left]
  -- the shared bytes after the path
  have hlen : (path ++ s.take (commonLength s s₀)).length = path.length + commonLength s s₀ := by
    rw [length_append, length_take, min_eq_left (commonLength_le_left s s₀)]
  have hpre : path ++ s.take (commonLength s s₀) <+: path ++ s :=
    (prefix_append_right_inj path).mpr ( take_prefix _ _)
  have hpre₀ : path ++ s.take (commonLength s s₀) <+: path ++ s₀ :=
    (prefix_append_right_inj path).mpr (take_commonLength s s₀)
  have hdiff {b b' : UInt8} (hb : (path ++ s₀)[path.length + commonLength s s₀]? = some b)
      (hb' : (path ++ s)[path.length + commonLength s s₀]? = some b') : b ≠ b' := by
    rw [getElem?_append_right (Nat.le_add_right _ _), Nat.add_sub_cancel_left] at hb hb'
    exact (getElem?_commonLength_ne hb' hb).symm
  generalize commonLength s s₀ = n at hlen hpre hpre₀ hdiff ⊢
  generalize s.take n = common at hlen hpre hpre₀ ⊢
  generalize path ++ s₀ = k₀ at hpre₀ hdiff hne hfresh ⊢
  generalize path ++ s = key at hpre hdiff hne hfresh ⊢
  cases hb : k₀[path.length + n]? with
  | none =>
    rw [← hlen] at hb
    have hk₀ := eq_of_next_none hpre₀ hb
    cases hb' : key[path.length + n]? with
    | none =>
      rw [← hlen] at hb'
      exact absurd (hk₀.trans (eq_of_next_none hpre hb').symm) hne
    | some b' =>
      -- the existing key ends inside the new one and is lost
      rw [← hlen, next_of_initial hpre] at hb'
      have hone : m ≤ 1 := by
        by_contra htwo
        have hcmp : k₀ <+: key ∨ key <+: k₀ := .inl (hk₀ ▸ hpre)
        exact hne (hfresh (by omega) k₀ v₀ (Holds.leaf _ _) hcmp)
      have hleaf : WF m (path ++ common ++ [b']) (leaf key value) := WF.leaf hb'
      obtain ⟨hwf, hholds⟩ := wf_one hone hleaf
      refine ⟨hwf, ?_⟩
      intro k v
      have hext : ¬ Extends (Holds (leaf k₀ v₀)) key := by
        rintro ⟨k', v', hk', hle, hne'⟩
        obtain ⟨rfl, -⟩ := holds_leaf.mp hk'
        exact hne' (hle.eq_of_length_le (hk₀ ▸ hpre).length_le).symm
      rw [hholds, inserted_of_not_extends hext, holds_leaf, holds_leaf]
      constructor
      · exact .inl
      · rintro (h | ⟨hle, rfl, -⟩)
        · exact h
        · exact absurd (hk₀ ▸ hpre) hle
  | some b =>
    have hb₀ := hb
    rw [← hlen, next_of_initial hpre₀] at hb
    cases hb' : key[path.length + n]? with
    | none =>
      -- the new key ends inside the existing one and is not stored
      rw [← hlen] at hb'
      have hk := eq_of_next_none hpre hb'
      have hone : m ≤ 1 := by
        by_contra htwo
        have hcmp : k₀ <+: key ∨ key <+: k₀ := .inr (hk ▸ hpre₀)
        exact hne (hfresh (by omega) k₀ v₀ (Holds.leaf _ _) hcmp)
      have hleaf : WF m (path ++ common ++ [b]) (leaf k₀ v₀) := WF.leaf hb
      obtain ⟨hwf, hholds⟩ := wf_one hone hleaf
      refine ⟨hwf, ?_⟩
      intro k v
      have hext : Extends (Holds (leaf k₀ v₀)) key := ⟨k₀, v₀, Holds.leaf _ _, hk ▸ hpre₀, hne⟩
      rw [hholds, inserted_of_extends hext]
    | some b' =>
      have hbb' := hdiff hb₀ hb'
      rw [← hlen, next_of_initial hpre] at hb'
      have hleaf₀ : WF m (path ++ common ++ [b]) (leaf k₀ v₀) := WF.leaf hb
      have hleaf : WF m (path ++ common ++ [b']) (leaf key value) := WF.leaf hb'
      obtain ⟨hwf, hholds⟩ := wf_two hm' hbb' hleaf₀ hleaf
      refine ⟨hwf, ?_⟩
      intro k v
      have hapart : Apart (Holds (leaf k₀ v₀)) key := by
        intro k' v' hk'
        obtain ⟨rfl, -⟩ := holds_leaf.mp hk'
        exact ⟨not_initial_of_next hb hb' hbb', not_initial_of_next hb' hb hbb'.symm⟩
      rw [hholds, inserted_apart hapart, holds_leaf (k := key)]

theorem append_next {n : ℕ} {b : UInt8} (h : pfx[n]? = some b) : pfx.take n ++ [b] ++ pfx.drop (n + 1) = pfx := by
  obtain ⟨hlt, hb⟩ := List.getElem?_eq_some_iff.mp h
  rw [append_assoc, singleton_append, ← hb, ← drop_eq_getElem_cons hlt, take_append_drop]

theorem splitNode_spec (hm : 1 ≤ m) (hm' : m ≤ 2) (h : WF m path (inner pfx children))
    (hkey : path <+: key) (hn : commonLength pfx (key.drop path.length) < pfx.length)
    (hfresh : m = 2 → Fresh (inner pfx children) key) :
    let node := splitNode pfx children (commonLength pfx (key.drop path.length)) key value path.length
    WF m path node ∧ ∀ k v, Holds node k v ↔ Inserted (Holds (inner pfx children)) key value k v := by
  obtain ⟨s, rfl⟩ := hkey
  rw [drop_left] at hn ⊢
  obtain ⟨b, hb⟩ : ∃ b, pfx[commonLength pfx s]? = some b := ⟨_, getElem?_eq_getElem hn⟩
  have hdiff {b' : UInt8} (hb' : (path ++ s)[path.length + commonLength pfx s]? = some b') : b ≠ b' := by
    rw [getElem?_append_right (Nat.le_add_right _ _), Nat.add_sub_cancel_left] at hb'
    exact getElem?_commonLength_ne hb hb'
  have hpre : path ++ pfx.take (commonLength pfx s) <+: path ++ s :=
    (prefix_append_right_inj path).mpr (take_commonLength pfx s)
  have hlen : (path ++ pfx.take (commonLength pfx s)).length = path.length + commonLength pfx s := by
    rw [length_append, length_take, min_eq_left (commonLength_le_left pfx s)]
  generalize commonLength pfx s = n at hn hb hdiff hpre hlen ⊢
  generalize path ++ s = key at hdiff hpre hfresh ⊢
  -- the node moves below the byte at which its prefix splits
  have hpath : path ++ pfx.take n ++ [b] ++ pfx.drop (n + 1) = path ++ pfx := by
    rw [append_assoc, append_assoc, ← append_assoc (pfx.take n), append_next hb]
  have hold : WF m (path ++ pfx.take n ++ [b]) (inner (pfx.drop (n + 1)) children) := by
    apply Below.wf _ h.size_le
    rw [hpath]
    exact h.toBelow
  have hsame (k : Key) (v : V) :
      Holds (inner (pfx.drop (n + 1)) children) k v ↔ Holds (inner pfx children) k v := by simp [holds_inner]
  unfold splitNode
  rw [hb]
  dsimp only
  cases hb' : key[path.length + n]? with
  | none =>
    -- the key ends inside the prefix of the node
    rw [← hlen] at hb'
    have hk := eq_of_next_none hpre hb'
    obtain ⟨k₁, v₁, hk₁⟩ := h.exists_holds hm
    have hext : Extends (Holds (inner pfx children)) key := by
      have hlong := hold.path_initial ((hsame k₁ v₁).mpr hk₁)
      refine ⟨k₁, v₁, hk₁, hk ▸ (prefix_append _ _).trans hlong, ?_⟩
      rintro rfl
      have hle := hlong.length_le
      rw [hk, length_append, length_singleton] at hle
      omega
    have hone : m ≤ 1 := by
      by_contra htwo
      obtain ⟨k', v', hk', hle, hne⟩ := hext
      exact hne (hfresh (by omega) k' v' hk' (.inr hle))
    obtain ⟨hwf, hholds⟩ := wf_one hone hold
    refine ⟨hwf, ?_⟩
    intro k v
    rw [hholds, hsame, inserted_of_extends hext]
  | some b' =>
    have hbb' := hdiff hb'
    rw [← hlen, next_of_initial hpre] at hb'
    have hleaf : WF m (path ++ pfx.take n ++ [b']) (leaf key value) := WF.leaf hb'
    obtain ⟨hwf, hholds⟩ := wf_two hm' hbb' hold hleaf
    refine ⟨hwf, ?_⟩
    intro k v
    have hapart : Apart (Holds (inner pfx children)) key := by
      intro k' v' hk'
      have hlong := hold.path_initial ((hsame k' v').mpr hk')
      exact ⟨not_initial_of_next hlong hb' hbb', not_initial_of_next hb' hlong hbb'.symm⟩
    rw [hholds, hsame, inserted_apart hapart, holds_leaf]

/-! ### The descent -/

theorem insertRecursive_leaf : insertRecursive (some (leaf k₀ v₀)) key depth value =
      if k₀ = key then (some v₀, some (leaf k₀ value))
      else (none, some (splitLeaf k₀ v₀ key value depth)) := by
  rw [insertRecursive]

theorem insertRecursive_split (h : commonLength pfx (key.drop depth) < pfx.length) :
    insertRecursive (some (inner pfx children)) key depth value =
      (none, some (splitNode pfx children (commonLength pfx (key.drop depth)) key value depth)) := by
  rw [insertRecursive, if_pos h]

section

variable (h : ¬ commonLength pfx (key.drop depth) < pfx.length)
include h

theorem insertRecursive_end (hnext : key[depth + pfx.length]? = none) :
    insertRecursive (some (inner pfx children)) key depth value = (none, some (inner pfx children)) := by
  rw [insertRecursive, if_neg h]
  split
  · rfl
  · rename_i heq
    rw [hnext] at heq
    cases heq

theorem insertRecursive_new (hnext : key[depth + pfx.length]? = some byte) (hbyte : children.findChild byte = none) :
    insertRecursive (some (inner pfx children)) key depth value =
      (none, some (inner pfx (children.insertChild byte (leaf key value)))) := by
  rw [insertRecursive, if_neg h]
  split
  · rename_i heq
    rw [hnext] at heq
    cases heq
  · rename_i heq
    rw [hnext] at heq
    cases heq
    rw [hbyte, isSome_none, if_neg Bool.false_ne_true]

theorem insertRecursive_descend {child child' : ArtNode V} {rest : Layout (ArtNode V)} {result : Option V}
    (hnext : key[depth + pfx.length]? = some byte)
    (hbyte : children.findChild byte = some child) (hremove : children.removeChild byte = (some child, rest))
    (hrec : insertRecursive (some child) key (depth + pfx.length + 1) value = (result, some child')) :
    insertRecursive (some (inner pfx children)) key depth value =
      (result, some (inner pfx (rest.insertChild byte child'))) := by
  rw [insertRecursive, if_neg h]
  split
  · rename_i heq
    rw [hnext] at heq
    cases heq
  · rename_i heq
    rw [hnext] at heq
    cases heq
    rw [hbyte, isSome_some, if_pos rfl, hremove]
    dsimp only
    rw [hrec]

end

/-- **One insertion**: the call returns what a lookup finds before it, keeps the tree
well-formed and leaves the pairs of `Inserted`. -/
theorem insertRecursive_spec (hm : 1 ≤ m) (hm' : m ≤ 2) (h : WF m path node) (hkey : path <+: key)
    (hfresh : m = 2 → Fresh node key) (value : V) :
    ∃ node', insertRecursive (some node) key path.length value = (getFrom node key path.length, some node') ∧
      WF m path node' ∧ ∀ k v, Holds node' k v ↔ Inserted (Holds node) key value k v := by
  induction h with
  | leaf hpath =>
    rename_i path k₀ v₀
    rw [insertRecursive_leaf, getFrom_leaf]
    by_cases hk : k₀ = key
    · rw [if_pos hk, if_pos hk]
      refine ⟨_, rfl, WF.leaf hpath, ?_⟩
      intro k v
      have hext : ¬ Extends (Holds (leaf k₀ v₀)) key := by
        rintro ⟨k', v', hk', -, hne⟩
        exact hne ((holds_leaf.mp hk').1.trans hk)
      rw [inserted_of_not_extends hext, holds_leaf, holds_leaf, hk]
      constructor
      · exact .inl
      · rintro (hkv | ⟨hle, rfl, -⟩)
        · exact hkv
        · exact absurd (prefix_refl _) hle
    · rw [if_neg hk, if_neg hk]
      exact ⟨_, rfl, splitLeaf_spec hm hm' hpath hkey hk hfresh⟩
  | inner hvalid hsize hchild ih =>
    rename_i path pfx children
    have hwf := WF.inner hvalid hsize hchild
    by_cases hn : commonLength pfx (key.drop path.length) < pfx.length
    · -- the prefix does not match: no stored key is the new one
      have hnone : getFrom (inner pfx children) key path.length = none := by
        rw [getFrom_inner, if_neg]
        intro hpfx
        rw [commonLength_eq_length.mpr hpfx] at hn
        exact lt_irrefl _ hn
      rw [insertRecursive_split hn, hnone]
      exact ⟨_, rfl, splitNode_spec hm hm' hwf hkey hn hfresh⟩
    · have hpfx : pfx <+: key.drop path.length :=
        commonLength_eq_length.mp (le_antisymm (commonLength_le_left _ _) (Nat.not_lt.mp hn))
      have hpath := (initial_drop hkey).mp hpfx
      rw [getFrom_inner, if_pos hpfx]
      cases hnext : key[path.length + pfx.length]? with
      | none =>
        rw [insertRecursive_end hn hnext]
        refine ⟨_, rfl, hwf, ?_⟩
        intro k v
        -- some longer key is stored below the node
        obtain ⟨k₁, v₁, hk₁⟩ := hwf.exists_holds hm
        obtain ⟨b, c, hbc, hc⟩ := holds_inner.mp hk₁
        have hlong := hwf.child_initial hbc hc
        rw [← length_append] at hnext
        have hk := eq_of_next_none hpath hnext
        have hext : Extends (Holds (inner pfx children)) key := by
          refine ⟨k₁, v₁, hk₁, hk ▸ (prefix_append _ _).trans hlong, ?_⟩
          rintro rfl
          have hle := hlong.length_le
          rw [hk, length_append, length_singleton] at hle
          omega
        rw [inserted_of_extends hext]
      | some byte =>
        have hkey' := (next_byte hpath).mp hnext
        have hapart := hwf.toBelow.apart hkey'
        rw [bind_some]
        cases hbyte : children.findChild byte with
        | none =>
          have hleaf : WF m (path ++ pfx ++ [byte]) (leaf key value) := WF.leaf hkey'
          obtain ⟨hbelow, hself, hother, hcount⟩ := hwf.toBelow.insertChild hbyte hleaf
          rw [insertRecursive_new hn hnext hbyte, bind_none]
          refine ⟨_, rfl, hbelow.wf (by omega), ?_⟩
          intro k v
          have hold (k : Key) (v : V) : Holds (inner pfx children) k v ↔ Others children byte k v :=
            holds_of_findChild_none hbyte
          rw [holds_of_findChild_some hself, others_congr hother, inserted_congr hold,
            inserted_apart hapart, holds_leaf]
        | some child =>
          obtain ⟨rest, hremove, hrest, hfree, hothers, hcount⟩ := hwf.toBelow.removeChild byte
          rw [hbyte] at hremove
          have hfresh' : m = 2 → Fresh child key := by
            intro htwo k v hk
            exact hfresh htwo k v (Holds.child hbyte hk)
          obtain ⟨child', hrec, hwf', hholds⟩ := ih byte child hbyte hkey' hfresh'
          rw [length_child] at hrec
          obtain ⟨hbelow, hself, hother, hsize'⟩ := hrest.insertChild hfree hwf'
          have hsplit := hcount child hbyte
          rw [insertRecursive_descend hn hnext hbyte hremove hrec, bind_some]
          refine ⟨_, rfl, hbelow.wf (by omega), ?_⟩
          intro k v
          have hold (k : Key) (v : V) : Holds (inner pfx children) k v ↔
              Others children byte k v ∨ Holds child k v := holds_of_findChild_some hbyte
          rw [holds_of_findChild_some hself, others_congr hother, others_congr hothers,
            hholds, inserted_congr hold, inserted_or hapart]

end ArtNode

namespace ArtTree

variable {m : ℕ} {t : ArtTree V}

/-- The key is comparable with no stored key but itself. -/
def Fresh (t : ArtTree V) (key : Key) : Prop := ∀ k v, t.Holds k v → k <+: key ∨ key <+: k → k = key

theorem holds_root {node : ArtNode V} (hroot : t.root = some node) : t.Holds k v ↔ node.Holds k v := by
  simp [Holds, hroot]

/-- **One insertion** into a tree. -/
theorem insert_spec (hm : 1 ≤ m) (hm' : m ≤ 2) (h : t.WF m) (hfresh : m = 2 → t.Fresh key) (value : V) :
    (t.insert key value).1 = t.get key ∧ (t.insert key value).2.WF m ∧
      (∀ k v, (t.insert key value).2.Holds k v ↔ Inserted t.Holds key value k v) ∧
      (t.insert key value).2.len = if (t.get key).isNone then t.len + 1 else t.len := by
  cases hroot : t.root with
  | none =>
    have hempty (k : Key) (v : V) : ¬ t.Holds k v := by
      rintro ⟨node, hnode, -⟩
      rw [hroot] at hnode
      cases hnode
    have hget : t.get key = none := h.get_eq_none.mpr (hempty key)
    have hinsert : t.insert key value = (none, ⟨some (.leaf key value), t.len + 1⟩) := by
      unfold insert
      rw [hroot, ArtNode.insertRecursive]
      rfl
    rw [hinsert, hget]
    refine ⟨rfl, ?_, ?_, rfl⟩
    · intro node hnode
      cases hnode
      exact ArtNode.WF.leaf nil_prefix
    · intro k v
      have hapart : Apart t.Holds key := fun k v hk => absurd hk (hempty k v)
      rw [holds_root rfl, ArtNode.holds_leaf, inserted_apart hapart]
      simp only [hempty, false_or]
  | some node =>
    have hfresh' : m = 2 → node.Fresh key := by
      intro htwo k v hk
      exact hfresh htwo k v ⟨node, hroot, hk⟩
    obtain ⟨node', hrec, hwf, hholds⟩ := ArtNode.insertRecursive_spec hm hm' (h node hroot) nil_prefix hfresh' value
    rw [length_nil, ← h.get_eq_getFrom hroot] at hrec
    have hinsert : t.insert key value =
        (t.get key, ⟨some node', if (t.get key).isNone then t.len + 1 else t.len⟩) := by
      unfold insert
      rw [hroot, hrec]
    rw [hinsert]
    refine ⟨rfl, ?_, ?_, rfl⟩
    · intro node'' hnode
      exact Option.some.inj hnode ▸ hwf
    · intro k v
      rw [holds_root rfl, hholds]
      exact inserted_congr fun k v => (holds_root hroot).symm

/-! ### Sequences of insertions -/

/-- The tree after insertions, in order. -/
def insertAll (t : ArtTree V) (ops : List (Key × V)) : ArtTree V := ops.foldl (fun t x => (t.insert x.1 x.2).2) t

end ArtTree

/-- The map after the same insertions. -/
def tableOf (ops : List (Key × V)) : Table Key V := ops.foldl (fun M x => AList.insert x.1 x.2 M) ∅

theorem tableOf_snoc (ops : List (Key × V)) (x : Key × V) :
    tableOf (ops ++ [x]) = AList.insert x.1 x.2 (tableOf ops) := by simp [tableOf]

/-- Some key of the map properly extends the key. -/
def Extended (M : Table Key V) (k : Key) : Prop := ∃ k' v', M.lookup k' = some v' ∧ k <+: k' ∧ k' ≠ k

/-- The pairs that no key of the map extends. -/
def Longest (M : Table Key V) (k : Key) (v : V) : Prop := M.lookup k = some v ∧ ¬ Extended M k

variable {M : Table Key V}

/-- A key that is extended in the map is extended by one that is not. -/
theorem Extended.longest (h : Extended M k) : Extends (Longest M) k := by
  obtain ⟨k', v', hk', hle, hne⟩ := h
  -- the longest extension
  induction hgap : (M.keys.map List.length).sum + 1 - k'.length using Nat.strongRecOn generalizing k' v' with
  | ind n ih =>
    by_cases hext : Extended M k'
    · obtain ⟨k'', v'', hk'', hle', hne'⟩ := hext
      have hmem : k'' ∈ M.keys := AList.mem_keys.mp (AList.lookup_isSome.mp (by rw [hk'']; rfl))
      have hlong : k''.length ≤ (M.keys.map List.length).sum :=
        single_le_sum (fun _ _ => Nat.zero_le _) _ (mem_map_of_mem hmem)
      have hlt : k'.length < k''.length := by
        refine lt_of_le_of_ne hle'.length_le ?_
        intro heq
        exact hne' (hle'.eq_of_length heq).symm
      refine ih _ ?_ k'' v'' hk'' (hle.trans hle') ?_ rfl
      · omega
      · rintro rfl
        have hback := hle.length_le
        omega
    · exact ⟨k', v', ⟨hk', hext⟩, hle, hne⟩

theorem extends_longest : Extends (Longest M) k ↔ Extended M k := by
  refine ⟨?_, Extended.longest⟩
  rintro ⟨k', v', ⟨hk', -⟩, hle, hne⟩
  exact ⟨k', v', hk', hle, hne⟩

theorem extended_insert : Extended (AList.insert key value M) k ↔ Extended M k ∨ k <+: key ∧ key ≠ k := by
  unfold Extended
  simp only [lookup_insert_if]
  constructor
  · rintro ⟨k', v', hk', hle, hne⟩
    by_cases heq : k' = key
    · exact .inr ⟨heq ▸ hle, heq ▸ hne⟩
    · rw [if_neg heq] at hk'
      exact .inl ⟨k', v', hk', hle, hne⟩
  · rintro (⟨k', v', hk', hle, hne⟩ | ⟨hle, hne⟩)
    · by_cases heq : k' = key
      · exact ⟨k', value, if_pos heq, hle, hne⟩
      · exact ⟨k', v', by rw [if_neg heq]; exact hk', hle, hne⟩
    · exact ⟨key, value, if_pos rfl, hle, hne⟩

/-- An insertion into the tree acts on the longest keys as one into the map. -/
theorem longest_insert : Longest (AList.insert key value M) k v ↔ Inserted (Longest M) key value k v := by
  have hnew : Longest (AList.insert key value M) k v ↔ (if k = key then some value else M.lookup k) = some v ∧
        ¬ (Extended M k ∨ k <+: key ∧ key ≠ k) := by
    rw [← lookup_insert_if, ← extended_insert]
    rfl
  have hold : Longest M k v ↔ M.lookup k = some v ∧ ¬ Extended M k := Iff.rfl
  rw [hnew]
  by_cases hext : Extends (Longest M) key
  · rw [inserted_of_extends hext, hold]
    rw [extends_longest] at hext
    obtain ⟨k', v', hk', hle, hne⟩ := hext
    by_cases hk : k = key
    · have hself : Extended M k := ⟨k', v', hk', hk ▸ hle, hk ▸ hne⟩
      simp only [hself, true_or, not_true_eq_false, and_false]
    · rw [if_neg hk]
      refine and_congr_right fun _ => not_congr ?_
      constructor
      · rintro (h | ⟨hle', -⟩)
        · exact h
        · refine ⟨k', v', hk', hle'.trans hle, ?_⟩
          rintro rfl
          exact hne ((hle'.eq_of_length_le hle.length_le).symm ▸ rfl)
      · exact .inl
  · rw [inserted_of_not_extends hext, hold]
    rw [extends_longest] at hext
    by_cases hk : k = key
    · subst hk
      simp only [if_true, hext, ne_eq, not_true_eq_false, and_false, or_false, not_false_eq_true,
        and_true, true_and, prefix_refl, false_and, Option.some.injEq, eq_comm]
    · simp only [hk, false_and, false_or, not_or, not_and, ne_eq]
      constructor
      · rintro ⟨hlook, hno, hne⟩
        refine ⟨?_, hlook, hno⟩
        intro hle
        exact hne hle (Ne.symm hk)
      · rintro ⟨hle, hlook, hno⟩
        exact ⟨hlook, hno, fun h => absurd h hle⟩

namespace ArtTree

variable {t : ArtTree V}

theorem insertAll_snoc (ops : List (Key × V)) (x : Key × V) :
    t.insertAll (ops ++ [x]) = ((t.insertAll ops).insert x.1 x.2).2 := by simp [insertAll]

/-- After any insertions the tree stores the longest keys. -/
theorem holds_insertAll (ops : List (Key × V)) : ((new : ArtTree V).insertAll ops).WF 1 ∧
      ∀ k v, ((new : ArtTree V).insertAll ops).Holds k v ↔ Longest (tableOf ops) k v := by
  induction ops using List.reverseRecOn with
  | nil =>
    refine ⟨WF.new, ?_⟩
    intro k v
    have hempty : ¬ Longest (∅ : Table Key V) k v := by
      rintro ⟨hlook, -⟩
      rw [AList.lookup_empty] at hlook
      cases hlook
    exact iff_of_false not_holds_new hempty
  | append_singleton ops x ih =>
    obtain ⟨-, hwf, hholds, -⟩ := insert_spec (le_refl 1) one_le_two ih.1 (fun h => absurd h (by decide)) x.2
    rw [insertAll_snoc, tableOf_snoc]
    refine ⟨hwf, ?_⟩
    intro k v
    rw [hholds, longest_insert]
    exact inserted_congr ih.2

/-! ### Prefix-free keys -/

/-- The tree is the map. -/
structure Represents (t : ArtTree V) (M : Table Key V) : Prop where
  wf : t.WF 2
  holds : ∀ k v, t.Holds k v ↔ M.lookup k = some v
  len : t.len = M.size

theorem Represents.new : (new : ArtTree V).Represents ∅ := by
  refine ⟨WF.new, ?_, rfl⟩
  intro k v
  rw [AList.lookup_empty]
  exact iff_of_false not_holds_new (by simp)

theorem Represents.get_eq {M : Table Key V} (h : t.Represents M) (k : Key) : t.get k = M.lookup k := by
  apply Option.ext
  intro v
  rw [h.wf.get_eq_some, h.holds]

/-- Inserting a key that is comparable with no other key of the map. -/
theorem Represents.insert {M : Table Key V} (h : t.Represents M)
    (hkey : ∀ k, k ∈ M → k <+: key ∨ key <+: k → k = key) (value : V) :
    (t.insert key value).1 = M.lookup key ∧ (t.insert key value).2.Represents (AList.insert key value M) := by
  have hfresh : t.Fresh key := by
    intro k v hk
    apply hkey k
    rw [← AList.lookup_isSome, (h.holds k v).mp hk]
    rfl
  obtain ⟨hres, hwf, hholds, hlen⟩ := insert_spec one_le_two (le_refl 2) h.wf (fun _ => hfresh) value
  rw [h.get_eq] at hres hlen
  refine ⟨hres, hwf, ?_, ?_⟩
  · intro k v
    have hext : ¬ Extends t.Holds key := by
      rintro ⟨k', v', hk', hle, hne⟩
      exact hne (hfresh k' v' hk' (.inr hle))
    rw [hholds, inserted_of_not_extends hext, lookup_insert_if, h.holds]
    by_cases hk : k = key
    · subst hk
      simp [eq_comm]
    · rw [if_neg hk]
      constructor
      · rintro (⟨rfl, -⟩ | ⟨-, hlook⟩)
        · exact absurd rfl hk
        · exact hlook
      · intro hlook
        refine .inr ⟨?_, hlook⟩
        intro hle
        exact hk (hfresh k v ((h.holds k v).mpr hlook) (.inl hle))
  · rw [hlen, h.len]
    cases hlook : M.lookup key with
    | none => rw [size_insert_of_none value hlook, isNone_none, if_pos rfl]
    | some v => rw [size_insert_of_some value hlook, isNone_some, if_neg Bool.false_ne_true]

end ArtTree

/-- No key of the set is an initial part of another. -/
def PrefixFree (S : Set Key) : Prop := ∀ k ∈ S, ∀ k' ∈ S, k <+: k' → k = k'

theorem mem_tableOf {ops : List (Key × V)} : k ∈ tableOf ops ↔ k ∈ ops.map Prod.fst := by
  induction ops using List.reverseRecOn with
  | nil => simp [tableOf]
  | append_singleton ops x ih =>
    rw [tableOf_snoc, AList.mem_insert, ih, map_append, mem_append, or_comm]
    simp

/-- The inserted keys. -/
def keysOf (ops : List (Key × V)) : Set Key := {k | k ∈ ops.map Prod.fst}

theorem keysOf_snoc (ops : List (Key × V)) (x : Key × V) :
    keysOf ops ⊆ keysOf (ops ++ [x]) ∧ x.1 ∈ keysOf (ops ++ [x]) := by
  unfold keysOf
  rw [map_append]
  exact ⟨fun k hk => mem_append_left _ hk, mem_append_right _ mem_cons_self⟩

namespace ArtTree

/-- With prefix-free keys the tree is the map of the insertions. -/
theorem insertAll_represents {ops : List (Key × V)} (h : PrefixFree (keysOf ops)) :
    ((new : ArtTree V).insertAll ops).Represents (tableOf ops) := by
  induction ops using List.reverseRecOn with
  | nil => exact Represents.new
  | append_singleton ops x ih =>
    obtain ⟨hsub, hx⟩ := keysOf_snoc ops x
    rw [insertAll_snoc, tableOf_snoc]
    refine ((ih fun k hk k' hk' => h k (hsub hk) k' (hsub hk')).insert ?_ x.2).2
    intro k hk hcmp
    have hk' := hsub (mem_tableOf.1 hk)
    cases hcmp with
    | inl hle => exact h k hk' x.1 hx hle
    | inr hle => exact (h x.1 hx k hk' hle).symm

/-- **The tree keeps the longest keys**: after any insertions `get` finds the last value of a
key that no inserted key properly extends and nothing else, an insertion returns what `get`
found before it, and with prefix-free keys `len` counts the distinct keys. -/
theorem insertAll_keepsLongest (ops : List (Key × V)) :
    (∀ k v, ((new : ArtTree V).insertAll ops).get k = some v ↔ (tableOf ops).lookup k = some v ∧
          ∀ k' ∈ ops.map Prod.fst, k <+: k' → k' = k) ∧
      (∀ key value, (((new : ArtTree V).insertAll ops).insert key value).1 =
        ((new : ArtTree V).insertAll ops).get key) ∧
      (PrefixFree (keysOf ops) → ((new : ArtTree V).insertAll ops).len = (ops.map Prod.fst).dedup.length) := by
  obtain ⟨hwf, hholds⟩ := holds_insertAll ops
  refine ⟨?_, ?_, ?_⟩
  · intro k v
    rw [hwf.get_eq_some, hholds]
    refine and_congr_right fun _ => ?_
    constructor
    · intro hext k' hk' hle
      by_contra hne
      obtain ⟨v', hv'⟩ := Option.isSome_iff_exists.mp (AList.lookup_isSome.mpr (mem_tableOf.2 hk'))
      exact hext ⟨k', v', hv', hle, hne⟩
    · rintro hall ⟨k', v', hk', hle, hne⟩
      have hmem : k' ∈ tableOf ops := AList.lookup_isSome.mp (by rw [hk']; rfl)
      exact hne (hall k' (mem_tableOf.1 hmem) hle)
  · intro key value
    exact (insert_spec (le_refl 1) one_le_two hwf (fun h => absurd h (by decide)) value).1
  · intro hfree
    rw [(insertAll_represents hfree).len]
    have hperm : (tableOf ops).keys.Perm (ops.map Prod.fst).dedup := by
      rw [perm_ext_iff_of_nodup (AList.keys_nodup _) (nodup_dedup _)]
      intro k
      rw [List.mem_dedup, ← mem_tableOf, AList.mem_keys]
    rw [← hperm.length_eq]
    exact (length_map _).symm

/-- A key that ends inside a later one is lost: the values inserted for `a` and then `ab`. -/
theorem insertAll_loses_initial : ((new : ArtTree ℕ).insertAll [([97], 1), ([97, 98], 2)]).get [97] = none ∧
      (tableOf [(([97] : Key), 1), ([97, 98], 2)]).lookup [97] = some 1 := by
  decide +kernel

end ArtTree

end CenDB.Index
