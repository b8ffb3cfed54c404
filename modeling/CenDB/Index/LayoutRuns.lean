import CenDB.Index.ArtTree
import CenDB.Lib.Transition

/-! # Insertions and removals in a node

The tree inserts a child only at a byte that has none (`insertRecursive`, `removeRecursive`).  A `node4` and a
`node16` with room rely on it: there a second child of a byte goes behind the first.  The other layouts replace
the first one, although a `node48` goes on counting it and keeps its slot.  `node_agrees_iff` says that this is
all that can go wrong. -/

namespace CenDB.Index.Layout

open ByteMap Transition List Option

variable {α : Type} {byte : UInt8}

/-! ### Layouts with slots that nothing refers to -/

/-- A valid layout, but for slots in use that are counted and belong to no byte. -/
def Fits : Layout α → Prop
  | node4 keys children => Sorted 4 keys children
  | node16 keys children => Sorted 16 keys children
  | node48 index children count =>
    Placed index children ∧ children.length ≤ 48 ∧ children.countP Option.isSome ≤ count
  | node256 children count => children.length = 256 ∧ size (directChild children) ≤ count

/-- Puts a child in the place of another one. -/
def Replaces : Layout α → Prop
  | node4 _ _ => False
  | node16 keys _ => 16 ≤ keys.length
  | node48 _ _ _ | node256 _ _ => True

variable {l : Layout α} {keys : List UInt8} {children : List α}

theorem iterChildren_eq_of_fits (h : l.Fits) : l.iterChildren = graph fun b => l.findChild b := by
  cases l with
  | node4 keys children | node16 keys children => exact Sorted.zip_eq h
  | node48 index children count | node256 children count => rfl

section placed

variable {index : UInt8 → UInt8} {children : List (Option α)} {count : ℕ}

theorem countP_clear {i : ℕ} {c : α} (h : children[i]? = some (some c)) :
    (children.set i none).countP Option.isSome + 1 = children.countP Option.isSome := by
  obtain ⟨hlt, hc⟩ := List.getElem?_eq_some_iff.mp h
  have hpos := boole_getElem_le_countP (p := Option.isSome) hlt
  rw [countP_set hlt]
  simp only [hc, isSome_some, isSome_none, if_true, Bool.false_eq_true, if_false] at hpos ⊢
  omega

/-- There are no more children than slots in use. -/
theorem Placed.size_le (h : Placed index children) :
    size (slotChild index children) ≤ children.countP Option.isSome := by
  induction hn : size (slotChild index children) generalizing index children with
  | zero => exact Nat.zero_le _
  | succ n ih =>
    obtain ⟨b, c, hc⟩ := exists_of_size_pos (f := slotChild index children) (by omega)
    have hb : index b ≠ 0 := by
      intro hzero
      rw [slotChild, if_pos hzero] at hc
      cases hc
    obtain ⟨hplaced, hmap⟩ := h.clear hb
    obtain ⟨c', hc'⟩ := h.used b hb
    have hsize := size_update_none hc
    have hcount := countP_clear hc'
    have hle := ih hplaced (by rw [hmap]; omega)
    omega

theorem fits_insertChild256 (h : (node256 children count).Fits) (byte : UInt8) (child : α) :
    (insertChild256 byte child children count).Fits ∧
      (fun b => (insertChild256 byte child children count).findChild b) =
        Function.update (directChild children) byte (some child) := by
  have hset := directChild_set h.1 byte (some child)
  refine ⟨⟨?_, ?_⟩, hset⟩
  · rw [length_set]
    exact h.1
  · have hcount := h.2
    rw [hset]
    cases hbyte : directChild children byte with
    | none =>
      rw [size_update_some child hbyte, isNone_none, if_pos rfl]
      omega
    | some c =>
      have hcleared : Function.update (Function.update (directChild children) byte none) byte (some child) =
          Function.update (directChild children) byte (some child) := Function.update_idem _ _ _
      have hsize := size_update_none hbyte
      rw [← hcleared, size_update_some child (Function.update_self _ _ _), isNone_some, if_neg Bool.false_ne_true]
      omega

theorem fits_insertChild48 (h : (node48 index children count).Fits) (byte : UInt8) (child : α) :
    (insertChild48 byte child index children count).Fits ∧
      (fun b => (insertChild48 byte child index children count).findChild b) =
        Function.update (slotChild index children) byte (some child) := by
  obtain ⟨hplaced, hlength, hcountP⟩ := h
  unfold insertChild48
  by_cases hcount : count < 48
  · rw [if_pos hcount]
    have hput := puts child children
    have hput_length := hput.length
    have hput_count := hput.count
    have hslot : children.findIdx Option.isNone < 48 := by
      by_cases hlen : children.length ≤ children.findIdx Option.isNone
      · have hall : ∀ c ∈ children, c.isSome = true := by
          intro c hc
          have hnone := findIdx_eq_length.mp (le_antisymm findIdx_le_length hlen) c hc
          rwa [isNone_eq_false_iff] at hnone
        have hfull : children.countP Option.isSome = children.length := countP_eq_length.mpr hall
        have hle : children.findIdx Option.isNone ≤ children.length := findIdx_le_length
        omega
      · omega
    obtain ⟨hplaced', hmap⟩ := @Placed.fill _ _ _ byte hplaced _ hslot hput.free _ _ hput.put hput.keep
    have hlength' : (withChild child children).length ≤ 48 := by omega
    have hcountP' : (withChild child children).countP Option.isSome ≤ count + 1 := by omega
    exact ⟨⟨hplaced', hlength', hcountP'⟩, hmap⟩
  · rw [if_neg hcount]
    have hmap := directChild_map (slotChild index children)
    have hsize := hplaced.size_le
    have hfits : (node256 (bytes.map (slotChild index children)) count).Fits := by
      refine ⟨by simp [bytes], ?_⟩
      rw [hmap]
      omega
    have hins := fits_insertChild256 hfits byte child
    rwa [hmap] at hins

end placed

/-- The slots of a layout made of sorted keys. -/
theorem fits_packed48 {cap count : ℕ} (h : Sorted cap keys children) (hcap : cap ≤ 48)
    (hcount : keys.length ≤ count) :
    (node48 (packed48 keys children).1 (packed48 keys children).2 count).Fits := by
  obtain ⟨hslotted, -⟩ := slotted_packed48 h hcap
  refine ⟨hslotted.placed, hslotted.cap, ?_⟩
  have hle : (packed48 keys children).2.countP Option.isSome ≤ (packed48 keys children).2.length := countP_le_length
  have hlength : (packed48 keys children).2.length = keys.length := by
    rw [packed48, length_map, h.length]
  omega

theorem fits_insertChild16 (h : Sorted 16 keys children)
    (hbyte : scanChild keys children byte = none ∨ 16 ≤ keys.length) (child : α) :
    (insertChild16 byte child keys children).Fits ∧ (fun b => (insertChild16 byte child keys children).findChild b) =
        Function.update (scanChild keys children) byte (some child) := by
  unfold insertChild16
  by_cases hcap : keys.length < 16
  · rw [if_pos hcap]
    exact h.insert hcap (hbyte.resolve_right (by omega)) child
  · rw [if_neg hcap]
    have hins := fits_insertChild48 (fits_packed48 h (by decide) (le_refl _)) byte child
    rwa [(slotted_packed48 h (by decide)).2] at hins

/-- **A child is inserted** at a byte without one, and in the place of another one where the layout has it so. -/
theorem fits_insertChild (h : l.Fits) (hbyte : l.findChild byte = none ∨ l.Replaces) (child : α) :
    (l.insertChild byte child).Fits ∧ (fun b => (l.insertChild byte child).findChild b) =
      Function.update (fun b => l.findChild b) byte (some child) := by
  cases l with
  | node4 keys children =>
    have hfree : scanChild keys children byte = none := hbyte.resolve_right not_false
    have hins : (insertChild4 byte child keys children).Fits ∧
        (fun b => (insertChild4 byte child keys children).findChild b) =
          Function.update (scanChild keys children) byte (some child) := by
      unfold insertChild4
      by_cases hcap : keys.length < 4
      · rw [if_pos hcap]
        exact Sorted.insert h hcap hfree child
      · rw [if_neg hcap]
        have hwide : Sorted 16 keys children := ⟨h.sorted, h.length, h.cap.trans (by decide)⟩
        exact fits_insertChild16 hwide (.inl hfree) child
    exact hins
  | node16 keys children => exact fits_insertChild16 h hbyte child
  | node48 index children count => exact fits_insertChild48 h byte child
  | node256 children count => exact fits_insertChild256 h byte child

/-! ### Removal -/

section placed

variable {index : UInt8 → UInt8} {children : List (Option α)} {count : ℕ}

theorem fits_removeChild48 (h : (node48 index children count).Fits) (byte : UInt8) :
    (removeChild48 byte index children count).2.Fits ∧
      (fun b => (removeChild48 byte index children count).2.findChild b) =
        Function.update (slotChild index children) byte none := by
  unfold removeChild48
  by_cases hzero : index byte = 0
  · have hnone : slotChild index children byte = none := if_pos hzero
    rw [if_pos hzero]
    exact ⟨h, (Function.update_eq_self_iff.mpr hnone.symm).symm⟩
  · obtain ⟨hplaced, hlength, hcountP⟩ := h
    obtain ⟨hplaced', hclear⟩ := hplaced.clear hzero
    obtain ⟨c, hc⟩ := hplaced.used byte hzero
    have hcleared := countP_clear hc
    have hsize := hplaced'.size_le
    rw [if_neg hzero]
    dsimp only
    by_cases hcap : count - 1 ≤ 16
    · rw [if_pos hcap]
      have hgraph := @sorted_graph _ (slotChild (Function.update index byte 0)
        (children.set ((index byte).toNat - 1) none)) 16 (by omega)
      exact ⟨hgraph.1, hgraph.2.trans hclear⟩
    · rw [if_neg hcap]
      refine ⟨⟨hplaced', ?_, by omega⟩, hclear⟩
      rw [length_set]
      exact hlength

theorem fits_removeChild256 (h : (node256 children count).Fits) (byte : UInt8) :
    (removeChild256 byte children count).2.Fits ∧ (fun b => (removeChild256 byte children count).2.findChild b) =
        Function.update (directChild children) byte none := by
  unfold removeChild256
  cases hsome : directChild children byte with
  | none => exact ⟨h, (Function.update_eq_self_iff.mpr hsome.symm).symm⟩
  | some c =>
    have hset := directChild_set h.1 byte none
    have hsize : size (directChild (children.set byte.toNat none)) ≤ count - 1 := by
      have hsplit := size_update_none hsome
      have hcount := h.2
      rw [hset]
      omega
    rw [isNone_some, if_neg Bool.false_ne_true]
    dsimp only
    by_cases hcap : count - 1 ≤ 48
    · rw [if_pos hcap]
      have hgraph := @sorted_graph _ (directChild (children.set byte.toNat none)) 48 (by omega)
      have hpacked := slotted_packed48 hgraph.1 (le_refl _)
      refine ⟨fits_packed48 hgraph.1 (le_refl _) ?_, (hpacked.2.trans hgraph.2).trans hset⟩
      rw [length_map]
      exact hsize
    · rw [if_neg hcap]
      refine ⟨⟨?_, hsize⟩, hset⟩
      rw [length_set]
      exact h.1

end placed

/-- A sorted layout stays sorted. -/
theorem fits_removeChild4 (h : Sorted 4 keys children) : (removeChild4 byte keys children).2.Fits := by
  have hvalid := (@removeChild4_spec _ _ _ byte h).2.1
  unfold removeChild4 at hvalid ⊢
  cases hpos : keys.findIdx? fun k => k = byte with
  | none => exact h
  | some pos =>
    rw [hpos] at hvalid
    exact hvalid

theorem fits_removeChild16 (h : Sorted 16 keys children) : (removeChild16 byte keys children).2.Fits := by
  have hvalid := (@removeChild16_spec _ _ _ byte h).2.1
  unfold removeChild16 at hvalid ⊢
  cases hpos : keys.findIdx? fun k => k = byte with
  | none => exact h
  | some pos =>
    rw [hpos] at hvalid
    dsimp only at hvalid ⊢
    split_ifs at hvalid ⊢
    · exact hvalid
    · exact hvalid

/-- **A removal clears the map at the byte**, whatever the layout becomes. -/
theorem fits_removeChild (h : l.Fits) (byte : UInt8) :
    (l.removeChild byte).2.Fits ∧ (fun b => (l.removeChild byte).2.findChild b) =
      Function.update (fun b => l.findChild b) byte none := by
  cases l with
  | node4 keys children => exact ⟨fits_removeChild4 h, (removeChild4_spec h).2.2⟩
  | node16 keys children => exact ⟨fits_removeChild16 h, (removeChild16_spec h).2.2⟩
  | node48 index children count => exact fits_removeChild48 h byte
  | node256 children count => exact fits_removeChild256 h byte

/-! ### A second child of a byte -/

/-- Both children of the byte are listed. -/
theorem not_ascending_insertIdx {pos : ℕ} {child : α} (hlength : children.length = keys.length)
    (hpos : pos ≤ keys.length) (hbyte : byte ∈ keys) :
    ¬Ascending ((keys.insertIdx pos byte).zip (children.insertIdx pos child)) := by
  intro hascending
  have hle : (keys.insertIdx pos byte).length ≤ (children.insertIdx pos child).length := by
    rw [length_insertIdx_of_le_length hpos, length_insertIdx_of_le_length (hlength ▸ hpos), hlength]
  have hsorted : (keys.insertIdx pos byte).Pairwise (· < ·) := by
    rw [← List.map_fst_zip hle, pairwise_map]
    exact hascending
  have hnodup : (keys.insertIdx pos byte).Nodup := hsorted.imp fun hlt => UInt8.ne_of_lt hlt
  rw [(perm_insertIdx byte keys hpos).nodup_iff, nodup_cons] at hnodup
  exact hnodup.1 hbyte

theorem mem_of_scanChild (h : scanChild keys children byte ≠ none) : byte ∈ keys := by
  by_contra hnot
  have hpos : (keys.findIdx? fun k => k = byte) = none := by
    rw [findIdx?_eq_none_iff]
    intro k hk
    rw [decide_eq_false_iff_not]
    rintro rfl
    exact hnot hk
  exact h (scanChild_absent hpos)

theorem not_ascending_insertChild (h : l.Fits) (hbyte : l.findChild byte ≠ none) (hl : ¬l.Replaces) (child : α) :
    ¬Ascending (l.insertChild byte child).iterChildren := by
  have hpos : ∀ keys, position byte keys ≤ keys.length := fun _ => findIdx_le_length
  have h16 : ∀ {keys : List UInt8} {children : List α}, children.length = keys.length → byte ∈ keys →
      keys.length < 16 → ¬Ascending (insertChild16 byte child keys children).iterChildren := by
    intro keys children hlength hmem hcap
    rw [insertChild16, if_pos hcap]
    exact not_ascending_insertIdx hlength (hpos keys) hmem
  cases l with
  | node4 keys children =>
    have hmem := mem_of_scanChild hbyte
    have hcap := h.cap
    show ¬Ascending (insertChild4 byte child keys children).iterChildren
    unfold insertChild4
    split_ifs
    · exact not_ascending_insertIdx h.length (hpos keys) hmem
    · exact h16 h.length hmem (by omega)
  | node16 keys children => exact h16 h.length (mem_of_scanChild hbyte) (Nat.not_le.mp hl)
  | node48 index children count | node256 children count => exact absurd trivial hl

/-! ### Sequences of operations -/

/-- The two ways to change a node. -/
inductive Op (α : Type) where
  | insert (byte : UInt8) (child : α)
  | remove (byte : UInt8)

/-- A node and a map from bytes to children side by side. -/
structure Tracked (α : Type) where
  node : Layout α
  map : UInt8 → Option α

namespace Tracked

/-- A new `node4`. -/
def init : Tracked α := ⟨node4 [] [], fun _ => none⟩

def step (s : Tracked α) : Op α → Option (Tracked α)
  | .insert byte child => some ⟨s.node.insertChild byte child, Function.update s.map byte (some child)⟩
  | .remove byte => some ⟨(s.node.removeChild byte).2, Function.update s.map byte none⟩

/-- The node is the map: by lookups, and listed in ascending order. -/
structure Agrees (s : Tracked α) : Prop where
  find : ∀ b, s.node.findChild b = s.map b
  iter : ∀ b c, (b, c) ∈ s.node.iterChildren ↔ s.map b = some c
  ascending : Ascending s.node.iterChildren

/-- No child is inserted at a byte that has one, except in the place of it. -/
def Apart (s : Tracked α) : Op α → Prop
  | .insert byte _ => s.node.findChild byte = none ∨ s.node.Replaces
  | .remove _ => True

structure Inv (s : Tracked α) : Prop where
  fits : s.node.Fits
  map : (fun b => s.node.findChild b) = s.map

theorem Inv.agrees {s : Tracked α} (h : Inv s) : s.Agrees := by
  have hiter : s.node.iterChildren = graph s.map := by rw [iterChildren_eq_of_fits h.fits, h.map]
  refine ⟨congrFun h.map, fun b c => ?_, ?_⟩
  · rw [hiter, mem_graph]
  · rw [hiter]
    exact graph_ascending s.map

theorem Inv.init : Inv (init : Tracked α) where
  fits := ⟨List.Pairwise.nil, rfl, Nat.zero_le 4⟩
  map := rfl

theorem Inv.step {s s' : Tracked α} {op : Op α} (h : Inv s) (hop : s.Apart op) (hstep : s.step op = some s') :
    Inv s' := by
  cases op with
  | insert byte child =>
    cases hstep
    obtain ⟨hfits, hmap⟩ := fits_insertChild h.fits hop child
    exact ⟨hfits, by rw [hmap, h.map]⟩
  | remove byte =>
    cases hstep
    obtain ⟨hfits, hmap⟩ := fits_removeChild h.fits byte
    exact ⟨hfits, by rw [hmap, h.map]⟩

/-- **A node is a map in byte order after every step exactly if** no child is inserted at a byte that a `node4`, or
a `node16` with room, has a child for already. -/
theorem node_agrees_iff (ops : List (Op α)) : Throughout step Agrees init ops ↔ Along step Apart init ops := by
  refine throughout_iff_along_of_leaves (fun s (hs : Inv s) => hs.agrees) ?_ ?_ ?_ Inv.init ops
  · intro s op hstuck
    cases op <;> cases hstuck
  · intro s op s' hs hop hstep
    exact hs.step hop hstep
  · intro s op s' hs hop hstep hagrees
    cases op with
    | remove byte => exact hop trivial
    | insert byte child =>
      obtain rfl := Option.some.inj hstep
      obtain ⟨hbyte, hl⟩ := not_or.mp hop
      exact not_ascending_insertChild hs.fits hbyte hl child hagrees.ascending

/-- Two leaves inserted at one byte: the first one is found, and both are listed. -/
theorem insertChild_keeps_first : (run step init [.insert 7 (ArtNode.leaf [7] 1), .insert 7 (ArtNode.leaf [7] 2)]).map
        (fun s => (s.node.findChild 7, s.node.iterChildren)) =
      some (some (ArtNode.leaf [7] 1), [(7, ArtNode.leaf [7] 1), (7, ArtNode.leaf [7] 2)]) ∧
    ¬∀ ops : List (Op (ArtNode ℕ)), Throughout step Agrees init ops := by
  refine ⟨rfl, fun h => ?_⟩
  have hfind := (h [.insert 7 (ArtNode.leaf [7] 1), .insert 7 (ArtNode.leaf [7] 2)] _ _ prefix_rfl rfl).find 7
  have hfirst : some (ArtNode.leaf [7] 1) = some (ArtNode.leaf [7] 2) := hfind
  simp at hfirst

end Tracked

end CenDB.Index.Layout
