import Mathlib.Tactic

/-! # Maps on bytes

A map on bytes is a function `f : UInt8 → Option α`.  `graph f` lists its entries in ascending
byte order and `size f` counts them.  A strictly ascending list with the entries of `f` is
`graph f` (`eq_graph`), so a representation of a byte map is correct as soon as its lookups and
its order are. -/

namespace ByteMap

open List Option Function

variable {α : Type*}

/-- All bytes in ascending order. -/
def bytes : List UInt8 := (List.range 256).map UInt8.ofNat

theorem mem_bytes (b : UInt8) : b ∈ bytes := by
  refine List.mem_map.mpr ⟨b.toNat, mem_range.mpr b.toNat_lt, ?_⟩
  exact UInt8.ofNat_toNat

theorem bytes_sorted : bytes.Pairwise (· < ·) := by
  unfold bytes
  rw [pairwise_map]
  refine pairwise_lt_range.imp_of_mem ?_
  intro a b ha hb hlt
  rw [mem_range] at ha hb
  rw [UInt8.lt_iff_toNat_lt, UInt8.toNat_ofNat', UInt8.toNat_ofNat']
  omega

theorem bytes_nodup : bytes.Nodup := bytes_sorted.imp fun h => UInt8.ne_of_lt h

/-- The entries in ascending byte order. -/
def graph (f : UInt8 → Option α) : List (UInt8 × α) :=
  bytes.filterMap fun b => (f b).map (Prod.mk b)

/-- Strictly ascending bytes. -/
def Ascending (l : List (UInt8 × α)) : Prop := l.Pairwise fun x y => x.1 < y.1

variable {f : UInt8 → Option α} {b : UInt8} {c : α}

theorem mem_graph : (b, c) ∈ graph f ↔ f b = some c := by
  unfold graph
  rw [mem_filterMap]
  constructor
  · intro h
    obtain ⟨b', -, h⟩ := h
    obtain ⟨c', hc, heq⟩ := map_eq_some_iff.mp h
    cases heq
    exact hc
  · intro h
    exact ⟨b, mem_bytes b, by rw [h, map_some]⟩

theorem graph_ascending (f : UInt8 → Option α) : Ascending (graph f) := by
  unfold Ascending graph
  rw [pairwise_filterMap]
  refine bytes_sorted.imp ?_
  intro a b hlt x hx y hy
  obtain ⟨c, -, rfl⟩ := map_eq_some_iff.mp hx
  obtain ⟨d, -, rfl⟩ := map_eq_some_iff.mp hy
  exact hlt

theorem Ascending.nodup {l : List (UInt8 × α)} (h : Ascending l) : l.Nodup := by
  refine h.imp ?_
  intro x y hlt heq
  rw [heq] at hlt
  exact UInt8.lt_irrefl _ hlt

/-- An ascending list is determined by its entries. -/
theorem eq_graph {l : List (UInt8 × α)} (hl : Ascending l) (h : ∀ b c, (b, c) ∈ l ↔ f b = some c) : l = graph f := by
  have hperm : l.Perm (graph f) := by
    rw [perm_ext_iff_of_nodup hl.nodup (graph_ascending f).nodup]
    intro x
    rw [h x.1 x.2, mem_graph]
  refine hperm.eq_of_pairwise ?_ hl (graph_ascending f)
  intro x y _ _ hxy hyx
  exact absurd (UInt8.lt_trans hxy hyx) (UInt8.lt_irrefl _)

/-! ### Size -/

/-- The number of entries. -/
def size (f : UInt8 → Option α) : ℕ := (graph f).length

theorem size_eq_countP (f : UInt8 → Option α) : size f = bytes.countP fun b => (f b).isSome := by
  unfold size graph
  rw [length_filterMap_eq_countP]
  simp only [isSome_map]

/-- The entry at one byte counted apart from the others. -/
theorem size_split (f : UInt8 → Option α) (b : UInt8) :
    size f = (bytes.erase b).countP (fun b' => (f b').isSome) + if (f b).isSome then 1 else 0 := by
  rw [size_eq_countP, (perm_cons_erase (mem_bytes b)).countP_eq, countP_cons]

theorem countP_erase_update (f : UInt8 → Option α) (b : UInt8) (c : Option α) :
    (bytes.erase b).countP (fun b' => (Function.update f b c b').isSome) =
      (bytes.erase b).countP fun b' => (f b').isSome := by
  apply countP_congr
  intro b' hb'
  rw [update_of_ne (bytes_nodup.mem_erase_iff.mp hb').1]

theorem size_update_some (c : α) (h : f b = none) : size (Function.update f b (some c)) = size f + 1 := by
  rw [size_split _ b, size_split f b, countP_erase_update, update_self, h]
  rfl

theorem size_update_none (h : f b = some c) : size f = size (Function.update f b none) + 1 := by
  rw [size_split f b, size_split (Function.update f b none) b, countP_erase_update, update_self, h]
  rfl

/-- Distinct bytes with an entry are at most as many as the entries. -/
theorem length_le_size {l : List UInt8} (hl : l.Nodup) (h : ∀ b ∈ l, (f b).isSome) : l.length ≤ size f := by
  have hsub : l ⊆ bytes.filter fun b => (f b).isSome := by
    intro b hb
    exact mem_filter.mpr ⟨mem_bytes b, h b hb⟩
  rw [size_eq_countP, countP_eq_length_filter]
  exact (hl.subperm hsub).length_le

theorem size_pos (h : f b = some c) : 0 < size f := by
  have hsplit := size_update_none h
  omega

theorem exists_of_size_pos (h : 0 < size f) : ∃ b c, f b = some c := by
  obtain ⟨x, hx⟩ := exists_mem_of_length_pos h
  exact ⟨x.1, x.2, mem_graph.mp hx⟩

/-- Two entries or more: besides any byte there is another one. -/
theorem exists_ne_of_two_le (h : 2 ≤ size f) (b : UInt8) : ∃ b' c, b' ≠ b ∧ f b' = some c := by
  have hpos : 0 < size (Function.update f b none) := by
    cases hb : f b with
    | none =>
      rw [← hb, update_eq_self]
      omega
    | some c =>
      have hsplit := size_update_none hb
      omega
  obtain ⟨b', c, hc⟩ := exists_of_size_pos hpos
  by_cases hne : b' = b
  · rw [hne, update_self] at hc
    cases hc
  · rw [update_of_ne hne] at hc
    exact ⟨b', c, hne, hc⟩

/-- A single entry: every byte with an entry is the same. -/
theorem eq_of_size_one (h : size f = 1) {b' : UInt8} {c' : α} (hb : f b = some c) (hb' : f b' = some c') :
    b' = b := by
  by_contra hne
  have hsplit := size_update_none hb
  have hpos : 0 < size (Function.update f b none) := by
    apply size_pos (b := b') (c := c')
    rw [update_of_ne hne]
    exact hb'
  omega

end ByteMap
