import CenDB.Lib.Table

/-! # Places of rows

Rows are numbered block by block: a place is a block number and a slot, 32 bits each.  The last row
of a key is found at the last place of the key (`lastOf_all`), as long as the numbers are enough. -/

namespace Places

open List Option Function Table

variable {κ ν : Type*}

/-- The places of the entries of a block. -/
def inBlock (blockId : ℕ) (es : List (κ × ν)) : List (κ × (UInt32 × UInt32)) :=
  es.mapIdx fun slot e => (e.1, (UInt32.ofNat blockId, UInt32.ofNat slot))

/-- The places of the rows of blocks. -/
def all (rows : List (List (κ × ν))) : List (κ × (UInt32 × UInt32)) := (rows.mapIdx inBlock).flatten

theorem all_append (rows : List (List (κ × ν))) (es : List (κ × ν)) :
    all (rows ++ [es]) = all rows ++ inBlock rows.length es := by
  simp [all]

theorem keys_inBlock (blockId : ℕ) (es : List (κ × ν)) :
    (inBlock blockId es).map Prod.fst = es.map Prod.fst := by
  apply ext_getElem?
  intro r
  simp [inBlock, comp_def]

variable [DecidableEq κ]

/-- The last row of a key in a block, by its place and by its value. -/
theorem lastOf_inBlock (blockId : ℕ) (es : List (κ × ν)) (k : κ) :
    (Table.lastOf (inBlock blockId es) k = none ∧ Table.lastOf es k = none) ∨
      ∃ (slot : ℕ) (v : ν), es[slot]? = some (k, v) ∧ Table.lastOf es k = some v ∧
        Table.lastOf (inBlock blockId es) k = some (UInt32.ofNat blockId, UInt32.ofNat slot) := by
  -- every entry with its value and its number
  let tagged := es.mapIdx fun slot e => (e.1, (e.2, slot))
  have hplaces : inBlock blockId es =
      tagged.map fun e => (e.1, (UInt32.ofNat blockId, UInt32.ofNat e.2.2)) := by
    apply ext_getElem?
    intro r
    simp [inBlock, tagged, comp_def]
  have hvalues : es = tagged.map fun e => (e.1, e.2.1) := by
    apply ext_getElem?
    intro r
    simp [tagged, comp_def]
  have hlastPlace : Table.lastOf (inBlock blockId es) k =
      (Table.lastOf tagged k).map fun e => (UInt32.ofNat blockId, UInt32.ofNat e.2) := by
    rw [hplaces, ← lastOf_map]
  have hlastValue : Table.lastOf es k = (Table.lastOf tagged k).map Prod.fst := by
    conv_lhs => rw [hvalues]
    exact lastOf_map _ tagged k
  cases hlast : Table.lastOf tagged k with
  | none =>
    rw [hlast] at hlastPlace hlastValue
    exact Or.inl ⟨hlastPlace, hlastValue⟩
  | some e =>
    rw [hlast] at hlastPlace hlastValue
    obtain ⟨slot, hslot, heq⟩ := mem_mapIdx.mp (mem_of_lastOf hlast)
    obtain ⟨hk, rfl⟩ := Prod.mk.inj heq
    refine Or.inr ⟨slot, _, ?_, hlastValue, hlastPlace⟩
    rw [← hk]
    exact getElem?_eq_getElem hslot

/-- The last row of a key in few blocks, by its place and by its value. -/
theorem lastOf_all {rows : List (List (κ × ν))} (hfew : rows.length ≤ 2 ^ 32)
    (hrows : ∀ es ∈ rows, es.length < 2 ^ 32) (k : κ) :
    (Table.lastOf (all rows) k = none ∧ Table.lastOf rows.flatten k = none) ∨
      ∃ id slot es v, Table.lastOf (all rows) k = some (id, slot) ∧
        Table.lastOf rows.flatten k = some v ∧ rows[id.toNat]? = some es ∧
        es[slot.toNat]? = some (k, v) := by
  induction rows using List.reverseRecOn with
  | nil => exact Or.inl ⟨rfl, rfl⟩
  | append_singleton rows es ih =>
    rw [length_append, length_singleton] at hfew
    rw [forall_mem_append, forall_mem_singleton] at hrows
    rw [all_append, flatten_append, flatten_singleton, lastOf_append, lastOf_append]
    cases lastOf_inBlock rows.length es k with
    | inl hnone =>
      rw [hnone.1, hnone.2, none_or, none_or]
      cases ih (by omega) hrows.1 with
      | inl hnone' => exact Or.inl hnone'
      | inr hsome =>
        obtain ⟨id, slot, es', v, hplace, hvalue, hes, hslot⟩ := hsome
        refine Or.inr ⟨id, slot, es', v, hplace, hvalue, ?_, hslot⟩
        rw [getElem?_append_left (List.getElem?_eq_some_iff.mp hes).1, hes]
    | inr hsome =>
      obtain ⟨slot, v, hslot, hvalue, hplace⟩ := hsome
      have hlt := (List.getElem?_eq_some_iff.mp hslot).1
      have hes := hrows.2
      rw [hplace, hvalue, some_or, some_or]
      refine Or.inr ⟨_, _, es, v, rfl, rfl, ?_, ?_⟩
      · rw [UInt32.toNat_ofNat', Nat.mod_eq_of_lt (by omega),
          getElem?_append_right (le_refl _), Nat.sub_self]
        rfl
      · rw [UInt32.toNat_ofNat', Nat.mod_eq_of_lt (by omega), hslot]

end Places
