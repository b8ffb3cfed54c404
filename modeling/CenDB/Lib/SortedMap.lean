import CenDB.Lib.Table

/-! # Sorted maps

A `SortedMap κ ν` is a finite map as a list of entries in ascending key order.  `below`, `upTo`
are its entries before a key, without and with the key itself; the last entry of `upTo` is the
greatest key that does not exceed the bound (`getLast?_upTo`).  `get?_insert`, `get?_erase`,
`get?_update` and `get?_foldl_erase` say what a lookup sees after an operation. -/

/-- A finite map whose entries ascend. -/
structure SortedMap (κ ν : Type*) [LinearOrder κ] where
  entries : List (κ × ν)
  sorted : entries.Pairwise fun e e' => e.1 < e'.1

namespace SortedMap

open List

variable {κ ν : Type*} [LinearOrder κ]

def empty : SortedMap κ ν := ⟨[], .nil⟩

def get? (m : SortedMap κ ν) (k : κ) : Option ν := (m.entries.find? fun e => e.1 = k).map Prod.snd

/-- The entries before a key. -/
def below (m : SortedMap κ ν) (k : κ) : List (κ × ν) := m.entries.filter fun e => e.1 < k

/-- The entries up to a key. -/
def upTo (m : SortedMap κ ν) (k : κ) : List (κ × ν) := m.entries.filter fun e => e.1 ≤ k

def insert (m : SortedMap κ ν) (k : κ) (v : ν) : SortedMap κ ν where
  entries := m.below k ++ (k, v) :: m.entries.filter fun e => k < e.1
  sorted := by
    refine pairwise_append.mpr ⟨m.sorted.filter _, pairwise_cons.mpr ⟨?_, m.sorted.filter _⟩, ?_⟩
    · simp
    · intro e he e' he'
      have hlt : e.1 < k := of_decide_eq_true (mem_filter.mp he).2
      cases mem_cons.mp he' with
      | inl heq => exact heq ▸ hlt
      | inr hmem => exact hlt.trans (of_decide_eq_true (mem_filter.mp hmem).2)

def erase (m : SortedMap κ ν) (k : κ) : SortedMap κ ν where
  entries := m.entries.filter fun e => e.1 ≠ k
  sorted := m.sorted.filter _

/-- Rewrites the entry at a key, if there is one. -/
def update (m : SortedMap κ ν) (k : κ) (f : ν → ν) : SortedMap κ ν where
  entries := m.entries.map fun e => (e.1, if e.1 = k then f e.2 else e.2)
  sorted := pairwise_map.mpr m.sorted

variable {m : SortedMap κ ν} {k : κ} {v : ν}

theorem mem_entries : (k, v) ∈ m.entries ↔ m.get? k = some v := by
  constructor
  · intro hmem
    unfold get?
    cases hfind : m.entries.find? fun e => e.1 = k with
    | none => simpa using find?_eq_none.mp hfind (k, v) hmem
    | some e =>
      have hkey : e.1 = k := by simpa using find?_some hfind
      have hnodup : (m.entries.map Prod.fst).Nodup := (pairwise_map.mpr m.sorted).imp fun hlt => ne_of_lt hlt
      have heq := inj_on_of_nodup_map hnodup (mem_of_find?_eq_some hfind) hmem hkey
      rw [heq]
      rfl
  · intro hget
    obtain ⟨e, hfind, rfl⟩ := Option.map_eq_some_iff.mp hget
    have hkey : e.1 = k := by simpa using find?_some hfind
    exact hkey ▸ mem_of_find?_eq_some hfind

theorem get?_insert (m : SortedMap κ ν) (k k' : κ) (v : ν) :
    (m.insert k v).get? k' = if k' = k then some v else m.get? k' := by
  ext w
  rw [← mem_entries]
  simp only [insert, below, mem_append, mem_cons, mem_filter, decide_eq_true_eq, Prod.mk.injEq]
  rcases lt_trichotomy k' k with hlt | heq | hgt
  · simp [hlt, hlt.ne, hlt.le, mem_entries]
  · simp [heq, eq_comm]
  · simp [hgt, hgt.ne', hgt.le, mem_entries]

theorem get?_erase (m : SortedMap κ ν) (k k' : κ) :
    (m.erase k).get? k' = if k' = k then none else m.get? k' := by
  ext w
  rw [← mem_entries]
  by_cases heq : k' = k
  · simp [erase, heq]
  · simp [erase, heq, mem_entries]

theorem get?_update (m : SortedMap κ ν) (k k' : κ) (f : ν → ν) :
    (m.update k f).get? k' = (m.get? k').map fun v => if k' = k then f v else v := by
  ext w
  rw [← mem_entries, Option.map_eq_some_iff]
  simp only [update, List.mem_map, Prod.mk.injEq]
  constructor
  · rintro ⟨e, hmem, rfl, rfl⟩
    exact ⟨e.2, mem_entries.mp hmem, rfl⟩
  · rintro ⟨v, hget, rfl⟩
    exact ⟨(k', v), mem_entries.mpr hget, rfl, rfl⟩

theorem get?_foldl_erase (m : SortedMap κ ν) (ks : List κ) (k : κ) :
    (ks.foldl erase m).get? k = if k ∈ ks then none else m.get? k := by
  induction ks generalizing m with
  | nil => simp
  | cons k' ks ih =>
    rw [foldl_cons, ih, get?_erase]
    by_cases hmem : k ∈ ks
    · simp [hmem]
    · simp [hmem]

/-- The greatest key up to a bound is the last one. -/
theorem getLast?_upTo {t : κ} (hget : m.get? k = some v) (hle : k ≤ t)
    (hmax : ∀ k' v', m.get? k' = some v' → k' ≤ t → k' ≤ k) : (m.upTo t).getLast? = some (k, v) := by
  have hmem : (k, v) ∈ m.upTo t := mem_filter.mpr ⟨mem_entries.mpr hget, decide_eq_true hle⟩
  obtain ⟨front, back, hsplit⟩ := append_of_mem hmem
  have hsorted : (front ++ (k, v) :: back).Pairwise fun e e' => e.1 < e'.1 := hsplit ▸ m.sorted.filter _
  have hback : back = [] := by
    refine eq_nil_iff_forall_not_mem.mpr fun e he => ?_
    have hlt : k < e.1 := (pairwise_cons.mp (pairwise_append.mp hsorted).2.1).1 e he
    have hin : e ∈ m.upTo t := by
      rw [hsplit]
      exact mem_append_right front (mem_cons_of_mem _ he)
    obtain ⟨hentry, hbound⟩ := mem_filter.mp hin
    exact absurd (hmax e.1 e.2 (mem_entries.mp hentry) (of_decide_eq_true hbound)) (not_le.mpr hlt)
  rw [hsplit, hback]
  exact getLast?_concat

end SortedMap
