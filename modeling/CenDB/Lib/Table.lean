import Mathlib.Data.List.AList
import Mathlib.Tactic

/-! # Finite tables

A `Table κ ν` is a finite map, as an association list without duplicate keys (`AList`).
`AList.insert`, `AList.erase` and `AList.lookup` are Mathlib's; this file adds the bulk
operations of a hash map: `mapWithKey` (every entry rewritten in place), `update` (one
entry rewritten if it is there), `retain` (entries filtered), `values`, `items` and `count`.

Every operation has one lemma that says what a lookup sees after it; `mem_values`, `mem_items`,
`count_congr` and `count_mono` reduce the enumerations to lookups. -/

/-- A finite map from `κ` to `ν`. -/
abbrev Table (κ ν : Type*) := AList (fun _ : κ => ν)

namespace Table

open List

variable {κ ν : Type*} [DecidableEq κ]

/-- Rewrites every entry. -/
def mapWithKey (g : κ → ν → ν) (t : Table κ ν) : Table κ ν where
  entries := t.entries.map (.map id g)
  nodupKeys := t.nodupKeys.map₂ g t.entries

/-- Rewrites the entry at `a`, if there is one. -/
def update (a : κ) (f : ν → ν) (t : Table κ ν) : Table κ ν := mapWithKey (fun b v => if b = a then f v else v) t

/-- Keeps the entries that pass the test. -/
def retain (p : κ → ν → Bool) (t : Table κ ν) : Table κ ν where
  entries := t.entries.filter fun e => p e.1 e.2
  nodupKeys := t.nodupKeys.sublist filter_sublist

/-- The values, in table order. -/
def values (t : Table κ ν) : List ν := t.entries.map Sigma.snd

/-- The entries as pairs, in table order. -/
def items (t : Table κ ν) : List (κ × ν) := t.entries.map fun e => (e.1, e.2)

/-- The number of entries. -/
def size (t : Table κ ν) : ℕ := t.entries.length

/-- The number of entries that pass the test. -/
def count (p : κ → ν → Bool) (t : Table κ ν) : ℕ := t.entries.countP fun e => p e.1 e.2

/-! ### Lists of entries -/

/-- The value of the last entry of a key. -/
def lastOf : List (κ × ν) → κ → Option ν
  | [], _ => none
  | e :: es, a => (lastOf es a).or (if e.1 = a then some e.2 else none)

theorem lastOf_nil (a : κ) : lastOf ([] : List (κ × ν)) a = none := rfl

theorem lastOf_cons (e : κ × ν) (es : List (κ × ν)) (a : κ) :
    lastOf (e :: es) a = (lastOf es a).or (if e.1 = a then some e.2 else none) := rfl

theorem lastOf_append (es us : List (κ × ν)) (a : κ) : lastOf (es ++ us) a = (lastOf us a).or (lastOf es a) := by
  induction es with
  | nil => simp [lastOf_nil]
  | cons e es ih => rw [cons_append, lastOf_cons, ih, lastOf_cons, Option.or_assoc]

theorem lastOf_map {μ : Type*} (g : ν → μ) (es : List (κ × ν)) (a : κ) :
    lastOf (es.map fun e => (e.1, g e.2)) a = (lastOf es a).map g := by
  induction es with
  | nil => rfl
  | cons e es ih =>
    rw [map_cons, lastOf_cons, lastOf_cons, ih]
    by_cases he : e.1 = a <;> cases lastOf es a <;> simp [he]

variable {a : κ} {v : ν} {t : Table κ ν} {p : κ → ν → Bool}

variable {es : List (κ × ν)} {q : κ → ν → Bool} {s : Finset κ}

theorem lastOf_eq_none : lastOf es a = none ↔ a ∉ es.map Prod.fst := by
  induction es with
  | nil => simp [lastOf_nil]
  | cons e es ih =>
    rw [lastOf_cons, Option.or_eq_none_iff, ih, map_cons, mem_cons]
    by_cases he : e.1 = a
    · simp [he]
    · simp [he, Ne.symm he]

theorem mem_of_lastOf (h : lastOf es a = some v) : (a, v) ∈ es := by
  induction es with
  | nil => cases h
  | cons e es ih =>
    rw [lastOf_cons] at h
    cases hes : lastOf es a with
    | some w =>
      rw [hes, Option.some_or] at h
      exact mem_cons_of_mem e (ih (hes.trans h))
    | none =>
      rw [hes, Option.none_or] at h
      split at h
      · rename_i he
        rw [← he, ← Option.some.inj h]
        exact mem_cons_self
      · cases h

/-- The last value of a key, where every value has its key. -/
theorem lastOf_map_key (f : ν → κ) (l : List ν) (a : κ) :
    lastOf (l.map fun v => (f v, v)) a = l.reverse.find? fun v => f v = a := by
  induction l with
  | nil => rfl
  | cons v l ih =>
    rw [map_cons, lastOf_cons, ih, reverse_cons, find?_append, find?_cons]
    by_cases hv : f v = a
    · simp [hv]
    · simp [hv]

/-- Where every key has one entry, the last one is the only one. -/
theorem lastOf_of_nodup (h : (es.map Prod.fst).Nodup) : lastOf es a = some v ↔ (a, v) ∈ es := by
  refine ⟨mem_of_lastOf, fun hmem => ?_⟩
  cases hlast : lastOf es a with
  | none => exact absurd (mem_map_of_mem hmem) (lastOf_eq_none.mp hlast)
  | some w =>
    have hw := inj_on_of_nodup_map h (mem_of_lastOf hlast) hmem rfl
    rw [(Prod.mk.inj hw).2]

/-! ### Lookups -/

theorem mem_entries {e : Sigma fun _ : κ => ν} : e ∈ t.entries ↔ t.lookup e.1 = some e.2 :=
  (AList.mem_lookup_iff (s := t) (a := e.1) (b := e.2)).symm

theorem lookup_insert_if (t : Table κ ν) (a b : κ) (v : ν) :
    (AList.insert a v t).lookup b = if b = a then some v else t.lookup b := by
  by_cases h : b = a
  · subst h
    rw [AList.lookup_insert, if_pos rfl]
  · rw [AList.lookup_insert_ne h, if_neg h]

theorem lookup_foldl_insert (es : List (κ × ν)) (t : Table κ ν) (a : κ) :
    (es.foldl (fun t e => AList.insert e.1 e.2 t) t).lookup a = (lastOf es a).or (t.lookup a) := by
  induction es generalizing t with
  | nil => rfl
  | cons e es ih =>
    rw [foldl_cons, ih, lookup_insert_if, lastOf]
    by_cases ha : a = e.1
    · simp [ha]
    · simp [ha, Ne.symm ha]

theorem lookup_erase_if (t : Table κ ν) (a b : κ) :
    (AList.erase a t).lookup b = if b = a then none else t.lookup b := by
  by_cases h : b = a
  · subst h
    rw [AList.lookup_erase, if_pos rfl]
  · rw [AList.lookup_erase_ne h, if_neg h]

@[simp] theorem lookup_mapWithKey (g : κ → ν → ν) (t : Table κ ν) (a : κ) :
    (mapWithKey g t).lookup a = (t.lookup a).map (g a) :=
  dlookup_map₂ a

theorem lookup_update (t : Table κ ν) (a b : κ) (f : ν → ν) :
    (update a f t).lookup b = if b = a then (t.lookup b).map f else t.lookup b := by
  rw [update, lookup_mapWithKey]
  by_cases h : b = a
  · simp [h]
  · simp [h]

theorem lookup_retain (p : κ → ν → Bool) (t : Table κ ν) (a : κ) :
    (retain p t).lookup a = (t.lookup a).filter (p a) := by
  ext v
  have hmem : (⟨a, v⟩ : Sigma fun _ : κ => ν) ∈ (retain p t).entries ↔
      (⟨a, v⟩ : Sigma fun _ : κ => ν) ∈ t.entries ∧ p a v = true := mem_filter
  rw [mem_entries, mem_entries] at hmem
  rw [hmem, Option.filter_eq_some_iff]

/-! ### Enumerations -/

theorem mem_values : v ∈ values t ↔ ∃ a, t.lookup a = some v := by
  rw [values, List.mem_map]
  constructor
  · rintro ⟨e, he, rfl⟩
    exact ⟨e.1, mem_entries.mp he⟩
  · rintro ⟨a, ha⟩
    exact ⟨⟨a, v⟩, mem_entries.mpr ha, rfl⟩

theorem mem_items : (a, v) ∈ items t ↔ t.lookup a = some v := by
  rw [items, List.mem_map]
  constructor
  · rintro ⟨e, he, heq⟩
    cases heq
    exact mem_entries.mp he
  · intro ha
    exact ⟨⟨a, v⟩, mem_entries.mpr ha, rfl⟩

/-! ### Size -/

/-- A table has as many entries as a list of its keys. -/
theorem size_eq_length {l : List κ} (hl : l.Nodup) (h : ∀ a, a ∈ l ↔ (t.lookup a).isSome) : size t = l.length := by
  have hkeys : t.keys.Perm l := by
    refine (perm_ext_iff_of_nodup t.keys_nodup hl).mpr fun a => ?_
    rw [h, AList.lookup_isSome, AList.mem_keys]
  rw [← hkeys.length_eq]
  exact (length_map _).symm

theorem size_congr {t' : Table κ ν} (h : ∀ a, t.lookup a = t'.lookup a) : size t = size t' := by
  refine (size_eq_length t'.keys_nodup fun a => ?_).trans (length_map _)
  rw [h, AList.lookup_isSome, AList.mem_keys]

/-- A filter that keeps the size keeps every entry. -/
theorem lookup_retain_of_size (h : size t ≤ size (retain p t)) (a : κ) : (retain p t).lookup a = t.lookup a := by
  have hsame : t.entries.filter (fun e => p e.1 e.2) = t.entries := filter_sublist.eq_of_length_le h
  have htable : retain p t = t := AList.ext hsame
  rw [htable]

theorem size_eq_card (t : Table κ ν) : size t = t.keys.toFinset.card := by
  rw [toFinset_card_of_nodup t.keys_nodup]
  exact (length_map _).symm

theorem size_erase (h : t.lookup a = some v) : size t = size (AList.erase a t) + 1 := by
  have hmem : a ∈ t.entries.keys := AList.lookup_isSome.mp (by rw [h]; rfl)
  obtain ⟨b, l₁, l₂, -, hsplit, herase⟩ := exists_of_kerase hmem
  have hkerase : size (AList.erase a t) = (l₁ ++ l₂).length := congrArg List.length herase
  unfold size at hkerase ⊢
  rw [hkerase, hsplit, length_append, length_append, length_cons]
  rfl

theorem size_erase_of_none (h : t.lookup a = none) : size (AList.erase a t) = size t := by
  have hmem : a ∉ t.entries.keys := AList.lookup_eq_none.mp h
  exact congrArg List.length (kerase_of_notMem_keys hmem)

/-- An insertion removes the entry it replaces. -/
theorem size_insert (t : Table κ ν) (a : κ) (v : ν) : size (AList.insert a v t) = size (AList.erase a t) + 1 := rfl

theorem size_insert_of_none (v : ν) (h : t.lookup a = none) : size (AList.insert a v t) = size t + 1 := by
  rw [size_insert, size_erase_of_none h]

theorem size_insert_of_some {w : ν} (v : ν) (h : t.lookup a = some w) : size (AList.insert a v t) = size t := by
  rw [size_insert, size_erase h]

/-! ### Counting -/

omit [DecidableEq κ] in
theorem mapWithKey_mapWithKey (g f : κ → ν → ν) (t : Table κ ν) :
    mapWithKey g (mapWithKey f t) = mapWithKey (fun a v => g a (f a v)) t := by simp [mapWithKey, Sigma.map]

omit [DecidableEq κ] in
@[simp] theorem size_mapWithKey (g : κ → ν → ν) (t : Table κ ν) :
    size (mapWithKey g t) = size t := by
  simp [size, mapWithKey]

omit [DecidableEq κ] in
@[simp] theorem count_mapWithKey (p : κ → ν → Bool) (g : κ → ν → ν) (t : Table κ ν) :
    count p (mapWithKey g t) = count (fun a v => p a (g a v)) t := by
  simp [count, mapWithKey, countP_map, Sigma.map, Function.comp_def]

theorem count_mono (h : ∀ a v, t.lookup a = some v → p a v = true → q a v = true) : count p t ≤ count q t := by
  apply countP_mono_left
  intro e he
  exact h e.1 e.2 (mem_entries.mp he)

omit [DecidableEq κ] in
theorem length_filter_values (q : ν → Bool) (t : Table κ ν) :
    ((values t).filter q).length = count (fun _ v => q v) t := by
  rw [values, count, filter_map, length_map, countP_eq_length_filter]
  rfl

/-- Keys whose values pass the test. -/
theorem card_le_count (h : ∀ a ∈ s, ∃ v, t.lookup a = some v ∧ p a v) : s.card ≤ count p t := by
  have hsub : s ⊆ ((t.entries.filter fun e => p e.1 e.2).map Sigma.fst).toFinset := by
    intro a ha
    obtain ⟨v, hv, hp⟩ := h a ha
    refine mem_toFinset.mpr (List.mem_map.mpr ⟨⟨a, v⟩, mem_filter.mpr ⟨?_, hp⟩, rfl⟩)
    exact AList.mem_lookup_iff.mp hv
  refine (Finset.card_le_card hsub).trans ((toFinset_card_le _).trans ?_)
  rw [length_map, count, countP_eq_length_filter]

/-- The keys whose values pass the test are all in the set. -/
theorem count_le_card (h : ∀ a v, t.lookup a = some v → p a v = true → a ∈ s) : count p t ≤ s.card := by
  have hnodup : ((t.entries.filter fun e => p e.1 e.2).map Sigma.fst).Nodup := (retain p t).nodupKeys
  rw [count, countP_eq_length_filter, ← length_map Sigma.fst, ← toFinset_card_of_nodup hnodup]
  refine Finset.card_le_card fun a ha => ?_
  obtain ⟨e, he, rfl⟩ := List.mem_map.mp (mem_toFinset.mp ha)
  obtain ⟨hentry, hp⟩ := mem_filter.mp he
  exact h e.1 e.2 (mem_entries.mp hentry) hp

theorem count_congr (h : ∀ a v, t.lookup a = some v → p a v = q a v) : count p t = count q t := by
  apply countP_congr
  intro e he
  rw [h e.1 e.2 (mem_entries.mp he)]

theorem count_eq_zero (h : ∀ a v, t.lookup a = some v → p a v = false) : count p t = 0 := by
  unfold count
  rw [countP_eq_zero]
  intro e he
  rw [h e.1 e.2 (mem_entries.mp he)]
  exact Bool.false_ne_true

/-- One entry counted apart from the others. -/
theorem count_of_lookup (h : t.lookup a = some v) (p : κ → ν → Bool) :
    count p t = count (fun b w => decide (b ≠ a) && p b w) t + if p a v then 1 else 0 := by
  have hmem : (⟨a, v⟩ : Sigma fun _ : κ => ν) ∈ t.entries := mem_entries.mpr h
  obtain ⟨l₁, l₂, hsplit⟩ := append_of_mem hmem
  -- no other entry has the key
  have hother : ∀ e ∈ l₁ ++ l₂, e.1 ≠ a := by
    have hnodup := t.nodupKeys
    rw [hsplit, List.NodupKeys, List.keys, map_append, map_cons, nodup_middle, nodup_cons, ← map_append] at hnodup
    intro e he heq
    exact hnodup.1 (List.mem_map.mpr ⟨e, he, heq⟩)
  have hside (l : List (Sigma fun _ : κ => ν)) (hl : ∀ e ∈ l, e.1 ≠ a) :
      l.countP (fun e => p e.1 e.2) = l.countP fun e => decide (e.1 ≠ a) && p e.1 e.2 := by
    apply countP_congr
    intro e he
    simp [hl e he]
  unfold count
  rw [hsplit, countP_append, countP_append, countP_cons, countP_cons,
    hside l₁ fun e he => hother e (mem_append_left _ he),
    hside l₂ fun e he => hother e (mem_append_right _ he)]
  simp only [ne_eq, not_true_eq_false, decide_false, Bool.false_and, Bool.false_eq_true, if_false]
  omega

end Table
