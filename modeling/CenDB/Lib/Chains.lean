import CenDB.Lib.Table

/-! # Tables of lists

A table that has a list of entries for each key, as a hash map of vectors: `chain` is the list of a
key, `push` appends to it.  A chain is what was pushed to its key, in order (`chain_pushAll`).  A table
into which entries are only pushed has no empty list (`Filled`), so a key is there if and only if its
chain is not empty (`Filled.lookup_eq_none`). -/

namespace Table

open List

variable {κ ν α : Type*} [DecidableEq κ]

/-! ### One key -/

/-- The list of a key. -/
def chain (t : Table κ (List α)) (k : κ) : List α := (t.lookup k).getD []

/-- Append an entry to the list of a key. -/
def push (t : Table κ (List α)) (k : κ) (a : α) : Table κ (List α) := AList.insert k (chain t k ++ [a]) t

/-- Append entries to the lists of their keys. -/
def pushAll (t : Table κ (List α)) (es : List (κ × α)) : Table κ (List α) := es.foldl (fun t e => push t e.1 e.2) t

/-- No list is empty. -/
def Filled (t : Table κ (List α)) : Prop := ∀ k, t.lookup k ≠ some []

@[simp] theorem chain_empty (k : κ) : chain (∅ : Table κ (List α)) k = [] := rfl

theorem lookup_push (t : Table κ (List α)) (k k' : κ) (a : α) :
    (push t k a).lookup k' = if k' = k then some (chain t k ++ [a]) else t.lookup k' :=
  lookup_insert_if t k k' _

theorem chain_push (t : Table κ (List α)) (k k' : κ) (a : α) :
    chain (push t k a) k' = if k' = k then chain t k ++ [a] else chain t k' := by
  rw [chain, lookup_push]
  split
  · rfl
  · rfl

/-- **A chain is what was pushed to its key, in order.** -/
theorem chain_pushAll (t : Table κ (List α)) (es : List (κ × α)) (k : κ) :
    chain (pushAll t es) k = chain t k ++ (es.filter fun e => e.1 = k).map Prod.snd := by
  induction es generalizing t with
  | nil => simp [pushAll]
  | cons e es ih =>
    have hstep : pushAll t (e :: es) = pushAll (push t e.1 e.2) es := rfl
    rw [hstep, ih, chain_push]
    by_cases he : k = e.1
    · simp [he]
    · simp [he, Ne.symm he]

variable {f : List α → List α} {k : κ} {β : Type*}

/-- Rewriting the list of one key. -/
theorem chain_update (hf : f [] = []) (t : Table κ (List α)) (k k' : κ) :
    chain (update k f t) k' = if k' = k then f (chain t k') else chain t k' := by
  unfold chain
  rw [lookup_update]
  split
  · cases t.lookup k' with
    | none => exact hf.symm
    | some l => rfl
  · rfl

/-- Rewriting every list. -/
theorem chain_mapWithKey (hf : f [] = []) (t : Table κ (List α)) (k : κ) :
    chain (mapWithKey (fun _ => f) t) k = f (chain t k) := by
  unfold chain
  rw [lookup_mapWithKey]
  cases t.lookup k with
  | none => exact hf.symm
  | some l => rfl

/-- Dropping the empty lists changes no chain. -/
theorem chain_retain_nonempty (t : Table κ (List α)) (k : κ) :
    chain (retain (fun _ l => !l.isEmpty) t) k = chain t k := by
  unfold chain
  rw [lookup_retain]
  cases t.lookup k with
  | none => rfl
  | some l => cases l with
    | nil | cons a l => rfl

/-! ### Filled tables -/

theorem filled_empty : Filled (∅ : Table κ (List α)) := fun _ h => by cases h

variable {t : Table κ (List α)}

theorem Filled.push (h : Filled t) (k : κ) (a : α) : Filled (push t k a) := by
  intro k'
  rw [lookup_push]
  split
  · simp
  · exact h k'

theorem Filled.pushAll (h : Filled t) (es : List (κ × α)) : Filled (pushAll t es) := by
  induction es generalizing t with
  | nil => exact h
  | cons e es ih => exact ih (h.push e.1 e.2)

theorem Filled.lookup_eq_some (h : Filled t) {l : List α} : t.lookup k = some l ↔ chain t k = l ∧ l ≠ [] := by
  unfold chain
  cases hk : t.lookup k with
  | none => exact iff_of_false (by simp) fun hl => hl.2 hl.1.symm
  | some l' =>
    have hne : l' ≠ [] := fun hnil => h k (by rw [hk, hnil])
    simp only [Option.some.injEq, Option.getD_some]
    exact ⟨fun heq => ⟨heq, heq ▸ hne⟩, And.left⟩

theorem Filled.lookup_eq_none (h : Filled t) : t.lookup k = none ↔ chain t k = [] := by
  unfold chain
  cases hk : t.lookup k with
  | none => simp
  | some l =>
    have hne : l ≠ [] := fun hnil => h k (by rw [hk, hnil])
    simp [hne]

/-! ### Enumerations -/

omit [DecidableEq κ] in
theorem nodup_keys_items (t : Table κ ν) : ((items t).map Prod.fst).Nodup := by
  have hkeys : (items t).map Prod.fst = t.keys := by
    rw [items, map_map]
    rfl
  rw [hkeys]
  exact t.keys_nodup

/-- The items of one key. -/
theorem filter_items (t : Table κ ν) (k : κ) :
    (items t).filter (fun e => e.1 = k) = (t.lookup k).toList.map fun v => (k, v) := by
  have hnodup : ((items t).filter fun e => e.1 = k).Nodup :=
    (List.Nodup.of_map Prod.fst (nodup_keys_items t)).filter _
  cases hk : t.lookup k with
  | none =>
    apply filter_eq_nil_iff.mpr
    rintro ⟨k', v⟩ he heq
    have hkey : k' = k := of_decide_eq_true heq
    rw [hkey, mem_items, hk] at he
    cases he
  | some v =>
    apply perm_singleton.mp
    refine (perm_ext_iff_of_nodup hnodup (nodup_singleton _)).mpr fun e => ?_
    obtain ⟨k', w⟩ := e
    rw [mem_filter, mem_items, mem_singleton, Prod.mk.injEq, decide_eq_true_iff]
    constructor
    · rintro ⟨hw, rfl⟩
      rw [hk] at hw
      exact ⟨rfl, (Option.some.inj hw).symm⟩
    · rintro ⟨rfl, rfl⟩
      exact ⟨hk, rfl⟩

/-- The keys whose chains have a length. -/
theorem Filled.mem_keys_of_length (h : Filled t) {n : ℕ} (hn : 0 < n) :
    k ∈ ((items t).filter fun e => e.2.length = n).map Prod.fst ↔ (chain t k).length = n := by
  constructor
  · intro hmem
    obtain ⟨⟨k', l⟩, he, rfl⟩ := List.mem_map.mp hmem
    obtain ⟨hitem, hlen⟩ := mem_filter.mp he
    rw [mem_items, h.lookup_eq_some] at hitem
    rw [hitem.1]
    exact of_decide_eq_true hlen
  · intro hlen
    have hne : chain t k ≠ [] := by
      rw [← length_pos_iff]
      omega
    have hitem := mem_items.mpr (h.lookup_eq_some.mpr ⟨rfl, hne⟩)
    exact List.mem_map.mpr ⟨_, mem_filter.mpr ⟨hitem, decide_eq_true hlen⟩, rfl⟩

theorem chain_of_mem_items {e : κ × List α} (h : e ∈ items t) : chain t e.1 = e.2 := by
  unfold chain
  rw [mem_items.mp h, Option.getD_some]

/-- Elements counted key by key. -/
theorem sum_countP_keys (key : β → κ) (p : β → Bool) {ks : List κ} (hks : ks.Nodup) (l : List β) :
    (ks.map fun k => l.countP fun b => decide (key b = k) && p b).sum =
      l.countP fun b => decide (key b ∈ ks) && p b := by
  induction ks with
  | nil => simp
  | cons k ks ih =>
    obtain ⟨hk, hks'⟩ := nodup_cons.mp hks
    rw [map_cons, sum_cons, ih hks', countP_eq_countP_filter_add l (fun b => decide (key b ∈ k :: ks) && p b)
        (fun b => decide (key b = k)), countP_filter, countP_filter]
    congr 1
    · apply countP_congr
      intro b _
      by_cases hb : key b = k
      · simp [hb]
      · simp [hb]
    · apply countP_congr
      intro b _
      by_cases hb : key b = k
      · simp [hb, hk]
      · simp [hb]

/-- If every chain has as many entries that pass a test as a list has elements of the key that pass
another one, then the table has as many entries as the list has elements that pass. -/
theorem sum_countP_items (key : β → κ) {q : κ → α → Bool} {p : β → Bool} {l : List β}
    (h : ∀ k, (chain t k).countP (q k) = l.countP fun b => decide (key b = k) && p b) :
    ((items t).map fun e => e.2.countP (q e.1)).sum = l.countP p := by
  have hkeys : ((items t).map fun e => e.2.countP (q e.1)) =
      ((items t).map Prod.fst).map fun k => l.countP fun b => decide (key b = k) && p b := by
    rw [map_map]
    apply map_congr_left
    intro e he
    rw [Function.comp_apply, ← h, chain_of_mem_items he]
  rw [hkeys, sum_countP_keys key p (nodup_keys_items t)]
  apply countP_congr
  intro b hb
  rw [Bool.and_eq_true, decide_eq_true_iff, and_iff_right_iff_imp]
  intro hp
  -- the chain of a key that is not there is empty
  by_contra hmissing
  have hnone : t.lookup (key b) = none := by
    rw [Option.eq_none_iff_forall_ne_some]
    intro c hc
    exact hmissing (List.mem_map.mpr ⟨(key b, c), mem_items.mpr hc, rfl⟩)
  have hzero := h (key b)
  rw [chain, hnone, Option.getD_none, countP_nil, eq_comm, countP_eq_zero] at hzero
  exact hzero b hb (by simp [hp])

end Table
