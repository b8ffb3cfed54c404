import Mathlib.Tactic

/-! # Hash chains

Entries that store the digest of the entry before them and their own.  `Valid prev stored digest p es`
says that the entries `es` continue a chain that ends in the digest `p`: every entry stores the
digest before it and the digest of itself.

* `valid_append`: a chain continues where its first part ends (`tip`).
* `initial_of_valid`: if no two digests of a chain are equal, the only entries of it that are a chain
  again are its first ones.
* `valid_iff_of_kept`: entries that keep the stored digests of a chain are a chain exactly if they
  keep what the digests are taken of. -/

namespace HashChain

open List

variable {E H : Type*} {prev stored digest : E → H}

/-- The digest that the next entry has to store. -/
def tip (stored : E → H) : H → List E → H
  | p, [] => p
  | _, e :: es => tip stored (stored e) es

def Valid (prev stored digest : E → H) : H → List E → Prop
  | _, [] => True
  | p, e :: es => prev e = p ∧ stored e = digest e ∧ Valid prev stored digest (stored e) es

theorem tip_eq (p : H) (es : List E) : tip stored p es = (es.getLast?.map stored).getD p := by
  induction es generalizing p with
  | nil => rfl
  | cons e es ih =>
    rw [tip, ih]
    cases es with
    | nil => rfl
    | cons e' es => rw [getLast?_cons_cons, getLast?_eq_some_getLast (by simp)]; rfl

theorem valid_append (p : H) (es fs : List E) : Valid prev stored digest p (es ++ fs) ↔
      Valid prev stored digest p es ∧ Valid prev stored digest (tip stored p es) fs := by
  induction es generalizing p with
  | nil => simp [Valid, tip]
  | cons e es ih => rw [cons_append, Valid, Valid, tip, ih, and_assoc, and_assoc]

variable {p : H} {es : List E}

variable {fs : List E} {e : E}

theorem Valid.initial (h : Valid prev stored digest p es) (hfs : fs <+: es) :
    Valid prev stored digest p fs := by
  obtain ⟨rest, rfl⟩ := hfs
  exact ((valid_append p fs rest).mp h).1

theorem Valid.stored_eq (h : Valid prev stored digest p es) (he : e ∈ es) : stored e = digest e := by
  induction es generalizing p with
  | nil => cases he
  | cons f es ih =>
    cases mem_cons.mp he with
    | inl hef => rw [hef, h.2.1]
    | inr he => exact ih h.2.2 he

/-- An entry of a chain stores the first digest or that of an entry in front of it. -/
theorem Valid.prev_mem (h : Valid prev stored digest p es) {front back : List E} (hes : es = front ++ e :: back) :
    prev e ∈ p :: front.map stored := by
  subst hes
  have he := ((valid_append p front (e :: back)).mp h).2.1
  rw [he, tip_eq]
  cases hl : front.getLast? with
  | none => exact mem_cons_self
  | some f => exact mem_cons_of_mem p (mem_map_of_mem (mem_of_getLast? hl))

/-- The entry after the first of a chain does not store what the first one stores. -/
theorem Valid.prev_ne (h : Valid prev stored digest p (e :: es)) (hnodup : (p :: (e :: es).map stored).Nodup)
    {f : E} (hf : f ∈ es) : prev f ≠ p := by
  obtain ⟨front, back, rfl⟩ := append_of_mem hf
  have hmem := Valid.prev_mem h.2.2 (rfl : front ++ f :: back = front ++ f :: back)
  rw [map_cons, nodup_cons] at hnodup
  intro hp
  rw [hp] at hmem
  refine hnodup.1 ?_
  rw [map_append]
  exact cons_subset_cons _ (subset_append_left _ _) hmem

/-- If the digests of a chain are distinct, entries of it that are a chain are its first ones. -/
theorem initial_of_valid (h : Valid prev stored digest p es) (hnodup : (p :: es.map stored).Nodup)
    (hsub : fs.Sublist es) (hfs : Valid prev stored digest p fs) : fs <+: es := by
  induction es generalizing p fs with
  | nil => rw [sublist_nil.mp hsub]
  | cons e es ih =>
    cases fs with
    | nil => exact nil_prefix
    | cons f fs =>
      cases hsub with
      | cons _ hsub => exact absurd hfs.1 (h.prev_ne hnodup (hsub.subset mem_cons_self))
      | cons_cons _ hsub =>
        have hnodup' := (nodup_cons.mp hnodup).2
        exact cons_prefix_cons.mpr ⟨rfl, ih h.2.2 hnodup' hsub hfs.2.2⟩

/-- Entries with the stored digests of a chain are a chain if their digests are the same. -/
theorem valid_iff_of_kept (h : Valid prev stored digest p es) (hkept : fs.map stored = es.map stored) :
    Valid prev stored digest p fs ↔ List.Forall₂ (fun e f => prev f = prev e ∧ digest f = digest e) es fs := by
  induction es generalizing p fs with
  | nil =>
    rw [map_nil, map_eq_nil_iff] at hkept
    subst hkept
    exact ⟨fun _ => .nil, fun _ => trivial⟩
  | cons e es ih =>
    cases fs with
    | nil => cases hkept
    | cons f fs =>
      rw [map_cons, map_cons, List.cons.injEq] at hkept
      have hrest := ih h.2.2 hkept.2
      rw [forall₂_cons, ← hrest, Valid, hkept.1, h.1, h.2.1, and_assoc]
      exact and_congr_right fun _ => and_congr_left fun _ => eq_comm

end HashChain
