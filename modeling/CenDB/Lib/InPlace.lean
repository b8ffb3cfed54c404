import Mathlib.Tactic

/-! # Calls in place

A call on a mutable state has an outcome, and it leaves a state also when it fails.  `result` is what a caller
sees who gives the state up after a failure.

`forEach` makes one call for each element and stops at the first failure; what the calls before it have done
stays done. -/

namespace InPlace

variable {α ε σ τ : Type*}

/-- The state after a success. -/
def result (c : Except ε τ × σ) : Except ε σ := c.1.map fun _ => c.2

def forEach (f : α → σ → Except ε Unit × σ) : List α → σ → Except ε Unit × σ
  | [], s => (.ok (), s)
  | a :: as, s =>
    match f a s with
    | (.error e, s) => (.error e, s)
    | (.ok (), s) => forEach f as s

variable {f : α → σ → Except ε Unit × σ}

theorem forEach_cons_error {a : α} {s s' : σ} {e : ε} (h : f a s = (.error e, s')) (as : List α) :
    forEach f (a :: as) s = (.error e, s') := by
  rw [forEach, h]

theorem forEach_cons_ok {a : α} {s s' : σ} (h : f a s = (.ok (), s')) (as : List α) :
    forEach f (a :: as) s = forEach f as s' := by
  rw [forEach, h]

/-- What every call keeps, the loop keeps, whether it fails or not. -/
theorem forEach_preserves {P : σ → Prop} {as : List α} {s : σ} (hstep : ∀ a ∈ as, ∀ s, P s → P (f a s).2)
    (h : P s) : P (forEach f as s).2 := by
  induction as generalizing s with
  | nil => exact h
  | cons a as ih =>
    obtain ⟨hfirst, hrest⟩ := List.forall_mem_cons.mp hstep
    have hnext := hfirst s h
    cases hf : f a s with
    | mk outcome s' =>
      rw [hf] at hnext
      cases outcome with
      | error e =>
        rw [forEach_cons_error hf]
        exact hnext
      | ok _ =>
        rw [forEach_cons_ok hf]
        exact ih hrest hnext

/-- The loop succeeds, or all calls before the one that fails have succeeded. -/
theorem forEach_cases (f : α → σ → Except ε Unit × σ) (as : List α) (s : σ) :
    (∃ s', forEach f as s = (.ok (), s')) ∨ ∃ done a rest mid e s', as = done ++ a :: rest ∧
      forEach f done s = (.ok (), mid) ∧ f a mid = (.error e, s') ∧ forEach f as s = (.error e, s') := by
  induction as generalizing s with
  | nil => exact Or.inl ⟨s, rfl⟩
  | cons a as ih =>
    cases hf : f a s with
    | mk outcome s₁ =>
      cases outcome with
      | error e => exact Or.inr ⟨[], a, as, s, e, s₁, rfl, rfl, hf, forEach_cons_error hf as⟩
      | ok _ =>
        rw [forEach_cons_ok hf]
        rcases ih s₁ with hok | ⟨done, b, rest, mid, e, s', rfl, hdone, hfail, hall⟩
        · exact Or.inl hok
        · exact Or.inr ⟨a :: done, b, rest, mid, e, s', rfl, by rw [forEach_cons_ok hf, hdone], hfail, hall⟩

end InPlace
