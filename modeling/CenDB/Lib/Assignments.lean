import Mathlib.Tactic

/-! # Partial assignments and joins

A partial assignment gives some variables a value.  `Adds` says that one assignment is another with some
values added; a relation of added values can be split and added one part after the other (`adds_or`).

A constraint mentions some variables and depends on them alone.  `Exact` says that a list has every
assignment of the mentioned variables that meets a list of constraints, once.  To extend each of them in all
ways that meet one more constraint gives the exact list for one more constraint (`Exact.join`): an index
join computes the solutions of a conjunctive query. -/

/-- A value for some of the variables. -/
abbrev Assignment (ν τ : Type*) := ν → Option τ

namespace Assignment

open List Option Function

variable {ν τ P : Type*} {μ μ₁ μ₂ ρ : Assignment ν τ}

/-- Every value is kept. -/
def Extends (ρ μ : Assignment ν τ) : Prop := ∀ v a, μ v = some a → ρ v = some a

theorem Extends.trans (h₂ : ρ.Extends μ₂) (h₁ : μ₂.Extends μ₁) : ρ.Extends μ₁ :=
  fun v a h => h₂ v a (h₁ v a h)

theorem Extends.apply_eq (h : ρ.Extends μ) {v : ν} (hv : (μ v).isSome) : ρ v = μ v := by
  obtain ⟨a, ha⟩ := isSome_iff_exists.mp hv
  rw [ha, h v a ha]

/-- An assignment determines what it extends by the variables of it. -/
theorem Extends.unique (h₁ : ρ.Extends μ₁) (h₂ : ρ.Extends μ₂)
    (hdom : ∀ v, (μ₁ v).isSome ↔ (μ₂ v).isSome) : μ₁ = μ₂ := by
  funext v
  cases hv : μ₁ v with
  | some a =>
    have hsome : (μ₂ v).isSome := (hdom v).mp (by rw [hv]; rfl)
    rw [← h₂.apply_eq hsome, h₁ v a hv]
  | none =>
    have hnone : ¬(μ₂ v).isSome := fun hsome => by
      have := (hdom v).mpr hsome
      rw [hv] at this
      cases this
    exact (not_isSome_iff_eq_none.mp hnone).symm

/-- The values of the variables of a set. -/
def project (p : ν → Prop) [DecidablePred p] (μ : Assignment ν τ) : Assignment ν τ :=
  fun v => if p v then μ v else none

theorem extends_project (p : ν → Prop) [DecidablePred p] (μ : Assignment ν τ) : μ.Extends (μ.project p) := by
  intro v a h
  unfold project at h
  split at h
  · exact h
  · cases h

theorem isSome_project (p : ν → Prop) [DecidablePred p] (μ : Assignment ν τ) (v : ν) :
    (μ.project p v).isSome ↔ p v ∧ (μ v).isSome := by
  unfold project
  split <;> simp_all

/-! ### Adding values -/

/-- The assignment `ρ` is `μ` with the values of a relation added. -/
structure Adds (μ ρ : Assignment ν τ) (bound : ν → τ → Prop) : Prop where
  extends_left : ρ.Extends μ
  binds : ∀ v a, bound v a → ρ v = some a
  only : ∀ v, (ρ v).isSome → (μ v).isSome ∨ ∃ a, bound v a

namespace Adds

variable {b₁ b₂ : ν → τ → Prop}

theorem isSome_iff (h : Adds μ ρ b₁) (v : ν) : (ρ v).isSome ↔ (μ v).isSome ∨ ∃ a, b₁ v a := by
  refine ⟨h.only v, ?_⟩
  rintro (hv | ⟨a, ha⟩)
  · rwa [h.extends_left.apply_eq hv]
  · rw [h.binds v a ha]
    rfl

theorem trans (h₁ : Adds μ μ₁ b₁) (h₂ : Adds μ₁ ρ b₂) : Adds μ ρ fun v a => b₁ v a ∨ b₂ v a where
  extends_left := h₂.extends_left.trans h₁.extends_left
  binds v a h := h.elim (fun h => h₂.extends_left v a (h₁.binds v a h)) (h₂.binds v a)
  only v hv := by
    rcases h₂.only v hv with hv | ⟨a, ha⟩
    · rcases h₁.only v hv with hv | ⟨a, ha⟩
      · exact .inl hv
      · exact .inr ⟨a, .inl ha⟩
    · exact .inr ⟨a, .inr ha⟩

end Adds

/-- To add two relations is to add one after the other. -/
theorem adds_or {b₁ b₂ : ν → τ → Prop} :
    Adds μ ρ (fun v a => b₁ v a ∨ b₂ v a) ↔ ∃ μ₁, Adds μ μ₁ b₁ ∧ Adds μ₁ ρ b₂ := by
  classical
  constructor
  · intro h
    have hsome : ∀ v, ((μ v).isSome ∨ ∃ a, b₁ v a) → (ρ v).isSome := by
      rintro v (hv | ⟨a, ha⟩)
      · rwa [h.extends_left.apply_eq hv]
      · rw [h.binds v a (.inl ha)]
        rfl
    refine ⟨ρ.project fun v => (μ v).isSome ∨ ∃ a, b₁ v a, ⟨fun v a hv => ?_, fun v a ha => ?_, fun v hv => ?_⟩,
      extends_project _ ρ, fun v a ha => h.binds v a (.inr ha), fun v hv => ?_⟩
    · rw [project, if_pos (.inl (by rw [hv]; rfl)), h.extends_left v a hv]
    · rw [project, if_pos (.inr ⟨a, ha⟩), h.binds v a (.inl ha)]
    · exact ((isSome_project _ ρ v).mp hv).1
    · rw [isSome_project]
      rcases h.only v hv with hv' | ⟨a, ha | ha⟩
      · exact .inl ⟨.inl hv', hv⟩
      · exact .inl ⟨.inr ⟨a, ha⟩, hv⟩
      · exact .inr ⟨a, ha⟩
  · rintro ⟨μ₁, h₁, h₂⟩
    exact h₁.trans h₂

/-- Nothing is added by the empty relation. -/
theorem adds_false : Adds μ ρ (fun _ _ => False) ↔ μ = ρ := by
  constructor
  · intro h
    refine h.extends_left.unique (fun v a h => h) fun v => ?_
    rw [h.isSome_iff]
    simp
  · rintro rfl
    exact ⟨fun v a h => h, fun v a h => h.elim, fun v h => .inl h⟩

variable {x : ν} {c : τ} {ps : List P}

/-- A value for a variable that has one is the value it has. -/
theorem adds_single_bound [DecidableEq ν] {e : τ} (hx : μ x = some e) :
    Adds μ ρ (fun v a => x = v ∧ c = a) ↔ e = c ∧ μ = ρ := by
  constructor
  · intro h
    have heq : e = c := by
      have h₁ := h.extends_left x e hx
      rw [h.binds x c ⟨rfl, rfl⟩] at h₁
      exact (Option.some.inj h₁).symm
    refine ⟨heq, h.extends_left.unique (fun v a h => h) fun v => ?_⟩
    rw [h.isSome_iff]
    refine ⟨.inl, fun hv => hv.elim id ?_⟩
    rintro ⟨a, rfl, -⟩
    rw [hx]
    rfl
  · rintro ⟨rfl, rfl⟩
    refine ⟨fun v a h => h, ?_, fun v h => .inl h⟩
    rintro v a ⟨rfl, rfl⟩
    exact hx

/-- A value for a variable without one is put in. -/
theorem adds_single_free [DecidableEq ν] (hx : μ x = none) :
    Adds μ ρ (fun v a => x = v ∧ c = a) ↔ Function.update μ x (some c) = ρ := by
  have hupdate : Adds μ (Function.update μ x (some c)) fun v a => x = v ∧ c = a := by
    refine ⟨fun v a hv => ?_, ?_, fun v hv => ?_⟩
    · rw [update_of_ne (by rintro rfl; rw [hx] at hv; cases hv), hv]
    · simp
    · by_cases hvx : v = x
      · exact .inr ⟨c, hvx.symm, rfl⟩
      · rw [update_of_ne hvx] at hv
        exact .inl hv
  constructor
  · intro h
    funext v
    by_cases hvx : v = x
    · rw [hvx, update_self, h.binds x c ⟨rfl, rfl⟩]
    · rw [update_of_ne hvx]
      cases hv : μ v with
      | some a => exact (h.extends_left v a hv).symm
      | none =>
        refine (not_isSome_iff_eq_none.mp fun hsome => ?_).symm
        rcases h.only v hsome with hμ | ⟨a, rfl, -⟩
        · rw [hv] at hμ
          cases hμ
        · exact hvx rfl
  · rintro rfl
    exact hupdate

/-! ### Joins -/

variable (mentions : P → ν → Prop) (holds : P → Assignment ν τ → Prop)

/-- The variables are those that some constraint mentions. -/
def Covers (ps : List P) (μ : Assignment ν τ) : Prop := ∀ v, (μ v).isSome ↔ ∃ p ∈ ps, mentions p v

/-- The rows are the assignments that meet every constraint, each once. -/
def Exact (ps : List P) (rows : List (Assignment ν τ)) : Prop :=
  rows.Nodup ∧ ∀ μ, μ ∈ rows ↔ Covers mentions ps μ ∧ ∀ p ∈ ps, holds p μ

/-- A constraint depends on the variables it mentions. -/
def Local : Prop := ∀ p μ μ', (∀ v, mentions p v → μ v = μ' v) → holds p μ → holds p μ'

/-- The extensions of an assignment to the variables of a constraint that meet it. -/
def Extension (p : P) (μ ρ : Assignment ν τ) : Prop :=
  ρ.Extends μ ∧ (∀ v, (ρ v).isSome ↔ (μ v).isSome ∨ mentions p v) ∧ holds p ρ

variable {mentions holds}

/-- **A join with one more constraint is exact.**  The rows may be of any type that shows an assignment. -/
theorem Exact.join {R : Type*} (view : R → Assignment ν τ) (hlocal : Local mentions holds) {rows : List R}
    (h : Exact mentions holds ps (rows.map view)) {p : P} (ext : R → List R)
    (hext : ∀ r ∈ rows, ((ext r).map view).Nodup ∧ ∀ ρ, ρ ∈ (ext r).map view ↔ Extension mentions holds p (view r) ρ) :
    Exact mentions holds (ps ++ [p]) ((rows.flatMap ext).map view) := by
  classical
  obtain ⟨hnodup, hmem⟩ := h
  rw [map_flatMap]
  refine ⟨?_, fun ρ => ?_⟩
  · rw [nodup_flatMap]
    refine ⟨fun r hr => (hext r hr).1, ?_⟩
    refine (pairwise_map.mp hnodup).imp_of_mem fun {r₁ r₂} h₁ h₂ hne ρ hρ₁ hρ₂ => hne ?_
    have he₁ := ((hext r₁ h₁).2 ρ).mp hρ₁
    have he₂ := ((hext r₂ h₂).2 ρ).mp hρ₂
    refine he₁.1.unique he₂.1 fun v => ?_
    rw [((hmem _).mp (mem_map_of_mem h₁)).1, ((hmem _).mp (mem_map_of_mem h₂)).1]
  · rw [mem_flatMap]
    constructor
    · rintro ⟨r, hr, hρ⟩
      obtain ⟨hcovers, hholds⟩ := (hmem _).mp (mem_map_of_mem hr)
      obtain ⟨hextends, hdom, hp⟩ := ((hext r hr).2 ρ).mp hρ
      refine ⟨fun v => ?_, fun q hq => ?_⟩
      · rw [hdom, hcovers]
        simp [or_and_right, exists_or]
      · rcases mem_append.mp hq with hq | hq
        · refine hlocal q (view r) ρ (fun v hv => ?_) (hholds q hq)
          exact (hextends.apply_eq ((hcovers v).mpr ⟨q, hq, hv⟩)).symm
        · rwa [mem_singleton.mp hq]
    · rintro ⟨hcovers, hholds⟩
      have hin : ∀ q ∈ ps, ∀ v, mentions q v → (ρ v).isSome := fun q hq v hv =>
        (hcovers v).mpr ⟨q, mem_append_left _ hq, hv⟩
      have hμ : ρ.project (fun v => ∃ q ∈ ps, mentions q v) ∈ rows.map view := by
        refine (hmem _).mpr ⟨fun v => ?_, fun q hq => ?_⟩
        · rw [isSome_project]
          exact ⟨And.left, fun hv => ⟨hv, hv.elim fun q hq => hin q hq.1 v hq.2⟩⟩
        · refine hlocal q ρ _ (fun v hv => ?_) (hholds q (mem_append_left _ hq))
          rw [project, if_pos ⟨q, hq, hv⟩]
      obtain ⟨r, hr, hview⟩ := List.mem_map.mp hμ
      have hdom := ((hmem _).mp hμ).1
      rw [← hview] at hdom
      refine ⟨r, hr, ((hext r hr).2 ρ).mpr ⟨?_, fun v => ?_, hholds p (by simp)⟩⟩
      · rw [hview]
        exact extends_project _ ρ
      · rw [hdom, hcovers]
        simp [or_and_right, exists_or]

/-- No assignment meets more constraints than the ones it covers: an empty list stays exact. -/
theorem Exact.nil_append (hlocal : Local mentions holds)
    (h : Exact mentions holds ps ([] : List (Assignment ν τ))) (qs : List P) :
    Exact mentions holds (ps ++ qs) ([] : List (Assignment ν τ)) := by
  induction qs using List.reverseRecOn with
  | nil => rwa [append_nil]
  | append_singleton qs q ih =>
    rw [← append_assoc]
    exact Exact.join id hlocal ih (fun _ => []) fun μ hμ => absurd hμ not_mem_nil

/-- Before any constraint, the empty assignment is the only row. -/
theorem exact_nil : Exact mentions holds [] [(fun _ => none : Assignment ν τ)] := by
  refine ⟨nodup_singleton _, fun μ => ?_⟩
  rw [mem_singleton]
  constructor
  · rintro rfl
    exact ⟨fun v => by simp, fun p hp => absurd hp not_mem_nil⟩
  · rintro ⟨hcovers, -⟩
    funext v
    have := hcovers v
    simpa using this

end Assignment
