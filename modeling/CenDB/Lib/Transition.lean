import Mathlib.Tactic

/-! # Runs of a partial step function

A transition system is a step function `σ → α → Option σ`: the state after an action, or
`none` when the action is not enabled (or does not return).

* `run step s as` is the state after the actions `as`, in order.
* `Along step ok s as` says that every step the run takes meets the side condition `ok`,
  a predicate on the state *before* the step and the action.
* `run_invariant` is the induction rule: a property of the start state that every step
  meeting `ok` preserves holds after every run whose steps all meet `ok`.
* `Throughout step P s as` says that every state the run visits satisfies `P`.
* `along_iff_along` and `throughout_iff_along` compare two properties of runs step by step,
  under an invariant; `along_iff_prefixes` does so for a property of the actions so far.

`Along` with a side condition splits at every point of the run (`along_append`), so a
property proved for all runs holds in every state reached on the way. -/

namespace Transition

open List Option

variable {σ α : Type*}

/-- The state after a list of actions. -/
def run (step : σ → α → Option σ) : σ → List α → Option σ
  | s, [] => some s
  | s, a :: as => (step s a).bind fun s' => run step s' as

/-- Every step of the run meets the side condition. -/
def Along (step : σ → α → Option σ) (ok : σ → α → Prop) : σ → List α → Prop
  | _, [] => True
  | s, a :: as => ok s a ∧ ∀ s', step s a = some s' → Along step ok s' as

variable {step : σ → α → Option σ} {ok : σ → α → Prop}

@[simp] theorem run_nil (s : σ) : run step s [] = some s := rfl

theorem run_cons (s : σ) (a : α) (as : List α) :
    run step s (a :: as) = (step s a).bind fun s' => run step s' as := rfl

variable {s s' s₁ : σ} {a : α} {as : List α} {I P : σ → Prop}

theorem run_cons_some : run step s (a :: as) = some s' ↔ ∃ s₁, step s a = some s₁ ∧ run step s₁ as = some s' := by
  rw [run_cons, bind_eq_some_iff]

theorem run_append (s : σ) (as bs : List α) :
    run step s (as ++ bs) = (run step s as).bind fun s' => run step s' bs := by
  induction as generalizing s with
  | nil => rfl
  | cons a as ih =>
    rw [cons_append, run_cons, run_cons, bind_assoc]
    cases step s a with
    | none => rfl
    | some s₁ => exact ih s₁

theorem run_append_some (h : run step s as = some s₁) (bs : List α) : run step s (as ++ bs) = run step s₁ bs := by
  rw [run_append, h]; rfl

theorem run_map {β : Type*} (f : β → α) (s : σ) (bs : List β) :
    run step s (bs.map f) = run (fun s b => step s (f b)) s bs := by
  induction bs generalizing s with
  | nil => rfl
  | cons b bs ih =>
    rw [map_cons, run_cons, run_cons]
    cases step s (f b) with
    | none => rfl
    | some s₁ => exact ih s₁

@[simp] theorem along_nil (s : σ) : Along step ok s [] := trivial

/-- Checking a run step by step. -/
theorem along_cons_of (ha : ok s a) (h₁ : step s a = some s₁) (has : Along step ok s₁ as) :
    Along step ok s (a :: as) := by
  refine ⟨ha, ?_⟩
  intro s' hs'
  rw [h₁, Option.some.injEq] at hs'
  exact hs' ▸ has

theorem along_append (h : run step s as = some s₁) (bs : List α) :
    Along step ok s (as ++ bs) ↔ Along step ok s as ∧ Along step ok s₁ bs := by
  induction as generalizing s with
  | nil =>
    rw [run_nil, Option.some.injEq] at h
    subst h
    simp
  | cons a as ih =>
    obtain ⟨s', hs, hr⟩ := run_cons_some.mp h
    simp only [cons_append, Along]
    constructor
    · rintro ⟨ha, hrest⟩
      have hsplit := (ih hr).mp (hrest s' hs)
      refine ⟨⟨ha, ?_⟩, hsplit.2⟩
      intro s'' hs''
      rw [hs] at hs''
      cases hs''
      exact hsplit.1
    · rintro ⟨⟨ha, hrest⟩, hbs⟩
      refine ⟨ha, ?_⟩
      intro s'' hs''
      rw [hs] at hs''
      cases hs''
      exact (ih hr).mpr ⟨hrest _ hs, hbs⟩

/-- A condition met at every action of a list, whatever the state. -/
theorem along_of_forall (h : ∀ s, ∀ a ∈ as, ok s a) (s : σ) : Along step ok s as := by
  induction as generalizing s with
  | nil => trivial
  | cons a as ih =>
    exact ⟨h s a mem_cons_self, fun s' _ =>
      ih (fun t b hb => h t b (mem_cons_of_mem a hb)) s'⟩

variable {ok' side : σ → α → Prop}

theorem Along.and (h : Along step ok s as) (h' : Along step ok' s as) :
    Along step (fun s a => ok s a ∧ ok' s a) s as := by
  induction as generalizing s with
  | nil => trivial
  | cons a as ih => exact ⟨⟨h.1, h'.1⟩, fun s' hs' => ih (h.2 s' hs') (h'.2 s' hs')⟩

/-- Where every action is enabled, every list of actions runs. -/
theorem exists_run (h : ∀ s a, ∃ s', step s a = some s') (s : σ) (as : List α) : ∃ s', run step s as = some s' := by
  induction as generalizing s with
  | nil => exact ⟨s, rfl⟩
  | cons a as ih =>
    obtain ⟨s₁, h₁⟩ := h s a
    obtain ⟨s', hs'⟩ := ih s₁
    exact ⟨s', run_cons_some.mpr ⟨s₁, h₁, hs'⟩⟩

/-- A loop over a list is a run. -/
theorem foldlM_eq_run (s : σ) (as : List α) : as.foldlM step s = run step s as := by
  induction as generalizing s with
  | nil => rfl
  | cons a as ih =>
    rw [foldlM_cons, run_cons]
    exact bind_congr fun s' _ => ih s'

/-- Where an invariant enables every action of a list, the list runs. -/
theorem exists_run_of_invariant (hstep : ∀ s, ∀ a ∈ as, I s → ∃ s', step s a = some s' ∧ I s') (hs : I s) :
    ∃ s', run step s as = some s' ∧ I s' := by
  induction as generalizing s with
  | nil => exact ⟨s, rfl, hs⟩
  | cons a as ih =>
    obtain ⟨s₁, h₁, hs₁⟩ := hstep s a mem_cons_self hs
    obtain ⟨s', hs', hI⟩ := ih (fun t b hb => hstep t b (mem_cons_of_mem a hb)) hs₁
    exact ⟨s', run_cons_some.mpr ⟨s₁, h₁, hs'⟩, hI⟩

/-- A condition on the actions alone, where no step is ever refused. -/
theorem along_iff_forall {p : α → Prop} (h : ∀ s a, ∃ s', step s a = some s') (s : σ) (as : List α) :
    Along step (fun _ a => p a) s as ↔ ∀ a ∈ as, p a := by
  refine ⟨fun halong => ?_, fun hall => along_of_forall (fun _ => hall) s⟩
  induction as generalizing s with
  | nil => exact nofun
  | cons a as ih =>
    obtain ⟨s', hs'⟩ := h s a
    exact forall_mem_cons.mpr ⟨halong.1, ih s' (halong.2 s' hs')⟩

/-- What steps cannot gain, but the end of a run has, it had all the time. -/
theorem along_of_final {Q : σ → Prop} (h : ∀ s a s', step s a = some s' → Q s' → Q s)
    (hrun : run step s as = some s') (hQ : Q s') :
    Along step (fun s _ => Q s) s as ∧ Q s := by
  induction as generalizing s with
  | nil =>
    rw [run_nil, Option.some.injEq] at hrun
    exact ⟨trivial, hrun ▸ hQ⟩
  | cons a as ih =>
    obtain ⟨mid, hmid, hrest⟩ := run_cons_some.mp hrun
    obtain ⟨halong, hQmid⟩ := ih hrest
    have hQs := h s a mid hmid hQmid
    exact ⟨along_cons_of hQs hmid halong, hQs⟩

theorem along_single : Along step ok s [a] ↔ ok s a := by
  simp [Along]

theorem along_snoc (h : run step s as = some s₁) (a : α) :
    Along step ok s (as ++ [a]) ↔ Along step ok s as ∧ ok s₁ a := by
  rw [along_append h, along_single]

/-- **Invariant rule**: what every step meeting `ok` preserves, every such run preserves. -/
theorem run_invariant (hstep : ∀ s a s', I s → ok s a → step s a = some s' → I s') :
    ∀ {as : List α} {s s' : σ}, I s → Along step ok s as → run step s as = some s' → I s'
  | [], s, s', hs, _, hr => by
    rw [run_nil, Option.some.injEq] at hr
    exact hr ▸ hs
  | a :: as, s, s', hs, hok, hr => by
    obtain ⟨s₁, h₁, hr₁⟩ := run_cons_some.mp hr
    exact run_invariant hstep (hstep s a s₁ hs hok.1 h₁) (hok.2 s₁ h₁) hr₁

/-- The invariant rule for runs without a side condition. -/
theorem run_preserves (hstep : ∀ s a s', I s → step s a = some s' → I s') (hs : I s)
    (hr : run step s as = some s') : I s' := by
  induction as generalizing s with
  | nil =>
    rw [run_nil, Option.some.injEq] at hr
    exact hr ▸ hs
  | cons a as ih =>
    obtain ⟨s₁, h₁, hr₁⟩ := run_cons_some.mp hr
    exact ih (hstep s a s₁ hs h₁) hr₁

/-- Two side conditions that agree under an invariant agree along every run. -/
theorem along_iff_along (hstep : ∀ s a s', I s → step s a = some s' → I s')
    (hiff : ∀ s a, I s → (ok s a ↔ ok' s a)) (hs : I s) (as : List α) :
    Along step ok s as ↔ Along step ok' s as := by
  induction as generalizing s with
  | nil => simp
  | cons a as ih =>
    refine and_congr (hiff s a hs) (forall₂_congr fun s' hs' => ?_)
    exact ih (hstep s a s' hs hs')

/-- Every state the run visits, the first and the last one included, satisfies `P`. -/
def Throughout (step : σ → α → Option σ) (P : σ → Prop) (s : σ) (as : List α) : Prop :=
  ∀ bs s', bs <+: as → run step s bs = some s' → P s'

theorem throughout_nil : Throughout step P s [] ↔ P s := by
  constructor
  · intro h
    exact h [] s (prefix_refl []) rfl
  · intro h bs s' hbs hr
    rw [prefix_nil.mp hbs, run_nil, Option.some.injEq] at hr
    exact hr ▸ h

theorem throughout_cons : Throughout step P s (a :: as) ↔
      P s ∧ ∀ s', step s a = some s' → Throughout step P s' as := by
  constructor
  · intro h
    refine ⟨h [] s nil_prefix rfl, ?_⟩
    intro s' hs' bs s'' hbs hr
    refine h (a :: bs) s'' (cons_prefix_cons.mpr ⟨rfl, hbs⟩) ?_
    exact run_cons_some.mpr ⟨s', hs', hr⟩
  · rintro ⟨hs, hrest⟩ bs s' hbs hr
    rcases prefix_cons_iff.mp hbs with rfl | ⟨cs, rfl, hcs⟩
    · rw [run_nil, Option.some.injEq] at hr
      exact hr ▸ hs
    · obtain ⟨s₁, h₁, hr₁⟩ := run_cons_some.mp hr
      exact hrest s₁ h₁ cs s' hcs hr₁

theorem along_initial {bs : List α} (hbs : bs <+: as) (h : Along step ok s as) : Along step ok s bs := by
  induction bs generalizing s as with
  | nil => trivial
  | cons b bs ih =>
    obtain ⟨cs, rfl⟩ := hbs
    rw [cons_append] at h
    exact ⟨h.1, fun s' hs' => ih (prefix_append bs cs) (h.2 s' hs')⟩

/-- What an invariant implies holds throughout every run whose steps all meet `ok`. -/
theorem throughout_of_along (hstep : ∀ s a s', I s → ok s a → step s a = some s' → I s') (hP : ∀ s, I s → P s)
    (hs : I s) (hok : Along step ok s as) :
    Throughout step P s as := by
  intro bs s' hbs hr
  exact hP s' (run_invariant hstep hs (along_initial hbs hok) hr)

/-- If a step that starts in `P` ends in `P` exactly when it meets `ok`, then a run stays
in `P` throughout exactly when all its steps meet `ok`.  A step that is not enabled owes
nothing. -/
theorem throughout_iff_along (hstuck : ∀ s a, step s a = none → ok s a)
    (hstep : ∀ s a s', I s → step s a = some s' → I s')
    (hiff : ∀ s a s', I s → P s → step s a = some s' → (P s' ↔ ok s a)) (hinv : I s) (hs : P s) (as : List α) :
    Throughout step P s as ↔ Along step ok s as := by
  induction as generalizing s with
  | nil => simp [throughout_nil, hs]
  | cons a as ih =>
    cases h₁ : step s a with
    | none => simp [throughout_cons, Along, h₁, hs, hstuck s a h₁]
    | some s₁ =>
      have hrest (hs₁ : P s₁) := ih (hstep s a s₁ hinv h₁) hs₁
      simp only [throughout_cons, Along, h₁, Option.some.injEq, forall_eq', hs, true_and]
      constructor
      · intro hthrough
        have hs₁ : P s₁ := hthrough [] s₁ nil_prefix rfl
        exact ⟨(hiff s a s₁ hinv hs h₁).mp hs₁, (hrest hs₁).mp hthrough⟩
      · rintro ⟨hok, halong⟩
        exact (hrest ((hiff s a s₁ hinv hs h₁).mpr hok)).mpr halong

/-- The same under an invariant that only the steps meeting `ok` keep: a run stays in `P`
exactly when all its steps meet `ok`, if every other step leaves `P`.  The steps may assume `side`. -/
theorem throughout_iff_along_of_leaves_of_side (hP : ∀ s, I s → P s) (hstuck : ∀ s a, I s → step s a = none → ok s a)
    (hstep : ∀ s a s', I s → side s a → ok s a → step s a = some s' → I s')
    (hleave : ∀ s a s', I s → side s a → ¬ ok s a → step s a = some s' → ¬ P s') (hs : I s)
    (hside : Along step side s as) : Throughout step P s as ↔ Along step ok s as := by
  refine ⟨fun h => ?_, fun h => ?_⟩
  · induction as generalizing s with
    | nil => trivial
    | cons a as ih =>
      rw [throughout_cons] at h
      have hok : ok s a := by
        cases h₁ : step s a with
        | none => exact hstuck s a hs h₁
        | some s₁ =>
          by_contra hno
          exact hleave s a s₁ hs hside.1 hno h₁ ((h.2 s₁ h₁) [] s₁ nil_prefix rfl)
      exact ⟨hok, fun s' h' => ih (hstep s a s' hs hside.1 hok h') (hside.2 s' h') (h.2 s' h')⟩
  · refine throughout_of_along (fun t a t' ht hboth hstep' => ?_) hP hs (hside.and h)
    exact hstep t a t' ht hboth.1 hboth.2 hstep'

theorem throughout_iff_along_of_leaves (hP : ∀ s, I s → P s) (hstuck : ∀ s a, step s a = none → ok s a)
    (hstep : ∀ s a s', I s → ok s a → step s a = some s' → I s')
    (hleave : ∀ s a s', I s → ¬ ok s a → step s a = some s' → ¬ P s') (hs : I s) (as : List α) :
    Throughout step P s as ↔ Along step ok s as :=
  throughout_iff_along_of_leaves_of_side hP (fun s a _ => hstuck s a) (fun s a s' hI _ => hstep s a s' hI)
    (fun s a s' hI _ => hleave s a s' hI) hs (along_of_forall (fun _ _ _ => trivial) s)

/-- A run under an invariant that speaks of the actions so far: if such states satisfy `P` and a
step keeps the invariant when it meets `ok` and leaves `P` when it does not, then all steps meet
`ok` exactly if `P` holds after every initial part of the run.  The steps may assume `side`. -/
theorem along_iff_prefixes {I P : σ → List α → Prop} (hP : ∀ s done, I s done → P s done)
    (hstep : ∀ s done a s', I s done → side s a → ok s a → step s a = some s' → I s' (done ++ [a]))
    (hleave : ∀ s done a s', I s done → side s a → ¬ ok s a → step s a = some s' → ¬ P s' (done ++ [a]))
    (done : List α) (hI : I s done) (hside : Along step side s as) (hrun : run step s as = some s') :
    Along step ok s as ↔ ∀ first, first <+: as → ∀ t, run step s first = some t → P t (done ++ first) := by
  induction as generalizing s done with
  | nil =>
    refine ⟨fun _ first hfirst t ht => ?_, fun _ => trivial⟩
    rw [prefix_nil] at hfirst
    rw [hfirst, run_nil, Option.some.injEq] at ht
    rw [hfirst, ← ht, append_nil]
    exact hP s done hI
  | cons a as ih =>
    obtain ⟨mid, hmid, hrest⟩ := run_cons_some.mp hrun
    have hkeep (hok : ok s a) := ih (done ++ [a]) (hstep s done a mid hI hside.1 hok hmid) (hside.2 mid hmid) hrest
    constructor
    · rintro ⟨hok, halong⟩ first hfirst t ht
      cases prefix_cons_iff.mp hfirst with
      | inl hnil =>
        rw [hnil, run_nil, Option.some.injEq] at ht
        rw [hnil, ← ht, append_nil]
        exact hP s done hI
      | inr hcons =>
        obtain ⟨first', rfl, hfirst'⟩ := hcons
        rw [run_cons, hmid, bind_some] at ht
        rw [append_cons]
        exact (hkeep hok).mp (halong mid hmid) first' hfirst' t ht
    · intro hall
      have hok : ok s a := by
        by_contra hno
        refine hleave s done a mid hI hside.1 hno hmid (hall [a] (prefix_append [a] as) mid ?_)
        rw [run_cons, hmid]
        rfl
      refine along_cons_of hok hmid ((hkeep hok).mpr ?_)
      intro first hfirst t ht
      have hlonger := hall (a :: first) (cons_prefix_cons.mpr ⟨rfl, hfirst⟩) t (by
        rw [run_cons, hmid]
        exact ht)
      rwa [append_cons] at hlonger

/-- `throughout_iff_along_of_leaves` for a run whose steps may assume `side`. -/
theorem throughout_iff_along_of_side (hP : ∀ s, I s → P s)
    (hstep : ∀ s a s', I s → side s a → ok s a → step s a = some s' → I s')
    (hleave : ∀ s a s', I s → side s a → ¬ ok s a → step s a = some s' → ¬ P s') (hI : I s)
    (hside : Along step side s as) (hrun : run step s as = some s') :
    Throughout step P s as ↔ Along step ok s as := by
  rw [along_iff_prefixes (I := fun s _ => I s) (P := fun s _ => P s) (fun s _ => hP s)
    (fun s _ => hstep s) (fun s _ => hleave s) [] hI hside hrun]
  exact ⟨fun h first hfirst t => h first t hfirst, fun h first t hfirst => h first hfirst t⟩

end Transition
