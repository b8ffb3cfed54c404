import CenDB.Lib.Assignments
import CenDB.Rdf.Sparql

/-! # The answers of a query

A solution assigns a term to every variable of the patterns, makes every pattern a stored triple and passes
every filter.  One pattern extends a row by exactly the assignments that `Assignment.Extension` describes
(`mem_extensions`); by the join rule of the library the rows of all patterns are exact, and `evaluate`
returns the projections of the solutions (`evaluate_exact`). -/

namespace CenDB.Rdf

open Assignment List Table

/-! ### Solutions -/

/-- The term a pattern term stands for. -/
def PatternTerm.value (μ : Assignment String RdfTerm) : PatternTerm → Option RdfTerm
  | .var name => μ name
  | .term t => some t

/-- The pattern, under the assignment, is the triple. -/
def TriplePattern.Matches (pat : TriplePattern) (μ : Assignment String RdfTerm) (t : Triple) : Prop :=
  pat.subject.value μ = some t.subject ∧ pat.predicate.value μ = some t.predicate ∧
    pat.object.value μ = some t.object

def TriplePattern.Mentions (pat : TriplePattern) (name : String) : Prop := .var name ∈ pat.terms

/-- The pattern, under the assignment, is a triple of the set. -/
def TriplePattern.Holds (set : Finset Triple) (pat : TriplePattern) (μ : Assignment String RdfTerm) : Prop :=
  ∃ t ∈ set, pat.Matches μ t

/-- The variable of the filter has a term that passes the comparison. -/
def Filter.Passes (parseF64 : String → Option Float) (f : Filter) (μ : Assignment String RdfTerm) : Prop :=
  ∃ term, μ f.var = some term ∧ f.test parseF64 term = true

/-- An assignment of terms to the variables of the patterns that makes every pattern a triple of the set and
passes every filter. -/
structure SparqlQuery.Solution (parseF64 : String → Option Float) (query : SparqlQuery)
    (set : Finset Triple) (μ : Assignment String RdfTerm) : Prop where
  covers : Covers TriplePattern.Mentions query.patterns μ
  holds : ∀ pat ∈ query.patterns, pat.Holds set μ
  passes : ∀ f ∈ query.filters, f.Passes parseF64 μ

/-- The selected variables; where none is listed, those of the patterns. -/
def SparqlQuery.selected (query : SparqlQuery) : List String :=
  if query.projectVars = [] then patternVars query.patterns else query.projectVars

theorem local_holds (set : Finset Triple) : Local TriplePattern.Mentions (TriplePattern.Holds set) := by
  rintro pat μ μ' hagree ⟨t, ht, hs, hp, ho⟩
  have hvalue : ∀ term ∈ pat.terms, term.value μ' = term.value μ := by
    intro term hterm
    cases term with
    | var name => exact (hagree name hterm).symm
    | term c => rfl
  refine ⟨t, ht, ?_, ?_, ?_⟩
  · rw [hvalue _ (by simp [TriplePattern.terms]), hs]
  · rw [hvalue _ (by simp [TriplePattern.terms]), hp]
  · rw [hvalue _ (by simp [TriplePattern.terms]), ho]

/-! ### One pattern -/

/-- What a row and the new entries show. -/
def sees (b m : Binding) : Assignment String RdfTerm := fun v => (b.lookup v).or (m.lookup v)

@[simp] theorem sees_empty (b : Binding) : sees b ∅ = fun v => b.lookup v := by
  funext v
  simp [sees]

theorem bindPosition_var (b m : Binding) (name : String) (term : RdfTerm) :
    bindPosition b m (.var name, term) = match sees b m name with
      | some existing => if existing ≠ term then none else some m
      | none => some (AList.insert name term m) := by
  simp only [bindPosition, sees]
  cases b.lookup name with
  | some existing | none => rfl

variable {b m : Binding}

theorem sees_insert {name : String} {term : RdfTerm} (h : sees b m name = none) :
    sees b (AList.insert name term m) = Function.update (sees b m) name (some term) := by
  have hb : b.lookup name = none := (Option.or_eq_none_iff.mp h).1
  funext v
  by_cases hv : v = name
  · rw [hv, Function.update_self, sees, hb, Option.none_or, AList.lookup_insert]
  · rw [Function.update_of_ne hv, sees, sees, AList.lookup_insert_ne hv]

/-- **One position** of a triple is accepted just when its variable can have the term. -/
theorem bindPosition_iff (b m : Binding) (position : PatternTerm × RdfTerm) (ρ : Assignment String RdfTerm) :
    (∃ m', bindPosition b m position = some m' ∧ sees b m' = ρ) ↔
      Adds (sees b m) ρ fun v a => position = (.var v, a) := by
  obtain ⟨pt, term⟩ := position
  cases pt with
  | term c =>
    have hbound : (fun (v : String) (a : RdfTerm) => (PatternTerm.term c, term) = (.var v, a)) =
        fun _ _ => False := by simp
    rw [hbound, adds_false]
    simp [bindPosition]
  | var name =>
    have hbound : (fun (v : String) (a : RdfTerm) => (PatternTerm.var name, term) = (.var v, a)) =
        fun v a => name = v ∧ term = a := by simp
    rw [hbound, bindPosition_var]
    cases hsees : sees b m name with
    | some existing =>
      rw [adds_single_bound hsees]
      by_cases heq : existing = term <;> simp [heq]
    | none =>
      rw [adds_single_free hsees, ← sees_insert hsees]
      simp

/-- The positions of a triple are accepted just when all its variables can have their terms. -/
theorem foldlM_bindPosition_iff (b : Binding) (ps : List (PatternTerm × RdfTerm)) (m : Binding)
    (ρ : Assignment String RdfTerm) :
    (∃ m', ps.foldlM (bindPosition b) m = some m' ∧ sees b m' = ρ) ↔
      Adds (sees b m) ρ fun v a => (.var v, a) ∈ ps := by
  induction ps generalizing m with
  | nil =>
    simp only [not_mem_nil]
    rw [adds_false]
    simp
  | cons position ps ih =>
    simp only [mem_cons, eq_comm (b := position)]
    rw [adds_or]
    simp only [← bindPosition_iff, foldlM_cons, Option.bind_eq_bind, Option.bind_eq_some_iff]
    constructor
    · rintro ⟨m', ⟨m₁, h₁, h₂⟩, hρ⟩
      exact ⟨_, ⟨m₁, h₁, rfl⟩, (ih m₁).mp ⟨m', h₂, hρ⟩⟩
    · rintro ⟨_, ⟨m₁, h₁, rfl⟩, hadds⟩
      obtain ⟨m', h₂, hρ⟩ := (ih m₁).mpr hadds
      exact ⟨m', ⟨m₁, h₁, h₂⟩, hρ⟩

/-- A new entry is for a variable that the row leaves free. -/
def Fresh (b m : Binding) : Prop := ∀ v, (b.lookup v).isSome → m.lookup v = none

variable {m' : Binding} {pats : List TriplePattern} {bs : List Binding}

theorem fresh_bindPosition {position : PatternTerm × RdfTerm} (h : Fresh b m)
    (hstep : bindPosition b m position = some m') : Fresh b m' := by
  obtain ⟨pt, term⟩ := position
  cases pt with
  | term c =>
    cases hstep
    exact h
  | var name =>
    rw [bindPosition_var] at hstep
    cases hsees : sees b m name with
    | some existing =>
      rw [hsees] at hstep
      dsimp only at hstep
      split at hstep
      · cases hstep
      · cases hstep
        exact h
    | none =>
      rw [hsees] at hstep
      cases hstep
      intro v hv
      have hne : v ≠ name := by
        rintro rfl
        rw [(Option.or_eq_none_iff.mp hsees).1] at hv
        cases hv
      rw [AList.lookup_insert_ne hne, h v hv]

theorem fresh_foldlM {ps : List (PatternTerm × RdfTerm)} (h : Fresh b m)
    (hfold : ps.foldlM (bindPosition b) m = some m') : Fresh b m' := by
  induction ps generalizing m with
  | nil =>
    cases hfold
    exact h
  | cons position ps ih =>
    rw [foldlM_cons, Option.bind_eq_bind, Option.bind_eq_some_iff] at hfold
    obtain ⟨m₁, h₁, h₂⟩ := hfold
    exact ih (fresh_bindPosition h h₁) h₂

/-- Merged rows show what both show. -/
theorem lookup_merge (h : Fresh b m) : (fun v => (merge b m).lookup v) = sees b m := by
  funext v
  have hlast : Table.lastOf (Table.items m) v = m.lookup v := by
    ext a
    rw [lastOf_of_nodup (nodup_keys_items m), mem_items]
  rw [merge, lookup_foldl_insert, hlast, sees]
  cases hb : b.lookup v with
  | some a => simp [h v (by rw [hb]; rfl)]
  | none => simp

/-- A triple with the terms looked up, whose positions are accepted, is the pattern under the row. -/
theorem agrees_and_adds_iff (pat : TriplePattern) (t : Triple) (b : Binding) (ρ : Assignment String RdfTerm) :
    (t.Agrees (patternTermToLookup pat.subject b) (patternTermToLookup pat.predicate b)
        (patternTermToLookup pat.object b) ∧
      Adds (fun v => b.lookup v) ρ fun v a => (.var v, a) ∈ positions pat t) ↔
    ρ.Extends (fun v => b.lookup v) ∧
      (∀ v, (ρ v).isSome ↔ (b.lookup v).isSome ∨ pat.Mentions v) ∧ pat.Matches ρ t := by
  have hbound : ∀ v, (∃ a, (.var v, a) ∈ positions pat t) ↔ pat.Mentions v := by
    intro v
    simp only [positions, TriplePattern.Mentions, TriplePattern.terms, mem_cons, Prod.mk.injEq,
      not_mem_nil, or_false, exists_or, exists_and_left, exists_eq, and_true]
  have hlookup : ∀ (pt : PatternTerm) (term : RdfTerm), ρ.Extends (fun v => b.lookup v) →
      pt.value ρ = some term → ∀ st ∈ patternTermToLookup pt b, term = st := by
    intro pt term hextends hvalue st hst
    cases pt with
    | term c => exact Option.some.inj (hvalue.symm.trans hst)
    | var name => exact Option.some.inj (hvalue.symm.trans (hextends name st hst))
  have hvalue : ∀ (pt : PatternTerm) (term : RdfTerm), (pt, term) ∈ positions pat t →
      (∀ st ∈ patternTermToLookup pt b, term = st) →
      Adds (fun v => b.lookup v) ρ (fun v a => (.var v, a) ∈ positions pat t) →
      pt.value ρ = some term := by
    intro pt term hmem hst h
    cases pt with
    | term c => exact congrArg some (hst c rfl).symm
    | var name => exact h.binds name term hmem
  constructor
  · rintro ⟨⟨hs, hp, ho⟩, h⟩
    refine ⟨h.extends_left, fun v => ?_, ?_, ?_, ?_⟩
    · rw [h.isSome_iff, hbound]
    · exact hvalue _ _ (by simp [positions]) hs h
    · exact hvalue _ _ (by simp [positions]) hp h
    · exact hvalue _ _ (by simp [positions]) ho h
  · rintro ⟨hextends, hdom, hs, hp, ho⟩
    refine ⟨⟨hlookup _ _ hextends hs, hlookup _ _ hextends hp, hlookup _ _ hextends ho⟩, hextends,
      fun v a hva => ?_, fun v hv => ?_⟩
    · simp only [positions, mem_cons, Prod.mk.injEq, not_mem_nil, or_false] at hva
      rcases hva with ⟨hpt, rfl⟩ | ⟨hpt, rfl⟩ | ⟨hpt, rfl⟩
      · rwa [← hpt] at hs
      · rwa [← hpt] at hp
      · rwa [← hpt] at ho
    · rw [hbound]
      exact (hdom v).mp hv

/-- The pattern, under an assignment, is one triple. -/
theorem TriplePattern.Matches.unique {pat : TriplePattern} {μ : Assignment String RdfTerm} {t t' : Triple}
    (h : pat.Matches μ t) (h' : pat.Matches μ t') : t = t' := by
  obtain ⟨hs, hp, ho⟩ := h
  obtain ⟨hs', hp', ho'⟩ := h'
  cases t
  cases t'
  simp only [Triple.mk.injEq]
  exact ⟨Option.some.inj (hs.symm.trans hs'), Option.some.inj (hp.symm.trans hp'),
    Option.some.inj (ho.symm.trans ho')⟩

/-- The rows that show an assignment. -/
def rows (bs : List Binding) : List (Assignment String RdfTerm) := bs.map fun b v => b.lookup v

variable {store : TripleStore} {set : Finset Triple}

/-- A match of a pattern extends the row to the variables of the pattern. -/
theorem extendsBy_iff (h : store.Represents set) (pat : TriplePattern) (b : Binding) (t : Triple)
    (ρ : Assignment String RdfTerm) :
    (t ∈ store.matchPattern (patternTermToLookup pat.subject b) (patternTermToLookup pat.predicate b)
        (patternTermToLookup pat.object b) ∧
      ∃ m, (positions pat t).foldlM (bindPosition b) ∅ = some m ∧ (fun v => (merge b m).lookup v) = ρ) ↔
    t ∈ set ∧ ρ.Extends (fun v => b.lookup v) ∧
      (∀ v, (ρ v).isSome ↔ (b.lookup v).isSome ∨ pat.Mentions v) ∧ pat.Matches ρ t := by
  have hmerge : (∃ m, (positions pat t).foldlM (bindPosition b) ∅ = some m ∧
      (fun v => (merge b m).lookup v) = ρ) ↔
      Adds (fun v => b.lookup v) ρ fun v a => (.var v, a) ∈ positions pat t := by
    rw [← sees_empty, ← foldlM_bindPosition_iff]
    refine exists_congr fun m => and_congr_right fun hm => ?_
    rw [lookup_merge (fresh_foldlM (fun v _ => rfl) hm)]
  rw [hmerge, (h.matchPattern _ _ _).2, and_assoc, agrees_and_adds_iff]

/-- **One pattern extends a row exactly**: by every assignment that makes the pattern a stored triple,
once. -/
theorem mem_extensions (h : store.Represents set) (pat : TriplePattern) (b : Binding) :
    (rows ((evaluatePatternWithBinding pat store b).map (merge b))).Nodup ∧
      ∀ ρ, ρ ∈ rows ((evaluatePatternWithBinding pat store b).map (merge b)) ↔
        Extension TriplePattern.Mentions (TriplePattern.Holds set) pat (fun v => b.lookup v) ρ := by
  have hrows : rows ((evaluatePatternWithBinding pat store b).map (merge b)) =
      (store.matchPattern (patternTermToLookup pat.subject b) (patternTermToLookup pat.predicate b)
        (patternTermToLookup pat.object b)).filterMap fun t =>
          ((positions pat t).foldlM (bindPosition b) ∅).map fun m v => (merge b m).lookup v := by
    rw [rows, map_map, evaluatePatternWithBinding, map_filterMap]
    rfl
  have hmem : ∀ t (ρ : Assignment String RdfTerm), (t ∈ store.matchPattern (patternTermToLookup pat.subject b)
      (patternTermToLookup pat.predicate b) (patternTermToLookup pat.object b) ∧
      ((positions pat t).foldlM (bindPosition b) ∅).map (fun m v => (merge b m).lookup v) = some ρ) ↔
      t ∈ set ∧ ρ.Extends (fun v => b.lookup v) ∧
        (∀ v, (ρ v).isSome ↔ (b.lookup v).isSome ∨ pat.Mentions v) ∧ pat.Matches ρ t := by
    intro t ρ
    rw [← extendsBy_iff h, Option.map_eq_some_iff]
  rw [hrows]
  constructor
  · refine pairwise_filterMap.mpr ((h.matchPattern _ _ _).1.imp_of_mem ?_)
    rintro t t' ht ht' hne ρ hρ _ hρ' rfl
    exact hne (((hmem t ρ).mp ⟨ht, hρ⟩).2.2.2.unique ((hmem t' ρ).mp ⟨ht', hρ'⟩).2.2.2)
  · intro ρ
    rw [mem_filterMap]
    simp only [hmem]
    constructor
    · rintro ⟨t, ht, hextends, hdom, hmatches⟩
      exact ⟨hextends, hdom, t, ht, hmatches⟩
    · rintro ⟨hextends, hdom, t, ht, hmatches⟩
      exact ⟨t, ht, hextends, hdom, hmatches⟩

/-! ### All patterns -/

/-- The first pattern extends the empty row. -/
theorem evaluatePattern_eq (pat : TriplePattern) (store : TripleStore) :
    rows (evaluatePattern pat store) = rows (joinPattern store [∅] pat) := by
  have hbind : ∀ t, bindTriple pat t = (positions pat t).foldlM (bindPosition ∅) ∅ := by
    intro t
    unfold bindTriple
    congr 1
  have hmerge : ∀ m ∈ evaluatePatternWithBinding pat store ∅, (fun v => (merge ∅ m).lookup v) =
      fun v => m.lookup v := by
    intro m _
    have hfresh : Fresh ∅ m := fun v hv => by
      rw [AList.lookup_empty] at hv
      cases hv
    rw [lookup_merge hfresh]
    rfl
  rw [joinPattern, flatMap_singleton, rows, rows, map_map]
  have hsame : evaluatePattern pat store = evaluatePatternWithBinding pat store ∅ := by rfl
  rw [hsame]
  exact (map_congr_left fun m hm => hmerge m hm).symm

/-- The rows are the assignments that make all the patterns stored triples, each once. -/
def Joined (set : Finset Triple) (pats : List TriplePattern) (bs : List Binding) : Prop :=
  Exact TriplePattern.Mentions (TriplePattern.Holds set) pats (rows bs)

theorem Joined.joinPattern (h : store.Represents set) (hbs : Joined set pats bs) (pat : TriplePattern) :
    Joined set (pats ++ [pat]) (joinPattern store bs pat) :=
  Exact.join (fun (b : Binding) v => b.lookup v) (local_holds set) hbs
    (fun b => (evaluatePatternWithBinding pat store b).map (merge b))
    fun b _ => mem_extensions h pat b

/-- **The join over all patterns is exact**, also where it stops early. -/
theorem Joined.joinPatterns {done : List TriplePattern} (h : store.Represents set) (hbs : Joined set done bs) :
    Joined set (done ++ pats) (joinPatterns store pats bs) := by
  induction pats generalizing done bs with
  | nil => rwa [append_nil]
  | cons pat pats ih =>
    have hnext := hbs.joinPattern h pat
    have happend : done ++ pat :: pats = done ++ [pat] ++ pats := by simp
    rw [CenDB.Rdf.joinPatterns, happend]
    split
    · rename_i hempty
      rw [Joined, List.isEmpty_iff.mp hempty] at hnext ⊢
      exact hnext.nil_append (local_holds set) pats
    · exact ih hnext

theorem joined_patterns (h : store.Represents set) (pat : TriplePattern) (pats : List TriplePattern) :
    Joined set (pat :: pats) (joinPatterns store pats (evaluatePattern pat store)) := by
  have hnil : Joined set [] [∅] := exact_nil
  have hfirst : Joined set [pat] (evaluatePattern pat store) := by
    rw [Joined, evaluatePattern_eq]
    exact hnil.joinPattern h pat
  exact hfirst.joinPatterns h

/-! ### Filters, projection and limit -/

variable (parseF64 : String → Option Float)

theorem evalFilter_iff (f : Filter) (b : Binding) :
    evalFilter parseF64 f b = true ↔ f.Passes parseF64 fun v => b.lookup v := by
  unfold evalFilter Filter.Passes
  cases hvar : b.lookup f.var with
  | some term | none => simp [hvar]

theorem mem_patternVars {patterns : List TriplePattern} {v : String} :
    v ∈ patternVars patterns ↔ ∃ pat ∈ patterns, pat.Mentions v := by
  have hfold : ∀ (terms : List PatternTerm) (seen : List String),
      v ∈ terms.foldl pushVar seen ↔ v ∈ seen ∨ .var v ∈ terms := by
    intro terms
    induction terms with
    | nil => simp
    | cons term terms ih =>
      intro seen
      rw [foldl_cons, ih, mem_cons]
      cases term with
      | term c => simp [pushVar]
      | var name =>
        unfold pushVar
        by_cases hname : name ∈ seen
        · have hv : v = name → v ∈ seen := fun h => h ▸ hname
          simp [hname]
          tauto
        · simp [hname, or_assoc]
  rw [patternVars, hfold, mem_flatMap]
  simp [TriplePattern.Mentions]

namespace SparqlQuery

/-- The values of the selected variables. -/
def project (query : SparqlQuery) (μ : Assignment String RdfTerm) : Assignment String RdfTerm :=
  Assignment.project (fun v => v ∈ query.selected) μ

variable {query : SparqlQuery}

theorem mem_selected {v : String} : v ∈ query.selected ↔
      if query.selectAll = true ∨ query.select = [] then ∃ pat ∈ query.patterns, pat.Mentions v
      else v ∈ query.select := by
  unfold selected projectVars
  by_cases hall : query.selectAll = true
  · simp only [hall, if_true, true_or, ite_self]
    exact mem_patternVars
  · by_cases hselect : query.select = []
    · simp only [hall, hselect, if_true, or_true, if_false, Bool.false_eq_true]
      exact mem_patternVars
    · simp [hall, hselect]

theorem lookup_retain_projectVars (hvars : query.projectVars ≠ []) (b : Binding) :
    (fun v => (Table.retain (fun k _ => query.projectVars.any fun v => v == k) b).lookup v) =
      query.project fun v => b.lookup v := by
  funext v
  rw [lookup_retain, project, Assignment.project, selected, if_neg hvars]
  by_cases hv : v ∈ query.projectVars
  · have hany : (query.projectVars.any fun w => w == v) = true := any_eq_true.mpr ⟨v, hv, beq_self_eq_true v⟩
    rw [if_pos hv]
    cases hb : b.lookup v with
    | some a => exact Option.filter_some_pos hany
    | none => rfl
  · rw [if_neg hv, Option.filter_eq_none_iff]
    intro a _ hany
    obtain ⟨w, hw, heq⟩ := any_eq_true.mp hany
    exact hv (eq_of_beq heq ▸ hw)

theorem project_of_covers (hvars : query.projectVars = []) {μ : Assignment String RdfTerm}
    (h : Covers TriplePattern.Mentions query.patterns μ) :
    query.project μ = μ := by
  funext v
  rw [project, Assignment.project]
  split
  · rfl
  · rename_i hv
    rw [selected, if_pos hvars, mem_patternVars] at hv
    exact (Option.not_isSome_iff_eq_none.mp fun hsome => hv ((h v).mp hsome)).symm

/-- **The rows without a limit are the projections of the solutions**, of each solution one. -/
theorem rows_evaluate (h : store.Represents set) (hpatterns : query.patterns ≠ []) (hlimit : query.limit = none) :
    ∃ sols : List (Assignment String RdfTerm), sols.Nodup ∧ (∀ μ, μ ∈ sols ↔ query.Solution parseF64 set μ) ∧
      rows (evaluate parseF64 query store) = sols.map query.project := by
  obtain ⟨pat, pats, hcons⟩ := exists_cons_of_ne_nil hpatterns
  obtain ⟨hnodup, hmem⟩ := joined_patterns h pat pats
  rw [← hcons] at hmem
  generalize hjoined : joinPatterns store pats (evaluatePattern pat store) = joined at hnodup hmem
  have hfilter : (if query.filters.isEmpty then joined
      else joined.filter fun b => query.filters.all fun f => evalFilter parseF64 f b) =
      joined.filter fun b => query.filters.all fun f => evalFilter parseF64 f b := by
    split
    · rename_i hempty
      rw [List.isEmpty_iff.mp hempty]
      simp
    · rfl
  have hpasses : ∀ b, (query.filters.all fun f => evalFilter parseF64 f b) = true ↔
      ∀ f ∈ query.filters, f.Passes parseF64 fun v => b.lookup v := by simp [evalFilter_iff]
  refine ⟨rows (joined.filter fun b => query.filters.all fun f => evalFilter parseF64 f b),
    hnodup.sublist (List.Sublist.map _ filter_sublist), fun μ => ?_, ?_⟩
  · constructor
    · intro hμ
      obtain ⟨b, hb, rfl⟩ := List.mem_map.mp hμ
      obtain ⟨hin, hall⟩ := mem_filter.mp hb
      obtain ⟨hcovers, hholds⟩ := (hmem _).mp (mem_map_of_mem hin)
      exact ⟨hcovers, hholds, (hpasses b).mp hall⟩
    · rintro ⟨hcovers, hholds, hall⟩
      obtain ⟨b, hb, rfl⟩ := List.mem_map.mp ((hmem μ).mpr ⟨hcovers, hholds⟩)
      exact mem_map_of_mem (mem_filter.mpr ⟨hb, (hpasses b).mpr hall⟩)
  · unfold evaluate
    rw [hcons, hlimit]
    dsimp only
    rw [hjoined, hfilter]
    split
    · rename_i hempty
      have hvars := List.isEmpty_iff.mp hempty
      rw [← map_id (rows _), rows, map_map, map_map]
      refine map_congr_left fun b hb => ?_
      have hcovers := ((hmem _).mp (mem_map_of_mem (mem_filter.mp hb).1)).1
      exact (project_of_covers hvars hcovers).symm
    · rename_i hempty
      have hvars : query.projectVars ≠ [] := fun hnil => hempty (List.isEmpty_iff.mpr hnil)
      rw [rows, rows, map_map, map_map]
      exact map_congr_left fun b _ => lookup_retain_projectVars hvars b

/-- A limit takes the first rows. -/
theorem evaluate_limit {n : ℕ} (hlimit : query.limit = some n) :
    evaluate parseF64 query store = (evaluate parseF64 { query with limit := none } store).take n := by
  obtain ⟨select, selectAll, patterns, filters, limit⟩ := query
  cases hlimit
  cases patterns with
  | nil => exact take_nil.symm
  | cons pat pats => rfl

/-- The same query, but for the order of the patterns and of the filters and for the limit. -/
structure Reorders (query' query : SparqlQuery) : Prop where
  patterns : query'.patterns.Perm query.patterns
  filters : query'.filters.Perm query.filters
  select : query'.select = query.select
  selectAll : query'.selectAll = query.selectAll

variable {query' : SparqlQuery}

theorem Reorders.solution_iff (h : query'.Reorders query) (μ : Assignment String RdfTerm) :
    query'.Solution parseF64 set μ ↔ query.Solution parseF64 set μ := by
  have hcovers : Covers TriplePattern.Mentions query'.patterns μ ↔
      Covers TriplePattern.Mentions query.patterns μ := by
    simp only [Covers, h.patterns.mem_iff]
  constructor
  · rintro ⟨hc, hh, hp⟩
    exact ⟨hcovers.mp hc, fun pat hpat => hh pat (h.patterns.mem_iff.mpr hpat),
      fun f hf => hp f (h.filters.mem_iff.mpr hf)⟩
  · rintro ⟨hc, hh, hp⟩
    exact ⟨hcovers.mpr hc, fun pat hpat => hh pat (h.patterns.mem_iff.mp hpat),
      fun f hf => hp f (h.filters.mem_iff.mp hf)⟩

theorem Reorders.project_eq (h : query'.Reorders query) : query'.project = query.project := by
  funext μ v
  have hmem : v ∈ query'.selected ↔ v ∈ query.selected := by
    rw [mem_selected, mem_selected, h.select, h.selectAll]
    simp only [h.patterns.mem_iff]
  exact if_congr hmem rfl rfl

/-- **Evaluation answers the query**: for every store that calls build, the rows are the projections to the
selected variables of all solutions, of each solution one; their order apart, they do not depend on the
order of the patterns or the filters, and a limit keeps as many of them as it allows. -/
theorem evaluate_exact (cs : List TripleStore.Call) (query : SparqlQuery) (hpatterns : query.patterns ≠ []) :
    ∃ sols : Finset (Assignment String RdfTerm),
      (∀ μ, μ ∈ sols ↔ query.Solution parseF64 (TripleStore.setOf cs) μ) ∧
      ∀ query' : SparqlQuery, query'.Reorders query → let answers := sols.val.map query.project
        let found : Multiset (Assignment String RdfTerm) :=
          rows (evaluate parseF64 query' (TripleStore.calls cs))
        (query'.limit = none → found = answers) ∧
          ∀ n, query'.limit = some n → found ≤ answers ∧ found.card = min n answers.card := by
  have h := TripleStore.represents_calls cs
  obtain ⟨sols, hnodup, hsols, -⟩ := @rows_evaluate _ _ parseF64 { query with limit := none } h hpatterns rfl
  have hunlimited : { query with limit := none }.Reorders query := ⟨.refl _, .refl _, rfl, rfl⟩
  have hsolution : ∀ μ, μ ∈ sols ↔ query.Solution parseF64 (TripleStore.setOf cs) μ := fun μ =>
    (hsols μ).trans (hunlimited.solution_iff parseF64 μ)
  refine ⟨⟨sols, hnodup⟩, hsolution, fun query' hquery' => ?_⟩
  have hrows : ∀ q : SparqlQuery, q.Reorders query → q.limit = none →
      (rows (evaluate parseF64 q (TripleStore.calls cs)) : Multiset (Assignment String RdfTerm)) =
        (sols.map query.project : List (Assignment String RdfTerm)) := by
    intro q hq hlimit
    have hne : q.patterns ≠ [] := fun hnil =>
      hpatterns (perm_nil.mp (hnil ▸ hq.patterns.symm))
    obtain ⟨sols', hnodup', hsols', hfound⟩ := rows_evaluate parseF64 h hne hlimit
    have hperm : sols'.Perm sols := (perm_ext_iff_of_nodup hnodup' hnodup).mpr fun μ => by
      rw [hsols', hsolution, hq.solution_iff]
    rw [hfound, hq.project_eq, Multiset.coe_eq_coe]
    exact hperm.map _
  refine ⟨hrows query' hquery', fun n hlimit => ?_⟩
  have hfull := hrows { query' with limit := none }
    ⟨hquery'.patterns, hquery'.filters, hquery'.select, hquery'.selectAll⟩ rfl
  change Multiset.ofList (rows (evaluate parseF64 query' (TripleStore.calls cs))) ≤
      Multiset.ofList (sols.map query.project) ∧
    (rows (evaluate parseF64 query' (TripleStore.calls cs))).length =
      min n (Multiset.ofList (sols.map query.project)).card
  rw [← hfull, evaluate_limit parseF64 hlimit, rows, map_take]
  refine ⟨Multiset.coe_le.mpr (take_sublist n _).subperm, ?_⟩
  rw [length_take, Multiset.coe_card]
  rfl

/-- Who knows somebody, and whom. -/
def whoKnows : SparqlQuery where
  select := ["x"]
  selectAll := false
  patterns := [⟨.var "x", .term (.uri "knows"), .var "y"⟩, ⟨.var "y", .term (.uri "knows"), .var "x"⟩]
  filters := [⟨"x", .ne, .iri "bob"⟩]
  limit := none

theorem evaluate_exact_whoKnows : ∃ sols : Finset (Assignment String RdfTerm),
      (∀ μ, μ ∈ sols ↔ whoKnows.Solution (fun _ => none)
        (TripleStore.setOf [.insert ⟨.uri "ann", .uri "knows", .uri "bob"⟩]) μ) ∧
      (rows (evaluate (fun _ => none) { whoKnows with patterns := whoKnows.patterns.reverse, limit := some 1 }
        (TripleStore.calls [.insert ⟨.uri "ann", .uri "knows", .uri "bob"⟩]))).length =
          min 1 (sols.val.map whoKnows.project).card := by
  obtain ⟨sols, hsols, h⟩ := evaluate_exact (fun _ => none)
    [.insert ⟨.uri "ann", .uri "knows", .uri "bob"⟩] whoKnows (by decide)
  have hreorders : { whoKnows with
      patterns := whoKnows.patterns.reverse, limit := some 1 }.Reorders whoKnows :=
    ⟨reverse_perm _, .refl _, rfl, rfl⟩
  exact ⟨sols, hsols, ((h _ hreorders).2 1 rfl).2⟩

/-- Rows are not projected where the list of selected variables is empty: they keep every variable. -/
theorem unselected_rows_keep_variables :
    let query := { whoKnows with select := [], patterns := [⟨.var "x", .var "p", .var "y"⟩] }
    let cs := [TripleStore.Call.insert ⟨.uri "ann", .uri "knows", .uri "bob"⟩]
    query.projectVars = [] ∧ ¬∃ sols : Finset (Assignment String RdfTerm),
        (∀ μ, μ ∈ sols ↔ query.Solution (fun _ => none) (TripleStore.setOf cs) μ) ∧
        (rows (evaluate (fun _ => none) query (TripleStore.calls cs)) : Multiset _) =
          sols.val.map (Assignment.project fun v => v ∈ query.projectVars) := by
  refine ⟨rfl, ?_⟩
  rintro ⟨sols, -, hrows⟩
  have hrow : (some (.uri "ann") : Option RdfTerm) ∈ (rows (evaluate (fun _ => none)
      { whoKnows with select := [], patterns := [⟨.var "x", .var "p", .var "y"⟩] }
      (TripleStore.calls [.insert ⟨.uri "ann", .uri "knows", .uri "bob"⟩]))).map fun μ => μ "x" := by
    decide
  obtain ⟨μ, hμ, hx⟩ := List.mem_map.mp hrow
  have hmem := Multiset.mem_coe.mpr hμ
  rw [hrows] at hmem
  obtain ⟨ρ, -, rfl⟩ := Multiset.mem_map.mp hmem
  cases hx

end SparqlQuery

end CenDB.Rdf
