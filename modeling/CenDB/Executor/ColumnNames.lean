import CenDB.Executor.Subquery

/-! # Column names

Projections, sorts and expressions look a name up in the same way (`readsAt_iff`): they take the first column
whose name agrees up to the qualification, and column 0 if there is none.  So a column is not found under its
own name when one before it has the same bare name, and a bare name that several columns end in, or none,
is resolved all the same. -/

namespace CenDB.Executor

open Cenql List
open Storage (Value Halt)

/-- A name stands for the column at a position: in expressions, projections and sorts. -/
structure ReadsAt (rt : Runtime) (provider : TableProvider) (cols : List String) (name : String) (i : ℕ) : Prop where
  eval : ∀ row, evalExpr rt provider (.column name) row (some cols) = .ok (cell row i)
  select : ∀ columns k, columns[k]? = some name → ∀ rows out outCols,
    executeStage rt provider (.select columns) rows (some cols) = .ok (out, outCols) →
      out.map (fun row => cell row k) = rows.map fun row => cell row i
  sort : ∀ dir rows, executeStage rt provider (.sort name dir) rows (some cols) = .ok (sortRows dir i rows, some cols)

/-- A name that occurs stands for a column of this name; a bare one that does not, for the only column whose
name ends in it, or for none. -/
structure ResolvesRight (rt : Runtime) (provider : TableProvider) (cols : List String) (name : String) : Prop where
  exact : name ∈ cols → ∃ i, cols[i]? = some name ∧ ReadsAt rt provider cols name i
  bare : bareName name = name → name ∉ cols → ∀ i, ReadsAt rt provider cols name i →
    (∃ c, cols[i]? = some c ∧ bareName c = name) ∧ ∀ j c, cols[j]? = some c → bareName c = name → j = i

/-- No column before the first of this name has the same bare name; and if there is none of this name, which
is a bare one, then one column ends in it. -/
structure Distinguished (cols : List String) (name : String) : Prop where
  exact : name ∈ cols → ∀ c ∈ cols.takeWhile fun c => c ≠ name, bareName c ≠ bareName name
  bare : bareName name = name → name ∉ cols → (cols.countP fun c => bareName c = name) = 1

variable {rt : Runtime} {provider : TableProvider} {cols : List String} {name : String}

/-- Positions are told apart by the rows. -/
theorem cell_inj {i j : ℕ} (h : ∀ row, cell row i = cell row j) : i = j := by
  by_contra hne
  have hrow := h (List.replicate i Value.null ++ [Value.bool true])
  have hi : cell (List.replicate i Value.null ++ [Value.bool true]) i = .bool true := by simp [cell]
  have hj : cell (List.replicate i Value.null ++ [Value.bool true]) j = .null := by
    rcases Nat.lt_or_gt_of_ne hne with hlt | hlt
    · have hlength : (List.replicate i Value.null ++ [Value.bool true]).length ≤ j := by simpa using hlt
      rw [cell, getElem?_eq_none hlength]
      rfl
    · rw [cell, getElem?_append_left (by simpa using hlt), getElem?_replicate, if_pos hlt]
      rfl
  rw [hi, hj] at hrow
  cases hrow

/-- The three searches agree. -/
theorem readsAt_iff {i : ℕ} : ReadsAt rt provider cols name i ↔ i = columnIndex cols name := by
  constructor
  · intro h
    refine cell_inj fun row => ?_
    exact (Except.ok.inj (h.eval row)).symm
  · rintro rfl
    refine ⟨fun _ => rfl, ?_, fun _ _ => rfl⟩
    intro columns k hname rows out outCols hout
    cases hout
    rw [selectRows, map_map]
    refine map_congr_left fun row _ => ?_
    have hindex : ((selectIndices (some cols) columns).map (cell row))[k]? =
        some (cell row (columnIndex cols name)) := by simp [selectIndices, hname]
    rw [Function.comp_apply, cell, hindex]
    rfl

theorem columnIndex_eq (cols : List String) (name : String) :
    columnIndex cols name = (cols.findIdx? fun c => bareName c = bareName name).getD 0 := by
  have hsame : (fun c => decide (c = name ∨ bareName c = bareName name)) =
      fun c => decide (bareName c = bareName name) := by
    funext c
    refine decide_eq_decide.mpr ⟨?_, .inr⟩
    rintro (rfl | h)
    · rfl
    · exact h
  rw [columnIndex, hsame]

/-- A name that occurs is found unless a column before it has the same bare name. -/
theorem getElem?_columnIndex (h : name ∈ cols) : cols[columnIndex cols name]? = some name ↔
    ∀ c ∈ cols.takeWhile fun c => c ≠ name, bareName c ≠ bareName name := by
  induction cols with
  | nil => cases h
  | cons c cols ih =>
    rw [columnIndex_eq, findIdx?_cons]
    by_cases hc : c = name
    · subst hc
      simp
    · have hmem : name ∈ cols := (mem_cons.mp h).resolve_left (Ne.symm hc)
      have htake : (c :: cols).takeWhile (fun c => c ≠ name) = c :: cols.takeWhile fun c => c ≠ name :=
        takeWhile_cons_of_pos (by simpa using hc)
      rw [htake, forall_mem_cons]
      by_cases hbare : bareName c = bareName name
      · simp [hbare, hc]
      · have hfound : (cols.findIdx? fun c => bareName c = bareName name).isSome := by
          rw [findIdx?_isSome, any_eq_true]
          exact ⟨name, hmem, by simp⟩
        obtain ⟨j, hj⟩ := Option.isSome_iff_exists.mp hfound
        rw [← ih hmem, columnIndex_eq]
        simp [hbare, hj]

/-- The first entry that passes a test is the only one exactly if one entry does. -/
theorem only_findIdx?_iff {α : Type*} (p : α → Bool) (l : List α) :
    ((∃ c, l[(l.findIdx? p).getD 0]? = some c ∧ p c = true) ∧
      ∀ (j : ℕ) c, l[j]? = some c → p c = true → j = (l.findIdx? p).getD 0) ↔ l.countP p = 1 := by
  cases hfind : l.findIdx? p with
  | none =>
    have hnone := findIdx?_eq_none_iff.mp hfind
    have hcount : l.countP p = 0 := countP_eq_zero.mpr fun c hc => by simp [hnone c hc]
    rw [hcount]
    refine iff_of_false ?_ Nat.zero_ne_one
    rintro ⟨⟨c, hc, hp⟩, -⟩
    rw [hnone c (mem_of_getElem? hc)] at hp
    cases hp
  | some i =>
    obtain ⟨hi, hp, hbefore⟩ := findIdx?_eq_some_iff_getElem.mp hfind
    have hcount : l.countP p = 1 + (l.drop (i + 1)).countP p := by
      have hsplit : l = l.take i ++ l[i] :: l.drop (i + 1) := by simp
      have hzero : (l.take i).countP p = 0 := by
        refine countP_eq_zero.mpr fun c hc => ?_
        obtain ⟨j, hj, rfl⟩ := getElem_of_mem hc
        rw [length_take] at hj
        rw [getElem_take]
        exact hbefore j (by omega)
      conv_lhs => rw [hsplit]
      rw [countP_append, hzero, countP_cons_of_pos hp, Nat.zero_add, Nat.add_comm]
    rw [hcount, Nat.add_eq_left, countP_eq_zero, Option.getD_some]
    constructor
    · rintro ⟨-, honly⟩ c hc hpc
      obtain ⟨j, hj⟩ := mem_iff_getElem?.mp hc
      rw [getElem?_drop] at hj
      have heq := honly _ c hj hpc
      omega
    · intro hafter
      refine ⟨⟨l[i], getElem?_eq_getElem hi, hp⟩, fun j c hj hpc => ?_⟩
      rcases Nat.lt_trichotomy j i with hlt | heq | hgt
      · obtain ⟨hlength, rfl⟩ := List.getElem?_eq_some_iff.mp hj
        exact absurd hpc (hbefore j hlt)
      · exact heq
      · refine absurd hpc (hafter c (mem_iff_getElem?.mpr ⟨j - (i + 1), ?_⟩))
        rw [getElem?_drop]
        have hindex : i + 1 + (j - (i + 1)) = j := by omega
        rw [hindex]
        exact hj

/-- **A name is resolved right exactly if no other column comes in its way.** -/
theorem resolvesRight_iff (rt : Runtime) (provider : TableProvider) (cols : List String) (name : String) :
    ResolvesRight rt provider cols name ↔ Distinguished cols name := by
  have hexact (h : name ∈ cols) : (∃ i, cols[i]? = some name ∧ ReadsAt rt provider cols name i) ↔
      ∀ c ∈ cols.takeWhile fun c => c ≠ name, bareName c ≠ bareName name := by
    rw [← getElem?_columnIndex h]
    constructor
    · rintro ⟨i, hi, hreads⟩
      rwa [← readsAt_iff.mp hreads]
    · intro hi
      exact ⟨_, hi, readsAt_iff.mpr rfl⟩
  have hbare (h : bareName name = name) : (∀ i, ReadsAt rt provider cols name i →
      (∃ c, cols[i]? = some c ∧ bareName c = name) ∧ ∀ (j : ℕ) c, cols[j]? = some c → bareName c = name → j = i) ↔
      (cols.countP fun c => bareName c = name) = 1 := by
    have honly := only_findIdx?_iff (fun c => decide (bareName c = name)) cols
    simp only [decide_eq_true_iff] at honly
    have hindex : columnIndex cols name = (cols.findIdx? fun c => bareName c = name).getD 0 := by
      rw [columnIndex_eq, h]
    rw [← honly, ← hindex]
    simp only [readsAt_iff, forall_eq]
  constructor
  · intro h
    exact ⟨fun hmem => (hexact hmem).mp (h.exact hmem), fun hname hmem => (hbare hname).mp (h.bare hname hmem)⟩
  · intro h
    exact ⟨fun hmem => (hexact hmem).mpr (h.exact hmem), fun hname hmem => (hbare hname).mpr (h.bare hname hmem)⟩

/-- With the columns `a.x` and `b.x`, the name `b.x` stands for the first one. -/
theorem not_resolvesRight : ¬∀ rt provider cols name, ResolvesRight rt provider cols name := by
  intro h
  obtain ⟨i, hi, hreads⟩ := (h (machine fun _ => "") ⟨fun _ => .ok [], fun _ => none⟩ ["a.x", "b.x"] "b.x").exact
    (by decide)
  have hindex : columnIndex ["a.x", "b.x"] "b.x" = 0 := by decide
  rw [readsAt_iff.mp hreads, hindex] at hi
  revert hi
  decide

end CenDB.Executor
