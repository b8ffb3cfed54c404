import CenDB.Jit.Filter

/-! # Compiled plans

A plan keeps the rows that all of its filters select and, for the aggregation `Sum`, adds up their values.  Its
rows have numbers of 32 bits, like those of its filters.  The sum of a plan is that of an iterator, which
panics on overflow in a build with overflow checks; `sum_i64` wraps around in every build.

`rows` are the rows that pass, at any length of the column.  The plan gives exactly these if no others share
their numbers modulo `2 ^ 32` (`RowsFit`), as in any column of at most `2 ^ 32` rows (`rowsFit_of_length_le`),
and the sum of their values if no running sum overflows or nothing checks for it (`agrees_iff`). -/

namespace CenDB.Jit

open Executor Guarded List UInt32

structure JitPlan where
  filters : List JitFilter
  aggregation : Option JitOp

/-- The range of `i64`. -/
def InI64 (x : ℤ) : Prop := -2 ^ 63 ≤ x ∧ x < 2 ^ 63

instance (x : ℤ) : Decidable (InI64 x) := inferInstanceAs (Decidable (_ ∧ _))

/-- `a + b`, in a build with or without overflow checks. -/
def addI64 (overflowChecks : Bool) (a b : Int64) : Except Halt Int64 :=
  if overflowChecks = true ∧ ¬InI64 (a.toInt + b.toInt) then .error .overflow else .ok (a + b)

namespace JitPlan

/-- The loop over the filters; `alloc k` is where the indices of the `k`-th are allocated. -/
def retainAll (alloc : ℕ → BitVec 64) (col : Slice) : ℕ → List JitFilter → SelectionVector →
    Except Halt SelectionVector
  | _, [], sv => .ok sv
  | k, filter :: filters, sv => do
    let filterSv ← filter.execute (alloc k) col
    retainAll alloc col (k + 1) filters ⟨sv.indices.filter fun idx => decide (idx ∈ filterSv.indices)⟩

def execute (overflowChecks : Bool) (alloc : ℕ → BitVec 64) (plan : JitPlan) (col : Slice) :
    Except Halt (SelectionVector × Option Int64) := do
  let all : SelectionVector := ⟨(List.range col.values.length).map UInt32.ofNat⟩
  let sv ← retainAll alloc col 0 plan.filters all
  match plan.aggregation with
  | some .sum => do
    let values ← sv.gatherI64 .outOfBounds col.values
    let sum ← values.foldlM (addI64 overflowChecks) 0
    return (sv, some sum)
  | _ => return (sv, none)

end JitPlan

/-! ### The rows that pass -/

/-- A row that the interpreted filter selects: its value passes the comparison.  The fallback of `Sum` selects
the row whose number is the sum. -/
def JitFilter.passes (filter : JitFilter) (col : List Int64) (i : ℕ) : Bool :=
  match filter.op.pass filter.value with
  | some p => (col[i]?).any p
  | none => i == (toU32 (sumI64 col)).toNat

namespace JitPlan

/-- The rows that pass all filters. -/
def rows (plan : JitPlan) (col : List Int64) : List ℕ :=
  (List.range col.length).filter fun i => plan.filters.all fun filter => filter.passes col i

def rowValues (plan : JitPlan) (col : List Int64) : List Int64 := (plan.rows col).map fun i => col.getD i 0

/-- The execution gives the rows that pass and, for `Sum`, what `sum_i64` gives for their values. -/
def ExecutesRight (overflowChecks : Bool) (alloc : ℕ → BitVec 64) (plan : JitPlan) (col : Slice) : Prop :=
  ∃ sv agg, plan.execute overflowChecks alloc col = .ok (sv, agg) ∧
    sv.indices.map UInt32.toNat = plan.rows col.values ∧
    agg = if plan.aggregation = some .sum then some (sumI64 (plan.rowValues col.values)) else none

/-- A row that shares its number modulo `2 ^ 32` with a passing row of every filter passes them itself, and its
number has 32 bits. -/
def RowsFit (plan : JitPlan) (col : List Int64) : Prop :=
  ∀ i < col.length,
    (∀ filter ∈ plan.filters, ∃ j < col.length, j % 2 ^ 32 = i % 2 ^ 32 ∧ filter.passes col j = true) →
    i < 2 ^ 32 ∧ ∀ filter ∈ plan.filters, filter.passes col i = true

end JitPlan

/-- No running sum, from `start` on, leaves the range. -/
def SumsFit (start : ℤ) (values : List Int64) : Prop :=
  ∀ k ≤ values.length, InI64 (start + ((values.take k).map Int64.toInt).sum)

/-! ### Sums -/

theorem inI64_toInt (x : Int64) : InI64 x.toInt := ⟨x.le_toInt, x.toInt_lt⟩

theorem toInt_add_of_inI64 {a b : Int64} (h : InI64 (a.toInt + b.toInt)) : (a + b).toInt = a.toInt + b.toInt := by
  obtain ⟨hle, hlt⟩ := h
  rw [Int64.toInt_add, Int.bmod_eq_of_le (by omega) (by omega)]

theorem sumsFit_cons {start : ℤ} {v : Int64} {values : List Int64} :
    SumsFit start (v :: values) ↔ InI64 start ∧ SumsFit (start + v.toInt) values := by
  constructor
  · intro h
    refine ⟨by simpa using h 0 (Nat.zero_le _), fun k hk => ?_⟩
    have hsum := h (k + 1) (Nat.succ_le_succ hk)
    rwa [take_succ_cons, map_cons, sum_cons, ← add_assoc] at hsum
  · rintro ⟨hstart, hrest⟩ k hk
    cases k with
    | zero => simpa using hstart
    | succ k =>
      rw [take_succ_cons, map_cons, sum_cons, ← add_assoc]
      exact hrest k (Nat.le_of_succ_le_succ hk)

theorem addI64_failsUnless (overflowChecks : Bool) (a b : Int64) :
    FailsUnless .overflow (overflowChecks = true → InI64 (a.toInt + b.toInt)) (addI64 overflowChecks a b)
      (.ok (a + b)) := by
  refine ⟨fun h => if_neg ?_, fun h => if_pos ?_, fun h => by cases h⟩
  · rintro ⟨hchecks, hout⟩
    exact hout (h hchecks)
  · exact Classical.not_imp.mp h

/-- A sum overflows when one of its running sums does. -/
theorem foldlM_addI64 (overflowChecks : Bool) (values : List Int64) (a : Int64) :
    FailsUnless .overflow (overflowChecks = true → SumsFit a.toInt values) (values.foldlM (addI64 overflowChecks) a)
      (.ok (values.foldl (fun a b => a + b) a)) := by
  induction values generalizing a with
  | nil =>
    refine (failsUnless_ok a).congr (iff_of_true trivial fun _ k hk => ?_)
    obtain rfl := Nat.le_zero.mp hk
    simpa using inI64_toInt a
  | cons v values ih =>
    rw [foldlM_cons, foldl_cons]
    refine ((addI64_failsUnless overflowChecks a v).bind_ok (ih (a + v))).congr ?_
    rw [← forall_and]
    refine forall_congr' fun _ => ?_
    rw [sumsFit_cons]
    constructor
    · rintro ⟨hadd, hrest⟩
      exact ⟨inI64_toInt a, by rwa [toInt_add_of_inI64 hadd] at hrest⟩
    · rintro ⟨-, hrest⟩
      have hadd : InI64 (a.toInt + v.toInt) := by simpa using hrest 0 (Nat.zero_le _)
      exact ⟨hadd, by rwa [toInt_add_of_inI64 hadd]⟩

/-! ### Selections -/

theorem ofNat_eq_ofNat_iff {i j : ℕ} : UInt32.ofNat j = UInt32.ofNat i ↔ j % 2 ^ 32 = i % 2 ^ 32 := by
  rw [← UInt32.toNat_inj, UInt32.toNat_ofNat', UInt32.toNat_ofNat']

/-- The number of a row is selected when that of a passing row is the same. -/
theorem mem_interpreted {filter : JitFilter} {col : List Int64} {i : ℕ} (hi : i < col.length) :
    UInt32.ofNat i ∈ (interpreted filter.op filter.value col).indices ↔
      ∃ j < col.length, j % 2 ^ 32 = i % 2 ^ 32 ∧ filter.passes col j = true := by
  cases hp : filter.op.pass filter.value with
  | some p =>
    simp only [JitFilter.passes, hp]
    rw [interpreted_of_pass hp, filterI64_indices, List.mem_map]
    constructor
    · rintro ⟨j, hj, heq⟩
      obtain ⟨hlt, hpass⟩ := mem_rowsWhere.mp hj
      exact ⟨j, hlt, ofNat_eq_ofNat_iff.mp heq, hpass⟩
    · rintro ⟨j, hlt, hmod, hpass⟩
      exact ⟨j, mem_rowsWhere.mpr ⟨hlt, hpass⟩, ofNat_eq_ofNat_iff.mpr hmod⟩
  | none =>
    simp only [JitFilter.passes, hp, beq_iff_eq]
    rw [interpreted_of_pass_none hp, mem_singleton]
    constructor
    · intro h
      have hnum : (toU32 (sumI64 col)).toNat = i % 2 ^ 32 := by
        rw [← h, UInt32.toNat_ofNat']
      exact ⟨_, by omega, by omega, rfl⟩
    · rintro ⟨j, -, hmod, rfl⟩
      rw [← ofNat_eq_ofNat_iff.mpr hmod, UInt32.ofNat_toNat]

theorem map_eq_filter_iff {xs : List ℕ} {f : ℕ → ℕ} {p : ℕ → Bool} :
    xs.map f = xs.filter p ↔ ∀ i ∈ xs, f i = i ∧ p i = true := by
  constructor
  · intro h
    have hlen : (xs.filter p).length = xs.length := by
      rw [← h, length_map]
    have hp := length_filter_eq_length_iff.mp hlen
    have hid : xs.map f = xs.map id := by
      rw [h, map_id, filter_eq_self.mpr hp]
    exact fun i hi => ⟨map_inj_left.mp hid i hi, hp i hi⟩
  · intro h
    rw [filter_eq_self.mpr fun i hi => (h i hi).2]
    exact (map_congr_left fun i hi => (h i hi).1).trans (map_id' xs)

namespace JitPlan

/-- The rows whose numbers all filters select. -/
def reached (plan : JitPlan) (col : List Int64) : List ℕ :=
  (List.range col.length).filter fun i =>
    plan.filters.all fun filter => decide (UInt32.ofNat i ∈ (interpreted filter.op filter.value col).indices)

theorem retainAll_eq (alloc : ℕ → BitVec 64) (col : Slice) (k : ℕ) (filters : List JitFilter) (sv : SelectionVector) :
    retainAll alloc col k filters sv = .ok ⟨sv.indices.filter fun idx =>
      filters.all fun filter => decide (idx ∈ (interpreted filter.op filter.value col.values).indices)⟩ := by
  induction filters generalizing k sv with
  | nil => exact congrArg (fun l => Except.ok (SelectionVector.mk l)) (filter_true _).symm
  | cons filter filters ih =>
    rw [retainAll, filter.execute_eq]
    simp only [bind, Except.bind, ih, filter_filter, all_cons, Bool.and_comm]

/-- The selection of an execution. -/
def selection (plan : JitPlan) (col : List Int64) : SelectionVector := ⟨(plan.reached col).map UInt32.ofNat⟩

variable {plan : JitPlan} {col : List Int64}

theorem lt_of_mem_reached {i : ℕ} (h : i ∈ plan.reached col) : i < col.length := mem_range.mp (mem_filter.mp h).1

theorem mem_reached {i : ℕ} (hi : i < col.length) : i ∈ plan.reached col ↔
      ∀ filter ∈ plan.filters, ∃ j < col.length, j % 2 ^ 32 = i % 2 ^ 32 ∧ filter.passes col j = true := by
  simp only [reached, mem_filter, mem_range, hi, true_and, all_eq_true, decide_eq_true_eq, mem_interpreted hi]

theorem retainAll_all (alloc : ℕ → BitVec 64) (plan : JitPlan) (col : Slice) :
    retainAll alloc col 0 plan.filters ⟨(List.range col.values.length).map UInt32.ofNat⟩ =
      .ok (plan.selection col.values) := by
  rw [retainAll_eq, filter_map]
  rfl

/-- No index is outside of the column. -/
theorem gatherI64_selection (plan : JitPlan) (col : List Int64) :
    (plan.selection col).gatherI64 Halt.outOfBounds col =
      .ok ((plan.reached col).map fun i => col.getD (i % 2 ^ 32) 0) := by
  have hindex : ∀ idx ∈ (plan.selection col).indices,
      index Halt.outOfBounds col idx.toNat = .ok (col.getD idx.toNat 0) := by
    intro idx hidx
    obtain ⟨i, hi, rfl⟩ := List.mem_map.mp hidx
    have hlt := lt_of_mem_reached hi
    refine index_of_lt ?_ 0
    rw [toNat_ofNat']
    omega
  rw [SelectionVector.gatherI64, mapM_eq_ok hindex, selection, map_map]
  refine congrArg Except.ok (map_congr_left fun i _ => ?_)
  rw [Function.comp_apply, toNat_ofNat']

theorem execute_of_ne (h : plan.aggregation ≠ some .sum) (overflowChecks : Bool) (alloc : ℕ → BitVec 64)
    (col : Slice) :
    plan.execute overflowChecks alloc col = .ok (plan.selection col.values, none) := by
  simp [execute, retainAll_all]

theorem execute_of_sum (h : plan.aggregation = some .sum) (overflowChecks : Bool) (alloc : ℕ → BitVec 64)
    (col : Slice) :
    plan.execute overflowChecks alloc col =
      (((plan.reached col.values).map fun i => col.values.getD (i % 2 ^ 32) 0).foldlM (addI64 overflowChecks) 0 >>=
        fun sum => pure (plan.selection col.values, some sum)) := by
  simp only [execute, retainAll_all, bind, Except.bind, h, gatherI64_selection]

/-- The rows that pass are reached. -/
theorem rows_eq_filter (plan : JitPlan) (col : List Int64) :
    plan.rows col = (plan.reached col).filter fun i => plan.filters.all fun filter => filter.passes col i := by
  rw [rows, reached, filter_filter]
  refine filter_congr fun i hi => ?_
  have hlt := mem_range.mp hi
  rw [Bool.eq_iff_iff, Bool.and_eq_true, all_eq_true, all_eq_true]
  refine ⟨fun h => ⟨h, fun filter hfilter => ?_⟩, fun h => h.1⟩
  exact decide_eq_true ((mem_interpreted hlt).mpr ⟨i, hlt, rfl, h filter hfilter⟩)

theorem rowsFit_iff : plan.RowsFit col ↔ ∀ i ∈ plan.reached col,
      i % 2 ^ 32 = i ∧ (plan.filters.all fun filter => filter.passes col i) = true := by
  have hlow : ∀ i : ℕ, i % 2 ^ 32 = i ↔ i < 2 ^ 32 := fun i => by omega
  simp only [hlow, all_eq_true]
  constructor
  · intro h i hi
    have hlt := lt_of_mem_reached hi
    exact h i hlt ((mem_reached hlt).mp hi)
  · intro h i hlt hpass
    exact h i ((mem_reached hlt).mpr hpass)

/-- The numbers of the selected rows are the rows that pass. -/
theorem selection_iff (plan : JitPlan) (col : List Int64) :
    (plan.selection col).indices.map UInt32.toNat = plan.rows col ↔ plan.RowsFit col := by
  have hnums : (plan.selection col).indices.map UInt32.toNat = (plan.reached col).map fun i => i % 2 ^ 32 := by
    rw [selection, map_map]
    refine map_congr_left fun i _ => ?_
    rw [Function.comp_apply, toNat_ofNat']
  rw [hnums, rows_eq_filter, map_eq_filter_iff, rowsFit_iff]

/-- In any column whose rows have different numbers. -/
theorem rowsFit_of_length_le (plan : JitPlan) (h : col.length ≤ 2 ^ 32) : plan.RowsFit col := by
  intro i hi hpass
  refine ⟨by omega, fun filter hfilter => ?_⟩
  obtain ⟨j, hj, hmod, hrow⟩ := hpass filter hfilter
  have heq : j = i := by omega
  rwa [← heq]

/-- The values of the rows that pass, if the plan selects these. -/
theorem selected_values (h : plan.RowsFit col) :
    ((plan.reached col).map fun i => col.getD (i % 2 ^ 32) 0) = plan.rowValues col := by
  rw [rowsFit_iff] at h
  rw [rowValues, rows_eq_filter, filter_eq_self.mpr fun i hi => (h i hi).2]
  refine map_congr_left fun i hi => ?_
  rw [(h i hi).1]

theorem executesRight_iff (overflowChecks : Bool) (alloc : ℕ → BitVec 64) (plan : JitPlan) (col : Slice) :
    plan.ExecutesRight overflowChecks alloc col ↔ plan.RowsFit col.values ∧
        (overflowChecks = true → plan.aggregation = some .sum → SumsFit 0 (plan.rowValues col.values)) := by
  by_cases hagg : plan.aggregation = some .sum
  · have hexecute := execute_of_sum hagg overflowChecks alloc col
    constructor
    · rintro ⟨sv, agg, hok, hrows, -⟩
      obtain ⟨sum, hsum, hpair⟩ := of_bind_eq_ok (hexecute.symm.trans hok)
      obtain ⟨rfl, -⟩ := Prod.mk.inj (Except.ok.inj hpair)
      have hfit := (selection_iff plan col.values).mp hrows
      rw [selected_values hfit] at hsum
      exact ⟨hfit, fun hchecks _ => (foldlM_addI64 overflowChecks _ 0).ok_iff.mp ⟨sum, hsum⟩ hchecks⟩
    · rintro ⟨hfit, hsum⟩
      rw [selected_values hfit, (foldlM_addI64 overflowChecks _ 0).eq fun hchecks => hsum hchecks hagg] at hexecute
      exact ⟨_, _, hexecute, (selection_iff plan col.values).mpr hfit, by rw [if_pos hagg]; rfl⟩
  · have hexecute := execute_of_ne hagg overflowChecks alloc col
    constructor
    · rintro ⟨sv, agg, hok, hrows, -⟩
      obtain ⟨rfl, -⟩ := Prod.mk.inj (Except.ok.inj (hexecute.symm.trans hok))
      exact ⟨(selection_iff plan col.values).mp hrows, fun _ h => absurd h hagg⟩
    · rintro ⟨hfit, -⟩
      exact ⟨_, _, hexecute, (selection_iff plan col.values).mpr hfit, by rw [if_neg hagg]⟩

end JitPlan

/-! ### Agreement -/

/-- The function compiled for a comparison, called on a column and an output of its length, never reads or
writes outside of the two.  It stores the interpreted selection at the start of the output, changes nothing
else, and returns how many indices it has stored. -/
def StoresSelection (op : JitOp) (value : Int64) (col : Slice) : Prop :=
  ∃ f, compileFilter true op value = some f ∧
    ∀ (outPtr : BitVec 64) (indices : List UInt32) (s : Ssa.State Value Variable Unit) (fuel : ℕ),
      indices.length = col.values.length → 4 * col.values.length + 3 ≤ fuel →
      ∃ count, count.toNat = (interpreted op value col.values).indices.length ∧ call f fuel s ⟨col, outPtr, indices⟩ =
          .ok (count, ⟨col, outPtr, (interpreted op value col.values).indices ++ indices.drop count.toNat⟩)

theorem storesSelection {op : JitOp} (h : op ≠ .sum) (value : Int64) (col : Slice) :
    StoresSelection op value col := by
  obtain ⟨cc, hcc⟩ : ∃ cc, op.intCC = some cc := by
    cases op <;> first | exact ⟨_, rfl⟩ | exact absurd rfl h
  refine ⟨filterCode cc value, by rw [compileFilter, if_neg h, if_pos rfl, hcc]; rfl, ?_⟩
  intro outPtr indices s fuel hlen hfuel
  have hcall := call_filterCode cc value ⟨col, outPtr, indices⟩ hlen.ge s hfuel
  have hfits := col.fits
  have hle := length_selected_le cc value col col.values.length
  have hcount : (BitVec.ofNat 64 (selected cc value col col.values.length).length).toNat =
      (selected cc value col col.values.length).length := by
    rw [BitVec.toNat_ofNat, Nat.mod_eq_of_lt (by omega)]
  rw [← selected_length hcc]
  refine ⟨_, hcount, hcall.trans ?_⟩
  rw [hcount]
  rfl

/-- **Agreement**: the compiled loop stores the selection of the interpreted filter for every comparison,
constant and column.  The execution of a plan is right if and only if its rows fit in 32 bits and, in a build
with overflow checks, no running sum of the values overflows. -/
theorem compiled_agrees_iff (overflowChecks : Bool) (alloc : ℕ → BitVec 64) (plan : JitPlan) (col : Slice) :
    (∀ op ≠ JitOp.sum, ∀ value, StoresSelection op value col) ∧ (plan.ExecutesRight overflowChecks alloc col ↔
        plan.RowsFit col.values ∧
          (overflowChecks = true → plan.aggregation = some .sum → SumsFit 0 (plan.rowValues col.values))) :=
  ⟨fun _ h value => storesSelection h value col, plan.executesRight_iff overflowChecks alloc col⟩

/-- The sum of `i64::MAX` and `1`. -/
theorem execute_overflows :
    ¬(JitPlan.mk [] (some .sum)).ExecutesRight true (fun _ => 0) ⟨0, [Int64.maxValue, 1], by decide⟩ := by
  rintro ⟨sv, agg, hok, -⟩
  have hoverflow : (JitPlan.mk [] (some .sum)).execute true (fun _ => 0) ⟨0, [Int64.maxValue, 1], by decide⟩ =
      .error .overflow := by rfl
  rw [hoverflow] at hok
  cases hok

end CenDB.Jit
