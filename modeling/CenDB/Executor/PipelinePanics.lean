import CenDB.Executor.Subquery
import CenDB.Lib.Guarded

/-! # Where pipelines panic

The executor takes care that sums, differences and products wrap and that a division by zero gives NULL, but
`i64::MIN / -1` panics.  A pipeline is safe if no division that the evaluation comes to is that one
(`SafePipeline`), where the evaluation is the one whose divisions wrap as well (`wrapping`).  Then both
agree, and elsewhere the executor panics. -/

namespace CenDB.Executor

open Cenql Guarded
open Storage (Value Halt)

/-- The executor with a quotient that wraps. -/
def wrapping (debugStage : CenqlStage → String) : Runtime := ⟨fun a b => .ok (a / b), debugStage⟩

/-- An operator applied to two values, other than the quotient that is not an `i64`. -/
def SafeOp (op : BinaryOp) (l r : Value) : Prop := ¬(op = .div ∧ l = .i64 Int64.minValue ∧ r = .i64 (-1))

/-- A test of the rows, up to the first one where it halts. -/
def SafeRows (test : Row → Except Halt Bool) (safe : Row → Prop) : List Row → Prop
  | [] => True
  | row :: rows => safe row ∧ ∀ keep, test row = .ok keep → SafeRows test safe rows

mutual

def SafeExpr (rt : Runtime) (provider : TableProvider) : Expr → Row → Option (List String) → Prop
  | .binary op lhs rhs, row, cols =>
    SafeExpr rt provider lhs row cols ∧ ∀ l, evalExpr rt provider lhs row cols = .ok l →
      SafeExpr rt provider rhs row cols ∧ ∀ r, evalExpr rt provider rhs row cols = .ok r → SafeOp op l r
  | .in value subquery, row, cols =>
    SafePipeline rt provider subquery ∧ ∀ out, executePipelineWithCols rt provider subquery = .ok out →
      SafeExpr rt provider value row cols
  | _, _, _ => True

def SafeStage (rt : Runtime) (provider : TableProvider) : CenqlStage → List Row → Option (List String) → Prop
  | .fromSubquery pipeline, _, _ => SafePipeline rt provider pipeline
  | .filter expr, rows, cols =>
    SafeRows (fun row => do
      let v ← evalExpr rt provider expr row cols
      return v == .bool true)
      (fun row => SafeExpr rt provider expr row cols) rows
  | _, _, _ => True

def SafeStages (rt : Runtime) (provider : TableProvider) : List CenqlStage → List Row → Option (List String) → Prop
  | [], _, _ => True
  | stage :: stages, rows, cols =>
    SafeStage rt provider stage rows cols ∧
      ∀ out, executeStage rt provider stage rows cols = .ok out → SafeStages rt provider stages out.1 out.2

def SafePipeline (rt : Runtime) (provider : TableProvider) : CenqlPipeline → Prop
  | .mk stages => SafeStages rt provider stages [] none

end

variable (debugStage : CenqlStage → String) (provider : TableProvider)

theorem checkedDiv_failsUnless (a b : Int64) :
    FailsUnless .panic (¬(a = Int64.minValue ∧ b = -1)) (checkedDiv a b) (.ok (a / b)) :=
  ⟨fun h => if_neg h, fun h => if_pos (not_not.mp h), fun h => by cases h⟩

/-- Other operations than a division of `i64` have a value on every machine. -/
theorem evalArith_cases (op : BinaryOp) (l r : Value) :
    (op = .div ∧ ∃ a b, l = .i64 a ∧ r = .i64 b ∧ b ≠ 0) ∨ ∃ v, ∀ rt, evalArith rt op l r = .ok v := by
  unfold evalArith
  split
  · rename_i a b
    split
    case h_4 =>
      by_cases hb : b = 0
      · exact .inr ⟨.null, fun rt => if_pos hb⟩
      · exact .inl ⟨rfl, a, b, rfl, rfl, hb⟩
    all_goals exact .inr ⟨_, fun _ => rfl⟩
  · split <;> exact .inr ⟨_, fun _ => rfl⟩
  · exact .inr ⟨_, fun _ => rfl⟩

theorem evalArith_failsUnless (op : BinaryOp) (l r : Value) :
    FailsUnless .panic (SafeOp op l r) (evalArith (machine debugStage) op l r)
      (evalArith (wrapping debugStage) op l r) := by
  rcases evalArith_cases op l r with ⟨rfl, a, b, rfl, rfl, hb⟩ | ⟨v, hv⟩
  · simp only [evalArith, if_neg hb]
    refine ((checkedDiv_failsUnless a b).map Value.i64).congr ?_
    simp [SafeOp]
  · rw [hv, hv]
    refine (failsUnless_ok v).congr (iff_of_true trivial ?_)
    rintro ⟨rfl, rfl, rfl⟩
    -- the division that panics has no value on the machine
    cases hv (machine debugStage)

theorem evalBinary_failsUnless (op : BinaryOp) (l r : Value) :
    FailsUnless .panic (SafeOp op l r) (evalBinary (machine debugStage) op l r)
      (evalBinary (wrapping debugStage) op l r) := by
  unfold evalBinary
  split_ifs with hnull
  · have hsafe : SafeOp op l r := by
      rintro ⟨-, rfl, rfl⟩
      rcases hnull with h | h <;> cases h
    cases op <;> exact (failsUnless_ok _).congr (iff_of_true trivial hsafe)
  · cases op
    case add | sub | mul | div => exact evalArith_failsUnless debugStage _ l r
    all_goals exact (failsUnless_ok _).congr (iff_of_true trivial fun h => by cases h.1)

theorem filterRows_failsUnless {test test' : Row → Except Halt Bool} {safe : Row → Prop}
    (h : ∀ row, FailsUnless .panic (safe row) (test row) (test' row)) (rows : List Row) :
    FailsUnless .panic (SafeRows test' safe rows) (filterRows test rows) (filterRows test' rows) := by
  induction rows with
  | nil => exact failsUnless_ok []
  | cons row rows ih =>
    exact (h row).bind fun keep _ => ih.bind_return fun out => if keep then row :: out else out

mutual

theorem evalExpr_failsUnless (expr : Expr) (row : Row) (cols : Option (List String)) :
    FailsUnless .panic (SafeExpr (wrapping debugStage) provider expr row cols)
      (evalExpr (machine debugStage) provider expr row cols) (evalExpr (wrapping debugStage) provider expr row cols) := by
  cases expr with
  | column name | i64 v | f64 bits | str s | bool b => exact failsUnless_ok _
  | binary op lhs rhs =>
    refine (evalExpr_failsUnless lhs row cols).bind fun l _ => ?_
    refine (evalExpr_failsUnless rhs row cols).bind fun r _ => ?_
    exact evalBinary_failsUnless debugStage op l r
  | call name args => exact failsUnless_of_ne nofun
  | «in» value subquery =>
    refine (executePipelineWithCols_failsUnless subquery).bind fun out _ => ?_
    obtain ⟨subRows, subCols⟩ := out
    exact (evalExpr_failsUnless value row cols).bind_return fun probe =>
      Value.bool ((firstColumn subRows).any fun v => valueEq v probe)

theorem executeStage_failsUnless (stage : CenqlStage) (rows : List Row) (cols : Option (List String)) :
    FailsUnless .panic (SafeStage (wrapping debugStage) provider stage rows cols)
      (executeStage (machine debugStage) provider stage rows cols)
      (executeStage (wrapping debugStage) provider stage rows cols) := by
  cases stage with
  | «from» name =>
    refine failsUnless_of_ne ?_
    unfold executeStage
    split <;> exact fun h => by cases h
  | fromSubquery pipeline => exact executePipelineWithCols_failsUnless pipeline
  | filter expr =>
    refine FailsUnless.bind_return (filterRows_failsUnless (fun row => ?_) rows) fun out => (out, cols)
    exact (evalExpr_failsUnless expr row cols).bind_return fun v => v == .bool true
  | select columns | sort column dir | take n => exact failsUnless_ok _
  | join source kind on | groupBy key aggs | window spec on aggs | «match» pattern
  | «return» distinct columns => exact failsUnless_of_ne nofun

theorem executeStages_failsUnless (stages : List CenqlStage) (rows : List Row) (cols : Option (List String)) :
    FailsUnless .panic (SafeStages (wrapping debugStage) provider stages rows cols)
      (executeStages (machine debugStage) provider stages rows cols)
      (executeStages (wrapping debugStage) provider stages rows cols) := by
  cases stages with
  | nil => exact failsUnless_ok _
  | cons stage stages =>
    exact (executeStage_failsUnless stage rows cols).bind fun out _ => executeStages_failsUnless stages out.1 out.2

theorem executePipelineWithCols_failsUnless (pipeline : CenqlPipeline) :
    FailsUnless .panic (SafePipeline (wrapping debugStage) provider pipeline)
      (executePipelineWithCols (machine debugStage) provider pipeline)
      (executePipelineWithCols (wrapping debugStage) provider pipeline) := by
  cases pipeline with
  | mk stages => exact executeStages_failsUnless stages [] none

end

/-- **A pipeline panics exactly if its evaluation comes to dividing `i64::MIN` by -1.** -/
theorem executePipeline_returns_iff (pipeline : CenqlPipeline) :
    executePipeline (machine debugStage) provider pipeline ≠ .error .panic ↔
      SafePipeline (wrapping debugStage) provider pipeline :=
  ((executePipelineWithCols_failsUnless debugStage provider pipeline).map Prod.fst).returns_iff

/-- A table with a column `a` and one row, `i64::MIN`. -/
def lowest : TableProvider := ⟨fun _ => .ok [[.i64 Int64.minValue]], fun _ => some ["a"]⟩

/-- `from t | filter a / (0 - 1) == 0`. -/
def negation : CenqlPipeline :=
  .mk [.from "t", .filter (.binary .eq (.binary .div (.column "a") (.binary .sub (.i64 0) (.i64 1))) (.i64 0))]

theorem executePipeline_panics : ¬∀ debugStage provider pipeline,
    executePipeline (machine debugStage) provider pipeline ≠ .error .panic := by
  intro h
  refine h (fun _ => "") lowest negation ?_
  decide

end CenDB.Executor
