import CenDB.Cenql.Ast
import CenDB.Executor.Join

/-! # Pipelines with subqueries

The executor runs a pipeline stage by stage on materialised rows.  A `from` reads a table of the provider or
the rows of a subquery, an `In` expression the first column of one; joins, grouping, windows, graph patterns
and `return` are refused.  A call that does not return its rows halts with an error or a panic.

The executor is parameterised by what `/` on `i64` does, which is the only operation here that can panic
(`machine`). -/

namespace CenDB.Executor

open Cenql
open Storage (Value CenError Halt)

structure TableProvider where
  scan : String → Except CenError (List Row)
  columns : String → Option (List String)

/-- Division of `i64`, and a stage as `{:?}` prints it. -/
structure Runtime where
  divI64 : Int64 → Int64 → Except Halt Int64
  debugStage : CenqlStage → String

/-- `a / b` panics where the quotient is not an `i64`; the caller has excluded `b = 0`. -/
def checkedDiv (a b : Int64) : Except Halt Int64 :=
  if a = Int64.minValue ∧ b = -1 then .error .panic else .ok (a / b)

/-- The executor as it is. -/
def machine (debugStage : CenqlStage → String) : Runtime := ⟨checkedDiv, debugStage⟩

def internal (message : String) : Halt := .error ⟨.errInternal, message⟩

/-! ### Names -/

/-- `name.rsplit('.').next()`. -/
def bareName (name : String) : String := String.ofList (name.toList.reverse.takeWhile fun c => c ≠ '.').reverse

/-- The position of a column, or 0. -/
def columnIndex (cols : List String) (name : String) : ℕ :=
  (cols.findIdx? fun c => c = name ∨ bareName c = bareName name).getD 0

/-- `row.get(i).cloned().unwrap_or(Value::Null)`. -/
def cell (row : Row) (i : ℕ) : Value := row[i]?.getD .null

/-! ### Operators -/

def f64Op (op : Float → Float → Float) (a b : UInt64) : Value := .f64 (op (.ofBits a) (.ofBits b)).toBits

def evalArith (rt : Runtime) (op : BinaryOp) : Value → Value → Except Halt Value
  | .i64 a, .i64 b =>
    match op with
    | .add => .ok (.i64 (a + b))
    | .sub => .ok (.i64 (a - b))
    | .mul => .ok (.i64 (a * b))
    | .div => if b = 0 then .ok .null else (rt.divI64 a b).map .i64
    | _ => .ok .null
  | .f64 a, .f64 b =>
    match op with
    | .add => .ok (f64Op (· + ·) a b)
    | .sub => .ok (f64Op (· - ·) a b)
    | .mul => .ok (f64Op (· * ·) a b)
    | .div => .ok (f64Op (· / ·) a b)
    | _ => .ok .null
  | _, _ => .ok .null

def evalBinary (rt : Runtime) (op : BinaryOp) (l r : Value) : Except Halt Value :=
  if l = .null ∨ r = .null then
    match op with
    | .and | .or => .ok (.bool false)
    | .eq | .ne | .lt | .le | .gt | .ge => .ok (.bool false)
    | _ => .ok .null
  else
    match op with
    | .eq => .ok (.bool (valueEq l r))
    | .ne => .ok (.bool (!valueEq l r))
    | .lt => .ok (.bool (valueCmp l r == .lt))
    | .le => .ok (.bool (valueCmp l r == .lt || valueCmp l r == .eq))
    | .gt => .ok (.bool (valueCmp l r == .gt))
    | .ge => .ok (.bool (valueCmp l r == .gt || valueCmp l r == .eq))
    | .and => .ok (.bool (l == .bool true && r == .bool true))
    | .or => .ok (.bool (l == .bool true || r == .bool true))
    | .add | .sub | .mul | .div => evalArith rt op l r

/-! ### Stages -/

/-- The rows that pass a test, up to the first one where it halts. -/
def filterRows (test : Row → Except Halt Bool) : List Row → Except Halt (List Row)
  | [] => .ok []
  | row :: rows => do
    let keep ← test row
    let out ← filterRows test rows
    return if keep then row :: out else out

def selectIndices (cols : Option (List String)) (columns : List String) : List ℕ :=
  match cols with
  | some cols => columns.map (columnIndex cols)
  | none => List.range columns.length

def selectRows (indices : List ℕ) (rows : List Row) : List Row := rows.map fun row => indices.map (cell row)

def sortIndex (cols : Option (List String)) (column : String) : ℕ :=
  match cols with
  | some cols => columnIndex cols column
  | none => 0

/-- A stable sort by the values in a column. -/
def sortRows (dir : SortDir) (idx : ℕ) (rows : List Row) : List Row :=
  rows.mergeSort fun a b =>
    match dir with
    | .asc => (valueCmp (cell a idx) (cell b idx)).isLE
    | .desc => (valueCmp (cell a idx) (cell b idx)).swap.isLE

/-- The first column of a subquery, without its NULLs. -/
def firstColumn (rows : List Row) : List Value := rows.filterMap fun row => row.head?.filter fun v => v ≠ .null

def unsupported (rt : Runtime) (stage : CenqlStage) : Halt :=
  internal ("stage not supported by subquery executor: " ++ rt.debugStage stage)

mutual

def evalExpr (rt : Runtime) (provider : TableProvider) : Expr → Row → Option (List String) → Except Halt Value
  | .column name, row, cols => .ok (cell row (sortIndex cols name))
  | .i64 v, _, _ => .ok (.i64 v)
  | .f64 bits, _, _ => .ok (.f64 bits)
  | .str s, _, _ => .ok (.bytes s.toUTF8.toList)
  | .bool b, _, _ => .ok (.bool b)
  | .binary op lhs rhs, row, cols => do
    let l ← evalExpr rt provider lhs row cols
    let r ← evalExpr rt provider rhs row cols
    evalBinary rt op l r
  | .call _ _, _, _ => .error (internal "function calls not supported by subquery executor")
  | .in value subquery, row, cols => do
    let (subRows, _) ← executePipelineWithCols rt provider subquery
    let probe ← evalExpr rt provider value row cols
    return .bool ((firstColumn subRows).any fun v => valueEq v probe)

def executeStage (rt : Runtime) (provider : TableProvider) :
    CenqlStage → List Row → Option (List String) → Except Halt (List Row × Option (List String))
  | .from name, _, _ =>
    match provider.scan name with
    | .ok rows => .ok (rows, provider.columns name)
    | .error e => .error (.error e)
  | .fromSubquery pipeline, _, _ => executePipelineWithCols rt provider pipeline
  | .filter expr, rows, cols => do
    let out ← filterRows (fun row => do
      let v ← evalExpr rt provider expr row cols
      return v == .bool true) rows
    return (out, cols)
  | .select columns, rows, cols => .ok (selectRows (selectIndices cols columns) rows, some columns)
  | .sort column dir, rows, cols => .ok (sortRows dir (sortIndex cols column) rows, cols)
  | .take n, rows, cols => .ok (rows.take n.toNat, cols)
  | .join source kind on, _, _ => .error (unsupported rt (.join source kind on))
  | .groupBy key aggs, _, _ => .error (unsupported rt (.groupBy key aggs))
  | .window spec on aggs, _, _ => .error (unsupported rt (.window spec on aggs))
  | .match pattern, _, _ => .error (unsupported rt (.match pattern))
  | .return distinct columns, _, _ => .error (unsupported rt (.return distinct columns))

def executeStages (rt : Runtime) (provider : TableProvider) :
    List CenqlStage → List Row → Option (List String) → Except Halt (List Row × Option (List String))
  | [], rows, cols => .ok (rows, cols)
  | stage :: stages, rows, cols => do
    let (rows', cols') ← executeStage rt provider stage rows cols
    executeStages rt provider stages rows' cols'

def executePipelineWithCols (rt : Runtime) (provider : TableProvider) :
    CenqlPipeline → Except Halt (List Row × Option (List String))
  | .mk stages => executeStages rt provider stages [] none

end

def executePipeline (rt : Runtime) (provider : TableProvider) (pipeline : CenqlPipeline) : Except Halt (List Row) :=
  (executePipelineWithCols rt provider pipeline).map Prod.fst

end CenDB.Executor
