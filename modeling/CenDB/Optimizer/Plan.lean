import CenDB.Lib.Table
import CenDB.Lib.Text

/-! # Logical and physical plans

The planner turns a logical plan into a physical one, node by node (`buildPhysical`), and estimates its rows
on the way.  Predicates and conditions are texts, of which it looks at the words.

Counts of type `u64` are natural numbers; what a product of two of them does, and which characters are
alphanumeric, are parameters (`Runtime`).  A sum or product that is not a `u64` or `i64` is an `Overflow`. -/

namespace CenDB.Optimizer

abbrev Name := List Char

inductive Overflow
  | overflow
  deriving DecidableEq

structure Runtime where
  /-- `char::is_alphanumeric`. -/
  isAlphanumeric : Char → Bool
  /-- `a * b`. -/
  mulU64 : ℕ → ℕ → Except Overflow ℕ

def checkedMul (a b : ℕ) : Except Overflow ℕ := if a * b < 2 ^ 64 then .ok (a * b) else .error .overflow

def checkedSub (a b : Int64) : Except Overflow ℤ :=
  if -2 ^ 63 ≤ a.toInt - b.toInt ∧ a.toInt - b.toInt < 2 ^ 63 then .ok (a.toInt - b.toInt) else .error .overflow

/-- `n as f64`. -/
def toF64 (n : ℕ) : Float := .ofNat n

/-- `x as u64`. -/
def toU64 (x : Float) : ℕ := x.toUInt64.toNat

/-! ### Statistics -/

structure ColumnStats where
  distinctCount : UInt64
  minI64 : Option Int64
  maxI64 : Option Int64

structure TableStats where
  rowCount : UInt64
  columns : Table Name ColumnStats

structure StatsCatalog where
  tables : Table Name TableStats
  /-- The columns of a table that have an index, with its name. -/
  indexes : Table Name (List (Name × Name))

/-- The part of the rows above or below a value, as an exact fraction. -/
def ColumnStats.selectivityRange (c : ColumnStats) (val : Int64) (greaterThan : Bool) : Except Overflow ℚ :=
  match c.minI64, c.maxI64 with
  | some min, some max =>
    if min = max then .ok 0
    else do
      let range ← checkedSub max min
      if greaterThan then
        let above ← checkedSub max val
        return (above ⊔ 0 : ℤ) / range
      else
        let below ← checkedSub val min
        return (below ⊔ 0 : ℤ) / range
  | _, _ => .ok (333 / 1000)

namespace StatsCatalog

def indexFor (s : StatsCatalog) (table column : Name) : Option Name :=
  ((s.indexes.lookup table).bind fun cols => cols.find? fun e => e.1 = column).map Prod.snd

def hasIndex (s : StatsCatalog) (table column : Name) : Bool := (s.indexFor table column).isSome

/-- The rows of a table, or the default guess. -/
def baseRows (s : StatsCatalog) (table : Name) : ℕ := ((s.tables.lookup table).map fun t => t.rowCount.toNat).getD 1000

def distinctOf (t : TableStats) (column : Name) : ℕ :=
  ((t.columns.lookup column).map fun c => c.distinctCount.toNat).getD 100

def estimateJoinCardinality (rt : Runtime) (s : StatsCatalog) (tableA tableB colA colB : Name) : Except Overflow ℕ :=
  match s.tables.lookup tableA, s.tables.lookup tableB with
  | some a, some b => do
    let product ← rt.mulU64 a.rowCount.toNat b.rowCount.toNat
    return product / max (max (distinctOf a colA) (distinctOf b colB)) 1
  | _, _ => .ok 1000

end StatsCatalog

/-! ### Logical plans -/

inductive LogicalPlan
  | scan (table : Name) (predicate : Option (List Char))
  | filter (input : LogicalPlan) (predicate : List Char)
  | project (input : LogicalPlan) (columns : List Name)
  | join (left right : LogicalPlan) (condition : List Char)
  | sort (input : LogicalPlan) (column : Name)
  | aggregate (input : LogicalPlan) (groupKey : Name) (aggs : List Name)
  | limit (input : LogicalPlan) (count : UInt64)
  deriving DecidableEq

namespace LogicalPlan

def estimateRows (rt : Runtime) (s : StatsCatalog) : LogicalPlan → Except Overflow ℕ
  | scan table predicate =>
    let base := s.baseRows table
    .ok (if predicate.isSome then toU64 (toF64 base * 0.1) else base)
  | filter input _ => do
    let base ← input.estimateRows rt s
    return toU64 (toF64 base * 0.1)
  | project input _ => input.estimateRows rt s
  | join left right _ => do
    let leftRows ← left.estimateRows rt s
    let rightRows ← right.estimateRows rt s
    let product ← rt.mulU64 leftRows rightRows
    return toU64 (toF64 product * 0.01)
  | sort input _ => input.estimateRows rt s
  | aggregate input _ _ => do
    let base ← input.estimateRows rt s
    return toU64 (toF64 base).sqrt
  | limit input count => do
    let base ← input.estimateRows rt s
    return min base count.toNat

/-- The tables, without repetition, from left to right. -/
def tableNames (plan : LogicalPlan) : List Name := go plan []
where
  go : LogicalPlan → List Name → List Name
    | scan table _, out => if out.contains table then out else out ++ [table]
    | filter input _, out => go input out
    | project input _, out => go input out
    | join left right _, out => go right (go left out)
    | sort input _, out => go input out
    | aggregate input _ _, out => go input out
    | limit input _, out => go input out

def isSorted : LogicalPlan → Bool
  | sort _ _ => true
  | _ => false

end LogicalPlan

/-! ### Physical plans -/

inductive JoinMethod
  | nestedLoop
  | hash
  | merge
  deriving DecidableEq

mutual

inductive PhysicalOperator
  | seqScan (table : Name) (predicate : Option (List Char))
  | indexScan (table index key : Name)
  | filter (input : PhysicalPlan) (predicate : List Char)
  | project (input : PhysicalPlan) (columns : List Name)
  | join (method : JoinMethod) (left right : PhysicalPlan) (condition : List Char)
  | sort (input : PhysicalPlan) (column : Name)
  | aggregate (input : PhysicalPlan) (groupKey : Name) (aggs : List Name)
  | limit (input : PhysicalPlan) (count : UInt64)

inductive PhysicalPlan
  | mk (operator : PhysicalOperator) (cost : Float) (estimatedRows : ℕ)

end

namespace PhysicalPlan

def operator : PhysicalPlan → PhysicalOperator
  | mk operator _ _ => operator

def cost : PhysicalPlan → Float
  | mk _ cost _ => cost

def estimatedRows : PhysicalPlan → ℕ
  | mk _ _ estimatedRows => estimatedRows

end PhysicalPlan

/-! ### Costs -/

def seqScanCost (rows cols : ℕ) : Float := toF64 rows * toF64 cols * 0.01

def indexLookupCost : Float := 1.0

def hashJoinCost (leftRows rightRows : ℕ) : Float := toF64 leftRows + toF64 rightRows

def nestedLoopJoinCost (leftRows rightRows : ℕ) : Float := toF64 leftRows * toF64 rightRows * 0.01

def mergeJoinCost (leftRows rightRows : ℕ) : Float := toF64 leftRows + toF64 rightRows

def filterCost (rows : ℕ) : Float := toF64 rows * 0.001

def sortCost (rows : ℕ) : Float := if rows = 0 then 0.0 else toF64 rows * (toF64 rows).log2 * 0.01

/-! ### Choices -/

/-- `condition.replace("!=", " ")`. -/
def withoutNeq : List Char → List Char
  | '!' :: '=' :: rest => ' ' :: withoutNeq rest
  | c :: rest => c :: withoutNeq rest
  | [] => []

def isEquiJoin (condition : List Char) : Bool := decide ("==".toList <:+: withoutNeq condition)

/-- Names, numbers and qualified names in a text. -/
def tokens (rt : Runtime) (text : List Char) : List (List Char) :=
  (text.splitOnP fun c => !rt.isAlphanumeric c && c != '_' && c != '.').filter fun token => token ≠ []

/-- `token.split_once('.')`. -/
def splitOnce (token : List Char) : Option (Name × Name) :=
  match token.dropWhile fun c => c ≠ '.' with
  | _ :: rest => some (token.takeWhile fun c => c ≠ '.', rest)
  | [] => none

def indexedColumn (s : StatsCatalog) (table : Name) (token : List Char) : Option Name :=
  match splitOnce token with
  | some (t, c) => if t = table ∧ s.hasIndex table c then some c else none
  | none => if s.hasIndex table token then some token else none

def firstIndexedColumnInPredicate (rt : Runtime) (s : StatsCatalog) (table : Name) (predicate : List Char) :
    Option Name :=
  (tokens rt predicate).findSome? (indexedColumn s table)

/-- The column whose index a scan uses. -/
def scanIndex (rt : Runtime) (s : StatsCatalog) (table : Name) (predicate : Option (List Char)) : Option Name :=
  match predicate with
  | some p => if p = [] then none else firstIndexedColumnInPredicate rt s table p
  | none => none

def chooseScanOp (rt : Runtime) (s : StatsCatalog) (table : Name) (predicate : Option (List Char)) :
    PhysicalOperator :=
  match scanIndex rt s table predicate with
  | some col => .indexScan table ((s.indexFor table col).getD "default_index".toList) col
  | none => .seqScan table predicate

def estimateColumnCount (s : StatsCatalog) (table : Name) : ℕ :=
  ((s.tables.lookup table).map fun t => max t.columns.size 1).getD 4

/-- The estimates do not matter in the end, but they are made. -/
def chooseJoinMethodSpec (rt : Runtime) (s : StatsCatalog) (left right : LogicalPlan) (condition : List Char) :
    Except Overflow JoinMethod :=
  if !isEquiJoin condition then .ok .nestedLoop
  else if left.isSorted && right.isSorted then .ok .merge
  else do
    let leftRows ← left.estimateRows rt s
    let rightRows ← right.estimateRows rt s
    if leftRows < 10000 ∨ rightRows < 10000 then return .hash else return .hash

/-- The method chosen, whatever the estimates are. -/
def joinMethod (left right : LogicalPlan) (condition : List Char) : JoinMethod :=
  if !isEquiJoin condition then .nestedLoop
  else if left.isSorted && right.isSorted then .merge
  else .hash

def joinCost : JoinMethod → ℕ → ℕ → Float
  | .hash => hashJoinCost
  | .nestedLoop => nestedLoopJoinCost
  | .merge => mergeJoinCost

def buildScan (rt : Runtime) (s : StatsCatalog) (table : Name) (predicate : Option (List Char)) : PhysicalPlan :=
  let op := chooseScanOp rt s table predicate
  let rows := s.baseRows table
  match op with
  | .indexScan .. => .mk op indexLookupCost 1
  | _ => .mk op (seqScanCost rows (estimateColumnCount s table)) rows

def buildPhysical (rt : Runtime) (s : StatsCatalog) : LogicalPlan → Except Overflow PhysicalPlan
  | .scan table predicate => .ok (buildScan rt s table predicate)
  | .filter input predicate => do
    let child ← buildPhysical rt s input
    let rows := child.estimatedRows
    return .mk (.filter child predicate) (child.cost + filterCost rows) (toU64 (toF64 rows * 0.1))
  | .project input columns => do
    let child ← buildPhysical rt s input
    let rows := child.estimatedRows
    return .mk (.project child columns) (child.cost + toF64 rows * toF64 columns.length * 0.001) rows
  | .sort input column => do
    let child ← buildPhysical rt s input
    let rows := child.estimatedRows
    return .mk (.sort child column) (child.cost + sortCost rows) rows
  | .join left right condition => do
    let leftPlan ← buildPhysical rt s left
    let rightPlan ← buildPhysical rt s right
    let method ← chooseJoinMethodSpec rt s left right condition
    let product ← rt.mulU64 leftPlan.estimatedRows rightPlan.estimatedRows
    return .mk (.join method leftPlan rightPlan condition)
      (leftPlan.cost + rightPlan.cost + joinCost method leftPlan.estimatedRows rightPlan.estimatedRows)
      (toU64 (toF64 product * 0.01))
  | .aggregate input groupKey aggs => do
    let child ← buildPhysical rt s input
    let rows := child.estimatedRows
    return .mk (.aggregate child groupKey aggs) (child.cost + toF64 rows * 0.02) (toU64 (toF64 rows).sqrt)
  | .limit input count => do
    let child ← buildPhysical rt s input
    return .mk (.limit child count) child.cost (min child.estimatedRows count.toNat)

end CenDB.Optimizer
