import CenDB.Optimizer.Cardinality
import CenDB.Optimizer.PushDown

/-! # What physical plans enforce

A conjunct is enforced where an operator has it in its predicate or condition.  The planner carries every
filter over, but an index scan keeps only the name of the key column, so what the predicate of the scan says
is lost unless another operator says it too; and a merge join only asks that its inputs are sorts, whatever
the columns. -/

namespace CenDB.Optimizer

open Guarded List

/-- The conjuncts of the predicate of a scan. -/
def scanConjuncts (predicate : Option (List Char)) : List (List Char) := (predicate.map splitAnd).getD []

/-! ### Physical plans -/

mutual

def PhysicalOperator.tables : PhysicalOperator → List Name
  | .seqScan table _ => [table]
  | .indexScan table _ _ => [table]
  | .filter input _ => input.tables
  | .project input _ => input.tables
  | .join _ left right _ => left.tables ++ right.tables
  | .sort input _ => input.tables
  | .aggregate input _ _ => input.tables
  | .limit input _ => input.tables

def PhysicalPlan.tables : PhysicalPlan → List Name
  | .mk operator _ _ => operator.tables

end

mutual

/-- The conjuncts that an operator or one below it checks. -/
def PhysicalOperator.enforced : PhysicalOperator → List (List Char)
  | .seqScan _ predicate => scanConjuncts predicate
  | .indexScan _ _ _ => []
  | .filter input predicate => input.enforced ++ splitAnd predicate
  | .project input _ => input.enforced
  | .join _ left right condition => left.enforced ++ right.enforced ++ splitAnd condition
  | .sort input _ => input.enforced
  | .aggregate input _ _ => input.enforced
  | .limit input _ => input.enforced

def PhysicalPlan.enforced : PhysicalPlan → List (List Char)
  | .mk operator _ _ => operator.enforced

end

/-- A term of a condition stands for a column of some tables, with or without the name of the table. -/
def NamesColumn (tables : List Name) (column : Name) (term : List Char) : Prop :=
  term = column ∨ ∃ t ∈ tables, term = t ++ '.' :: column ∨ column = t ++ '.' :: term

/-- A condition demands that a column on the left equals one on the right. -/
def JoinsOn (condition : List Char) (leftTables rightTables : List Name) (leftColumn rightColumn : Name) : Prop :=
  ∃ c ∈ splitAnd condition, ∃ l r, words c = [l, "==".toList, r] ∧
    (NamesColumn leftTables leftColumn l ∧ NamesColumn rightTables rightColumn r ∨
      NamesColumn leftTables leftColumn r ∧ NamesColumn rightTables rightColumn l)

mutual

/-- The inputs of every merge join are sorted on the columns of its condition. -/
def PhysicalOperator.MergesSorted : PhysicalOperator → Prop
  | .seqScan _ _ => True
  | .indexScan _ _ _ => True
  | .filter input _ => input.MergesSorted
  | .project input _ => input.MergesSorted
  | .join method left right condition => left.MergesSorted ∧ right.MergesSorted ∧
    (method = .merge → ∃ li lc ri rc, left.operator = .sort li lc ∧ right.operator = .sort ri rc ∧
      JoinsOn condition left.tables right.tables lc rc)
  | .sort input _ => input.MergesSorted
  | .aggregate input _ _ => input.MergesSorted
  | .limit input _ => input.MergesSorted

def PhysicalPlan.MergesSorted : PhysicalPlan → Prop
  | .mk operator _ _ => operator.MergesSorted

end

/-- A conjunct of the predicate of a scan without index. -/
def SeqScanned (rt : Runtime) (s : StatsCatalog) (plan : LogicalPlan) (c : List Char) : Prop :=
  ∃ e ∈ plan.scans, scanIndex rt s e.1 e.2 = none ∧ c ∈ scanConjuncts e.2

/-- A conjunct of a filter, a join condition or a scan without index. -/
def SaidElsewhere (rt : Runtime) (s : StatsCatalog) (plan : LogicalPlan) (c : List Char) : Prop :=
  c ∈ plan.filterConjuncts ∨ c ∈ plan.joinConjuncts ∨ SeqScanned rt s plan c

/-- Two sorts under an equi-join are on the columns of its condition. -/
def LogicalPlan.SortsMatch : LogicalPlan → Prop
  | .scan _ _ => True
  | .filter input _ => input.SortsMatch
  | .project input _ => input.SortsMatch
  | .join left right condition => left.SortsMatch ∧ right.SortsMatch ∧
    ∀ li lc ri rc, isEquiJoin condition = true → left = .sort li lc → right = .sort ri rc →
      JoinsOn condition (left.scans.map Prod.fst) (right.scans.map Prod.fst) lc rc
  | .sort input _ => input.SortsMatch
  | .aggregate input _ _ => input.SortsMatch
  | .limit input _ => input.SortsMatch

variable {rt : Runtime} {s : StatsCatalog}

variable {left right : LogicalPlan} {condition : List Char}

/-- What the planner makes of a plan. -/
structure Built (rt : Runtime) (s : StatsCatalog) (plan : LogicalPlan) (p : PhysicalPlan) : Prop where
  tables : p.tables = plan.scans.map Prod.fst
  enforced : ∀ c, c ∈ p.enforced ↔ SaidElsewhere rt s plan c
  merges : p.MergesSorted ↔ plan.SortsMatch
  sorted : ∀ input column, plan = .sort input column → ∃ child, p.operator = .sort child column

/-- `from t | filter a == 1`. -/
def filtered : LogicalPlan := .filter (.scan "t".toList none) "a == 1".toList

end CenDB.Optimizer
