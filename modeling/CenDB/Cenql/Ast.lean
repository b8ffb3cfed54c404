import Mathlib.Tactic

/-! # CenQL syntax trees

A pipeline is a list of stages, and stages contain expressions; expressions may in turn contain a pipeline
(`In`).  An `f64` literal is kept as its bits. -/

namespace CenDB.Cenql

inductive BinaryOp
  | eq
  | ne
  | lt
  | le
  | gt
  | ge
  | and
  | or
  | add
  | sub
  | mul
  | div
  deriving DecidableEq, Repr

inductive SortDir
  | asc
  | desc
  deriving DecidableEq, Repr

inductive JoinKind
  | inner
  | left
  | right
  | full
  deriving DecidableEq, Repr

inductive WindowSpec
  | tumbling (size : String)
  | hopping (size slide : String)
  | session (gap : String)
  deriving DecidableEq, Repr

inductive EdgeDirection
  | out
  | in
  | both
  deriving DecidableEq, Repr

structure GraphMatchPattern where
  startVar : String
  startLabel : Option String
  edgeType : Option String
  edgeMinHops : UInt32
  edgeMaxHops : UInt32
  edgeDirection : EdgeDirection
  endVar : String
  endLabel : Option String
  deriving DecidableEq, Repr

mutual

inductive Expr
  | column (name : String)
  | i64 (v : Int64)
  | f64 (bits : UInt64)
  | str (s : String)
  | bool (b : Bool)
  | binary (op : BinaryOp) (lhs rhs : Expr)
  | call (name : String) (args : List Expr)
  | in (value : Expr) (subquery : CenqlPipeline)

inductive AggExpr
  | mk (name func : String) (args : List Expr)

inductive CenqlStage
  | from (name : String)
  | fromSubquery (pipeline : CenqlPipeline)
  | filter (expr : Expr)
  | select (columns : List String)
  | sort (column : String) (dir : SortDir)
  | take (n : UInt64)
  | join (source : String) (kind : JoinKind) (on : Expr)
  | groupBy (key : String) (aggs : List AggExpr)
  | window (spec : WindowSpec) (on : String) (aggs : List AggExpr)
  | match (pattern : GraphMatchPattern)
  | return (distinct : Bool) (columns : List String)

inductive CenqlPipeline
  | mk (stages : List CenqlStage)

end

def CenqlPipeline.stages : CenqlPipeline → List CenqlStage
  | .mk stages => stages

end CenDB.Cenql
