import CenDB.Rdf.TripleStore

/-! # SPARQL queries and their evaluation

A query is a list of triple patterns with variables, a list of comparisons of a variable with a constant,
the selected variables and a limit.  `evaluate` looks the first pattern up, extends every row it has by
every match of the next pattern, filters, projects and truncates.

Numbers are 64-bit integers and floats as in the code; the reading of a float is the parameter
`parseF64`. -/

namespace CenDB.Rdf

/-! ### Queries -/

inductive PatternTerm where
  | var (name : String)
  | term (t : RdfTerm)
deriving DecidableEq, Repr

structure TriplePattern where
  subject : PatternTerm
  predicate : PatternTerm
  object : PatternTerm
deriving DecidableEq, Repr

inductive ComparisonOp where
  | eq | ne | lt | gt | le | ge
deriving DecidableEq, Repr

inductive FilterValue where
  | integer (n : Int64)
  | float (x : Float)
  | string (s : String)
  | iri (s : String)

/-- The comparison of a variable with a value. -/
structure Filter where
  var : String
  op : ComparisonOp
  value : FilterValue

structure SparqlQuery where
  select : List String
  selectAll : Bool
  patterns : List TriplePattern
  filters : List Filter
  limit : Option ℕ

/-- The terms of a pattern, in order. -/
def TriplePattern.terms (pat : TriplePattern) : List PatternTerm := [pat.subject, pat.predicate, pat.object]

/-! ### Numbers in literals -/

/-- The reading of a 64-bit integer: digits after at most one sign, in the range. -/
def parseI64 (s : String) : Option Int64 :=
  let (negative, digits) := match s.toList with
    | '-' :: digits => (true, digits)
    | '+' :: digits => (false, digits)
    | digits => (false, digits)
  if digits = [] ∨ digits.any (fun c => !c.isDigit) then none
  else
    let n : ℤ := if negative then -(Nat.ofDigitChars 10 digits 0 : ℤ) else Nat.ofDigitChars 10 digits 0
    if -2 ^ 63 ≤ n ∧ n < 2 ^ 63 then some (Int64.ofInt n) else none

inductive NumVal where
  | int (n : Int64)
  | float (x : Float)

variable (parseF64 : String → Option Float)

def parseLiteralAsNumber : RdfTerm → Option NumVal
  | .literal s _ =>
    match parseI64 s with
    | some i => some (.int i)
    | none => (parseF64 s).map .float
  | _ => none

/-! ### Filters -/

/-- The comparison that an operator stands for. -/
def ComparisonOp.compare {α : Type*} [BEq α] [LT α] [LE α] [DecidableLT α] [DecidableLE α] (a b : α) :
    ComparisonOp → Bool
  | .eq => a == b
  | .ne => a != b
  | .lt => decide (a < b)
  | .gt => decide (a > b)
  | .le => decide (a ≤ b)
  | .ge => decide (a ≥ b)

def compareFloat (a b : Float) (op : ComparisonOp) : Bool := op.compare a b

/-- The comparison of a filter, at the term of its variable. -/
def Filter.test (f : Filter) (term : RdfTerm) : Bool :=
  match f.value with
  | .integer n =>
    match parseLiteralAsNumber parseF64 term with
    | some (.int x) => f.op.compare x n
    | some (.float x) => compareFloat x n.toFloat f.op
    | none => false
  | .float n =>
    match parseLiteralAsNumber parseF64 term with
    | some (.int x) => compareFloat x.toFloat n f.op
    | some (.float x) => compareFloat x n f.op
    | none => false
  | .string s => f.op.compare term.lexicalForm s
  | .iri iri =>
    match term with
    | .uri u =>
      match f.op with
      | .eq => u == iri
      | .ne => u != iri
      | _ => false
    | _ => false

/-- A row: the term of every variable it binds. -/
abbrev Binding := Table String RdfTerm

/-- A row that does not bind the variable of a filter does not pass it. -/
def evalFilter (f : Filter) (b : Binding) : Bool :=
  match b.lookup f.var with
  | some term => f.test parseF64 term
  | none => false

/-! ### Patterns -/

/-- The term to look up, if there is one. -/
def patternTermToLookup (term : PatternTerm) (binding : Binding) : Option RdfTerm :=
  match term with
  | .var name => binding.lookup name
  | .term t => some t

/-- The terms of a pattern beside those of a triple. -/
def positions (pat : TriplePattern) (t : Triple) : List (PatternTerm × RdfTerm) :=
  [(pat.subject, t.subject), (pat.predicate, t.predicate), (pat.object, t.object)]

/-- The variables of a pattern, bound to the terms of a triple. -/
def bindTriple (pat : TriplePattern) (t : Triple) : Option Binding :=
  (positions pat t).foldlM (fun b position => match position with
    | (.var name, term) =>
      match b.lookup name with
      | some existing => if existing ≠ term then none else some b
      | none => some (AList.insert name term b)
    | (.term _, _) => some b) (∅ : Binding)

def evaluatePattern (pat : TriplePattern) (store : TripleStore) : List Binding :=
  let s := patternTermToLookup pat.subject ∅
  let p := patternTermToLookup pat.predicate ∅
  let o := patternTermToLookup pat.object ∅
  (store.matchPattern s p o).filterMap (bindTriple pat)

/-- A position of a triple, checked against the row and what this triple binds already. -/
def bindPosition (binding newBinding : Binding) (position : PatternTerm × RdfTerm) : Option Binding :=
  match position with
  | (.var name, term) =>
    match binding.lookup name with
    | some existing => if existing ≠ term then none else some newBinding
    | none =>
      match newBinding.lookup name with
      | some existing => if existing ≠ term then none else some newBinding
      | none => some (AList.insert name term newBinding)
  | (.term _, _) => some newBinding

/-- What every match of a pattern binds beyond a row. -/
def evaluatePatternWithBinding (pat : TriplePattern) (store : TripleStore) (binding : Binding) : List Binding :=
  let s := patternTermToLookup pat.subject binding
  let p := patternTermToLookup pat.predicate binding
  let o := patternTermToLookup pat.object binding
  (store.matchPattern s p o).filterMap fun t => (positions pat t).foldlM (bindPosition binding) ∅

/-- A row with the entries of another put in. -/
def merge (b m : Binding) : Binding := (Table.items m).foldl (fun merged e => AList.insert e.1 e.2 merged) b

/-- Every row, extended by every match of the pattern. -/
def joinPattern (store : TripleStore) (bindings : List Binding) (pat : TriplePattern) : List Binding :=
  bindings.flatMap fun b => (evaluatePatternWithBinding pat store b).map (merge b)

/-- The join with the remaining patterns stops at an empty list of rows. -/
def joinPatterns (store : TripleStore) : List TriplePattern → List Binding → List Binding
  | [], bindings => bindings
  | pat :: pats, bindings =>
    let next := joinPattern store bindings pat
    if next.isEmpty then next else joinPatterns store pats next

/-! ### Queries -/

/-- The variables seen, and that of a term. -/
def pushVar (seen : List String) : PatternTerm → List String
  | .var name => if seen.contains name then seen else seen ++ [name]
  | .term _ => seen

/-- The variables of the patterns, each once, in order. -/
def patternVars (patterns : List TriplePattern) : List String :=
  (patterns.flatMap TriplePattern.terms).foldl pushVar []

def SparqlQuery.projectVars (query : SparqlQuery) : List String :=
  if query.selectAll then patternVars query.patterns else query.select

/-- The rows of a query; evaluation never fails. -/
def evaluate (query : SparqlQuery) (store : TripleStore) : List Binding :=
  match query.patterns with
  | [] => []
  | pat :: pats =>
    let joined := joinPatterns store pats (evaluatePattern pat store)
    let filtered :=
      if query.filters.isEmpty then joined
      else joined.filter fun b => query.filters.all fun f => evalFilter parseF64 f b
    let projected :=
      if query.projectVars.isEmpty then filtered
      else filtered.map (Table.retain fun k _ => query.projectVars.any fun v => v == k)
    match query.limit with
    | some n => projected.take n
    | none => projected

end CenDB.Rdf
