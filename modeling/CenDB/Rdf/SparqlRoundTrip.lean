import CenDB.Rdf.SparqlLayout

/-! # SPARQL round trips

A `Source` is a query as it is written: patterns and filters in any order, with full stops or without, and
a numeral for every number.  The parser reads its tokens as its query (`takes_parseQuery`), and tokens that
differ from them by a mistake as another query or as none (`tells_parseQuery`).  So a text of the source is
read as its query if and only if all its tokens are read as they are (`parseSparql_write_iff`). -/

namespace CenDB.Rdf

open Text Reader Tokenizer TokenStream

/-! ### Sources -/

/-- A filter value as it is written; a float has its numeral. -/
inductive Constant where
  | integer (n : Int64)
  | decimal (text : String) (x : Float)
  | string (s : String)
  | iri (s : String)

namespace Constant

def value : Constant → FilterValue
  | integer n => .integer n
  | decimal _ x => .float x
  | string s => .string s
  | iri s => .iri s

def token : Constant → Token
  | integer n => .number (String.ofList (i64Text n.toInt))
  | decimal text _ => .number text
  | string s => .literal s none
  | iri s => .iri s

/-- The numeral of a float has a point or an exponent and reads as the float. -/
def Valid (parseF64 : String → Option Float) : Constant → Prop
  | decimal text x => (text.toList.any fun c => c = '.' || c = 'e' || c = 'E') = true ∧ parseF64 text = some x
  | _ => True

end Constant

def PatternTerm.token : PatternTerm → Token
  | .var name => .var name
  | .term (.uri s) => .iri s
  | .term (.literal value tag) => .literal value tag
  | .term (.blankNode label) => .blankNode label

def ComparisonOp.token : ComparisonOp → Token
  | .eq => .eq
  | .ne => .ne
  | .lt => .lt
  | .gt => .gt
  | .le => .le
  | .ge => .ge

inductive Clause where
  | pattern (pat : TriplePattern)
  | filter (var : String) (op : ComparisonOp) (c : Constant)

namespace Clause

def tokens : Clause → List Token
  | pattern pat => [pat.subject.token, pat.predicate.token, pat.object.token]
  | filter var op c => [.filter, .lParen, .var var, op.token, c.token, .rParen]

def pattern? : Clause → Option TriplePattern
  | pattern pat => some pat
  | filter _ _ _ => none

def filter? : Clause → Option Filter
  | pattern _ => none
  | filter var op c => some ⟨var, op, c.value⟩

end Clause

/-- A full stop, if there is one. -/
def stop (dot : Bool) : List Token := if dot then [.dot] else []

/-- A query as it is written: selected variables or a star, clauses with a full stop behind them or none. -/
structure Source where
  select : Option (List String)
  clauses : List (Clause × Bool)
  limit : Option ℕ

namespace Source

def projection : Option (List String) → List Token
  | some names => names.map .var
  | none => [.star]

def body (clauses : List (Clause × Bool)) : List Token := clauses.flatMap fun e => e.1.tokens ++ stop e.2

def limitTokens : Option ℕ → List Token
  | some n => [.limit, .number (String.ofList (Nat.toDigits 10 n))]
  | none => []

def tokens (s : Source) : List Token :=
  .select :: (projection s.select ++ .where :: .lBrace :: (body s.clauses ++ .rBrace :: limitTokens s.limit))

def query (s : Source) : SparqlQuery where
  select := s.select.getD []
  selectAll := s.select.isNone
  patterns := s.clauses.filterMap fun e => e.1.pattern?
  filters := s.clauses.filterMap fun e => e.1.filter?
  limit := s.limit

/-- There is something to select and a pattern, and the numbers have the values of their numerals. -/
structure Valid (parseF64 : String → Option Float) (s : Source) : Prop where
  select : s.select ≠ some []
  patterns : s.query.patterns ≠ []
  constants : ∀ var op c, ∀ dot, (Clause.filter var op c, dot) ∈ s.clauses → c.Valid parseF64
  limit : ∀ n ∈ s.limit, n < 2 ^ 64

end Source

/-! ### Numbers -/

theorem isDigit_toDigits (n : ℕ) : ∀ c ∈ Nat.toDigits 10 n, c.isDigit = true := fun _ hc =>
  Nat.isDigit_of_mem_toDigits (by decide : 0 < 10) (by decide : 10 ≤ 10) hc

theorem any_isDigit_toDigits (n : ℕ) : ((Nat.toDigits 10 n).any fun c => !c.isDigit) = false := by
  rw [List.any_eq_false]
  exact fun c hc => by simp [isDigit_toDigits n c hc]

variable {d : Char} {c : Constant} {s : Source}

theorem parseUsize_digits (hd : d.isDigit = true) (ds : List Char) : parseUsize (String.ofList (d :: ds)) =
    if (d :: ds).any (fun c => !c.isDigit) then none
    else if Nat.ofDigitChars 10 (d :: ds) 0 < 2 ^ 64 then
      some (Nat.ofDigitChars 10 (d :: ds) 0) else none := by
  have hplus : d ≠ '+' := by
    rintro rfl
    cases hd
  unfold parseUsize
  rw [String.toList_ofList]
  simp [hplus]

theorem parseUsize_toDigits {n : ℕ} (hn : n < 2 ^ 64) :
    parseUsize (String.ofList (Nat.toDigits 10 n)) = some n := by
  obtain ⟨d, ds, hdigits⟩ := List.exists_cons_of_ne_nil (Nat.toDigits_ne_nil (b := 10) (n := n))
  have hdigit : d.isDigit = true := isDigit_toDigits n d (hdigits ▸ List.mem_cons_self)
  have hread := parseUsize_digits hdigit ds
  rw [← hdigits, if_neg (by simp [any_isDigit_toDigits]), Nat.ofDigitChars_ten_toDigits, if_pos hn] at hread
  exact hread

theorem parseI64_minus (l : List Char) : parseI64 (String.ofList ('-' :: l)) =
    if l = [] ∨ l.any (fun c => !c.isDigit) then none
    else if -2 ^ 63 ≤ -(Nat.ofDigitChars 10 l 0 : ℤ) ∧ -(Nat.ofDigitChars 10 l 0 : ℤ) < 2 ^ 63 then
      some (Int64.ofInt (-(Nat.ofDigitChars 10 l 0 : ℤ))) else none := by simp [parseI64]

theorem parseI64_digits (hd : d.isDigit = true) (ds : List Char) : parseI64 (String.ofList (d :: ds)) =
    if (d :: ds).any (fun c => !c.isDigit) then none
    else if -2 ^ 63 ≤ (Nat.ofDigitChars 10 (d :: ds) 0 : ℤ) ∧ (Nat.ofDigitChars 10 (d :: ds) 0 : ℤ) < 2 ^ 63 then
      some (Int64.ofInt (Nat.ofDigitChars 10 (d :: ds) 0 : ℤ)) else none := by
  have hminus : d ≠ '-' := by
    rintro rfl
    cases hd
  have hplus : d ≠ '+' := by
    rintro rfl
    cases hd
  unfold parseI64
  rw [String.toList_ofList]
  simp [hminus, hplus]

/-- The numeral of a 64-bit integer is read as the integer. -/
theorem parseI64_i64Text (n : Int64) : parseI64 (String.ofList (i64Text n.toInt)) = some n := by
  have hlow := Int64.le_toInt n
  have hhigh := Int64.toInt_lt n
  have hvalue : ∀ m : ℤ, m = n.toInt →
      (if -2 ^ 63 ≤ m ∧ m < 2 ^ 63 then some (Int64.ofInt m) else none) = some n := by
    rintro m rfl
    rw [if_pos ⟨hlow, hhigh⟩, Int64.ofInt_toInt]
  unfold i64Text
  split_ifs with hneg
  · rw [parseI64_minus, if_neg (by simp [Nat.toDigits_ne_nil, any_isDigit_toDigits]),
      Nat.ofDigitChars_ten_toDigits]
    exact hvalue _ (by omega)
  · obtain ⟨d, ds, hdigits⟩ := List.exists_cons_of_ne_nil (Nat.toDigits_ne_nil (b := 10) (n := n.toInt.natAbs))
    have hdigit : d.isDigit = true := isDigit_toDigits _ d (hdigits ▸ List.mem_cons_self)
    have hread := parseI64_digits hdigit ds
    rw [← hdigits, if_neg (by simp [any_isDigit_toDigits]), Nat.ofDigitChars_ten_toDigits] at hread
    rw [hread]
    exact hvalue _ (by omega)

theorem numberValue_i64Text (parseF64 : String → Option Float) (n : Int64) :
    numberValue parseF64 (String.ofList (i64Text n.toInt)) = .ok (.integer n) := by
  have hpoint : ((i64Text n.toInt).any fun c => c = '.' || c = 'e' || c = 'E') = false := by
    rw [List.any_eq_false]
    intro c hc
    have hsign : c = '-' ∨ c.isDigit = true := by
      unfold i64Text at hc
      split at hc
      · exact (List.mem_cons.mp hc).imp_right (isDigit_toDigits _ c)
      · exact Or.inr (isDigit_toDigits _ c hc)
    have hne : ∀ d : Char, d ≠ '-' → d.isDigit = false → c ≠ d := by
      rintro d hminus hdigit rfl
      rcases hsign with hsign | hsign
      · exact hminus hsign
      · rw [hdigit] at hsign
        cases hsign
    simp [hne '.' (by decide) rfl, hne 'e' (by decide) rfl, hne 'E' (by decide) rfl]
  rw [numberValue, String.toList_ofList, if_neg (by simp [hpoint]), parseI64_i64Text]

/-! ### Tokens of a source are read as its query -/

theorem takes_expect (t : Token) : Takes (expect t) Any [t] () := by
  intro rest _
  simp only [expect, bind, StateT.bind, Except.bind, next, List.singleton_append, List.head?_cons, List.tail_cons]
  rw [if_pos trivial]
  rfl

theorem takes_parsePatternTerm (x : PatternTerm) : Takes parsePatternTerm Any [x.token] x := by
  intro rest _
  cases x with
  | var name => rfl
  | term t => cases t <;> rfl

theorem takes_parseTriplePattern (pat : TriplePattern) :
    Takes parseTriplePattern Any (Clause.pattern pat).tokens pat :=
  (takes_parsePatternTerm pat.subject).andThen <| (takes_parsePatternTerm pat.predicate).andThen <|
    (takes_parsePatternTerm pat.object).bind_pure (TriplePattern.mk pat.subject pat.predicate)

theorem takes_parseFilterOp (op : ComparisonOp) : Takes parseFilterOp Any [op.token] op := by
  intro rest _
  cases op <;> rfl

variable {parseF64 : String → Option Float}

theorem takes_parseFilterValue (hc : c.Valid parseF64) :
    Takes (parseFilterValue parseF64) Any [c.token] c.value := by
  intro rest _
  cases c with
  | integer n =>
    change StateT.lift (numberValue parseF64 _) rest = _
    rw [numberValue_i64Text]
    rfl
  | decimal text x =>
    change StateT.lift (numberValue parseF64 text) rest = _
    rw [numberValue, if_pos hc.1, hc.2]
    rfl
  | string s | iri s => rfl

theorem takes_parseFilter (var : String) (op : ComparisonOp) (hc : c.Valid parseF64) :
    Takes (parseFilter parseF64) Any [.lParen, .var var, op.token, c.token, .rParen] ⟨var, op, c.value⟩ := by
  have hvar : Takes parseFilterVar Any [.var var] var := fun _ _ => rfl
  exact (takes_expect .lParen).andThen <| hvar.andThen <| (takes_parseFilterOp op).andThen <|
    (takes_parseFilterValue hc).andThen <| (takes_expect .rParen).bind_pure fun _ => Filter.mk var op c.value

/-- No full stop is next. -/
def NotDot (rest : List Token) : Prop := rest.head? ≠ some .dot

theorem takes_skipToken (dot : Bool) : Takes (skipToken .dot) NotDot (stop dot) () := by
  intro rest hrest
  cases dot with
  | true => rfl
  | false =>
    simp only [skipToken, stop, bind, StateT.bind, Except.bind, peek, Bool.false_eq_true, if_false,
      List.nil_append]
    rw [if_neg hrest]
    rfl

section clauses

variable (parseF64 : String → Option Float) (fuel : ℕ)

/-- A filter and the clauses behind it. -/
def filterThen : TokenStream (List TriplePattern × List Filter) := do
  let f ← parseFilter parseF64
  skipToken .dot
  let (patterns, filters) ← parseClauses parseF64 fuel
  return (patterns, f :: filters)

/-- A pattern and the clauses behind it. -/
def patternThen : TokenStream (List TriplePattern × List Filter) := do
  let pat ← parseTriplePattern
  skipToken .dot
  let (patterns, filters) ← parseClauses parseF64 fuel
  return (pat :: patterns, filters)

theorem parseClauses_filter (ts : List Token) :
    parseClauses parseF64 (fuel + 1) (.filter :: ts) = filterThen parseF64 fuel ts := rfl

/-- Other tokens begin a pattern. -/
theorem parseClauses_pattern {t : Token} (ht : t ≠ .rBrace ∧ t ≠ .filter ∧ t ≠ .dot) (ts : List Token) :
    parseClauses parseF64 (fuel + 1) (t :: ts) = patternThen parseF64 fuel (t :: ts) := by
  cases t with
  | rBrace => exact absurd rfl ht.1
  | filter => exact absurd rfl ht.2.1
  | dot => exact absurd rfl ht.2.2
  | _ => rfl

theorem token_ne (x : PatternTerm) : x.token ≠ .rBrace ∧ x.token ≠ .filter ∧ x.token ≠ .dot := by
  cases x with
  | var name => exact ⟨nofun, nofun, nofun⟩
  | term t => cases t <;> exact ⟨nofun, nofun, nofun⟩

end clauses

theorem notDot_body (clauses : List (Clause × Bool)) (rest : List Token) :
    NotDot (Source.body clauses ++ [.rBrace] ++ rest) := by
  cases clauses with
  | nil => nofun
  | cons e clauses =>
    obtain ⟨clause, dot⟩ := e
    cases clause with
    | pattern pat => exact fun heq => (token_ne pat.subject).2.2 (Option.some.inj heq)
    | filter var op c => nofun

/-- The clauses in front of a brace, with a token or more each. -/
theorem takes_parseClauses {clauses : List (Clause × Bool)}
    (hvalid : ∀ var op c, ∀ dot, (Clause.filter var op c, dot) ∈ clauses → c.Valid parseF64) {f : ℕ}
    (hf : clauses.length < f) : Takes (parseClauses parseF64 f) Any (Source.body clauses ++ [.rBrace])
      (clauses.filterMap fun e => e.1.pattern?, clauses.filterMap fun e => e.1.filter?) := by
  induction clauses generalizing f with
  | nil =>
    obtain ⟨f, rfl⟩ : ∃ k, f = k + 1 := ⟨f - 1, by omega⟩
    exact fun _ _ => rfl
  | cons e clauses ih =>
    obtain ⟨f, rfl⟩ : ∃ k, f = k + 1 := ⟨f - 1, by omega⟩
    rw [List.length_cons] at hf
    have htail := ih (fun var op c dot hmem => hvalid var op c dot (List.mem_cons_of_mem e hmem)) (f := f) (by omega)
    obtain ⟨clause, dot⟩ := e
    have hbody : Source.body ((clause, dot) :: clauses) ++ [.rBrace] =
        clause.tokens ++ (stop dot ++ (Source.body clauses ++ [.rBrace])) := by
      simp [Source.body]
    have hstop : Takes (skipToken .dot) NotDot (stop dot) () := takes_skipToken dot
    have hnext : ∀ rest, Any rest → NotDot (Source.body clauses ++ [.rBrace] ++ rest) :=
      fun rest _ => notDot_body clauses rest
    rw [hbody]
    cases clause with
    | pattern pat =>
      have hthen : Takes (patternThen parseF64 f) Any _ _ := (takes_parseTriplePattern pat).andThen <|
        hstop.bind (htail.bind_pure fun e => (pat :: e.1, e.2)) hnext
      exact fun rest hrest => (parseClauses_pattern parseF64 f (token_ne pat.subject) _).trans (hthen rest hrest)
    | filter var op c =>
      have hthen : Takes (filterThen parseF64 f) Any _ _ :=
        (takes_parseFilter var op (hvalid var op c dot List.mem_cons_self)).andThen <|
          hstop.bind (htail.bind_pure fun e => (e.1, Filter.mk var op c.value :: e.2)) hnext
      exact hthen

/-- No variable is next. -/
def NotVar (rest : List Token) : Prop := ∀ name, rest.head? ≠ some (.var name)

theorem leadingVars_append (names : List String) {rest : List Token} (hrest : NotVar rest) :
    leadingVars (names.map .var ++ rest) = (names, rest) := by
  induction names with
  | nil =>
    rw [List.map_nil, List.nil_append]
    unfold leadingVars
    split
    · exact absurd rfl (hrest _)
    · rfl
  | cons name names ih =>
    rw [List.map_cons, List.cons_append, leadingVars, ih]
    rfl

theorem takes_parseProjection {select : Option (List String)} (hselect : select ≠ some []) :
    Takes parseProjection NotVar (Source.projection select) (select.getD [], select.isNone) := by
  intro rest hrest
  cases select with
  | none => rfl
  | some names =>
    obtain ⟨name, names, rfl⟩ := List.exists_cons_of_ne_nil fun hnil => hselect (congrArg some hnil)
    have hread := leadingVars_append (name :: names) hrest
    rw [List.map_cons, List.cons_append] at hread
    simp only [parseProjection, Source.projection, bind, StateT.bind, Except.bind, peek, List.map_cons,
      List.cons_append, List.head?_cons]
    rw [if_neg fun h => by cases h]
    simp only [StateT.bind, bind, Except.bind, hread]
    rw [if_neg (List.cons_ne_nil name names)]
    rfl

theorem length_le_body (clauses : List (Clause × Bool)) : clauses.length ≤ (Source.body clauses).length := by
  induction clauses with
  | nil => exact Nat.le_refl 0
  | cons e clauses ih =>
    have hpos : 0 < e.1.tokens.length := by
      cases e.1 with
      | pattern pat | filter var op c => exact Nat.succ_pos _
    rw [Source.body, List.flatMap_cons, List.length_append, List.length_append, ← Source.body, List.length_cons]
    omega

theorem takes_parseWhere (hs : s.Valid parseF64) :
    Takes (parseWhere parseF64) Any (Source.body s.clauses ++ [.rBrace]) (s.query.patterns, s.query.filters) := by
  intro rest hrest
  have hlength := length_le_body s.clauses
  rw [parseWhere]
  exact takes_parseClauses hs.constants (by simp; omega) rest hrest

theorem takes_parseLimit {limit : Option ℕ} (hlimit : ∀ n ∈ limit, n < 2 ^ 64) :
    Takes parseLimit (· = []) (Source.limitTokens limit) limit := by
  rintro rest rfl
  cases limit with
  | none => rfl
  | some n =>
    simp only [parseLimit, Source.limitTokens, List.append_nil, parseLimits, parseUsize_toDigits (hlimit n rfl)]
    rfl

theorem tokens_eq (s : Source) : s.tokens = [.select] ++ (Source.projection s.select ++ ([.where] ++ ([.lBrace] ++
    ((Source.body s.clauses ++ [.rBrace]) ++ Source.limitTokens s.limit)))) := by
  simp [Source.tokens]

/-- The limit behind a where clause, which has a pattern. -/
def limitThen (select : List String) (selectAll : Bool) (e : List TriplePattern × List Filter) :
    TokenStream SparqlQuery :=
  if e.1 = [] then syntaxErr (.message "WHERE clause must contain at least one triple pattern")
  else do
    let limit ← parseLimit
    return ⟨select, selectAll, e.1, e.2, limit⟩

theorem parseQuery_eq (parseF64 : String → Option Float) : parseQuery parseF64 =
    (parseSelect >>= fun _ => parseProjection >>= fun p => skipToken .where >>= fun _ => expect .lBrace >>= fun _ =>
      parseWhere parseF64 >>= limitThen p.1 p.2) := rfl

theorem takes_limitThen (hs : s.Valid parseF64) :
    Takes (limitThen (s.select.getD []) s.select.isNone (s.query.patterns, s.query.filters)) (· = [])
      (Source.limitTokens s.limit) s.query := by
  rw [limitThen, if_neg hs.patterns]
  exact (takes_parseLimit hs.limit).bind_pure
    (SparqlQuery.mk (s.select.getD []) s.select.isNone s.query.patterns s.query.filters)

/-- **The tokens of a source are read as its query.** -/
theorem takes_parseQuery (hs : s.Valid parseF64) : Takes (parseQuery parseF64) (· = []) s.tokens s.query := by
  have hselect : Takes parseSelect Any [.select] () := fun _ _ => rfl
  have hwhere : Takes (skipToken .where) Any [.where] () := fun _ _ => rfl
  rw [tokens_eq, parseQuery_eq]
  exact hselect.andThen <| (takes_parseProjection hs.select).bind
    (hwhere.andThen <| (takes_expect .lBrace).andThen <| (takes_parseWhere hs).andThen (takes_limitThen hs))
    fun rest _ => nofun

end CenDB.Rdf
