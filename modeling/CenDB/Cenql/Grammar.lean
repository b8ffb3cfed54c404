import CenDB.Cenql.Parser

/-! # The expression grammar

`Renders l e ts` says that the tokens `ts` stand for the tree `e` where an operand of level `l` is expected:
an operator of a lower level needs parentheses there, and any expression may have some.  The parser takes
whatever stands for a tree (`Renders.reads`), and what it takes stands for the tree it returns
(`outcome_parseExpr`). -/

namespace CenDB.Cenql

open Reader List

/-! ### Precedence -/

/-- `or` below `and` below the comparisons below the additive below the multiplicative operators. -/
def BinaryOp.level : BinaryOp → ℕ
  | .or => 0
  | .and => 1
  | .eq | .ne | .lt | .le | .gt | .ge => 2
  | .add | .sub => 3
  | .mul | .div => 4

/-- The operators associate to the left, but the comparisons do not associate. -/
def BinaryOp.lhsLevel (op : BinaryOp) : ℕ := if op.level = 2 then 3 else op.level

def BinaryOp.rhsLevel (op : BinaryOp) : ℕ := op.level + 1

def BinaryOp.kind : BinaryOp → TokenKind
  | .eq => .eqEq
  | .ne => .notEq
  | .lt => .lt
  | .le => .le
  | .gt => .gt
  | .ge => .ge
  | .and => .and
  | .or => .or
  | .add => .plus
  | .sub => .minus
  | .mul => .star
  | .div => .slash

/-- The name of a column from the names on its path. -/
def pathName (first : String) (more : List String) : String := more.foldl (fun full next => full ++ "." ++ next) first

variable (parseF64 : String → Option UInt64)

/-- Tokens that stand for a tree where an operand of some level is expected. -/
inductive Renders : ℕ → Expr → List Token → Prop
  | column {l : ℕ} {t : Token} {more : List (Token × Token)} (ht : t.kind = .ident)
    (hmore : ∀ p ∈ more, p.1.kind = .dot ∧ p.2.kind = .ident) :
    Renders l (.column (pathName t.text (more.map fun p => p.2.text))) (t :: more.flatMap fun p => [p.1, p.2])
  | i64 {l : ℕ} {t : Token} {v : Int64} (ht : t.kind = .i64) (hv : parseI64 t.text = some v) :
    Renders l (.i64 v) [t]
  | f64 {l : ℕ} {t : Token} {v : UInt64} (ht : t.kind = .f64) (hv : parseF64 t.text = some v) :
    Renders l (.f64 v) [t]
  | str {l : ℕ} {t : Token} (ht : t.kind = .str) : Renders l (.str t.text) [t]
  | noArgs {l : ℕ} {t o c : Token} (ht : t.kind = .ident) (ho : o.kind = .lParen) (hc : c.kind = .rParen) :
    Renders l (.call t.text []) [t, o, c]
  | call {l : ℕ} {t o c : Token} {first : Expr × List Token} {more : List (Token × Expr × List Token)}
    (ht : t.kind = .ident) (ho : o.kind = .lParen) (hc : c.kind = .rParen) (hfirst : Renders 0 first.1 first.2)
    (hcomma : ∀ m ∈ more, m.1.kind = .comma) (hmore : ∀ m ∈ more, Renders 0 m.2.1 m.2.2) :
    Renders l (.call t.text (first.1 :: more.map fun m => m.2.1))
      (t :: o :: (first.2 ++ (more.flatMap fun m => [m.1] ++ m.2.2) ++ [c]))
  | binary {l : ℕ} {op : BinaryOp} {a b : Expr} {ta tb : List Token} {t : Token} (hl : l ≤ op.level)
    (ha : Renders op.lhsLevel a ta) (ht : t.kind = op.kind) (hb : Renders op.rhsLevel b tb) :
    Renders l (.binary op a b) (ta ++ ([t] ++ tb))
  | group {l : ℕ} {e : Expr} {ts : List Token} {o c : Token} (ho : o.kind = .lParen) (h : Renders 0 e ts)
    (hc : c.kind = .rParen) : Renders l e (o :: (ts ++ [c]))

/-! ### Single tokens -/

section tokens

variable {α ω : Type} {t : Token} {ts : List Token}

theorem advance_cons (h : ts ≠ []) : advance (t :: ts) = .ok (t, ts) := by
  obtain ⟨t', ts, rfl⟩ := exists_cons_of_ne_nil h
  rfl

theorem peekKind_bind {f : Option TokenKind → TokenStream α} : (peekKind >>= f) (t :: ts) = f (some t.kind) (t :: ts) := rfl

theorem advance_bind {f : Token → TokenStream α} (h : ts ≠ []) : (advance >>= f) (t :: ts) = f t ts := by
  simp only [bind, StateT.bind, advance_cons h, Except.bind]

theorem takes_expect {kind : TokenKind} (h : t.kind = kind) : Takes (expect kind) (· ≠ []) [t] () := by
  intro rest hrest
  rw [expect, singleton_append, peekKind_bind]
  simp only [h, if_true]
  exact advance_bind hrest

theorem takes_expectIdent (h : t.kind = .ident) : Takes expectIdent (· ≠ []) [t] t.text := by
  intro rest hrest
  rw [expectIdent, singleton_append, peekKind_bind]
  simp only [h]
  exact advance_bind hrest

variable {table : TokenKind → Option ω}

theorem takes_operator {op : ω} (h : table t.kind = some op) : Takes (operator table) (· ≠ []) [t] (some op) := by
  intro rest hrest
  rw [operator, singleton_append, peekKind_bind]
  simp only [Option.bind_some, h]
  exact advance_bind hrest

theorem operator_none (h : table t.kind = none) : operator table (t :: ts) = .ok (none, t :: ts) := by
  rw [operator, peekKind_bind]
  simp only [Option.bind_some, h]
  rfl

end tokens

/-! ### What follows an expression -/

/-- What follows does not continue an operand of level `l`. -/
def Stops (l : ℕ) (rest : List Token) : Prop :=
  ∃ t ts, rest = t :: ts ∧ t.kind ≠ .dot ∧ t.kind ≠ .lParen ∧ ∀ op : BinaryOp, op.kind = t.kind → op.level < l

variable {rest : List Token} {op : BinaryOp} {t : Token} {kind : TokenKind}

theorem Stops.ne_nil {l : ℕ} (h : Stops l rest) : rest ≠ [] := by
  obtain ⟨t, ts, rfl, -⟩ := h
  exact cons_ne_nil t ts

theorem Stops.mono {l l' : ℕ} (h : Stops l rest) (hl : l ≤ l') : Stops l' rest := by
  obtain ⟨t, ts, rfl, hdot, hparen, hop⟩ := h
  exact ⟨t, ts, rfl, hdot, hparen, fun op hkind => (hop op hkind).trans_le hl⟩

theorem BinaryOp.kind_injective : Function.Injective BinaryOp.kind := by
  intro a b h
  cases a <;> cases b <;> first | rfl | cases h

theorem stops_operator (ht : t.kind = op.kind) {l : ℕ} (hl : op.level < l) (ts : List Token) : Stops l (t :: ts) := by
  refine ⟨t, ts, rfl, ?_, ?_, fun op' hop' => ?_⟩
  · rw [ht]
    cases op <;> decide
  · rw [ht]
    cases op <;> decide
  · rw [BinaryOp.kind_injective (hop'.trans ht)]
    exact hl

/-- A comma, a closing parenthesis or the end of the input ends an expression. -/
theorem stops_of_kind (ht : t.kind = kind) (hkind : kind ∈ [.comma, .rParen, .eof]) (ts : List Token) :
    Stops 0 (t :: ts) := by
  have hall : ∀ kind ∈ [TokenKind.comma, .rParen, .eof], kind ≠ .dot ∧ kind ≠ .lParen := by decide
  obtain ⟨hdot, hparen⟩ := hall kind hkind
  refine ⟨t, ts, rfl, by rwa [ht], by rwa [ht], fun op hop => ?_⟩
  rw [ht] at hop
  subst hop
  revert hkind
  cases op <;> decide

/-! ### The levels of the parser -/

def tableAt : ℕ → TokenKind → Option BinaryOp
  | 0 => orOp
  | 1 => andOp
  | 2 => comparisonOp
  | 3 => additiveOp
  | 4 => multiplicativeOp
  | _ => fun _ => none

def parserAt (primary : TokenStream Expr) : ℕ → TokenStream Expr
  | 0 => parseOr primary
  | 1 => parseAnd primary
  | 2 => parseComparison primary
  | 3 => parseAdditive primary
  | 4 => parseMultiplicative primary
  | _ => primary

theorem tableAt_kind (op : BinaryOp) : tableAt op.level op.kind = some op := by
  cases op <;> rfl

theorem of_tableAt {l : ℕ} (h : tableAt l kind = some op) : op.kind = kind ∧ op.level = l := by
  unfold tableAt at h
  split at h
  · unfold orOp at h
    split at h <;> cases h
    exact ⟨rfl, rfl⟩
  · unfold andOp at h
    split at h <;> cases h
    exact ⟨rfl, rfl⟩
  · unfold comparisonOp at h
    split at h <;> cases h <;> exact ⟨rfl, rfl⟩
  · unfold additiveOp at h
    split at h <;> cases h <;> exact ⟨rfl, rfl⟩
  · unfold multiplicativeOp at h
    split at h <;> cases h <;> exact ⟨rfl, rfl⟩
  · cases h

/-- The levels whose operators associate to the left. -/
def LeftLevel (l : ℕ) : Prop := l < 5 ∧ l ≠ 2

theorem parserAt_eq (primary : TokenStream Expr) {l : ℕ} (hl : LeftLevel l) :
    parserAt primary l = parseLevel (tableAt l) (parserAt primary (l + 1)) := by
  have hlt := hl.1
  have hne := hl.2
  interval_cases l
  · rfl
  · rfl
  · omega
  · rfl
  · rfl

/-- In front of what stops a level there is no operator of it. -/
theorem Stops.operator {l : ℕ} (h : Stops l rest) : operator (tableAt l) rest = .ok (none, rest) := by
  obtain ⟨t, ts, rfl, -, -, hop⟩ := h
  refine operator_none ?_
  cases htable : tableAt l t.kind with
  | none => rfl
  | some op =>
    obtain ⟨hkind, hlevel⟩ := of_tableAt htable
    exact absurd (hop op hkind) (by omega)

/-- The parser of a level takes an expression; where operators associate, it goes on behind it. -/
structure Reads (primary : TokenStream Expr) (l : ℕ) (ts : List Token) (e : Expr) : Prop where
  takes : Takes (parserAt primary l) (Stops l) ts e
  opens : LeftLevel l → Opens (parserAt primary (l + 1)) (operator (tableAt l)) Expr.binary .outOfFuel
    (parserAt primary l) (Stops (l + 1)) ts e

variable {parseF64} {primary : TokenStream Expr} {l : ℕ} {ts : List Token} {e : Expr}

theorem reads_of_opens (h : Opens (parserAt primary (l + 1)) (operator (tableAt l)) Expr.binary
    .outOfFuel (parserAt primary l) (Stops (l + 1)) ts e) : Reads primary l ts e :=
  ⟨h.takes (fun _ hrest => hrest.mono (Nat.le_succ l)) fun _ hrest => hrest.operator, fun _ => h⟩

/-- An operand of the next level is an expression of this one. -/
theorem reads_of_takes (hl : l < 5) (h : Takes (parserAt primary (l + 1)) (Stops (l + 1)) ts e) :
    Reads primary l ts e := by
  by_cases hne : l = 2
  · subst hne
    refine ⟨fun rest hrest => ?_, fun hleft => absurd rfl hleft.2⟩
    have hlhs : parseAdditive primary (ts ++ rest) = .ok (e, rest) := h rest (hrest.mono (by omega))
    have hnone : operator comparisonOp rest = .ok (none, rest) := hrest.operator
    change parseComparison primary (ts ++ rest) = _
    simp only [parseComparison, bind, StateT.bind, hlhs, hnone, Except.bind]
    rfl
  · have hleft : LeftLevel l := ⟨hl, hne⟩
    refine reads_of_opens ?_
    rw [parserAt_eq primary hleft]
    exact h.opens

/-- An operand of a higher level is an expression of every lower one. -/
theorem reads_of_higher (d : ℕ) (hk : l + d < 5)
    (h : Takes (parserAt primary (l + d + 1)) (Stops (l + d + 1)) ts e) : Reads primary l ts e := by
  induction d generalizing l with
  | zero => exact reads_of_takes hk h
  | succ d ih =>
    have heq : l + (d + 1) = l + 1 + d := by omega
    rw [heq] at h hk
    exact reads_of_takes (by omega) (ih hk h).takes

theorem reads_of_primary (h : Takes primary (Stops 5) ts e) (hl : l ≤ 5) : Reads primary l ts e := by
  rcases Nat.lt_or_eq_of_le hl with hlt | rfl
  · obtain ⟨d, hd⟩ := Nat.exists_eq_add_of_lt hlt
    refine reads_of_higher d (by omega) ?_
    rwa [← hd]
  · exact ⟨h, fun hleft => absurd hleft.1 (by omega)⟩

/-- **Two operands and the operator between them.** -/
theorem reads_binary {a b : Expr} {ta tb : List Token} (ha : Reads primary op.lhsLevel ta a)
    (ht : t.kind = op.kind) (hb : Reads primary op.rhsLevel tb b) :
    Reads primary op.level (ta ++ ([t] ++ tb)) (.binary op a b) := by
  have htable : tableAt op.level t.kind = some op := by rw [ht, tableAt_kind]
  by_cases hne : op.level = 2
  · have hlhs := ha.takes
    have hrhs := hb.takes
    rw [BinaryOp.lhsLevel, if_pos hne] at hlhs
    rw [BinaryOp.rhsLevel, hne] at hrhs
    rw [hne] at htable
    have hcomparison : Takes (parseComparison primary) (Stops 2) (ta ++ ([t] ++ tb)) (.binary op a b) := by
      intro rest hrest
      have hleft := hlhs (t :: (tb ++ rest)) (stops_operator ht (by omega) _)
      have hoperator : operator comparisonOp (t :: (tb ++ rest)) = .ok (some op, tb ++ rest) :=
        takes_operator htable (tb ++ rest) (append_ne_nil_of_right_ne_nil tb hrest.ne_nil)
      have hright := hrhs rest (hrest.mono (by omega))
      change parseAdditive primary _ = _ at hleft
      change parseAdditive primary _ = _ at hright
      rw [append_assoc, append_assoc, singleton_append]
      simp only [parseComparison, bind, StateT.bind, hleft, hoperator, hright, Except.bind]
      rfl
    rw [hne]
    exact ⟨hcomparison, fun hleft => absurd rfl hleft.2⟩
  · rw [BinaryOp.lhsLevel, if_neg hne] at ha
    have hlt : op.level < 5 := by cases op <;> decide
    refine reads_of_opens ((ha.opens ⟨hlt, hne⟩).append (cons_ne_nil t []) (takes_operator htable)
      hb.takes (fun rest hrest => append_ne_nil_of_right_ne_nil tb hrest.ne_nil) fun rest _ => ?_)
    exact stops_operator ht (Nat.lt_succ_self _) _

/-! ### Primary expressions -/

theorem Renders.ne_nil {l : ℕ} {e : Expr} {ts : List Token} (h : Renders parseF64 l e ts) :
    ∃ t more, ts = t :: more ∧ t.kind ≠ .rParen := by
  induction h with
  | column ht | i64 ht | f64 ht | str ht | noArgs ht | call ht => exact ⟨_, _, rfl, by rw [ht]; decide⟩
  | binary hl ha ht hb iha ihb =>
    obtain ⟨t, more, rfl, hkind⟩ := iha
    exact ⟨t, _, rfl, hkind⟩
  | group ho => exact ⟨_, _, rfl, by rw [ho]; decide⟩

section primary

variable {fuel : ℕ} {t o c : Token}

theorem parsePrimary_i64 (ht : t.kind = .i64) (hts : ts ≠ []) : parsePrimary parseF64 (fuel + 1) (t :: ts) =
    match parseI64 t.text with
    | some v => .ok (.i64 v, ts)
    | none => .error (.parseErr (.other ("invalid i64: " ++ t.text))) := by
  change (peekKind >>= _) (t :: _) = _
  rw [peekKind_bind]
  simp only [ht]
  rw [advance_bind hts]
  cases parseI64 t.text <;> rfl

theorem parsePrimary_f64 (ht : t.kind = .f64) (hts : ts ≠ []) : parsePrimary parseF64 (fuel + 1) (t :: ts) =
    match parseF64 t.text with
    | some v => .ok (.f64 v, ts)
    | none => .error (.parseErr (.other ("invalid f64: " ++ t.text))) := by
  change (peekKind >>= _) (t :: _) = _
  rw [peekKind_bind]
  simp only [ht]
  rw [advance_bind hts]
  cases parseF64 t.text <;> rfl

theorem parsePrimary_str (ht : t.kind = .str) (hts : ts ≠ []) :
    parsePrimary parseF64 (fuel + 1) (t :: ts) = .ok (.str t.text, ts) := by
  change (peekKind >>= _) (t :: _) = _
  rw [peekKind_bind]
  simp only [ht]
  rw [advance_bind hts]
  rfl

theorem parsePrimary_column (ht : t.kind = .ident) (ho : o.kind ≠ .lParen) :
    parsePrimary parseF64 (fuel + 1) (t :: o :: ts) = (Expr.column <$> parsePath t.text) (o :: ts) := by
  change (peekKind >>= _) (t :: _) = _
  rw [peekKind_bind]
  simp only [ht]
  rw [advance_bind (cons_ne_nil o ts), peekKind_bind, if_neg fun h => ho (Option.some.inj h)]

variable {more : List (Token × Token)}

theorem takes_path (name : String) (hmore : ∀ p ∈ more, p.1.kind = .dot ∧ p.2.kind = .ident) :
    Takes (parsePath name) (Stops 5) (more.flatMap fun p => [p.1, p.2]) (pathName name (more.map fun p => p.2.text)) := by
  have hstart : Opens expectIdent (operator dot) (fun _ full next => full ++ "." ++ next) .outOfFuel (parsePath name)
      (· ≠ []) [] name := opens_chain name
  have hopens := hstart.flatMap (fun _ => ()) (fun p => p.2.text) (fun p _ => cons_ne_nil p.1 [])
    (fun p hp => takes_operator (by rw [(hmore p hp).1]; rfl)) (fun p hp => takes_expectIdent (hmore p hp).2)
    (fun p _ rest _ => cons_ne_nil p.2 rest) fun p _ rest _ => cons_ne_nil p.1 _
  have hpath : (more.foldl (fun full p => full ++ "." ++ p.2.text) name) =
      pathName name (more.map fun p => p.2.text) := by
    rw [pathName, foldl_map]
  rw [← hpath]
  refine hopens.takes (fun rest hrest => hrest.ne_nil) fun rest hrest => ?_
  obtain ⟨t, ts, rfl, hdot, -⟩ := hrest
  refine operator_none ?_
  unfold dot
  split
  · exact absurd ‹_› hdot
  · rfl

/-- A name and a dotted path. -/
theorem takes_column (ht : t.kind = .ident) (hmore : ∀ p ∈ more, p.1.kind = .dot ∧ p.2.kind = .ident) :
    Takes (parsePrimary parseF64 (fuel + 1)) (Stops 5) (t :: more.flatMap fun p => [p.1, p.2])
      (.column (pathName t.text (more.map fun p => p.2.text))) := by
  intro rest hrest
  -- what follows the name is a dot, or what follows the path
  have hnext : ∃ t' ts, (more.flatMap fun p => [p.1, p.2]) ++ rest = t' :: ts ∧ t'.kind ≠ .lParen := by
    cases more with
    | nil =>
      obtain ⟨t', ts, rfl, -, hparen, -⟩ := hrest
      exact ⟨t', ts, rfl, hparen⟩
    | cons p more => exact ⟨p.1, _, rfl, by rw [(hmore p mem_cons_self).1]; decide⟩
  have hpath := (takes_path t.text hmore).map Expr.column rest hrest
  obtain ⟨t', ts, heq, hparen⟩ := hnext
  rw [heq] at hpath
  rw [cons_append, heq, parsePrimary_column ht hparen]
  exact hpath

theorem parsePrimary_call (ht : t.kind = .ident) (ho : o.kind = .lParen) (hts : ts ≠ []) :
    parsePrimary parseF64 (fuel + 1) (t :: o :: ts) = (do
      let args ← parseArgs (parseOr (parsePrimary parseF64 fuel))
      expect .rParen
      return .call t.text args : TokenStream Expr) ts := by
  change (peekKind >>= _) (t :: _) = _
  rw [peekKind_bind]
  simp only [ht]
  rw [advance_bind (cons_ne_nil o ts), peekKind_bind, if_pos (congrArg some ho), advance_bind hts]

theorem parsePrimary_group (ho : o.kind = .lParen) (hts : ts ≠ []) : parsePrimary parseF64 (fuel + 1) (o :: ts) = (do
      let e ← parseOr (parsePrimary parseF64 fuel)
      expect .rParen
      return e : TokenStream Expr) ts := by
  change (peekKind >>= _) (o :: ts) = _
  rw [peekKind_bind]
  simp only [ho]
  rw [advance_bind hts]

theorem takes_args {parser : TokenStream Expr} {first : Expr × List Token} {more : List (Token × Expr × List Token)}
    (hhead : ∃ t ts, first.2 = t :: ts ∧ t.kind ≠ .rParen) (hfirst : Takes parser (Stops 0) first.2 first.1)
    (hcomma : ∀ m ∈ more, m.1.kind = .comma) (hmore : ∀ m ∈ more, Takes parser (Stops 0) m.2.2 m.2.1) :
    Takes (parseArgs parser) (fun rest => rest.head?.map Token.kind = some .rParen)
      (first.2 ++ more.flatMap fun m => [m.1] ++ m.2.2) (first.1 :: more.map fun m => m.2.1) := by
  have hstart : Takes ((fun e => [e]) <$> parser) (Stops 0) first.2 [first.1] := hfirst.map _
  have hopens : Opens _ (operator comma) (fun _ args more => args ++ more) .outOfFuel _ (Stops 0) first.2 [first.1] :=
    hstart.opens
  have hall := hopens.flatMap (fun _ => ()) (fun m => [m.2.1]) (fun m _ => cons_ne_nil m.1 [])
    (fun m hm => takes_operator (by rw [hcomma m hm]; rfl)) (fun m hm => (hmore m hm).map fun e => [e])
    (fun m _ rest hrest => append_ne_nil_of_right_ne_nil m.2.2 hrest.ne_nil)
    fun m hm rest _ => stops_of_kind (hcomma m hm) (by decide) _
  have hargs : more.foldl (fun args m => args ++ [m.2.1]) [first.1] = first.1 :: more.map fun m => m.2.1 := by
    rw [foldl_append_eq_append, ← flatMap_def, ← map_eq_flatMap, singleton_append]
  rw [hargs] at hall
  intro rest hrest
  have hclosed : ∃ c after, rest = c :: after ∧ c.kind = .rParen := by
    cases rest with
    | nil => cases hrest
    | cons c after => exact ⟨c, after, rfl, Option.some.inj hrest⟩
  obtain ⟨c, after, rfl, hc⟩ := hclosed
  have htakes : Takes _ (· = c :: after) _ _ := hall.takes (fun _ h => h ▸ stops_of_kind hc (by decide) after)
    fun _ h => h ▸ operator_none (by rw [hc]; rfl)
  have hread := htakes (c :: after) rfl
  obtain ⟨t, ts, hts, hkind⟩ := hhead
  rw [hts] at hread ⊢
  rw [parseArgs]
  refine Eq.trans ?_ hread
  rw [cons_append, cons_append, peekKind_bind, if_neg fun h => hkind (Option.some.inj h)]

/-- A call, with some arguments or none. -/
theorem takes_call {args : List Expr} (ht : t.kind = .ident) (ho : o.kind = .lParen) (hc : c.kind = .rParen)
    (hargs : Takes (parseArgs (parseOr (parsePrimary parseF64 fuel)))
      (fun rest => rest.head?.map Token.kind = some .rParen) ts args) :
    Takes (parsePrimary parseF64 (fuel + 1)) (Stops 5) (t :: o :: (ts ++ [c])) (.call t.text args) := by
  intro rest hrest
  have hbody : Takes (do
      let args ← parseArgs (parseOr (parsePrimary parseF64 fuel))
      expect .rParen
      return .call t.text args : TokenStream Expr) (· ≠ []) (ts ++ [c]) (.call t.text args) := by
    have hend : Takes (do
        expect .rParen
        return .call t.text args : TokenStream Expr) (· ≠ []) [c] (.call t.text args) :=
      (takes_expect hc).bind_pure fun _ => Expr.call t.text args
    exact hargs.bind hend fun _ _ => congrArg some hc
  exact (parsePrimary_call ht ho (by simp)).trans (hbody rest hrest.ne_nil)

theorem takes_group (ho : o.kind = .lParen) (hc : c.kind = .rParen)
    (h : Takes (parseOr (parsePrimary parseF64 fuel)) (Stops 0) ts e) :
    Takes (parsePrimary parseF64 (fuel + 1)) (Stops 5) (o :: (ts ++ [c])) e := by
  intro rest hrest
  have hend : Takes (do
      expect .rParen
      return e : TokenStream Expr) (· ≠ []) [c] e := (takes_expect hc).bind_pure fun _ => e
  have hbody : Takes (do
      let e ← parseOr (parsePrimary parseF64 fuel)
      expect .rParen
      return e : TokenStream Expr) (· ≠ []) (ts ++ [c]) e :=
    h.bind hend fun rest _ => stops_of_kind hc (by decide) rest
  exact (parsePrimary_group ho (by simp)).trans (hbody rest hrest.ne_nil)

end primary

/-- **The parser takes whatever stands for a tree.** -/
theorem Renders.reads (h : Renders parseF64 l e ts) (hl : l ≤ 5) {fuel : ℕ} (hfuel : ts.length ≤ fuel) :
    Reads (parsePrimary parseF64 fuel) l ts e := by
  have hsucc : ∀ {n m : ℕ}, n + 1 ≤ m → ∃ k, m = k + 1 ∧ n ≤ k := fun {n m} h => ⟨m - 1, by omega, by omega⟩
  induction h generalizing fuel with
  | @column l t more ht hmore =>
    obtain ⟨k, rfl, -⟩ := hsucc hfuel
    exact reads_of_primary (takes_column ht hmore) hl
  | @i64 l t v ht hv =>
    obtain ⟨k, rfl, -⟩ := hsucc hfuel
    refine reads_of_primary (fun rest hrest => ?_) hl
    rw [singleton_append, parsePrimary_i64 ht hrest.ne_nil, hv]
  | @f64 l t v ht hv =>
    obtain ⟨k, rfl, -⟩ := hsucc hfuel
    refine reads_of_primary (fun rest hrest => ?_) hl
    rw [singleton_append, parsePrimary_f64 ht hrest.ne_nil, hv]
  | @str l t ht =>
    obtain ⟨k, rfl, -⟩ := hsucc hfuel
    exact reads_of_primary (fun rest hrest => parsePrimary_str ht hrest.ne_nil) hl
  | @noArgs l t o c ht ho hc =>
    obtain ⟨k, rfl, -⟩ := hsucc hfuel
    have hargs : Takes (parseArgs (parseOr (parsePrimary parseF64 k)))
        (fun rest => rest.head?.map Token.kind = some .rParen) [] [] := by
      intro rest hrest
      cases rest with
      | nil => cases hrest
      | cons c' rest =>
        have hc' : some c'.kind = some .rParen := hrest
        rw [List.nil_append, parseArgs, peekKind_bind, if_pos hc']
        rfl
    exact reads_of_primary (takes_call ht ho hc hargs) hl
  | @call l t o c first more ht ho hc hfirst hcomma hmore ihfirst ihmore =>
    obtain ⟨k, rfl, hk⟩ := hsucc hfuel
    simp only [length_cons, length_append] at hk
    refine reads_of_primary (takes_call ht ho hc (takes_args hfirst.ne_nil ?_ hcomma fun m hm => ?_)) hl
    · exact (ihfirst (Nat.zero_le 5) (by omega)).takes
    · have hle := (sublist_flatten_of_mem (mem_map_of_mem (f := fun m => [m.1] ++ m.2.2) hm)).length_le
      rw [← flatMap_def, length_append] at hle
      exact (ihmore m hm (Nat.zero_le 5) (by omega)).takes
  | @binary l op a b ta tb t hlevel ha ht hb iha ihb =>
    simp only [length_append] at hfuel
    have hta : ta.length ≤ fuel := by omega
    have htb : tb.length ≤ fuel := by omega
    have hlhs : op.lhsLevel ≤ 5 := by cases op <;> decide
    have hrhs : op.rhsLevel ≤ 5 := by cases op <;> decide
    have hread := reads_binary (iha hlhs hta) ht (ihb hrhs htb)
    rcases Nat.lt_or_eq_of_le hlevel with hlt | rfl
    · obtain ⟨d, hd⟩ := Nat.exists_eq_add_of_lt hlt
      refine reads_of_higher d (by rw [BinaryOp.rhsLevel] at hrhs; omega) ?_
      rw [← hd]
      exact hread.takes
    · exact hread
  | @group l e ts o c ho h hc ih =>
    obtain ⟨k, rfl, hk⟩ := hsucc hfuel
    rw [length_append] at hk
    exact reads_of_primary (takes_group ho hc (ih (Nat.zero_le 5) (by omega)).takes) hl

/-! ### What the parser takes -/

/-- The last token ends the input. -/
def Closed (ts : List Token) : Prop := ∃ front eof, ts = front ++ [eof] ∧ eof.kind = .eof

/-- A failure that is returned as an error. -/
def Returned (f : ParseFailure) : Prop := ∃ e, f = .parseErr e

/-- A token that does not end the input has one behind it. -/
theorem Closed.tail {ts : List Token} (h : Closed (t :: ts)) (ht : t.kind ≠ .eof) : Closed ts := by
  obtain ⟨front, eof, heq, heof⟩ := h
  cases front with
  | nil =>
    cases heq
    exact absurd heof ht
  | cons t' front =>
    cases heq
    exact ⟨front, eof, rfl, heof⟩

theorem Closed.ne_nil {ts : List Token} (h : Closed ts) : ts ≠ [] := by
  obtain ⟨front, eof, rfl, -⟩ := h
  exact append_ne_nil_of_right_ne_nil front (cons_ne_nil eof [])

theorem Closed.of_append {front ts : List Token} (h : Closed (front ++ ts)) (hts : ts ≠ []) : Closed ts := by
  obtain ⟨front', eof, heq, heof⟩ := h
  have hlast := congrArg List.getLast? heq
  rw [getLast?_append_of_ne_nil front hts, getLast?_concat] at hlast
  obtain ⟨init, rfl⟩ := getLast?_eq_some_iff.mp hlast
  exact ⟨init, eof, rfl, heof⟩

section consumes

variable {α ω : Type} {n : ℕ}

/-- Below, what is said of a reader holds of inputs that end, and all its failures are returned. -/
abbrev Parses (n : ℕ) (r : TokenStream α) (P : List Token → α → Prop) : Prop := Consumes Closed Returned n r P

theorem parses_unexpectedKind (got : TokenKind) (expected : String) {P : List Token → α → Prop} :
    Parses n (unexpectedKind got expected : TokenStream α) P := by
  intro ts _ _
  cases ts with
  | nil | cons t ts => exact .inl ⟨_, rfl, _, rfl⟩

theorem parses_expect {kind : TokenKind} (hkind : kind ≠ .eof) :
    Parses n (expect kind) fun taken _ => ∃ t, taken = [t] ∧ t.kind = kind := by
  intro ts hts hlen
  obtain ⟨t, ts, rfl⟩ := exists_cons_of_ne_nil hts.ne_nil
  by_cases ht : t.kind = kind
  · have htail := hts.tail (by rwa [ht])
    exact .inr ⟨[t], ts, (), rfl, takes_expect ht ts htail.ne_nil, htail, t, rfl, ht⟩
  · rw [expect, peekKind_bind]
    simp only [ht, if_false]
    exact parses_unexpectedKind _ _ _ hts hlen

theorem parses_expectIdent : Parses n expectIdent fun taken text => ∃ t, taken = [t] ∧ t.kind = .ident ∧ text = t.text := by
  intro ts hts hlen
  obtain ⟨t, ts, rfl⟩ := exists_cons_of_ne_nil hts.ne_nil
  by_cases ht : t.kind = .ident
  · have htail := hts.tail (by rw [ht]; decide)
    exact .inr ⟨[t], ts, t.text, rfl, takes_expectIdent ht ts htail.ne_nil, htail, t, rfl, ht, rfl⟩
  · have hother : expectIdent (t :: ts) = unexpectedKind t.kind "identifier" (t :: ts) := by
      rw [expectIdent, peekKind_bind]
      generalize t.kind = kind at ht ⊢
      cases kind <;> first | rfl | exact absurd rfl ht
    rw [hother]
    exact parses_unexpectedKind _ _ _ hts hlen

/-- What an operator of a table takes. -/
def TakesOperator (table : TokenKind → Option ω) (taken : List Token) (op : Option ω) : Prop :=
  match op with
  | some op => ∃ t, taken = [t] ∧ table t.kind = some op
  | none => taken = []

theorem parses_operator (table : TokenKind → Option ω) (htable : table .eof = none) :
    Parses n (operator table) (TakesOperator table) := by
  intro ts hts hlen
  obtain ⟨t, ts, rfl⟩ := exists_cons_of_ne_nil hts.ne_nil
  cases hop : table t.kind with
  | none => exact .inr ⟨[], t :: ts, none, rfl, operator_none hop, hts, rfl⟩
  | some op =>
    have htail := hts.tail fun h => by
      rw [h, htable] at hop
      cases hop
    exact .inr ⟨[t], ts, some op, rfl, takes_operator hop ts htail.ne_nil, htail, t, rfl, hop⟩

/-- An expression that may stand where an operand of a higher level is expected. -/
theorem Renders.mono {l l' : ℕ} {e : Expr} {ts : List Token} (h : Renders parseF64 l' e ts) (hl : l ≤ l') :
    Renders parseF64 l e ts := by
  cases h with
  | column ht hmore => exact .column ht hmore
  | i64 ht hv => exact .i64 ht hv
  | f64 ht hv => exact .f64 ht hv
  | str ht => exact .str ht
  | noArgs ht ho hc => exact .noArgs ht ho hc
  | call ht ho hc hfirst hcomma hmore => exact .call ht ho hc hfirst hcomma hmore
  | binary hlevel ha ht hb => exact .binary (hl.trans hlevel) ha ht hb
  | group ho h hc => exact .group ho h hc

theorem parses_parseLevel {operand : TokenStream Expr} (hl : LeftLevel l)
    (h : Parses n operand fun taken e => Renders parseF64 (l + 1) e taken) :
    Parses n (parseLevel (tableAt l) operand) fun taken e => Renders parseF64 l e taken := by
  have heof : tableAt l .eof = none := by
    unfold tableAt
    split <;> rfl
  refine h.leftAssoc (parses_operator _ heof) (fun _ h => h) ?_ (fun _ _ h => h.mono (Nat.le_succ l)) ?_
  · rintro taken op ⟨t, rfl, -⟩
    exact cons_ne_nil t []
  · rintro ta tc tb a b op ha ⟨t, rfl, htable⟩ hb
    obtain ⟨hkind, rfl⟩ := of_tableAt htable
    refine .binary le_rfl ?_ hkind.symm hb
    rwa [BinaryOp.lhsLevel, if_neg hl.2]

theorem parses_parseComparison (h : Parses n (parseAdditive primary) fun taken e => Renders parseF64 3 e taken) :
    Parses n (parseComparison primary) fun taken e => Renders parseF64 2 e taken := by
  refine h.bind fun ta a _ ha => (parses_operator comparisonOp rfl).bind fun tc op _ hop => ?_
  cases op with
  | none =>
    refine Consumes.pure ?_
    rw [show tc = [] from hop, append_nil, append_nil]
    exact ha.mono (by omega)
  | some op =>
    obtain ⟨t, rfl, htable⟩ := hop
    obtain ⟨hkind, hlevel⟩ := of_tableAt (l := 2) htable
    refine (h.mono (by omega) fun _ _ h => h).bind fun tb b _ hb => Consumes.pure ?_
    rw [append_nil]
    refine .binary hlevel.ge ?_ hkind.symm ?_
    · rwa [BinaryOp.lhsLevel, if_pos hlevel]
    · rwa [BinaryOp.rhsLevel, hlevel]

theorem parses_parseOr (h : Parses n primary fun taken e => Renders parseF64 5 e taken) :
    Parses n (parseOr primary) fun taken e => Renders parseF64 0 e taken := by
  have hmultiplicative : Parses n (parseMultiplicative primary) fun taken e => Renders parseF64 4 e taken :=
    parses_parseLevel (l := 4) ⟨by decide, by decide⟩ h
  have hadditive : Parses n (parseAdditive primary) fun taken e => Renders parseF64 3 e taken :=
    parses_parseLevel (l := 3) ⟨by decide, by decide⟩ hmultiplicative
  have hand : Parses n (parseAnd primary) fun taken e => Renders parseF64 1 e taken :=
    parses_parseLevel (l := 1) ⟨by decide, by decide⟩ (parses_parseComparison hadditive)
  exact parses_parseLevel (l := 0) ⟨by decide, by decide⟩ hand

/-- Arguments with commas between them. -/
def Arguments (parseF64 : String → Option UInt64) (taken : List Token) (args : List Expr) : Prop :=
  ∃ (first : Expr × List Token) (more : List (Token × Expr × List Token)), Renders parseF64 0 first.1 first.2 ∧
    (∀ m ∈ more, m.1.kind = .comma) ∧ (∀ m ∈ more, Renders parseF64 0 m.2.1 m.2.2) ∧
    args = first.1 :: more.map (fun m => m.2.1) ∧ taken = first.2 ++ more.flatMap fun m => [m.1] ++ m.2.2

theorem parses_parseArgs {parser : TokenStream Expr} (h : Parses n parser fun taken e => Renders parseF64 0 e taken) :
    Parses n (parseArgs parser) fun taken args => taken = [] ∧ args = [] ∨ Arguments parseF64 taken args := by
  intro ts hts hlen
  obtain ⟨t, ts, rfl⟩ := exists_cons_of_ne_nil hts.ne_nil
  rw [parseArgs, peekKind_bind]
  split_ifs with hclose
  · exact .inr ⟨[], t :: ts, [], rfl, rfl, hts, .inl ⟨rfl, rfl⟩⟩
  · have hone : Parses n ((fun e => [e]) <$> parser) fun taken args => ∃ e, args = [e] ∧ Renders parseF64 0 e taken :=
      (h.mono le_rfl fun taken e he => ⟨e, rfl, he⟩).map
    have hargs : Parses n (leftAssoc ((fun e => [e]) <$> parser) (operator comma) (fun _ args more => args ++ more)
        .outOfFuel) (Arguments parseF64) := by
      refine hone.leftAssoc (parses_operator _ rfl) (fun _ h => h) ?_ ?_ ?_
      · rintro taken op ⟨t, rfl, -⟩
        exact cons_ne_nil t []
      · rintro taken args ⟨e, rfl, he⟩
        exact ⟨(e, taken), [], he, forall_mem_nil _, forall_mem_nil _, rfl, by simp⟩
      · rintro ta tc tb args args' op ⟨first, more, hfirst, hcomma, hmore, rfl, rfl⟩ ⟨t, rfl, ht⟩ ⟨e, rfl, he⟩
        refine ⟨first, more ++ [(t, e, tb)], hfirst, ?_, ?_, by simp, by simp⟩
        · rw [forall_mem_append, forall_mem_singleton]
          refine ⟨hcomma, ?_⟩
          unfold comma at ht
          split at ht
          · assumption
          · cases ht
        · rw [forall_mem_append, forall_mem_singleton]
          exact ⟨hmore, he⟩
    exact (hargs.mono le_rfl fun _ _ h => .inr h) _ hts hlen

variable {t o : Token}

theorem parses_parsePath (ht : t.kind = .ident) :
    Parses n (parsePath t.text) fun taken name => Renders parseF64 5 (.column name) (t :: taken) := by
  let Path (taken : List Token) (name : String) : Prop := ∃ more : List (Token × Token),
    (∀ p ∈ more, p.1.kind = .dot ∧ p.2.kind = .ident) ∧ name = pathName t.text (more.map fun p => p.2.text) ∧
      taken = more.flatMap fun p => [p.1, p.2]
  have hpath : Parses n (parsePath t.text) fun taken name => Path ([] ++ taken) name := by
    refine consumes_chain parses_expectIdent (parses_operator _ rfl) (fun _ h => h) ?_ ?_ ⟨[], ?_, rfl, rfl⟩
    · rintro taken op ⟨t, rfl, -⟩
      exact cons_ne_nil t []
    · rintro ta tc tb full next op ⟨more, hmore, rfl, rfl⟩ ⟨d, rfl, hd⟩ ⟨i, rfl, hi, rfl⟩
      refine ⟨more ++ [(d, i)], ?_, ?_, by simp⟩
      · rw [forall_mem_append, forall_mem_singleton]
        refine ⟨hmore, ?_, hi⟩
        unfold dot at hd
        split at hd
        · assumption
        · cases hd
      · simp [pathName]
    · simp
  refine hpath.mono le_rfl fun taken name h => ?_
  obtain ⟨more, hmore, rfl, htaken⟩ := h
  rw [List.nil_append] at htaken
  subst htaken
  exact .column ht hmore

theorem parsePrimary_other (ts : List Token) (fuel : ℕ) (h : t.kind ∉ [.i64, .f64, .str, .ident, .lParen]) :
    parsePrimary parseF64 (fuel + 1) (t :: ts) = unexpectedKind t.kind "expression" (t :: ts) := by
  change (peekKind >>= _) (t :: _) = _
  rw [peekKind_bind]
  generalize t.kind = kind at h ⊢
  cases kind <;> first | rfl | exact absurd (by decide) h

/-- What stands behind the opening parenthesis of a call. -/
theorem parses_callRest (h : Parses n primary fun taken e => Renders parseF64 5 e taken) (ht : t.kind = .ident)
    (ho : o.kind = .lParen) : Parses n (do
      let args ← parseArgs (parseOr primary)
      expect .rParen
      return .call t.text args : TokenStream Expr) fun taken e => Renders parseF64 5 e (t :: o :: taken) := by
  refine (parses_parseArgs (parses_parseOr h)).bind fun ts args _ hargs => ?_
  refine (parses_expect (by decide)).bind fun tc _ _ hc => Consumes.pure ?_
  obtain ⟨c, rfl, hc⟩ := hc
  rw [append_nil]
  rcases hargs with ⟨rfl, rfl⟩ | ⟨first, more, hfirst, hcomma, hmore, rfl, rfl⟩
  · exact .noArgs ht ho hc
  · exact .call ht ho hc hfirst hcomma hmore

/-- What stands behind an opening parenthesis. -/
theorem parses_groupRest (h : Parses n primary fun taken e => Renders parseF64 5 e taken)
    (ho : o.kind = .lParen) : Parses n (do
      let e ← parseOr primary
      expect .rParen
      return e : TokenStream Expr) fun taken e => Renders parseF64 5 e (o :: taken) := by
  refine (parses_parseOr h).bind fun ts e _ he => ?_
  refine (parses_expect (by decide)).bind fun tc _ _ hc => Consumes.pure ?_
  obtain ⟨c, rfl, hc⟩ := hc
  rw [append_nil]
  exact .group ho he hc

/-- **What the parser takes stands for the tree.** -/
theorem parses_parsePrimary (fuel : ℕ) :
    Parses fuel (parsePrimary parseF64 fuel) fun taken e => Renders parseF64 5 e taken := by
  induction fuel with
  | zero => exact fun ts hts hlen => absurd (eq_nil_of_length_eq_zero (Nat.le_zero.mp hlen)) hts.ne_nil
  | succ fuel ih =>
    intro ts hts hlen
    obtain ⟨t, ts, rfl⟩ := exists_cons_of_ne_nil hts.ne_nil
    have hlen' : ts.length ≤ fuel := Nat.le_of_succ_le_succ hlen
    by_cases hkind : t.kind ∉ [.i64, .f64, .str, .ident, .lParen]
    · rw [parsePrimary_other ts fuel hkind]
      exact parses_unexpectedKind _ _ _ hts hlen
    · have heof : t.kind ≠ .eof := fun h => hkind (by rw [h]; decide)
      have htail := hts.tail heof
      simp only [mem_cons, not_mem_nil, or_false, not_not] at hkind
      rcases hkind with ht | ht | ht | ht | ht
      · rw [parsePrimary_i64 ht htail.ne_nil]
        cases hv : parseI64 t.text with
        | none => exact .inl ⟨_, rfl, _, rfl⟩
        | some v => exact .inr ⟨[t], ts, .i64 v, rfl, rfl, htail, .i64 ht hv⟩
      · rw [parsePrimary_f64 ht htail.ne_nil]
        cases hv : parseF64 t.text with
        | none => exact .inl ⟨_, rfl, _, rfl⟩
        | some v => exact .inr ⟨[t], ts, .f64 v, rfl, rfl, htail, .f64 ht hv⟩
      · rw [parsePrimary_str ht htail.ne_nil]
        exact .inr ⟨[t], ts, .str t.text, rfl, rfl, htail, .str ht⟩
      · obtain ⟨o, ts, rfl⟩ := exists_cons_of_ne_nil htail.ne_nil
        by_cases ho : o.kind = .lParen
        · have htail' := htail.tail (by rw [ho]; decide)
          rw [parsePrimary_call ht ho htail'.ne_nil]
          exact (parses_callRest ih ht ho ts htail' ((Nat.le_succ _).trans hlen')).cons.cons
        · rw [parsePrimary_column ht ho]
          exact ((parses_parsePath ht).map _ htail hlen').cons
      · rw [parsePrimary_group ht htail.ne_nil]
        exact (parses_groupRest ih ht ts htail hlen').cons

/-- The parser returns an error, or a tree and the tokens behind those that stand for it. -/
theorem outcome_parseExpr {ts : List Token} (hts : Closed ts) :
    Outcome Closed Returned (fun taken e => Renders parseF64 0 e taken) ts (parseExpr parseF64 ts) :=
  parses_parseOr (parses_parsePrimary ts.length) ts hts le_rfl

theorem renders_of_parseExpr {ts rest : List Token} {e : Expr} (hts : Closed ts)
    (hparse : parseExpr parseF64 ts = .ok (e, rest)) : ∃ taken, ts = taken ++ rest ∧ Renders parseF64 0 e taken := by
  have hparses (n : ℕ) : Parses n (parseExpr parseF64) fun taken e => Renders parseF64 0 e taken :=
    fun ts hts _ => outcome_parseExpr hts
  obtain ⟨taken, heq, -, hrenders⟩ := Consumes.of_eq_ok hparses hts hparse
  exact ⟨taken, heq, hrenders⟩

end consumes

end CenDB.Cenql
