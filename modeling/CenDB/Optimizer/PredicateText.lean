import CenDB.Cenql.Spells

/-! # Predicates as texts

A filter of a CenQL pipeline becomes a predicate of the plan, which is a text (`exprToPredicate`).  The parser
takes that text for the same expression where `Bare` allows it to do without parentheses, and only there
(`readsAs_exprToPredicate`). -/

namespace CenDB.Optimizer

open Cenql Tokenizer List Option

section text

variable (displayF64 : UInt64 → String) (displayPipeline : CenqlPipeline → String)

def opStr : BinaryOp → String
  | .eq => "=="
  | .ne => "!="
  | .lt => "<"
  | .le => "<="
  | .gt => ">"
  | .ge => ">="
  | .and => "and"
  | .or => "or"
  | .add => "+"
  | .sub => "-"
  | .mul => "*"
  | .div => "/"

mutual

/-- The source tells `and` and `or` from the other operators, but writes all of them the same way. -/
def exprToPredicate : Expr → List Char
  | .column c => c.toList
  | .i64 v => Text.i64Text v.toInt
  | .f64 v => (displayF64 v).toList
  | .str s => '"' :: (s.toList ++ ['"'])
  | .bool b => (toString b).toList
  | .binary op lhs rhs => exprToPredicate lhs ++ ' ' :: ((opStr op).toList ++ ' ' :: exprToPredicate rhs)
  | .call name args => name.toList ++ '(' :: ([',', ' '].intercalate (argsToPredicates args) ++ [')'])
  | .in value subquery =>
    exprToPredicate value ++ (" in (".toList ++ ((displayPipeline subquery).toList ++ [')']))

def argsToPredicates : List Expr → List (List Char)
  | [] => []
  | e :: es => exprToPredicate e :: argsToPredicates es

end

end text

section readsAs

variable (parseF64 : String → Option UInt64) (displayF64 : UInt64 → String)

/-- The parser returns the expression somewhere in some text. -/
def Producible (e : Expr) : Prop := ∃ src front ts rest,
  tokenize src = .ok (front ++ ts) ∧ parseExpr parseF64 ts = .ok (e, rest)

/-- The parser takes the text, up to its end, for the expression. -/
def ReadsAs (text : List Char) (e : Expr) : Prop := ∃ ts eof,
  Parser.new (String.ofList text) = .ok ts ∧ parseExpr parseF64 ts = .ok (e, [eof])

/-- The float of these bits has a fractional part. -/
def fractional (bits : UInt64) : Bool :=
  let exponent := bits.toNat / 2 ^ 52 % 2 ^ 11
  let significand := bits.toNat % 2 ^ 52 + if exponent = 0 then 0 else 2 ^ 52
  significand % 2 ^ (1075 - max exponent 1) ≠ 0

/-- Where an operand of level `l` is expected, no operand is an operator of a lower level than its place
demands, and every float has a fractional part. -/
inductive Bare : ℕ → Expr → Prop
  | column {l : ℕ} (name : String) : Bare l (.column name)
  | i64 {l : ℕ} (v : Int64) : Bare l (.i64 v)
  | f64 {l : ℕ} {v : UInt64} (h : fractional v = true) : Bare l (.f64 v)
  | str {l : ℕ} (s : String) : Bare l (.str s)
  | binary {l : ℕ} {op : BinaryOp} {lhs rhs : Expr} (hl : l ≤ op.level) (hlhs : Bare op.lhsLevel lhs)
    (hrhs : Bare op.rhsLevel rhs) : Bare l (.binary op lhs rhs)
  | call {l : ℕ} {name : String} {args : List Expr} (h : ∀ e ∈ args, Bare 0 e) : Bare l (.call name args)

/-- A numeral without sign and exponent denotes the float. -/
def Denoted (v : UInt64) : Prop := ∃ text : String,
  (∀ c ∈ text.toList, c.isDigit = true ∨ c = '.') ∧ parseF64 text = some v

/-- How the standard library displays floats: what is displayed is read back, with a point and digits behind it
just for fractions, and digits or `inf` for others. -/
structure DisplaysF64 : Prop where
  parse_display : ∀ v, Denoted parseF64 v → parseF64 (displayF64 v) = some v
  fraction : ∀ v, Denoted parseF64 v → fractional v = true → ∃ whole frac : List Char, whole ≠ [] ∧ frac ≠ [] ∧
    (∀ c ∈ whole, c.isDigit = true) ∧ (∀ c ∈ frac, c.isDigit = true) ∧
      displayF64 v = String.ofList (whole ++ '.' :: frac)
  integral : ∀ v, Denoted parseF64 v → fractional v = false → displayF64 v = "inf" ∨ ∃ digits : List Char,
    digits ≠ [] ∧ (∀ c ∈ digits, c.isDigit = true) ∧ displayF64 v = String.ofList digits

end readsAs

/-! ### What the parser produces -/

section spellable

variable (parseF64 : String → Option UInt64)

/-- Trees of operators and calls over what tokens may be. -/
inductive Spellable : Expr → Prop
  | column {first : String} {more : List String} (hfirst : IdentText first) (hmore : ∀ next ∈ more, IdentText next) :
    Spellable (.column (pathName first more))
  | i64 {v : Int64} (h : 0 ≤ v) : Spellable (.i64 v)
  | f64 {v : UInt64} (h : Denoted parseF64 v) : Spellable (.f64 v)
  | str {s : String} (h : StringBody s.toList) : Spellable (.str s)
  | binary {op : BinaryOp} {lhs rhs : Expr} (hlhs : Spellable lhs) (hrhs : Spellable rhs) :
    Spellable (.binary op lhs rhs)
  | call {name : String} {args : List Expr} (hname : IdentText name) (h : ∀ e ∈ args, Spellable e) :
    Spellable (.call name args)

variable {parseF64} {l : ℕ} {e : Expr} {ts : List Token}

theorem nonneg_of_parseI64 {text : String} {v : Int64} (h : ∀ c ∈ text.toList, c.isDigit = true)
    (hv : parseI64 text = some v) : 0 ≤ v := by
  rw [parseI64, Numerals.parseSigned_eq h] at hv
  obtain ⟨i, hi, rfl⟩ := map_eq_some_iff.mp hv
  obtain ⟨n, hn, rfl⟩ := map_eq_some_iff.mp hi
  have hlt : n < 2 ^ (64 - 1) := of_decide_eq_true (filter_eq_some_iff.mp hn).2
  rw [Int64.le_iff_toInt_le, Int64.toInt_ofInt_of_le (by simp) (by simpa using hlt)]
  exact Int.natCast_nonneg n

theorem identText_path {t : Token} {more : List (Token × Token)} (ht : t.kind = .ident)
    (hmore : ∀ p ∈ more, p.1.kind = .dot ∧ p.2.kind = .ident)
    (hts : ∀ t' ∈ t :: more.flatMap fun p => [p.1, p.2], Lexical t'.kind t'.text) :
    IdentText t.text ∧ ∀ next ∈ more.map fun p => p.2.text, IdentText next := by
  refine ⟨?_, forall_mem_map.mpr fun p hp => ?_⟩
  · have hlexical := hts t mem_cons_self
    rwa [ht] at hlexical
  · have hnext := hts p.2 (mem_cons_of_mem t (mem_flatMap.mpr ⟨p, hp, by simp⟩))
    rwa [(hmore p hp).2] at hnext

theorem mem_call {t o c t' : Token} {first : List Token} {more : List (Token × Expr × List Token)}
    {m : Token × Expr × List Token} (hm : m ∈ more) (ht' : t' ∈ m.2.2) :
    t' ∈ t :: o :: (first ++ (more.flatMap fun m => [m.1] ++ m.2.2) ++ [c]) := by
  have hmem : t' ∈ more.flatMap fun m => [m.1] ++ m.2.2 := mem_flatMap.mpr ⟨m, hm, mem_append_right _ ht'⟩
  exact mem_cons_of_mem t (mem_cons_of_mem o (mem_append_left _ (mem_append_right _ hmem)))

/-- What stands for a tree spells it. -/
theorem spellable_of_renders (h : Renders parseF64 l e ts) (hts : ∀ t ∈ ts, Lexical t.kind t.text) :
    Spellable parseF64 e := by
  induction h with
  | @column l t more ht hmore =>
    obtain ⟨hfirst, hnames⟩ := identText_path ht hmore hts
    exact .column hfirst hnames
  | @i64 l t v ht hv =>
    have hlexical := hts t (mem_singleton_self t)
    rw [ht] at hlexical
    exact .i64 (nonneg_of_parseI64 hlexical hv)
  | @f64 l t v ht hv =>
    have hlexical := hts t (mem_singleton_self t)
    rw [ht] at hlexical
    exact .f64 ⟨t.text, hlexical, hv⟩
  | @str l t ht =>
    have hlexical := hts t (mem_singleton_self t)
    rw [ht] at hlexical
    exact .str hlexical
  | @noArgs l t o c ht ho hc =>
    have hlexical := hts t mem_cons_self
    rw [ht] at hlexical
    exact .call hlexical (forall_mem_nil _)
  | @call l t o c first more ht ho hc hfirst hcomma hmore ihfirst ihmore =>
    have hlexical := hts t mem_cons_self
    rw [ht] at hlexical
    exact .call hlexical (forall_mem_cons.mpr ⟨ihfirst fun t' ht' => hts t' (by simp [ht']),
      forall_mem_map.mpr fun m hm => ihmore m hm fun t' ht' => hts t' (mem_call hm ht')⟩)
  | binary hl ha ht hb iha ihb =>
    exact .binary (iha fun t' ht' => hts t' (mem_append_left _ ht'))
      (ihb fun t' ht' => hts t' (mem_append_right _ (mem_append_right _ ht')))
  | @group l e ts o c ho h hc ih =>
    exact ih fun t' ht' => hts t' (mem_cons_of_mem o (mem_append_left _ ht'))

/-- What the parser returns, behind the first tokens of a text, is what some of the next tokens stand for. -/
theorem exists_renders {src : String} {front rest : List Token} (hsrc : tokenize src = .ok (front ++ ts))
    (hparse : parseExpr parseF64 ts = .ok (e, rest)) : ∃ taken, ts = taken ++ rest ∧ Renders parseF64 0 e taken ∧
      ∀ t ∈ taken, Lexical t.kind t.text := by
  have hne : ts ≠ [] := by
    rintro rfl
    cases hparse
  have hcovers := covers_of_tokenize hsrc
  obtain ⟨taken, rfl, hrenders⟩ := renders_of_parseExpr (hcovers.closed.of_append hne) hparse
  refine ⟨taken, rfl, hrenders, fun t ht => hcovers.lexical t ?_⟩
  exact mem_append_right _ (mem_append_left _ ht)

theorem Producible.spellable (h : Producible parseF64 e) : Spellable parseF64 e := by
  obtain ⟨src, front, ts, rest, hsrc, hparse⟩ := h
  obtain ⟨taken, -, hrenders, hlexical⟩ := exists_renders hsrc hparse
  exact spellable_of_renders hrenders hlexical

end spellable

/-! ### The tokens of a predicate -/

section tokens

variable (displayF64 : UInt64 → String)

def f64Kind (v : UInt64) : TokenKind :=
  if fractional v then .f64 else if displayF64 v = "inf" then .ident else .i64

mutual

/-- No parentheses but those of calls. -/
def predicateTokens : Expr → List Spelling
  | .column name => pathTokens name
  | .i64 v => [(.i64, String.ofList (Text.i64Text v.toInt))]
  | .f64 v => [(f64Kind displayF64 v, displayF64 v)]
  | .str s => [(.str, s)]
  | .bool _ => []
  | .binary op lhs rhs => predicateTokens lhs ++ ([(op.kind, op.text)] ++ predicateTokens rhs)
  | .call name args => (.ident, name) :: (.lParen, "(") :: (predicateArgTokens args ++ [(.rParen, ")")])
  | .in _ _ => []

def predicateArgTokens : List Expr → List Spelling
  | [] => []
  | e :: es => predicateTokens e ++ predicateMoreArgTokens es

def predicateMoreArgTokens : List Expr → List Spelling
  | [] => []
  | e :: es => (.comma, ",") :: (predicateTokens e ++ predicateMoreArgTokens es)

end

theorem predicateTokens_column (name : String) : predicateTokens displayF64 (.column name) = pathTokens name := rfl

theorem predicateTokens_f64 (v : UInt64) :
    predicateTokens displayF64 (.f64 v) = [(f64Kind displayF64 v, displayF64 v)] := rfl

theorem predicateTokens_binary (op : BinaryOp) (lhs rhs : Expr) : predicateTokens displayF64 (.binary op lhs rhs) =
    predicateTokens displayF64 lhs ++ ([(op.kind, op.text)] ++ predicateTokens displayF64 rhs) := rfl

theorem predicateTokens_call (name : String) (args : List Expr) : predicateTokens displayF64 (.call name args) =
    (.ident, name) :: (.lParen, "(") :: (predicateArgTokens displayF64 args ++ [(.rParen, ")")]) := rfl

theorem predicateArgTokens_cons (e : Expr) (es : List Expr) : predicateArgTokens displayF64 (e :: es) =
    predicateTokens displayF64 e ++ predicateMoreArgTokens displayF64 es := rfl

theorem predicateMoreArgTokens_cons (e : Expr) (es : List Expr) : predicateMoreArgTokens displayF64 (e :: es) =
    (.comma, ",") :: (predicateTokens displayF64 e ++ predicateMoreArgTokens displayF64 es) := rfl

end tokens

section spells

variable {parseF64 : String → Option UInt64} {displayF64 : UInt64 → String}
  {displayPipeline : CenqlPipeline → String} {rest : List Char} {sp : List Spelling}

theorem opStr_eq (op : BinaryOp) : opStr op = op.text := by rfl

theorem spells_i64 (h : Spells rest sp) (hrest : Ends rest) {v : Int64} (hv : 0 ≤ v) :
    Spells (Text.i64Text v.toInt ++ rest) ((.i64, String.ofList (Text.i64Text v.toInt)) :: sp) := by
  have hnonneg : 0 ≤ v.toInt := Int64.le_iff_toInt_le.mp hv
  rw [Text.i64Text, if_neg (by omega)]
  exact h.i64 hrest Nat.toDigits_ne_nil fun c hc => Numerals.isDigit_of_mem_toDigits hc

theorem identText_inf : IdentText "inf" := ⟨⟨_, _, rfl, rfl⟩, all_eq_true.mp rfl, by decide⟩

/-- The text of a float is one token. -/
theorem spells_f64 (hdisplay : DisplaysF64 parseF64 displayF64) (h : Spells rest sp) (hrest : Ends rest) {v : UInt64}
    (hv : Denoted parseF64 v) : Spells ((displayF64 v).toList ++ rest) ((f64Kind displayF64 v, displayF64 v) :: sp) := by
  unfold f64Kind
  split_ifs with hfractional hinf
  · obtain ⟨whole, frac, hwhole, hfrac, hdigits, hdigits', hdisplayed⟩ := hdisplay.fraction v hv hfractional
    rw [hdisplayed, String.toList_ofList]
    exact h.f64 hrest hwhole hfrac hdigits hdigits'
  · rw [hinf]
    exact h.ident identText_inf fun b hb => (hrest b hb).1
  · obtain ⟨digits, hne, hdigits, hdisplayed⟩ :=
      (hdisplay.integral v hv (Bool.eq_false_of_not_eq_true hfractional)).resolve_left hinf
    rw [hdisplayed, String.toList_ofList]
    exact h.i64 hrest hne hdigits

/-- In front of any text that ends it, the text of an expression is read as its tokens. -/
def SpellsTokens (displayF64 : UInt64 → String) (displayPipeline : CenqlPipeline → String) (e : Expr) : Prop :=
  ∀ {rest : List Char} {sp : List Spelling}, Spells rest sp → Ends rest →
    Spells (exprToPredicate displayF64 displayPipeline e ++ rest) (predicateTokens displayF64 e ++ sp)

/-- Arguments, with a comma and a space in front of each. -/
theorem spells_moreArgs {args : List Expr} (h : Spells rest sp) (hrest : Ends rest)
    (hargs : ∀ e ∈ args, SpellsTokens displayF64 displayPipeline e) :
    Spells ((argsToPredicates displayF64 displayPipeline args).flatMap (fun next => [',', ' '] ++ next) ++ rest)
        (predicateMoreArgTokens displayF64 args ++ sp) ∧
      Ends ((argsToPredicates displayF64 displayPipeline args).flatMap (fun next => [',', ' '] ++ next) ++ rest) := by
  induction args with
  | nil => exact ⟨h, hrest⟩
  | cons e args ih =>
    rw [forall_mem_cons] at hargs
    obtain ⟨hmore, hends⟩ := ih hargs.2
    have hcomma := (hargs.1 hmore hends).space.sign ',' [] (by decide) (by decide) rfl fun _ => rfl
    rw [argsToPredicates, predicateMoreArgTokens_cons]
    refine ⟨?_, ends_cons (by decide) _⟩
    simpa using hcomma

theorem spells_args {args : List Expr} (h : Spells rest sp) (hrest : Ends rest)
    (hargs : ∀ e ∈ args, SpellsTokens displayF64 displayPipeline e) :
    Spells ([',', ' '].intercalate (argsToPredicates displayF64 displayPipeline args) ++ rest)
      (predicateArgTokens displayF64 args ++ sp) := by
  cases args with
  | nil => exact h
  | cons e args =>
    rw [forall_mem_cons] at hargs
    obtain ⟨hmore, hends⟩ := spells_moreArgs h hrest hargs.2
    rw [argsToPredicates, predicateArgTokens_cons, intercalate_cons, append_assoc, append_assoc]
    exact hargs.1 hmore hends

/-- **The text of an expression is read as its tokens.** -/
theorem Spellable.spells (hdisplay : DisplaysF64 parseF64 displayF64) {e : Expr} (he : Spellable parseF64 e) :
    SpellsTokens displayF64 displayPipeline e := by
  induction he with
  | column hfirst hmore =>
    intro rest sp h hrest
    rw [exprToPredicate, predicateTokens_column, pathTokens_pathName hfirst hmore, toList_pathName, append_assoc]
    exact h.names hrest hfirst hmore
  | i64 hv => exact fun h hrest => spells_i64 h hrest hv
  | f64 hv => exact fun h hrest => spells_f64 hdisplay h hrest hv
  | str hs => exact fun h _ => h.str hs
  | @binary op lhs rhs hlhs hrhs ihlhs ihrhs =>
    intro rest sp h hrest
    have hop := ((ihrhs h hrest).operator op).space
    have hspells := ihlhs hop (ends_cons (by decide) _)
    rw [exprToPredicate, predicateTokens_binary, opStr_eq]
    simpa using hspells
  | @call name args hname hargs ih =>
    intro rest sp h hrest
    have hclose := h.sign ')' [] (by decide) (by decide) rfl fun _ => rfl
    have hopen := (spells_args hclose (ends_cons (by decide) _) ih).sign '(' [] (by decide) (by decide) rfl fun _ => rfl
    have hends : Ends ('(' :: ([',', ' '].intercalate (argsToPredicates displayF64 displayPipeline args) ++ ')' :: rest)) :=
      ends_cons (by decide) _
    have hspells := hopen.ident hname fun b hb => (hends b hb).1
    rw [exprToPredicate, predicateTokens_call]
    simpa using hspells

end spells

/-! ### Parentheses -/

section bare

variable {parseF64 : String → Option UInt64} {displayF64 : UInt64 → String} {l : ℕ} {e : Expr} {ts : List Token}

/-- Tokens are counted, and floats twice. -/
def weight (sp : List Spelling) : ℕ := (sp.map fun s => if s.1 = .f64 then 2 else 1).sum

theorem weight_nil : weight [] = 0 := rfl

theorem weight_cons (s : Spelling) (sp : List Spelling) :
    weight (s :: sp) = (if s.1 = .f64 then 2 else 1) + weight sp := sum_cons

theorem weight_append (sp sp' : List Spelling) : weight (sp ++ sp') = weight sp + weight sp' := by simp [weight]

theorem weight_path {t : Token} {more : List (Token × Token)} (ht : t.kind = .ident)
    (hmore : ∀ p ∈ more, p.1.kind = .dot ∧ p.2.kind = .ident) :
    weight ((.ident, t.text) :: (more.map fun p => p.2.text).flatMap fun next => [(.dot, "."), (.ident, next)]) =
      weight ((t :: more.flatMap fun p => [p.1, p.2]).map Token.spelling) := by
  have hrest : weight ((more.map fun p => p.2.text).flatMap fun next => [(.dot, "."), (.ident, next)]) =
      weight ((more.flatMap fun p => [p.1, p.2]).map Token.spelling) := by
    induction more with
    | nil => rfl
    | cons p more ih =>
      rw [forall_mem_cons] at hmore
      rw [map_cons, flatMap_cons, flatMap_cons, map_append, weight_append, weight_append, ih hmore.2]
      simp [weight_cons, weight_nil, Token.spelling, hmore.1]
  rw [weight_cons, map_cons, weight_cons, hrest, Token.spelling, ht]

/-- Nothing that stands for an expression weighs less than its tokens do without parentheses, and what weighs
as much has none. -/
def Weighed (displayF64 : UInt64 → String) (l : ℕ) (e : Expr) (ts : List Token) : Prop :=
  weight (predicateTokens displayF64 e) ≤ weight (ts.map Token.spelling) ∧
    (weight (ts.map Token.spelling) ≤ weight (predicateTokens displayF64 e) → Bare l e)

theorem weighed_moreArgs {more : List (Token × Expr × List Token)} (hcomma : ∀ m ∈ more, m.1.kind = .comma)
    (h : ∀ m ∈ more, Weighed displayF64 0 m.2.1 m.2.2) :
    weight (predicateMoreArgTokens displayF64 (more.map fun m => m.2.1)) ≤
        weight ((more.flatMap fun m => [m.1] ++ m.2.2).map Token.spelling) ∧
      (weight ((more.flatMap fun m => [m.1] ++ m.2.2).map Token.spelling) ≤
          weight (predicateMoreArgTokens displayF64 (more.map fun m => m.2.1)) → ∀ m ∈ more, Bare 0 m.2.1) := by
  induction more with
  | nil => exact ⟨le_rfl, fun _ => forall_mem_nil _⟩
  | cons m more ih =>
    rw [forall_mem_cons] at hcomma h
    obtain ⟨hle, hbare⟩ := h.1
    obtain ⟨hlemore, hbaremore⟩ := ih hcomma.2 h.2
    rw [map_cons, predicateMoreArgTokens_cons, flatMap_cons]
    simp only [map_append, map_cons, map_nil, weight_append, weight_cons, weight_nil, Token.spelling,
      hcomma.1, reduceCtorEq, if_false]
    refine ⟨by omega, fun hweight => forall_mem_cons.mpr ⟨hbare ?_, hbaremore ?_⟩⟩ <;> omega

theorem weighed_of_renders (h : Renders parseF64 l e ts) (hts : ∀ t ∈ ts, Lexical t.kind t.text) :
    Weighed displayF64 l e ts := by
  induction h with
  | @column l t more ht hmore =>
    obtain ⟨hfirst, hnames⟩ := identText_path ht hmore hts
    refine ⟨?_, fun _ => .column _⟩
    rw [predicateTokens_column, pathTokens_pathName hfirst hnames, weight_path ht hmore]
  | @i64 l t v ht hv =>
    refine ⟨?_, fun _ => .i64 v⟩
    change weight [_] ≤ _
    simp [weight_cons, Token.spelling, ht]
  | @f64 l t v ht hv =>
    rw [Weighed, predicateTokens_f64]
    simp only [map_cons, map_nil, weight_cons, weight_nil, Token.spelling, ht, if_true]
    refine ⟨by split_ifs <;> omega, fun hweight => .f64 ?_⟩
    by_contra hfractional
    rw [f64Kind, if_neg hfractional] at hweight
    split_ifs at hweight <;> omega
  | @str l t ht =>
    refine ⟨?_, fun _ => .str _⟩
    change weight [_] ≤ _
    simp [weight_cons, Token.spelling, ht]
  | @noArgs l t o c ht ho hc =>
    refine ⟨?_, fun _ => .call (forall_mem_nil _)⟩
    change weight [_, _, _] ≤ _
    simp [weight_cons, Token.spelling, ht, ho, hc]
  | @call l t o c first more ht ho hc hfirst hcomma hmore ihfirst ihmore =>
    obtain ⟨hle, hbare⟩ := ihfirst fun t' ht' => hts t' (by simp [ht'])
    have hall : ∀ m ∈ more, Weighed displayF64 0 m.2.1 m.2.2 := fun m hm =>
      ihmore m hm fun t' ht' => hts t' (mem_call hm ht')
    obtain ⟨hlemore, hbaremore⟩ := weighed_moreArgs hcomma hall
    rw [Weighed, predicateTokens_call, predicateArgTokens_cons]
    simp only [map_cons, map_append, map_nil, weight_append, weight_cons, weight_nil, Token.spelling,
      ht, ho, hc, reduceCtorEq, if_false]
    refine ⟨by omega, fun hweight => .call (forall_mem_cons.mpr ⟨hbare ?_, forall_mem_map.mpr (hbaremore ?_)⟩)⟩
      <;> omega
  | @binary l op a b ta tb t hl ha ht hb iha ihb =>
    obtain ⟨hlea, hbarea⟩ := iha fun t' ht' => hts t' (mem_append_left _ ht')
    obtain ⟨hleb, hbareb⟩ := ihb fun t' ht' => hts t' (mem_append_right _ (mem_append_right _ ht'))
    have hop : op.kind ≠ .f64 := by cases op <;> decide
    rw [Weighed, predicateTokens_binary]
    simp only [map_append, map_cons, map_nil, weight_append, weight_cons, weight_nil, Token.spelling, ht,
      if_neg hop]
    refine ⟨by omega, fun hweight => .binary hl (hbarea ?_) (hbareb ?_)⟩ <;> omega
  | @group l e ts o c ho h hc ih =>
    obtain ⟨hle, -⟩ := ih fun t' ht' => hts t' (mem_cons_of_mem o (mem_append_left _ ht'))
    rw [Weighed]
    simp only [map_cons, map_append, map_nil, weight_append, weight_cons, weight_nil, Token.spelling,
      ho, hc, reduceCtorEq, if_false]
    refine ⟨by omega, fun hweight => ?_⟩
    omega

/-- A bare expression has the tokens of its predicate. -/
theorem Bare.tokens_eq (h : Bare l e) : e.tokens displayF64 l = predicateTokens displayF64 e := by
  induction h with
  | column name | i64 v | str s => rfl
  | f64 h => rw [Expr.tokens, predicateTokens_f64, f64Kind, if_pos h]
  | binary hl hlhs hrhs ihlhs ihrhs =>
    rw [Expr.tokens, predicateTokens_binary, ihlhs, ihrhs, decide_eq_false (Nat.not_lt.mpr hl)]
    rfl
  | @call l name args hargs ih =>
    have hmore : ∀ es : List Expr, (∀ e ∈ es, e.tokens displayF64 0 = predicateTokens displayF64 e) →
        moreArgTokens displayF64 es = predicateMoreArgTokens displayF64 es := by
      intro es hes
      induction es with
      | nil => rfl
      | cons e es ihes =>
        rw [forall_mem_cons] at hes
        rw [moreArgTokens, predicateMoreArgTokens_cons, hes.1, ihes hes.2]
    rw [Expr.tokens, predicateTokens_call]
    cases args with
    | nil => rfl
    | cons e es =>
      rw [forall_mem_cons] at ih
      rw [argTokens, predicateArgTokens_cons, ih.1, hmore es ih.2]

theorem Spellable.writable (hdisplay : DisplaysF64 parseF64 displayF64) (h : Spellable parseF64 e) :
    Writable parseF64 displayF64 e := by
  induction h with
  | column hfirst hmore => exact .column _
  | i64 hv => exact .i64 hv
  | f64 hv => exact .f64 (hdisplay.parse_display _ hv)
  | str hs => exact .str _
  | binary hlhs hrhs ihlhs ihrhs => exact .binary ihlhs ihrhs
  | call hname hargs ih => exact .call ih

end bare

/-! ### Reading a predicate -/

/-- **A predicate is read as the expression just where that needs no parentheses and has no integral float.** -/
theorem readsAs_exprToPredicate {parseF64 : String → Option UInt64} {displayF64 : UInt64 → String}
    (displayPipeline : CenqlPipeline → String) (hdisplay : DisplaysF64 parseF64 displayF64) {e : Expr}
    (he : Producible parseF64 e) : ReadsAs parseF64 (exprToPredicate displayF64 displayPipeline e) e ↔ Bare 0 e := by
  have hspellable := he.spellable
  have hspells : Spells (exprToPredicate displayF64 displayPipeline e ++ []) _ :=
    hspellable.spells hdisplay spells_nil ends_nil
  rw [append_nil] at hspells
  obtain ⟨ts, htokenize, hts⟩ := hspells.tokenize
  obtain ⟨taken, last, rfl, htaken, hlast⟩ := map_eq_append_iff.mp hts
  obtain ⟨eof, rfl, heof⟩ := map_eq_singleton_iff.mp hlast
  have heof' : eof.kind = .eof := congrArg Prod.fst heof
  constructor
  · rintro ⟨ts, eof', hnew, hparse⟩
    rw [Parser.new, htokenize] at hnew
    cases hnew
    obtain ⟨taken', heq, hrenders, hlexical⟩ := @exists_renders parseF64 e _ _ [] [eof'] htokenize hparse
    obtain ⟨rfl, -⟩ := append_inj' heq rfl
    have hweighed : Weighed displayF64 0 e taken := weighed_of_renders hrenders hlexical
    exact hweighed.2 (by rw [htaken])
  · intro hbare
    refine ⟨taken ++ [eof], eof, by rw [Parser.new, htokenize], ?_⟩
    refine parseExpr_eq ((hspellable.writable hdisplay).renders ?_) (stops_of_kind heof' (by decide) [])
    rw [hbare.tokens_eq, htaken]

def parseOneAndHalf (text : String) : Option UInt64 := if text = "1.5" then some 0x3FF8000000000000 else none

theorem displaysF64_oneAndHalf : DisplaysF64 parseOneAndHalf fun _ => "1.5" := by
  have hdenoted : ∀ v, Denoted parseOneAndHalf v → v = 0x3FF8000000000000 := by
    rintro v ⟨text, -, hv⟩
    rw [parseOneAndHalf] at hv
    split_ifs at hv
    exact (Option.some.inj hv).symm
  refine ⟨fun v hv => ?_, fun v _ _ => ⟨['1'], ['5'], by decide, by decide, by decide, by decide, rfl⟩, fun v hv hintegral => ?_⟩
  · rw [hdenoted v hv]
    rfl
  · rw [hdenoted v hv] at hintegral
    exact absurd hintegral (by decide)

/-- `a < 1.5` -/
theorem readsAs_exprToPredicate_comparison : ReadsAs parseOneAndHalf
      (exprToPredicate (fun _ => "1.5") (fun _ => "") (.binary .lt (.column "a") (.f64 0x3FF8000000000000)))
      (.binary .lt (.column "a") (.f64 0x3FF8000000000000)) :=
  (readsAs_exprToPredicate _ displaysF64_oneAndHalf
    ⟨"a < 1.5", [], [⟨.ident, "a", 0⟩, ⟨.lt, "<", 2⟩, ⟨.f64, "1.5", 4⟩, ⟨.eof, "", 7⟩], [⟨.eof, "", 7⟩],
      by decide, rfl⟩).mpr (.binary (by decide) (.column "a") (.f64 (by decide)))

/-- `(a + b) * c` becomes `a + b * c`. -/
theorem not_readsAs_exprToPredicate :
    ¬∀ e, Producible (fun _ => none) e → ReadsAs (fun _ => none) (exprToPredicate (fun _ => "") (fun _ => "") e) e := by
  intro h
  have hproducible : Producible (fun _ => none)
      (.binary .mul (.binary .add (.column "a") (.column "b")) (.column "c")) :=
    ⟨"(a + b) * c", [], [⟨.lParen, "(", 0⟩, ⟨.ident, "a", 1⟩, ⟨.plus, "+", 3⟩, ⟨.ident, "b", 5⟩, ⟨.rParen, ")", 6⟩,
      ⟨.star, "*", 8⟩, ⟨.ident, "c", 10⟩, ⟨.eof, "", 11⟩], [⟨.eof, "", 11⟩], by decide, rfl⟩
  obtain ⟨ts, eof, hnew, hparse⟩ := h _ hproducible
  have hnew' : Parser.new (String.ofList (exprToPredicate (fun _ => "") (fun _ => "")
      (.binary .mul (.binary .add (.column "a") (.column "b")) (.column "c")))) =
        .ok [⟨.ident, "a", 0⟩, ⟨.plus, "+", 2⟩, ⟨.ident, "b", 4⟩, ⟨.star, "*", 6⟩, ⟨.ident, "c", 8⟩, ⟨.eof, "", 9⟩] := by
    decide
  rw [hnew'] at hnew
  cases hnew
  cases hparse

end CenDB.Optimizer
