import CenDB.Cenql.Grammar
import CenDB.Lib.Text

/-! # Trees as tokens

`Expr.tokens` puts parentheses only where the levels of the operators demand them.  These tokens stand for the
tree (`Writable.renders`), and nothing that stands for it has fewer parentheses (`parens_tokens_le`). -/

namespace CenDB.Cenql

open List

/-! ### The fewest parentheses -/

abbrev Spelling := TokenKind × String

def Token.spelling (t : Token) : Spelling := (t.kind, t.text)

def BinaryOp.text : BinaryOp → String
  | .eq => "=="
  | .ne => "!="
  | .lt => "<"
  | .le => "<="
  | .gt => ">"
  | .ge => ">="
  | .and => "and"
  | .or => "or"
  | .add => "+"
  | .sub => "-"
  | .mul => "*"
  | .div => "/"

def parenthesize (needed : Bool) (sp : List Spelling) : List Spelling :=
  if needed then (.lParen, "(") :: (sp ++ [(.rParen, ")")]) else sp

/-- A dotted path, name by name. -/
def pathTokens (name : String) : List Spelling :=
  match (name.toList.splitOn '.').map String.ofList with
  | [] => []
  | first :: more => (.ident, first) :: more.flatMap fun next => [(.dot, "."), (.ident, next)]

section tokens

variable (parseF64 : String → Option UInt64) (displayF64 : UInt64 → String)

mutual

/-- The tokens of a tree where an operand of level `l` is expected.  Neither Booleans nor subqueries have any. -/
def Expr.tokens : ℕ → Expr → List Spelling
  | _, .column name => pathTokens name
  | _, .i64 v => [(.i64, String.ofList (Text.i64Text v.toInt))]
  | _, .f64 v => [(.f64, displayF64 v)]
  | _, .str s => [(.str, s)]
  | _, .bool _ => []
  | l, .binary op lhs rhs =>
    parenthesize (op.level < l) (lhs.tokens op.lhsLevel ++ ([(op.kind, op.text)] ++ rhs.tokens op.rhsLevel))
  | _, .call name args => (.ident, name) :: (.lParen, "(") :: (argTokens args ++ [(.rParen, ")")])
  | _, .in _ _ => []

def argTokens : List Expr → List Spelling
  | [] => []
  | e :: es => e.tokens 0 ++ moreArgTokens es

def moreArgTokens : List Expr → List Spelling
  | [] => []
  | e :: es => (.comma, ",") :: (e.tokens 0 ++ moreArgTokens es)

end

/-- Trees of operators and calls over columns, strings and numbers; an integer is not negative, and the text of
a float is read back. -/
inductive Writable : Expr → Prop
  | column (name : String) : Writable (.column name)
  | i64 {v : Int64} (h : 0 ≤ v) : Writable (.i64 v)
  | f64 {v : UInt64} (h : parseF64 (displayF64 v) = some v) : Writable (.f64 v)
  | str (s : String) : Writable (.str s)
  | binary {op : BinaryOp} {lhs rhs : Expr} (hlhs : Writable lhs) (hrhs : Writable rhs) : Writable (.binary op lhs rhs)
  | call {name : String} {args : List Expr} (h : ∀ e ∈ args, Writable e) : Writable (.call name args)

end tokens

variable {displayF64 : UInt64 → String}

theorem parseI64_i64Text {v : Int64} (h : 0 ≤ v) : parseI64 (String.ofList (Text.i64Text v.toInt)) = some v := by
  have hnonneg : 0 ≤ v.toInt := Int64.le_iff_toInt_le.mp h
  have hlt := Int64.toInt_lt v
  have hbound : v.toInt.natAbs < 2 ^ (64 - 1) := by omega
  rw [parseI64, String.toList_ofList, Text.i64Text, if_neg (by omega), Numerals.parseSigned_toDigits hbound,
    Option.map_some]
  have habs : (v.toInt.natAbs : ℤ) = v.toInt := Int.natAbs_of_nonneg hnonneg
  rw [habs, Int64.ofInt_toInt]

theorem toList_pathName (first : String) (more : List String) :
    (pathName first more).toList = first.toList ++ more.flatMap fun next => '.' :: next.toList := by
  induction more generalizing first with
  | nil => simp [pathName]
  | cons next more ih =>
    have hstep : pathName first (next :: more) = pathName (first ++ "." ++ next) more := rfl
    rw [hstep, ih]
    simp

theorem intercalate_cons {α : Type} (sep part : List α) (parts : List (List α)) :
    sep.intercalate (part :: parts) = part ++ parts.flatMap fun next => sep ++ next := by
  induction parts generalizing part with
  | nil => simp
  | cons next parts ih =>
    rw [intercalate_cons_cons, ih, flatMap_cons]
    simp only [append_assoc]

theorem pathName_pathTokens (name : String) : ∃ first more,
    pathTokens name = (.ident, first) :: more.flatMap (fun next => [(.dot, "."), (.ident, next)]) ∧
      pathName first more = name := by
  obtain ⟨part, parts, hparts⟩ := exists_cons_of_ne_nil (splitOn_ne_nil '.' name.toList)
  refine ⟨String.ofList part, parts.map String.ofList, ?_, ?_⟩
  · rw [pathTokens, hparts, map_cons]
  · have hname : ['.'].intercalate (name.toList.splitOn '.') = name.toList := intercalate_splitOn '.'
    rw [hparts, intercalate_cons] at hname
    rw [← String.toList_inj, toList_pathName, String.toList_ofList, ← hname, flatMap_map]
    simp only [String.toList_ofList, singleton_append]

/-- Dots and names. -/
theorem exists_pairs {more : List String} {ts : List Token}
    (hts : ts.map Token.spelling = more.flatMap fun next => [(.dot, "."), (.ident, next)]) :
    ∃ pairs : List (Token × Token), ts = pairs.flatMap (fun p => [p.1, p.2]) ∧
      (∀ p ∈ pairs, p.1.kind = .dot ∧ p.2.kind = .ident) ∧ pairs.map (fun p => p.2.text) = more := by
  induction more generalizing ts with
  | nil => exact ⟨[], map_eq_nil_iff.mp hts, forall_mem_nil _, rfl⟩
  | cons next more ih =>
    obtain ⟨d, ts, rfl, hd, hts⟩ := map_eq_cons_iff.mp hts
    obtain ⟨i, ts, rfl, hi, hts⟩ := map_eq_cons_iff.mp hts
    obtain ⟨pairs, rfl, hpairs, rfl⟩ := ih hts
    have hdot := congrArg Prod.fst hd
    have hident := congrArg Prod.fst hi
    have htext := congrArg Prod.snd hi
    refine ⟨(d, i) :: pairs, rfl, forall_mem_cons.mpr ⟨⟨hdot, hident⟩, hpairs⟩, ?_⟩
    exact congrArg (· :: _) htext

theorem renders_path {name : String} {l : ℕ} {ts : List Token} (hts : ts.map Token.spelling = pathTokens name) :
    Renders parseF64 l (.column name) ts := by
  obtain ⟨first, more, htokens, rfl⟩ := pathName_pathTokens name
  rw [htokens] at hts
  obtain ⟨t, ts, rfl, ht, hts⟩ := map_eq_cons_iff.mp hts
  obtain ⟨pairs, rfl, hpairs, rfl⟩ := exists_pairs hts
  have hkind := congrArg Prod.fst ht
  obtain rfl : t.text = first := congrArg Prod.snd ht
  exact .column hkind hpairs

/-- Commas and arguments. -/
theorem exists_items {es : List Expr} {ts : List Token} (hts : ts.map Token.spelling = moreArgTokens displayF64 es)
    (h : ∀ e ∈ es, ∀ {l : ℕ} {ts : List Token}, ts.map Token.spelling = e.tokens displayF64 l → Renders parseF64 l e ts) :
    ∃ items : List (Token × Expr × List Token), ts = items.flatMap (fun m => [m.1] ++ m.2.2) ∧
      es = items.map (fun m => m.2.1) ∧ (∀ m ∈ items, m.1.kind = .comma) ∧
        ∀ m ∈ items, Renders parseF64 0 m.2.1 m.2.2 := by
  induction es generalizing ts with
  | nil => exact ⟨[], map_eq_nil_iff.mp hts, rfl, forall_mem_nil _, forall_mem_nil _⟩
  | cons e es ih =>
    rw [forall_mem_cons] at h
    obtain ⟨c, ts, rfl, hc, hts⟩ := map_eq_cons_iff.mp hts
    obtain ⟨te, ts, rfl, hte, hts⟩ := map_eq_append_iff.mp hts
    obtain ⟨items, rfl, rfl, hcomma, hitems⟩ := ih hts h.2
    have hkind := congrArg Prod.fst hc
    exact ⟨(c, e, te) :: items, by simp, rfl, forall_mem_cons.mpr ⟨hkind, hcomma⟩,
      forall_mem_cons.mpr ⟨h.1 hte, hitems⟩⟩

/-- Tokens in parentheses, or without. -/
theorem renders_parenthesize {needed : Bool} {l : ℕ} {e : Expr} {sp : List Spelling} {ts : List Token}
    (hts : ts.map Token.spelling = parenthesize needed sp)
    (h : ∀ ts, ts.map Token.spelling = sp → Renders parseF64 (if needed then 0 else l) e ts) :
    Renders parseF64 l e ts := by
  cases needed with
  | false => exact h ts hts
  | true =>
    obtain ⟨o, ts, rfl, ho, hts⟩ := map_eq_cons_iff.mp hts
    obtain ⟨inner, close, rfl, hinner, hclose⟩ := map_eq_append_iff.mp hts
    obtain ⟨c, rfl, hc⟩ := map_eq_singleton_iff.mp hclose
    have ho' := congrArg Prod.fst ho
    have hc' := congrArg Prod.fst hc
    exact .group ho' (h inner hinner) hc'

/-- **The tokens of a tree stand for it.** -/
theorem Writable.renders {e : Expr} (h : Writable parseF64 displayF64 e) {l : ℕ} {ts : List Token}
    (hts : ts.map Token.spelling = e.tokens displayF64 l) : Renders parseF64 l e ts := by
  induction h generalizing l ts with
  | column name => exact renders_path hts
  | i64 hv =>
    obtain ⟨t, rfl, ht⟩ := map_eq_singleton_iff.mp hts
    have hkind := congrArg Prod.fst ht
    have htext : t.text = _ := congrArg Prod.snd ht
    exact .i64 hkind (by rw [htext, parseI64_i64Text hv])
  | f64 hv =>
    obtain ⟨t, rfl, ht⟩ := map_eq_singleton_iff.mp hts
    have hkind := congrArg Prod.fst ht
    have htext : t.text = _ := congrArg Prod.snd ht
    exact .f64 hkind (by rw [htext, hv])
  | str s =>
    obtain ⟨t, rfl, ht⟩ := map_eq_singleton_iff.mp hts
    have hkind := congrArg Prod.fst ht
    obtain rfl : t.text = s := congrArg Prod.snd ht
    exact .str hkind
  | @binary op lhs rhs hlhs hrhs ihlhs ihrhs =>
    refine renders_parenthesize hts fun inner hinner => ?_
    obtain ⟨ta, more, rfl, hta, hmore⟩ := map_eq_append_iff.mp hinner
    obtain ⟨tc, tb, rfl, htc, htb⟩ := map_eq_append_iff.mp hmore
    obtain ⟨t, rfl, ht⟩ := map_eq_singleton_iff.mp htc
    have hkind := congrArg Prod.fst ht
    refine .binary ?_ (ihlhs hta) hkind (ihrhs htb)
    split_ifs with hneeded
    · omega
    · exact Nat.le_of_not_lt fun h => hneeded (decide_eq_true h)
  | @call name args hargs ih =>
    obtain ⟨t, more, rfl, ht, hmore⟩ := map_eq_cons_iff.mp hts
    obtain ⟨o, more, rfl, ho, hmore⟩ := map_eq_cons_iff.mp hmore
    obtain ⟨targs, close, rfl, htargs, hclose⟩ := map_eq_append_iff.mp hmore
    obtain ⟨c, rfl, hc⟩ := map_eq_singleton_iff.mp hclose
    have htkind := congrArg Prod.fst ht
    have hokind := congrArg Prod.fst ho
    have hckind := congrArg Prod.fst hc
    obtain rfl : t.text = name := congrArg Prod.snd ht
    cases args with
    | nil =>
      rw [map_eq_nil_iff.mp htargs]
      exact .noArgs htkind hokind hckind
    | cons e es =>
      rw [forall_mem_cons] at ih
      obtain ⟨te, tes, rfl, hte, htes⟩ := map_eq_append_iff.mp htargs
      obtain ⟨items, rfl, rfl, hcomma, hitems⟩ := exists_items htes ih.2
      exact @Renders.call parseF64 l t o c (e, te) items htkind hokind hckind (ih.1 hte) hcomma hitems

def parens (sp : List Spelling) : ℕ := sp.countP fun s => s.1 = .lParen

theorem parens_append (sp sp' : List Spelling) : parens (sp ++ sp') = parens sp + parens sp' := countP_append

theorem parens_cons (s : Spelling) (sp : List Spelling) :
    parens (s :: sp) = parens sp + if s.1 = .lParen then 1 else 0 := by
  simp [parens, countP_cons]

theorem parens_operator (op : BinaryOp) : parens [(op.kind, op.text)] = 0 := by
  cases op <;> rfl

theorem parens_pathTokens (name : String) : parens (pathTokens name) = 0 := by
  obtain ⟨first, more, htokens, -⟩ := pathName_pathTokens name
  refine countP_eq_zero.mpr fun s hs => ?_
  rw [htokens, mem_cons, mem_flatMap] at hs
  rcases hs with rfl | ⟨next, -, hs⟩
  · simp
  · simp only [mem_cons, not_mem_nil, or_false] at hs
    rcases hs with rfl | rfl <;> simp

theorem parens_parenthesize (needed : Bool) (sp : List Spelling) :
    parens (parenthesize needed sp) = (if needed then 1 else 0) + parens sp := by
  cases needed <;> simp [parenthesize, parens, countP_append, Nat.add_comm]

/-- An expression needs at most one more pair of parentheses where a higher level is expected. -/
theorem parens_tokens_le_succ (l : ℕ) (e : Expr) :
    parens (e.tokens displayF64 l) ≤ parens (e.tokens displayF64 0) + 1 := by
  cases e with
  | binary op lhs rhs =>
    rw [Expr.tokens, Expr.tokens, parens_parenthesize, parens_parenthesize]
    split_ifs <;> omega
  | _ => exact Nat.le_succ _

theorem parens_moreArgTokens_le {items : List (Token × Expr × List Token)}
    (h : ∀ m ∈ items, parens (m.2.1.tokens displayF64 0) ≤ parens (m.2.2.map Token.spelling)) :
    parens (moreArgTokens displayF64 (items.map fun m => m.2.1)) ≤
      parens ((items.flatMap fun m => [m.1] ++ m.2.2).map Token.spelling) := by
  induction items with
  | nil => exact Nat.zero_le _
  | cons m items ih =>
    rw [forall_mem_cons] at h
    have hitems := ih h.2
    have hfirst := h.1
    rw [map_cons, moreArgTokens, flatMap_cons, parens_cons, parens_append, map_append, map_append,
      parens_append, parens_append]
    simp only [reduceCtorEq, if_false]
    omega

/-- **Nothing that stands for a tree has fewer parentheses than its tokens.** -/
theorem parens_tokens_le {l : ℕ} {e : Expr} {ts : List Token} (h : Renders parseF64 l e ts) :
    parens (e.tokens displayF64 l) ≤ parens (ts.map Token.spelling) := by
  induction h with
  | column ht hmore =>
    rw [Expr.tokens, parens_pathTokens]
    exact Nat.zero_le _
  | i64 ht hv | f64 ht hv | str ht => exact Nat.zero_le _
  | @noArgs l t o c ht ho hc =>
    rw [Expr.tokens, argTokens, List.nil_append]
    simp [parens_cons, Token.spelling, ht, ho, hc]
  | @call l t o c first more ht ho hc hfirst hcomma hmore ihfirst ihmore =>
    have hrest := parens_moreArgTokens_le ihmore
    rw [Expr.tokens, argTokens]
    simp only [map_cons, map_append, map_nil, parens_cons, parens_append, Token.spelling, ht, ho, hc,
      reduceCtorEq, if_true, if_false]
    omega
  | @binary l op a b ta tb t hl ha ht hb iha ihb =>
    have hneeded : decide (op.level < l) = false := decide_eq_false (Nat.not_lt.mpr hl)
    rw [Expr.tokens, hneeded, parens_parenthesize, if_neg Bool.false_ne_true]
    simp only [map_append, parens_append, parens_operator]
    omega
  | @group l e ts o c ho h hc ih =>
    have hsucc : parens (e.tokens displayF64 l) ≤ parens (e.tokens displayF64 0) + 1 := parens_tokens_le_succ l e
    simp only [map_cons, map_append, parens_cons, parens_append, Token.spelling, ho, if_true]
    omega

/-! ### The parser -/

theorem parseExpr_eq {e : Expr} {ts rest : List Token} (h : Renders parseF64 0 e ts) (hrest : Stops 0 rest) :
    parseExpr parseF64 (ts ++ rest) = .ok (e, rest) := by
  have hlen : ts.length ≤ (ts ++ rest).length := by simp
  exact (h.reads (Nat.zero_le 5) hlen).takes rest hrest

/-- Trees are read back from their tokens, which have the fewest parentheses, and what is read stands for the
tree that is returned. -/
structure ParsesGrammar (parseF64 : String → Option UInt64) (displayF64 : UInt64 → String) : Prop where
  roundTrip : ∀ e ts rest, Writable parseF64 displayF64 e → ts.map Token.spelling = e.tokens displayF64 0 →
    Stops 0 rest → parseExpr parseF64 (ts ++ rest) = .ok (e, rest)
  fewest : ∀ e ts, Renders parseF64 0 e ts → parens (e.tokens displayF64 0) ≤ parens (ts.map Token.spelling)
  converse : ∀ ts e rest, Closed ts → parseExpr parseF64 ts = .ok (e, rest) →
    ∃ taken, ts = taken ++ rest ∧ Renders parseF64 0 e taken

/-- **The expression parser implements its grammar.** -/
theorem parsesGrammar (parseF64 : String → Option UInt64) (displayF64 : UInt64 → String) :
    ParsesGrammar parseF64 displayF64 := by
  exact ⟨fun e ts rest he hts hrest => parseExpr_eq (he.renders hts) hrest, fun e ts h => parens_tokens_le h,
    fun ts e rest hts hparse => renders_of_parseExpr hts hparse⟩

end CenDB.Cenql
