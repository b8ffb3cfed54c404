import CenDB.Rdf.SparqlRoundTrip

/-! # Mistaken tokens

A reader `Tells` a mistake if it returns something else, or nothing, on tokens that go wrong within what it
reads.  Readers one after the other tell one if the second reader keeps what the first has returned
(`Tells.bind`).  So the parser reads no source as its query whose tokens go wrong (`tells_parseQuery`). -/

namespace CenDB.Rdf

open Text Reader Tokenizer TokenStream List

/-- Tokens that go wrong go wrong behind what is read, or something else is read. -/
def Tells {α : Type} (r : TokenStream α) (stop : List Token → Prop) (bs : List Token) (a : α) : Prop :=
  ∀ X Y, stop X → Differs (bs ++ X) Y →
    (∃ Y', Y = bs ++ Y' ∧ Differs X Y') ∨ ∀ b rest, r Y = .ok (b, rest) → b ≠ a

/-- What holds of some tokens holds of them when they go wrong. -/
def Kept (P : List Token → Prop) : Prop := ∀ X Y, P X → Differs X Y → P Y

theorem kept_any : Kept Any := fun _ _ _ _ => trivial

variable {t : Token} {clauses : List (Clause × Bool)} {s : Source} {ts : List Token}

/-- What a token is mistaken for begins a pattern. -/
theorem Tokenizer.Mistaken.ne_clause {t' : Token} (h : Mistaken t t') :
    t' ≠ .rBrace ∧ t' ≠ .filter ∧ t' ≠ .dot := by
  cases h with
  | iri h => rcases h with rfl | rfl <;> exact ⟨nofun, nofun, nofun⟩
  | _ => exact ⟨nofun, nofun, nofun⟩

theorem kept_notDot : Kept NotDot := by
  intro X Y hX h
  cases h with
  | here hm => exact fun heq => hm.ne_clause.2.2 (Option.some.inj heq)
  | later => exact hX

theorem kept_notVar : Kept NotVar := by
  intro X Y hX h
  cases h with
  | here hm =>
    cases hm with
    | var => exact absurd rfl (hX _)
    | iri h => rcases h with rfl | rfl <;> nofun
    | _ => nofun
  | later => exact hX

section tells

variable {α γ : Type} {r : TokenStream α} {f : α → TokenStream γ} {P Q : List Token → Prop} {bs cs : List Token}
  {a : α} {c : γ}

/-- **One reader after the other.** -/
theorem Tells.bind (hread : Takes r P bs a) (hkept : Kept P) (hr : Tells r P bs a) (hf : Tells (f a) Q cs c)
    (hstop : ∀ rest, Q rest → P (cs ++ rest)) {R : α → γ → Prop}
    (hkeep : ∀ b, Yields (fun _ => True) (f b) (R b)) (hunique : ∀ b, R b c → b = a) :
    Tells (r >>= f) Q (bs ++ cs) c := by
  intro X Y hX hdiff
  rw [append_assoc] at hdiff
  rcases hr (cs ++ X) Y (hstop X hX) hdiff with ⟨Y', rfl, hdiff'⟩ | hother
  · have hfirst := hread Y' (hkept _ _ (hstop X hX) hdiff')
    rcases hf X Y' hX hdiff' with ⟨Y'', rfl, hdiff''⟩ | hother
    · exact Or.inl ⟨Y'', (append_assoc bs cs Y'').symm, hdiff''⟩
    · refine Or.inr fun d rest hd => ?_
      obtain ⟨b, mid, hb, hd⟩ := bind_eq_ok.mp hd
      rw [hfirst] at hb
      cases hb
      exact hother d rest hd
  · refine Or.inr fun d rest hd heq => ?_
    obtain ⟨b, mid, hb, hd⟩ := bind_eq_ok.mp hd
    have hR := (hkeep b mid d rest trivial hd).2
    rw [heq] at hR
    exact hother b mid hb (hunique b hR)

/-- A reader that returns nothing of interest. -/
theorem Tells.bind_unit {r : TokenStream Unit} {f : Unit → TokenStream γ} (hread : Takes r P bs ())
    (hkept : Kept P) (hr : Tells r P bs ()) (hf : Tells (f ()) Q cs c) (hstop : ∀ rest, Q rest → P (cs ++ rest)) :
    Tells (r >>= f) Q (bs ++ cs) c :=
  Tells.bind hread hkept hr hf hstop (R := fun _ _ => True) (fun _ _ _ _ _ _ => ⟨trivial, trivial⟩) fun _ _ => rfl

/-- A value made of the one that was read, which can be told from it. -/
theorem Tells.bind_pure (hr : Tells r P bs a) {g : α → γ} (hg : ∀ b, g b = g a → b = a) :
    Tells (r >>= fun a => Pure.pure (g a)) P bs (g a) := by
  intro X Y hX hdiff
  rcases hr X Y hX hdiff with hbehind | hother
  · exact Or.inl hbehind
  · refine Or.inr fun d rest hd heq => ?_
    obtain ⟨b, mid, hb, hd⟩ := bind_eq_ok.mp hd
    cases hd
    exact hother b rest hb (hg b heq)

variable {t : Token} {r' : TokenStream α}

/-- A token that is never mistaken. -/
theorem tells_single {r : TokenStream α} (ht : ∀ t', ¬Mistaken t t') : Tells r P [t] a := by
  intro X Y _ hdiff
  cases hdiff with
  | here hm => exact absurd hm (ht _)
  | later h => exact Or.inl ⟨_, rfl, h⟩

/-- A token that is mistaken for one that the reader tells apart. -/
theorem tells_token {r : TokenStream α}
    (ht : ∀ t' ts b rest, Mistaken t t' → r (t' :: ts) = .ok (b, rest) → b ≠ a) : Tells r P [t] a := by
  intro X Y _ hdiff
  cases hdiff with
  | here hm => exact Or.inr fun b rest hb => ht _ _ b rest hm hb
  | later h => exact Or.inl ⟨_, rfl, h⟩

/-- A reader that goes by its first token, which is never mistaken. -/
theorem Tells.cons {r : TokenStream α} (ht : ∀ t', ¬Mistaken t t') (heq : ∀ ts, r (t :: ts) = r' ts)
    (h : Tells r' P bs a) : Tells r P (t :: bs) a := by
  intro X Y hX hdiff
  cases hdiff with
  | here hm => exact absurd hm (ht _)
  | later hdiff =>
    rcases h X _ hX hdiff with ⟨Y', rfl, hdiff'⟩ | hother
    · exact Or.inl ⟨Y', rfl, hdiff'⟩
    · refine Or.inr fun b rest hb => ?_
      rw [heq] at hb
      exact hother b rest hb

/-- Readers that agree on tokens that go wrong. -/
theorem Tells.congr {r : TokenStream α} (heq : ∀ X Y, Differs (bs ++ X) Y → r Y = r' Y) (h : Tells r' P bs a) :
    Tells r P bs a := by
  intro X Y hX hdiff
  rw [heq X Y hdiff]
  exact h X Y hX hdiff

end tells

/-- What a reader keeps, with what is read in between. -/
theorem yields_any {α : Type} (r : TokenStream α) : Yields (fun _ => True) r fun _ => True :=
  fun _ _ _ _ _ => ⟨trivial, trivial⟩

theorem tells_parsePatternTerm (x : PatternTerm) : Tells parsePatternTerm Any [x.token] x := by
  refine tells_token fun t' ts b rest hm hb => ?_
  cases x with
  | var name =>
    cases hm with
    | var h =>
      cases hb
      exact fun heq => h (PatternTerm.var.inj heq)
  | term t =>
    cases t with
    | uri s =>
      cases hm with
      | iri h => rcases h with rfl | rfl <;> cases hb
    | blankNode label => cases hm
    | literal value tag =>
      cases hm with
      | literal h =>
        cases hb
        exact fun heq => h (RdfTerm.literal.inj (PatternTerm.term.inj heq)).1

theorem tells_parseTriplePattern (pat : TriplePattern) :
    Tells parseTriplePattern Any (Clause.pattern pat).tokens pat := by
  refine Tells.bind (takes_parsePatternTerm pat.subject) kept_any (tells_parsePatternTerm pat.subject) ?_
    (fun _ _ => trivial) (R := fun b pat => pat.subject = b) ?_ fun b hb => hb.symm
  · refine Tells.bind (takes_parsePatternTerm pat.predicate) kept_any (tells_parsePatternTerm pat.predicate) ?_
      (fun _ _ => trivial) (R := fun b pat => pat.predicate = b) ?_ fun b hb => hb.symm
    · exact (tells_parsePatternTerm pat.object).bind_pure (g := TriplePattern.mk pat.subject pat.predicate)
        fun b hb => (TriplePattern.mk.inj hb).2.2
    · exact fun b => (yields_any _).bind fun _ _ => Yields.pure rfl
  · exact fun b => (yields_any _).bind fun _ _ => (yields_any _).bind fun _ _ => Yields.pure rfl

theorem tells_parseFilterVar (name : String) : Tells parseFilterVar Any [.var name] name := by
  refine tells_token fun t' ts b rest hm hb => ?_
  cases hm with
  | var h =>
    cases hb
    exact h

theorem tells_parseFilterOp (op : ComparisonOp) : Tells parseFilterOp Any [op.token] op := by
  refine tells_token fun t' ts b rest hm hb => ?_
  cases op with
  | lt =>
    cases hm with
    | lt => cases hb
  | _ => cases hm

theorem tells_parseFilterValue (parseF64 : String → Option Float) (c : Constant) :
    Tells (parseFilterValue parseF64) Any [c.token] c.value := by
  refine tells_token fun t' ts b rest hm hb => ?_
  cases c with
  | string s =>
    cases hm with
    | literal h =>
      cases hb
      exact fun heq => h (FilterValue.string.inj heq)
  | iri s =>
    cases hm with
    | iri h => rcases h with rfl | rfl <;> cases hb
  | _ => cases hm

variable {parseF64 : String → Option Float}

theorem tells_parseFilter (var : String) (op : ComparisonOp) {c : Constant} (hc : c.Valid parseF64) :
    Tells (parseFilter parseF64) Any [.lParen, .var var, op.token, c.token, .rParen] ⟨var, op, c.value⟩ := by
  have hvar : Takes parseFilterVar Any [.var var] var := fun _ _ => rfl
  have hopen : Tells (expect .lParen) Any [.lParen] () := tells_single nofun
  have hclose : Tells (expect .rParen) Any [.rParen] () := tells_single nofun
  refine Tells.bind_unit (takes_expect .lParen) kept_any hopen ?_ fun _ _ => trivial
  refine Tells.bind hvar kept_any (tells_parseFilterVar var) ?_ (fun _ _ => trivial)
    (R := fun b f => f.var = b) ?_ fun b hb => hb.symm
  · refine Tells.bind (takes_parseFilterOp op) kept_any (tells_parseFilterOp op) ?_ (fun _ _ => trivial)
      (R := fun b f => f.op = b) ?_ fun b hb => hb.symm
    · refine Tells.bind (takes_parseFilterValue hc) kept_any (tells_parseFilterValue parseF64 c) ?_
        (fun _ _ => trivial) (R := fun b f => f.value = b) ?_ fun b hb => hb.symm
      · exact hclose.bind_pure (g := fun _ => Filter.mk var op c.value) fun _ _ => rfl
      · exact fun b => (yields_any _).bind fun _ _ => Yields.pure rfl
    · exact fun b => (yields_any _).bind fun _ _ => (yields_any _).bind fun _ _ => Yields.pure rfl
  · exact fun b => (yields_any _).bind fun _ _ => (yields_any _).bind fun _ _ => (yields_any _).bind fun _ _ =>
      Yields.pure rfl

theorem tells_skipToken (dot : Bool) : Tells (skipToken .dot) NotDot (stop dot) () := by
  cases dot with
  | true =>
    have hdot : ∀ t', ¬Mistaken .dot t' := nofun
    exact tells_single hdot
  | false => exact fun X Y _ hdiff => Or.inl ⟨Y, rfl, hdiff⟩

/-- **Clauses that go wrong are read as other ones.** -/
theorem tells_parseClauses
    (hvalid : ∀ var op c, ∀ dot, (Clause.filter var op c, dot) ∈ clauses → c.Valid parseF64) (f : ℕ) :
    Tells (parseClauses parseF64 f) Any (Source.body clauses ++ [.rBrace])
      (clauses.filterMap fun e => e.1.pattern?, clauses.filterMap fun e => e.1.filter?) := by
  induction clauses generalizing f with
  | nil =>
    have hbrace : ∀ t', ¬Mistaken .rBrace t' := fun _ h => by cases h
    exact tells_single hbrace
  | cons e clauses ih =>
    have hf : f = 0 ∨ ∃ k, f = k + 1 := by
      cases f with
      | zero => exact Or.inl rfl
      | succ k => exact Or.inr ⟨k, rfl⟩
    rcases hf with rfl | ⟨f, rfl⟩
    · exact fun X Y _ _ => Or.inr fun _ _ h => by cases h
    · have htail := ih (fun var op c dot hmem => hvalid var op c dot (mem_cons_of_mem e hmem)) f
      obtain ⟨clause, dot⟩ := e
      have hbody : Source.body ((clause, dot) :: clauses) ++ [.rBrace] =
          clause.tokens ++ (stop dot ++ (Source.body clauses ++ [.rBrace])) := by
        simp [Source.body]
      have hnext : ∀ rest, Any rest → NotDot (Source.body clauses ++ [.rBrace] ++ rest) :=
        fun rest _ => notDot_body clauses rest
      rw [hbody]
      cases clause with
      | pattern pat =>
        have hthen : Tells (patternThen parseF64 f) Any _ _ :=
          Tells.bind (takes_parseTriplePattern pat) kept_any (tells_parseTriplePattern pat)
            (Tells.bind_unit (takes_skipToken dot) kept_notDot (tells_skipToken dot)
              (htail.bind_pure (g := fun e => (pat :: e.1, e.2)) fun b hb => by simpa [Prod.ext_iff] using hb) hnext)
            (fun _ _ => trivial) (R := fun b d => ∃ ps, d.1 = b :: ps)
            (fun b => (yields_any _).bind fun _ _ => (yields_any _).bind fun e _ => Yields.pure ⟨e.1, rfl⟩)
            fun _ hb => hb.elim fun _ heq => (List.cons.inj heq).1.symm
        refine hthen.congr fun X Y hdiff => ?_
        cases hdiff with
        | here hm => exact parseClauses_pattern parseF64 f hm.ne_clause _
        | later _ => exact parseClauses_pattern parseF64 f (token_ne pat.subject) _
      | filter var op c =>
        have hc := hvalid var op c dot mem_cons_self
        have hthen : Tells (filterThen parseF64 f) Any _ _ :=
          Tells.bind (takes_parseFilter var op hc) kept_any (tells_parseFilter var op hc)
            (Tells.bind_unit (takes_skipToken dot) kept_notDot (tells_skipToken dot)
              (htail.bind_pure (g := fun e => (e.1, Filter.mk var op c.value :: e.2))
                fun b hb => by simpa [Prod.ext_iff] using hb) hnext)
            (fun _ _ => trivial) (R := fun b d => ∃ fs, d.2 = b :: fs)
            (fun b => (yields_any _).bind fun _ _ => (yields_any _).bind fun e _ => Yields.pure ⟨e.2, rfl⟩)
            fun _ hb => hb.elim fun _ heq => (List.cons.inj heq).1.symm
        exact hthen.cons (fun _ h => by cases h) (parseClauses_filter parseF64 f)

theorem leadingVars_differs {names : List String} {X Y : List Token} (h : Differs (names.map .var ++ X) Y) :
    (∃ Y', Y = names.map .var ++ Y' ∧ Differs X Y') ∨ (leadingVars Y).1 ≠ names := by
  induction names generalizing Y with
  | nil => exact Or.inl ⟨Y, rfl, h⟩
  | cons name names ih =>
    cases h with
    | here hm =>
      cases hm with
      | var hname => exact Or.inr fun heq => hname (List.cons.inj heq).1
    | later h =>
      rcases ih h with ⟨Y', rfl, hdiff⟩ | hother
      · exact Or.inl ⟨Y', rfl, hdiff⟩
      · exact Or.inr fun heq => hother (List.cons.inj heq).2

theorem tells_parseProjection {select : Option (List String)} (hselect : select ≠ some []) :
    Tells parseProjection NotVar (Source.projection select) (select.getD [], select.isNone) := by
  cases select with
  | none =>
    have hstar : ∀ t', ¬Mistaken .star t' := nofun
    exact tells_single hstar
  | some names =>
    intro X Y _ hdiff
    rcases leadingVars_differs hdiff with hbehind | hother
    · exact Or.inl hbehind
    · refine Or.inr fun b rest hb heq => hother ?_
      -- a star would select everything
      obtain ⟨_, _, hpeek, hb⟩ := bind_eq_ok.mp hb
      cases hpeek
      split at hb
      · obtain ⟨_, _, hbump, hb⟩ := bind_eq_ok.mp hb
        cases hb
        cases heq
      · obtain ⟨select, mid, hvars, hb⟩ := bind_eq_ok.mp hb
        have hselect' : (leadingVars Y).1 = select := congrArg Prod.fst (Except.ok.inj hvars)
        split at hb
        · cases hb
        · cases hb
          rw [hselect']
          exact congrArg Prod.fst heq

theorem tells_parseWhere (hs : s.Valid parseF64) :
    Tells (parseWhere parseF64) Any (Source.body s.clauses ++ [.rBrace]) (s.query.patterns, s.query.filters) :=
  fun X Y hX hdiff => tells_parseClauses hs.constants (Y.length + 1) X Y hX hdiff

theorem tells_parseLimit (limit : Option ℕ) : Tells parseLimit (· = []) (Source.limitTokens limit) limit := by
  rintro X Y rfl hdiff
  exfalso
  cases limit with
  | none => cases hdiff
  | some n =>
    cases hdiff with
    | here hm => cases hm
    | later hdiff =>
      cases hdiff with
      | here hm => cases hm
      | later hdiff => cases hdiff

/-- **Tokens of a source that go wrong are read as another query, if any.** -/
theorem tells_parseQuery (hs : s.Valid parseF64) : Tells (parseQuery parseF64) (· = []) s.tokens s.query := by
  have hselect : Takes parseSelect Any [.select] () := fun _ _ => rfl
  have hwhere : Takes (skipToken .where) Any [.where] () := fun _ _ => rfl
  have tellsSelect : Tells parseSelect Any [.select] () := tells_single fun _ h => by cases h
  have tellsWhere : Tells (skipToken .where) Any [.where] () := tells_single fun _ h => by cases h
  have tellsBrace : Tells (expect .lBrace) Any [.lBrace] () := tells_single fun _ h => by cases h
  have hlimit : Tells (limitThen (s.select.getD []) s.select.isNone (s.query.patterns, s.query.filters)) (· = [])
      (Source.limitTokens s.limit) s.query := by
    rw [limitThen, if_neg hs.patterns]
    exact (tells_parseLimit s.limit).bind_pure
      (g := SparqlQuery.mk (s.select.getD []) s.select.isNone s.query.patterns s.query.filters)
      fun b hb => (SparqlQuery.mk.inj hb).2.2.2.2
  have hkeep : ∀ (select : List String) (selectAll : Bool) (e : List TriplePattern × List Filter),
      Yields (fun _ => True) (limitThen select selectAll e)
        fun q => (q.select, q.selectAll) = (select, selectAll) ∧ (q.patterns, q.filters) = e := by
    intro select selectAll e
    unfold limitThen
    split
    · exact yields_throw _
    · exact (yields_any _).bind fun _ _ => Yields.pure ⟨rfl, rfl⟩
  rw [tokens_eq, parseQuery_eq]
  refine Tells.bind_unit hselect kept_any tellsSelect ?_ fun _ _ => trivial
  refine Tells.bind (takes_parseProjection hs.select) kept_notVar (tells_parseProjection hs.select) ?_
    (fun _ _ _ h => by cases h) (R := fun b q => (q.select, q.selectAll) = b) ?_ fun b hb => hb.symm
  · refine Tells.bind_unit hwhere kept_any tellsWhere ?_ fun _ _ => trivial
    refine Tells.bind_unit (takes_expect .lBrace) kept_any tellsBrace ?_ fun _ _ => trivial
    exact Tells.bind (takes_parseWhere hs) kept_any (tells_parseWhere hs) hlimit (fun _ _ => trivial)
      (R := fun b q => (q.patterns, q.filters) = b) (fun e => (hkeep _ _ e).mono fun _ h => h.2) fun b hb => hb.symm
  · exact fun b => (yields_any _).bind fun _ _ => (yields_any _).bind fun _ _ => (yields_any _).bind fun e _ =>
      (hkeep b.1 b.2 e).mono fun _ h => h.1

/-! ### Texts of a source -/

theorem isChain_loose (ht : tight t = false) (h : ts.IsChain Follows) : (t :: ts).IsChain Follows := by
  refine isChain_cons.mpr ⟨fun u _ htight => ?_, h⟩
  rw [ht] at htight
  cases htight

/-- What is in front of neither a full stop nor an equals sign. -/
theorem isChain_tight {u : Token} (hu : u ≠ .dot ∧ u ≠ .eq) (h : (u :: ts).IsChain Follows) :
    (t :: u :: ts).IsChain Follows := isChain_cons_cons.mpr ⟨fun _ => hu, h⟩

theorem tight_token (x : PatternTerm) : tight x.token = false := by
  cases x with
  | var name => rfl
  | term t => cases t <;> rfl

theorem isChain_body (h : ts.IsChain Follows) : (Source.body clauses ++ ts).IsChain Follows := by
  induction clauses with
  | nil => exact h
  | cons e clauses ih =>
    obtain ⟨clause, dot⟩ := e
    have hstop : (stop dot ++ (Source.body clauses ++ ts)).IsChain Follows := by
      cases dot with
      | true => exact isChain_loose (by rfl) ih
      | false => exact ih
    have hbody : Source.body ((clause, dot) :: clauses) ++ ts =
        clause.tokens ++ (stop dot ++ (Source.body clauses ++ ts)) := by
      simp [Source.body]
    rw [hbody]
    cases clause with
    | pattern pat =>
      exact isChain_loose (tight_token _) <| isChain_loose (tight_token _) <| isChain_loose (tight_token _) hstop
    | filter var op c =>
      refine isChain_tight (by simp) <| isChain_loose (by rfl) <|
        isChain_loose (by rfl) <| isChain_tight ?_ <| isChain_tight (by simp) <|
          isChain_loose (by rfl) hstop
      cases c <;> exact ⟨fun h => (by cases h), fun h => (by cases h)⟩

theorem isChain_tokens (s : Source) : s.tokens.IsChain Follows := by
  have hlimit : (Token.rBrace :: Source.limitTokens s.limit).IsChain Follows := by
    cases s.limit with
    | none => exact isChain_singleton _
    | some n =>
      exact isChain_loose (by rfl) <| isChain_tight (by simp) <| isChain_singleton _
  have hwhere : (Token.where :: .lBrace :: (Source.body s.clauses ++ .rBrace :: Source.limitTokens s.limit)).IsChain
      Follows :=
    isChain_tight (by simp) <| isChain_loose (by rfl) <| isChain_body hlimit
  have hprojection : (Source.projection s.select ++ .where :: .lBrace ::
      (Source.body s.clauses ++ .rBrace :: Source.limitTokens s.limit)).IsChain Follows ∧
      ∀ t ∈ (Source.projection s.select ++ .where :: .lBrace ::
        (Source.body s.clauses ++ .rBrace :: Source.limitTokens s.limit)).head?, t ≠ .dot ∧ t ≠ .eq := by
    cases s.select with
    | none => exact ⟨isChain_loose (by rfl) hwhere, fun t ht => by cases ht; simp⟩
    | some names =>
      rw [Source.projection]
      induction names with
      | nil => exact ⟨hwhere, fun t ht => by cases ht; simp⟩
      | cons name names ih =>
        exact ⟨isChain_loose (by rfl) ih.1, fun t ht => by cases ht; simp⟩
  rw [Source.tokens]
  exact isChain_cons.mpr ⟨fun t ht _ => hprojection.2 t ht, hprojection.1⟩

/-- **A text of a source is read as its query if and only if all its tokens are read as they are.** -/
theorem parseSparql_write_iff (hs : s.Valid parseF64) {lead : List Char} (hlead : Blank lead)
    {items : List Item} (h : Written items) (hitems : items.map Item.token = s.tokens) :
    parseSparql parseF64 (lead ++ write items) = .ok s.query ↔ Good items := by
  have hfollows : (items.map Item.token).IsChain Follows := hitems ▸ isChain_tokens s
  have htokenize : tokenize (lead ++ write items) = Tokenizer.tokens (seen (lead ++ write items)) := rfl
  rw [parseSparql, htokenize]
  constructor
  · intro hread
    by_contra hbad
    cases hts : Tokenizer.tokens (seen (lead ++ write items)) with
    | error e =>
      rw [hts] at hread
      cases hread
    | ok ts =>
      have hdiff := differs_of_not_good hlead h hfollows hbad hts
      rw [hitems, ← append_nil s.tokens] at hdiff
      rw [hts] at hread
      rcases tells_parseQuery hs [] ts rfl hdiff with ⟨_, -, hnil⟩ | hother
      · cases hnil
      · cases hquery : parseQuery parseF64 ts with
        | error e =>
          simp only [bind, Except.bind, hquery] at hread
          cases hread
        | ok e =>
          obtain ⟨query, rest⟩ := e
          simp only [bind, Except.bind, hquery] at hread
          exact hother query rest hquery (Except.ok.inj hread)
  · intro hgood
    have hquery := (takes_parseQuery hs).run_eq rfl
    rw [tokens_of_good hlead h hfollows hgood, hitems]
    simp only [bind, Except.bind, hquery]
    rfl

end CenDB.Rdf
