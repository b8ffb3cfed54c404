import CenDB.Rdf.Terms

/-! # N-Triples round trips

What is read of a line has no line break in an IRI (`oneLine_of_parseNtriples`).  A triple without one is
printed on a line of its own, and the line is read back as the triple if and only if its positions, labels
and literals allow it (`parseNtriplesLine_formatTriple_iff`).  So a list is read back if and only if that
holds of its triples (`parseNtriples_serializeNtriples_iff`). -/

namespace CenDB.Rdf

open Text Reader

/-! ### Line breaks -/

/-- There is no line break in the IRI of a term. -/
def RdfTerm.OneLine : RdfTerm → Prop
  | .uri s => '\n' ∉ s.toList
  | .blankNode _ => True
  | .literal _ tag => ∀ s ∈ tag, '\n' ∉ s.toList

/-- Bytes as characters, without a line break. -/
def Unbroken (rest : List Char) : Prop := ∀ c ∈ rest, c.toNat < 256 ∧ c ≠ '\n'

variable {bs rest : List Char} {t : RdfTerm}

theorem Unbroken.of_subset {as : List Char} (h : Unbroken bs) (hsub : as ⊆ bs) : Unbroken as :=
  fun c hc => h c (hsub hc)

theorem unbroken_seen {line : List Char} (h : '\n' ∉ line) : Unbroken (seen line) := by
  refine fun c hc => ⟨lt_of_mem_seen hc, ?_⟩
  rintro rfl
  exact h (mem_of_mem_seen hc (by decide))

theorem Unbroken.newline_not_mem (h : Unbroken rest) : '\n' ∉ rest :=
  fun hmem => (h _ hmem).2 rfl

theorem Unbroken.slice {taken : List Char} (h : Unbroken taken) : '\n' ∉ slice taken := by
  intro hmem
  rw [Text.slice] at hmem
  cases hdecode : Utf8.decode (taken.map fun c => UInt8.ofNat c.toNat) with
  | none =>
    rw [hdecode] at hmem
    cases hmem
  | some cs =>
    rw [hdecode, Option.getD_some] at hmem
    have hbyte : (10 : UInt8) ∈ taken.map fun c => UInt8.ofNat c.toNat := by
      rw [← Utf8.encode_of_decode hdecode]
      refine List.mem_flatMap.mpr ⟨'\n', hmem, ?_⟩
      rw [Utf8.encodeChar_of_ascii (by decide)]
      exact List.mem_singleton_self _
    obtain ⟨c, hc, heq⟩ := List.mem_map.mp hbyte
    obtain ⟨hlt, hne⟩ := h c hc
    have hnat := congrArg UInt8.toNat heq
    rw [UInt8.toNat_ofNat', Nat.mod_eq_of_lt hlt] at hnat
    refine hne ?_
    rw [← Char.ofNat_toNat c, hnat]
    rfl

section yields

variable {α : Type} {r : Parser α}

theorem yields_of_subset (h : ∀ bs a rest, r bs = .ok (a, rest) → rest ⊆ bs) :
    Yields Unbroken r fun _ => True := fun bs a rest hbs hr => ⟨hbs.of_subset (h bs a rest hr), trivial⟩

theorem yields_skipWs : Yields Unbroken skipWs fun _ => True := by
  refine yields_of_subset fun bs a rest h => ?_
  cases h
  exact (List.dropWhile_sublist _).subset

theorem yields_peek : Yields Unbroken (peek : Parser (Option Char)) fun _ => True := by
  refine yields_of_subset fun bs a rest h => ?_
  cases h
  exact List.Subset.refl _

theorem yields_get : Yields Unbroken (get : Parser (List Char)) fun _ => True := by
  refine yields_of_subset fun bs a rest h => ?_
  cases h
  exact List.Subset.refl _

theorem yields_bump : Yields Unbroken (bump : Parser Unit) fun _ => True := by
  refine yields_of_subset fun bs a rest h => ?_
  cases h
  exact (List.tail_sublist _).subset

theorem yields_expectChar (c : Char) : Yields Unbroken (expectChar c) fun _ => True := by
  refine yields_of_subset fun bs a rest h => ?_
  unfold expectChar at h
  split at h
  · cases h
  · split at h
    · cases h
      exact List.subset_cons_self _ _
    · cases h

theorem yields_takeWhile (p : Char → Bool) : Yields Unbroken (takeWhile p : Parser (List Char)) Unbroken := by
  intro bs a rest hbs h
  cases h
  exact ⟨hbs.of_subset (List.dropWhile_sublist _).subset, hbs.of_subset (List.takeWhile_sublist _).subset⟩

theorem iriBody_subset (bs : List Char) : (iriBody bs).1 ⊆ bs ∧ (iriBody bs).2 ⊆ bs := by
  fun_induction iriBody bs with
  | case1 => exact ⟨List.Subset.refl _, List.Subset.refl _⟩
  | case2 => exact ⟨List.nil_subset _, List.Subset.refl _⟩
  | case3 => exact ⟨List.Subset.refl _, List.nil_subset _⟩
  | case4 d rest _ ih =>
    exact ⟨List.cons_subset_cons _ (List.cons_subset_cons d ih.1),
      List.subset_cons_of_subset _ (List.subset_cons_of_subset d ih.2)⟩
  | case5 c rest _ _ ih => exact ⟨List.cons_subset_cons c ih.1, List.subset_cons_of_subset c ih.2⟩

/-- An IRI that is cut out of a line has no line break. -/
theorem yields_parseIri : Yields Unbroken parseIri fun s => '\n' ∉ s.toList := by
  have hbody : Yields Unbroken (fun rest => .ok (iriBody rest) : Parser (List Char)) Unbroken := by
    intro bs a rest hbs h
    obtain ⟨htaken, hrest⟩ := iriBody_subset bs
    rw [Except.ok.inj h] at htaken hrest
    exact ⟨hbs.of_subset hrest, hbs.of_subset htaken⟩
  refine (yields_expectChar '<').bind fun _ _ => hbody.bind fun taken htaken => ?_
  refine (yields_expectChar '>').bind fun _ _ => Yields.pure ?_
  rw [String.toList_ofList]
  exact htaken.slice

theorem yields_parseBlankNode : Yields Unbroken parseBlankNode RdfTerm.OneLine :=
  (yields_expectChar '_').bind fun _ _ => (yields_expectChar ':').bind fun _ _ =>
    (yields_takeWhile _).bind fun _ _ => Yields.pure trivial

theorem yields_namePrefix : Yields Unbroken namePrefix fun _ => True := by
  refine yields_of_subset fun bs a rest h => ?_
  unfold namePrefix at h
  have hsub := List.drop_subset (bs.takeWhile fun c => c ≠ ':' && !endsLocal c).length bs
  dsimp only at h
  split at h
  · rename_i hdrop
    split at h
    · cases h
      exact hdrop ▸ hsub
    · cases h
  · cases h
    exact List.nil_subset _

theorem yields_parseLocalName : Yields Unbroken parseLocalName RdfTerm.OneLine := by
  have hname : Yields Unbroken parsePrefixedName fun e => Unbroken e.2 :=
    Yields.bind yields_namePrefix fun _ _ => (yields_expectChar ':').bind fun _ _ =>
      (yields_takeWhile _).bind fun _ hlocal => Yields.pure hlocal
  refine hname.bind fun e he => Yields.pure ?_
  rw [RdfTerm.OneLine, String.toList_ofList]
  exact he.newline_not_mem

theorem literalBody_subset {quote : Char} {value : List Char} {skip : ℕ} {bs a rest : List Char}
    (h : literalBody quote value skip bs = .ok (a, rest)) : rest ⊆ bs := by
  have hescaped : ∀ {hex : List Char} {e : SyntaxError} {f : List Char → Except SyntaxError (List Char × List Char)},
      (escapedChar hex e >>= f) = .ok (a, rest) → ∃ chars, f chars = .ok (a, rest) := by
    intro hex e f h
    cases hchars : escapedChar hex e with
    | error e => rw [hchars] at h; cases h
    | ok chars => rw [hchars] at h; exact ⟨chars, h⟩
  fun_induction literalBody quote value skip bs with
  | case1 | case4 => cases h
  | case2 value skip c bs ih | case8 value c bs _ _ ih => exact List.subset_cons_of_subset c (ih h)
  | case3 =>
    cases h
    exact List.subset_cons_self _ _
  | case5 value bs _ ih | case6 value bs _ _ ih =>
    obtain ⟨chars, h⟩ := hescaped h
    exact List.subset_cons_of_subset _ (List.subset_cons_of_subset _ (ih chars h))
  | case7 value next bs _ _ _ ih => exact List.subset_cons_of_subset _ (List.subset_cons_of_subset next (ih h))

theorem yields_parseQuoted : Yields Unbroken parseQuoted fun _ => True := by
  refine yields_of_subset fun bs a rest h => ?_
  cases bs with
  | nil => cases h
  | cons quote bs => exact List.subset_cons_of_subset quote (literalBody_subset h)

theorem yields_parseTag : Yields Unbroken parseTag fun tag => ∀ s ∈ tag, '\n' ∉ s.toList := by
  refine yields_peek.bind fun c _ => ?_
  split
  · refine yields_bump.bind fun _ _ => (yields_takeWhile _).bind fun lang hlang => Yields.pure ?_
    rintro s hs
    cases hs
    rw [String.toList_ofList, List.mem_cons, not_or]
    exact ⟨by decide, hlang.newline_not_mem⟩
  · refine yields_bump.bind fun _ _ => (yields_expectChar '^').bind fun _ _ =>
      (yields_parseIri).bind fun datatype hdatatype => Yields.pure ?_
    rintro s hs
    cases hs
    exact hdatatype
  · exact Yields.pure nofun

theorem yields_parseLiteral : Yields Unbroken parseLiteral RdfTerm.OneLine :=
  (yields_parseQuoted).bind fun _ _ => (yields_parseTag).bind fun _ htag => Yields.pure htag

theorem yields_parseSubject : Yields Unbroken parseSubject RdfTerm.OneLine := by
  refine yields_skipWs.bind fun _ _ => yields_peek.bind fun c _ => ?_
  cases c with
  | none => exact yields_throw _
  | some c =>
    dsimp only
    split
    · exact yields_parseIri.map fun _ hs => hs
    · split
      · exact yields_parseBlankNode
      · split
        · exact yields_parseLocalName
        · exact yields_throw _

theorem yields_parseIriOrA : Yields Unbroken parseIriOrA RdfTerm.OneLine := by
  refine yields_skipWs.bind fun _ _ => yields_get.bind fun rest _ => ?_
  split
  · refine yields_bump.bind fun _ _ => Yields.pure ?_
    change '\n' ∉ rdfType.toList
    decide
  · refine yields_peek.bind fun c _ => ?_
    cases c with
    | none => exact yields_throw _
    | some c =>
      dsimp only
      split
      · exact yields_parseIri.map fun _ hs => hs
      · split
        · exact yields_parseLocalName
        · exact yields_throw _

theorem yields_parseObject : Yields Unbroken parseObject RdfTerm.OneLine := by
  refine yields_skipWs.bind fun _ _ => yields_peek.bind fun c _ => ?_
  cases c with
  | none => exact yields_throw _
  | some c =>
    dsimp only
    split
    · exact yields_parseIri.map fun _ hs => hs
    · split
      · exact yields_parseBlankNode
      · split
        · exact yields_parseLiteral
        · split
          · exact yields_parseLocalName
          · exact yields_throw _

/-- There is no line break in the IRIs of a triple. -/
def Triple.OneLine (t : Triple) : Prop := t.subject.OneLine ∧ t.predicate.OneLine ∧ t.object.OneLine

theorem yields_parseTriple : Yields Unbroken parseTriple Triple.OneLine :=
  yields_skipWs.bind fun _ _ => (yields_parseSubject).bind fun _ hs =>
    yields_skipWs.bind fun _ _ => (yields_parseIriOrA).bind fun _ hp =>
      yields_skipWs.bind fun _ _ => (yields_parseObject).bind fun _ ho =>
        yields_skipWs.bind fun _ _ => (yields_expectChar '.').bind fun _ _ => Yields.pure ⟨hs, hp, ho⟩

end yields

theorem parseNtriplesLine_eq_ok {line : List Char} {t : Triple} :
    parseNtriplesLine line = .ok t ↔ ∃ rest, parseTriple (seen line) = .ok (t, rest) := by
  unfold parseNtriplesLine
  cases h : parseTriple (seen line) with
  | error e => simp [Except.map]
  | ok e =>
    obtain ⟨t', rest⟩ := e
    simp [Except.map]

variable {ts : List Triple}

theorem oneLine_of_parseLines {n : ℕ} {ls : List (List Char)} (hls : ∀ l ∈ ls, '\n' ∉ l)
    (h : parseLines n ls = .ok ts) : ∀ t ∈ ts, t.OneLine := by
  induction ls generalizing n ts with
  | nil =>
    cases h
    exact fun t ht => absurd ht List.not_mem_nil
  | cons raw ls ih =>
    rw [List.forall_mem_cons] at hls
    rw [parseLines] at h
    split at h
    · exact ih hls.2 h
    · cases hline : parseNtriplesLine (trim raw) with
      | error e =>
        rw [hline] at h
        cases h
      | ok t =>
        rw [hline] at h
        cases hrest : parseLines (n + 1) ls with
        | error e =>
          rw [hrest] at h
          cases h
        | ok ts' =>
          rw [hrest] at h
          cases h
          obtain ⟨rest, hread⟩ := parseNtriplesLine_eq_ok.mp hline
          have hunbroken := unbroken_seen fun hmem => hls.1 (trim_subset raw hmem)
          exact List.forall_mem_cons.mpr ⟨(yields_parseTriple _ t rest hunbroken hread).2, ih hls.2 hrest⟩

/-- **What is read of N-Triples has no line break in an IRI.** -/
theorem oneLine_of_parseNtriples {input : List Char} (h : parseNtriples input = .ok ts) :
    ∀ t ∈ ts, t.OneLine := oneLine_of_parseLines (fun _ => newline_not_mem_lines) h

/-! ### Triples -/

/-- The subject is no literal, the predicate is an IRI, and labels and literals are ASCII. -/
structure Triple.ReadsBack (t : Triple) : Prop where
  subject : ∀ value tag, t.subject ≠ .literal value tag
  predicate : ∃ s, t.predicate = .uri s
  subject_ascii : t.subject.Ascii
  object_ascii : t.object.Ascii

def Triple.Printable (t : Triple) : Prop := t.subject.Printable ∧ t.predicate.Printable ∧ t.object.Printable

theorem seen_formatTriple (t : Triple) : seen (formatTriple t) =
    seen (formatTerm t.subject) ++ ' ' :: (seen (formatTerm t.predicate) ++ ' ' ::
      (seen (formatTerm t.object) ++ [' ', '.'])) := by
  have hend : seen [' ', '.'] = [' ', '.'] := seen_eq_self.mpr (by decide)
  rw [formatTriple, seen_append, seen_cons (by decide), seen_append, seen_cons (by decide), seen_append, hend]

/-- White space in front of a term. -/
theorem skipWs_term (t : RdfTerm) (rest : List Char) :
    skipWs (' ' :: (seen (formatTerm t) ++ rest)) = .ok ((), seen (formatTerm t) ++ rest) := by
  obtain ⟨c, u, hseen, hc⟩ := seen_formatTerm_head t
  have hblank : isWhitespace c = false := by rcases hc with rfl | rfl | rfl <;> rfl
  have hspace : isWhitespace ' ' = true := rfl
  rw [hseen, skipWs, skipWhile, List.dropWhile_cons_of_pos hspace, List.cons_append,
    List.dropWhile_cons_of_neg (by simp [hblank])]

theorem skipWs_start (t : RdfTerm) (rest : List Char) :
    skipWs (seen (formatTerm t) ++ rest) = .ok ((), seen (formatTerm t) ++ rest) := by
  obtain ⟨c, u, hseen, hc⟩ := seen_formatTerm_head t
  have hblank : isWhitespace c = false := by rcases hc with rfl | rfl | rfl <;> rfl
  rw [hseen, skipWs]
  exact skipWhile_cons hblank (u ++ rest)

theorem takes_parseSubject (ht : t.Printable) (hascii : t.Ascii)
    (hliteral : ∀ value tag, t ≠ .literal value tag) : Takes parseSubject Spaced (seen (formatTerm t)) t := by
  cases t with
  | uri s =>
    have hread := ((takes_parseIri ht).map RdfTerm.uri).mono (Q := Spaced) fun _ _ => trivial
    rw [formatTerm, seen_formatIri] at *
    exact takes_start rfl hread
  | blankNode label =>
    have hread := takes_parseBlankNode ht hascii
    rw [formatTerm, seen_cons (by decide)] at *
    exact takes_start rfl hread
  | literal value tag => exact absurd rfl (hliteral value tag)

theorem parseIriOrA_bracket (bs : List Char) : parseIriOrA ('<' :: bs) = (RdfTerm.uri <$> parseIri) ('<' :: bs) := rfl

theorem takes_parseIriOrA {s : String} (hs : IriText s) :
    Takes parseIriOrA Spaced (seen (formatTerm (.uri s))) (.uri s) := by
  intro rest hrest
  have hread := (takes_parseIri hs).map RdfTerm.uri rest trivial
  rw [formatTerm, seen_formatIri, List.cons_append] at *
  rw [parseIriOrA_bracket]
  exact hread

/-- The line of a triple is read step by step. -/
theorem parseTriple_formatTriple {t : Triple} (ht : t.Printable) (h : t.ReadsBack) :
    parseTriple (seen (formatTriple t)) = .ok (t, []) := by
  obtain ⟨s, p, o⟩ := t
  obtain ⟨iri, hiri⟩ := h.predicate
  dsimp only at hiri
  subst hiri
  have hsubject := takes_parseSubject ht.1 h.subject_ascii h.subject
  have hpredicate := takes_parseIriOrA ht.2.1
  have hobject := takes_parseObject ht.2.2 h.object_ascii
  have hskip : skipWs [' ', '.'] = .ok ((), ['.']) := rfl
  have hdot : expectChar '.' ['.'] = .ok ((), []) := rfl
  rw [seen_formatTriple]
  dsimp only at *
  simp only [parseTriple, bind, StateT.bind, Except.bind, skipWs_start, skipWs_term,
    hsubject _ (spaced_cons _), hpredicate _ (spaced_cons _), hobject _ (spaced_cons _), hskip, hdot]
  rfl

/-- A blank node is read as it is only if its label is ASCII. -/
theorem ascii_of_parseBlankNode {label : String} (hname : ∀ c ∈ label.toList, NameChar c)
    (h : parseBlankNode ('_' :: ':' :: (seen label.toList ++ bs)) = .ok (.blankNode label, rest)) :
    ∀ c ∈ label.toList, Utf8.Ascii c := by
  simp only [parseBlankNode, bind, StateT.bind, Except.bind, expectChar, if_true, parsePnameLocal, takeWhile] at h
  have hlabel := (Prod.mk.inj (Except.ok.inj h)).1
  rw [RdfTerm.blankNode.injEq] at hlabel
  refine ascii_of_label hname (show (seen label.toList ++ bs).takeWhile _ = _ from ?_)
  rw [← String.toList_ofList (l := List.takeWhile _ _), hlabel]

theorem subject_of_parseSubject (ht : t.Printable)
    (h : parseSubject (seen (formatTerm t) ++ bs) = .ok (t, rest)) :
    (∀ value tag, t ≠ .literal value tag) ∧ t.Ascii := by
  cases t with
  | uri s => exact ⟨fun _ _ heq => (by cases heq), trivial⟩
  | blankNode label =>
    rw [formatTerm, seen_cons (by decide), seen_cons (by decide)] at h
    have hread : parseBlankNode ('_' :: ':' :: (seen label.toList ++ bs)) = .ok (.blankNode label, rest) := h
    exact ⟨fun _ _ heq => (by cases heq), ascii_of_parseBlankNode ht hread⟩
  | literal value tag =>
    rw [seen_literal] at h
    cases h

theorem predicate_of_parseIriOrA (h : parseIriOrA (seen (formatTerm t) ++ bs) = .ok (t, rest)) :
    ∃ s, t = .uri s := by
  cases t with
  | uri s => exact ⟨s, rfl⟩
  | blankNode label =>
    rw [formatTerm, seen_cons (by decide), seen_cons (by decide)] at h
    cases h
  | literal value tag =>
    rw [seen_literal] at h
    cases h

theorem parseObject_quote (bs : List Char) : parseObject ('"' :: bs) = parseLiteral ('"' :: bs) := rfl

theorem object_of_parseObject (ht : t.Printable) (hbs : Spaced bs)
    (h : parseObject (seen (formatTerm t) ++ bs) = .ok (t, rest)) : t.Ascii := by
  cases t with
  | uri s => trivial
  | blankNode label =>
    rw [formatTerm, seen_cons (by decide), seen_cons (by decide)] at h
    have hread : parseBlankNode ('_' :: ':' :: (seen label.toList ++ bs)) = .ok (.blankNode label, rest) := h
    exact ascii_of_parseBlankNode ht hread
  | literal value tag =>
    have hread := takes_parseLiteral value (show ∀ s ∈ tag, TagText s from ?_) bs hbs
    · have hparse : parseLiteral (seen (formatTerm (.literal value tag)) ++ bs) = .ok (.literal value tag, rest) := by
        rw [seen_literal, List.cons_append] at h ⊢
        rwa [parseObject_quote] at h
      rw [hparse] at hread
      have hvalue := (RdfTerm.literal.inj (Prod.mk.inj (Except.ok.inj hread)).1).1
      refine seen_eq_self.mp ?_
      rw [← String.toList_ofList (l := seen value.toList), ← hvalue]
    · intro s hs
      cases hs
      exact ht

/-- **The line of a triple is read back if and only if its positions, labels and literals allow it.** -/
theorem parseNtriplesLine_formatTriple_iff {t : Triple} (ht : t.Printable) :
    parseNtriplesLine (formatTriple t) = .ok t ↔ t.ReadsBack := by
  rw [parseNtriplesLine_eq_ok]
  refine ⟨?_, fun h => ⟨[], parseTriple_formatTriple ht h⟩⟩
  rintro ⟨rest, h⟩
  rw [seen_formatTriple] at h
  -- the three terms are read one after the other, and each one tells where the next one begins
  obtain ⟨_, _, hstart, h⟩ := bind_eq_ok.mp h
  rw [skipWs_start] at hstart
  cases hstart
  obtain ⟨s, afterS, hs, h⟩ := bind_eq_ok.mp h
  obtain ⟨_, startP, hskipP, h⟩ := bind_eq_ok.mp h
  obtain ⟨p, afterP, hp, h⟩ := bind_eq_ok.mp h
  obtain ⟨_, startO, hskipO, h⟩ := bind_eq_ok.mp h
  obtain ⟨o, afterO, ho, h⟩ := bind_eq_ok.mp h
  obtain ⟨_, _, -, h⟩ := bind_eq_ok.mp h
  obtain ⟨_, _, -, h⟩ := bind_eq_ok.mp h
  obtain ⟨rfl, -⟩ := Prod.mk.inj (Except.ok.inj h)
  dsimp only at hs hskipP hp ho
  obtain ⟨hnot, hsascii⟩ := subject_of_parseSubject ht.1 hs
  rw [takes_parseSubject ht.1 hsascii hnot _ (spaced_cons _)] at hs
  cases hs
  rw [skipWs_term] at hskipP
  cases hskipP
  obtain ⟨iri, rfl⟩ := predicate_of_parseIriOrA hp
  rw [takes_parseIriOrA ht.2.1 _ (spaced_cons _)] at hp
  cases hp
  rw [skipWs_term] at hskipO
  cases hskipO
  exact ⟨hnot, ⟨iri, rfl⟩, hsascii, object_of_parseObject ht.2.2 (spaced_cons _) ho⟩

/-! ### Lists of triples -/

theorem newline_not_mem_formatTag {tag : Option String} (h : ∀ s ∈ tag, '\n' ∉ s.toList) : '\n' ∉ formatTag tag := by
  cases tag with
  | none => exact List.not_mem_nil
  | some tag =>
    have htag := h tag rfl
    unfold formatTag
    dsimp only
    split
    · rename_i lang hlang
      rwa [hlang] at htag
    · simp [formatIri, htag]

theorem newline_not_mem_formatTerm (ht : t.Printable) (hline : t.OneLine) : '\n' ∉ formatTerm t := by
  cases t with
  | uri s =>
    have hs : '\n' ∉ s.toList := hline
    simp [formatTerm, formatIri, hs]
  | blankNode label =>
    have hlabel : '\n' ∉ label.toList := by
      intro hmem
      have hname := ht _ hmem
      revert hname
      unfold NameChar
      decide
    simp [formatTerm, hlabel]
  | literal value tag =>
    have htag := newline_not_mem_formatTag hline
    have hescape : '\n' ∉ escapeLiteral value.toList := by
      intro hmem
      obtain ⟨c, -, hc⟩ := List.mem_flatMap.mp hmem
      unfold escapeChar at hc
      split_ifs at hc with h₁ h₂ h₃
      all_goals simp at hc
      exact h₃ hc.symm
    simp [formatTerm, htag, hescape]

/-- A triple without line breaks is a line of its own, which is neither blank nor a comment. -/
theorem formatTriple_line {t : Triple} (ht : t.Printable) (hline : t.OneLine) : '\n' ∉ formatTriple t ∧
    trim (stripCr (formatTriple t)) = formatTriple t ∧ (formatTriple t = [] || (formatTriple t).head? = some '#') = false := by
  have hs := newline_not_mem_formatTerm ht.1 hline.1
  have hp := newline_not_mem_formatTerm ht.2.1 hline.2.1
  have ho := newline_not_mem_formatTerm ht.2.2 hline.2.2
  obtain ⟨c, u, hhead, hc⟩ := formatTerm_head t.subject
  have hfirst : formatTriple t = c :: (u ++ ' ' :: (formatTerm t.predicate ++ ' ' :: (formatTerm t.object ++ [' ', '.']))) := by
    simp [formatTriple, hhead]
  have hlast : formatTriple t = (formatTerm t.subject ++ ' ' :: (formatTerm t.predicate ++ ' ' ::
      (formatTerm t.object ++ [' ']))) ++ ['.'] := by
    simp [formatTriple]
  have hstrip : stripCr (formatTriple t) = formatTriple t := by
    rw [stripCr, if_neg]
    rw [hlast, List.getLast?_concat]
    decide
  refine ⟨by simp [formatTriple, hs, hp, ho], ?_, ?_⟩
  · rw [hstrip]
    refine trim_eq_self hfirst hlast ?_ rfl
    rcases hc with rfl | rfl | rfl <;> rfl
  · rw [hfirst]
    rcases hc with rfl | rfl | rfl <;> simp

theorem parseLines_serialize_iff (hts : ∀ t ∈ ts, t.Printable) (hline : ∀ t ∈ ts, t.OneLine) (n : ℕ) :
    parseLines n (lines (serializeNtriples ts)) = .ok ts ↔ ∀ t ∈ ts, t.ReadsBack := by
  induction ts generalizing n with
  | nil => simp [serializeNtriples, lines, linesFrom, parseLines]
  | cons t ts ih =>
    rw [List.forall_mem_cons] at hts hline ⊢
    obtain ⟨hbreak, htrim, hskip⟩ := formatTriple_line hts.1 hline.1
    have htext : serializeNtriples (t :: ts) = formatTriple t ++ '\n' :: serializeNtriples ts := by
      simp [serializeNtriples]
    rw [htext, lines_append hbreak, parseLines, htrim, if_neg (by rw [hskip]; decide),
      ← parseNtriplesLine_formatTriple_iff hts.1, ← ih hts.2 hline.2 (n + 1)]
    cases hread : parseNtriplesLine (formatTriple t) with
    | error e => simp
    | ok t' =>
      cases hrest : parseLines (n + 1) (lines (serializeNtriples ts)) with
      | error e | ok ts' => simp [Except.map]

/-- **N-Triples are read back if and only if no IRI has a line break and every triple reads back.** -/
theorem parseNtriples_serializeNtriples_iff (hts : ∀ t ∈ ts, t.Printable) :
    parseNtriples (serializeNtriples ts) = .ok ts ↔ ∀ t ∈ ts, t.OneLine ∧ t.ReadsBack := by
  constructor
  · intro h
    have hline := oneLine_of_parseNtriples h
    have hback := (parseLines_serialize_iff hts hline 0).mp h
    exact fun t ht => ⟨hline t ht, hback t ht⟩
  · intro h
    exact (parseLines_serialize_iff hts (fun t ht => (h t ht).1) 0).mpr fun t ht => (h t ht).2

end CenDB.Rdf
