import CenDB.Rdf.Ntriples

/-! # Turtle round trips

The printer groups the triples by subject, and those of a subject by predicate; a group is a permutation
of what went into it (`perm_group`).  Every block is read back as its triples (`takes_parsePredicates`), so
the text is read back as a permutation of the list (`parseTurtle_serializeTurtle`). -/

namespace CenDB.Rdf

open Text Reader List Function

/-! ### Groups -/

namespace VecMap

variable {κ ν : Type} [DecidableEq κ]

/-- The pairs of a map. -/
def pairs (entries : List (κ × List ν)) : List (κ × ν) := entries.flatMap fun e => e.2.map fun v => (e.1, v)

theorem perm_pushEntries (k : κ) (v : ν) (entries : List (κ × List ν)) :
    (pairs (pushEntries k v entries)).Perm (pairs entries ++ [(k, v)]) := by
  induction entries with
  | nil => exact List.Perm.refl _
  | cons e entries ih =>
    unfold pushEntries
    split
    · rename_i hkey
      rw [pairs, pairs, flatMap_cons, flatMap_cons, map_append, ← hkey, append_assoc, append_assoc]
      exact perm_append_comm.append_left _
    · rw [pairs, pairs, flatMap_cons, flatMap_cons, append_assoc]
      exact ih.append_left _

/-- **A group has the pairs that went into it.** -/
theorem perm_group (l : List (κ × ν)) : (pairs (group l).entries).Perm l := by
  induction l using List.reverseRecOn with
  | nil => exact List.Perm.refl _
  | append_singleton l e ih =>
    rw [group, foldl_append, ← group]
    exact (perm_pushEntries e.1 e.2 _).trans (ih.append_right _)

theorem forall_pushEntries {P : κ × List ν → Prop} {k : κ} {v : ν} (hnew : P (k, [v]))
    (hold : ∀ vs, P (k, vs) → P (k, vs ++ [v])) {entries : List (κ × List ν)} (h : ∀ e ∈ entries, P e) :
    ∀ e ∈ pushEntries k v entries, P e := by
  induction entries with
  | nil => exact forall_mem_singleton.mpr hnew
  | cons e entries ih =>
    rw [forall_mem_cons] at h
    unfold pushEntries
    split
    · rename_i hkey
      subst hkey
      exact forall_mem_cons.mpr ⟨hold e.2 h.1, h.2⟩
    · exact forall_mem_cons.mpr ⟨h.1, ih h.2⟩

/-- What holds of every pair holds of the values of every key, and there is one. -/
theorem forall_group {P : κ → ν → Prop} {l : List (κ × ν)} (h : ∀ e ∈ l, P e.1 e.2) :
    ∀ e ∈ (group l).entries, e.2 ≠ [] ∧ ∀ v ∈ e.2, P e.1 v := by
  induction l using List.reverseRecOn with
  | nil => nofun
  | append_singleton l e ih =>
    have hlast := h e (mem_append_right l (mem_singleton_self e))
    have hfirst := ih fun e' he' => h e' (mem_append_left _ he')
    rw [group, foldl_append, ← group]
    refine forall_pushEntries (P := fun e => e.2 ≠ [] ∧ ∀ v ∈ e.2, P e.1 v) ?_ ?_ hfirst
    · exact ⟨cons_ne_nil _ _, forall_mem_singleton.mpr hlast⟩
    · rintro vs ⟨-, hvs⟩
      refine ⟨append_ne_nil_of_right_ne_nil vs (cons_ne_nil _ _), fun v hv => ?_⟩
      rcases mem_append.mp hv with hv | hv
      · exact hvs v hv
      · rw [mem_singleton.mp hv]
        exact hlast

end VecMap

/-! ### Objects -/

variable (prefixes : Prefixes)

variable {c : Char} {f : ℕ}

/-- White space in front of a character that is none. -/
theorem skipWs_pad {p rest : List Char} (hp : ∀ d ∈ p, isWhitespace d = true) (hc : isWhitespace c = false) :
    skipWs (p ++ c :: rest) = .ok ((), c :: rest) := by
  rw [skipWs, skipWhile, dropWhile_append_of_pos hp, dropWhile_cons_of_neg (by simp [hc])]

/-- A term and the white space behind it. -/
theorem parseTerm_pad {t : RdfTerm} (ht : t.Printable) (hascii : t.Ascii) (rest : List Char) :
    parseTerm prefixes (seen (formatTerm t) ++ ' ' :: rest) = .ok (t, ' ' :: rest) :=
  takes_parseTerm prefixes ht hascii _ (spaced_cons rest)

theorem seen_joined (sep : List Char) (hsep : ∀ c ∈ sep, Utf8.Ascii c) (parts : List (List Char)) :
    seen (joined sep parts) = joined sep (parts.map seen) := by
  cases parts with
  | nil => rfl
  | cons part parts =>
    rw [joined, map_cons, joined, seen_append]
    congr 1
    induction parts with
    | nil => rfl
    | cons next parts ih =>
      rw [flatMap_cons, map_cons, flatMap_cons, seen_append, seen_append, ih, seen_eq_self.mpr hsep]

variable {s : RdfTerm} {e : RdfTerm × List RdfTerm} {es : List (RdfTerm × List RdfTerm)}
  {entry : RdfTerm × List (RdfTerm × RdfTerm)} {pad : List Char} {ts : List Triple}

/-- Objects up to a character that is no comma. -/
theorem parseObjects_eq {p : RdfTerm} (hc : isWhitespace c = false) (hcomma : c ≠ ',') {o : RdfTerm}
    {os : List RdfTerm} (hos : ∀ x ∈ o :: os, x.Printable ∧ x.Ascii) (hf : os.length < f) (rest : List Char) :
    parseObjects prefixes s p f (seen (joined [' ', ',', ' '] ((o :: os).map formatTerm)) ++ ' ' :: c :: rest) =
        .ok ((o :: os).map fun o => ⟨s, p, o⟩, c :: rest) := by
  rw [seen_joined _ (by decide)]
  induction os generalizing o f with
  | nil =>
    obtain ⟨f, rfl⟩ := Nat.exists_eq_add_of_lt hf
    obtain ⟨ho, hascii⟩ := hos o mem_cons_self
    have hread := parseTerm_pad prefixes ho hascii (c :: rest)
    have hskip : skipWs (' ' :: c :: rest) = .ok ((), c :: rest) := skipWs_pad (p := [' ']) (by decide) hc
    simp only [map_cons, map_nil, joined, flatMap_nil, append_nil, parseObjects, bind,
      StateT.bind, Except.bind, hread, hskip, peek, head?_cons]
    rw [if_neg (by simpa using hcomma)]
    rfl
  | cons o' os ih =>
    obtain ⟨f, rfl⟩ := Nat.exists_eq_add_of_lt hf
    rw [forall_mem_cons] at hos
    obtain ⟨ho, hascii⟩ := hos.1
    have htail := ih (f := (o' :: os).length + f) hos.2 (by simp; omega)
    let more := joined [' ', ',', ' '] (((o' :: os).map formatTerm).map seen) ++ ' ' :: c :: rest
    have hread := parseTerm_pad prefixes ho hascii (',' :: ' ' :: more)
    have hskip : skipWs (' ' :: ',' :: ' ' :: more) = .ok ((), ',' :: ' ' :: more) :=
      skipWs_pad (p := [' ']) (by decide) rfl
    have hnext : skipWs (' ' :: more) = .ok ((), more) := by
      have hmore : more = seen (formatTerm o') ++ ((os.map formatTerm).map seen).flatMap
          (fun next => [' ', ',', ' '] ++ next) ++ ' ' :: c :: rest := rfl
      rw [hmore, append_assoc]
      exact skipWs_term o' _
    have htext : joined [' ', ',', ' '] (((o :: o' :: os).map formatTerm).map seen) ++ ' ' :: c :: rest =
        seen (formatTerm o) ++ ' ' :: ',' :: ' ' :: more := by
      simp [joined, more]
    rw [htext]
    simp only [parseObjects, bind, StateT.bind, Except.bind, hread, hskip, peek, head?_cons]
    rw [if_pos trivial]
    simp only [StateT.bind, bind, Except.bind, bump, tail_cons, hnext]
    have htail' : parseObjects prefixes s p ((o' :: os).length + f) more = _ := htail
    rw [htail']
    rfl

/-! ### Predicates -/

/-- A predicate with its objects that is read back. -/
structure Entry (entry : RdfTerm × List RdfTerm) : Prop where
  iri : ∃ s, entry.1 = .uri s ∧ IriText s
  ne_nil : entry.2 ≠ []
  objects : ∀ o ∈ entry.2, o.Printable ∧ o.Ascii

theorem seen_formatObjects (entry : RdfTerm × List RdfTerm) : seen (formatObjects entry) =
    seen (formatTerm entry.1) ++ ' ' :: seen (joined [' ', ',', ' '] (entry.2.map formatTerm)) := by
  rw [formatObjects, seen_append, seen_cons (by decide)]

theorem parsePredicate_iri {s : String} (hs : IriText s) (rest : List Char) :
    parsePredicate prefixes (seen (formatTerm (.uri s)) ++ rest) = .ok (.uri s, rest) := by
  have hread := (takes_parseIri hs).map RdfTerm.uri rest trivial
  have hskip := skipWhile_cons (ε := SyntaxError) (p := isWhitespace) (b := '<') rfl (seen s.toList ++ ['>'] ++ rest)
  rw [formatTerm, seen_formatIri, cons_append] at *
  simp only [parsePredicate, bind, StateT.bind, Except.bind, skipWs, hskip]
  exact hread

/-- The triples of a subject and some predicates. -/
def triplesOf (s : RdfTerm) (entries : List (RdfTerm × List RdfTerm)) : List Triple :=
  entries.flatMap fun e => e.2.map fun o => ⟨s, e.1, o⟩

/-- The predicates and objects of a subject. -/
def weight (entries : List (RdfTerm × List RdfTerm)) : ℕ := (entries.map fun e => e.2.length + 1).sum

/-- One predicate with its objects, up to a character that is no comma. -/
theorem parsePredicates_step (he : Entry e) (hc : isWhitespace c = false) (hcomma : c ≠ ',')
    (hf : e.2.length ≤ f) (rest : List Char) :
    parsePredicates prefixes s (f + 1) (seen (formatObjects e) ++ ' ' :: c :: rest) = (if c = ';' then do
        bump
        skipWs
        let triples ← parsePredicates prefixes s f
        return triplesOf s [e] ++ triples
      else if c = '.' then do
        bump
        return triplesOf s [e]
      else throw (.message "expected '.' or ';' after predicate-object list") : Parser (List Triple))
        (c :: rest) := by
  obtain ⟨p, objs⟩ := e
  obtain ⟨⟨iri, hiri, htext⟩, hne, hobjs⟩ := he
  obtain ⟨o, os, rfl⟩ := exists_cons_of_ne_nil hne
  dsimp only at hiri hobjs hf
  subst hiri
  let objects := seen (joined [' ', ',', ' '] ((o :: os).map formatTerm)) ++ ' ' :: c :: rest
  have hstart := skipWs_start (.uri iri) (' ' :: objects)
  have hpredicate := parsePredicate_iri prefixes htext (' ' :: objects)
  have hobject : skipWs (' ' :: objects) = .ok ((), objects) := by
    have hobjects : objects = seen (formatTerm o) ++ (((os.map formatTerm).map seen).flatMap
        (fun next => [' ', ',', ' '] ++ next) ++ ' ' :: c :: rest) := by
      rw [← append_assoc]
      exact congrArg (· ++ ' ' :: c :: rest) (seen_joined _ (by decide) _)
    rw [hobjects]
    exact skipWs_term o _
  have hread : parseObjects prefixes s (.uri iri) f objects = _ :=
    parseObjects_eq prefixes hc hcomma hobjs hf rest
  have hend : skipWs (c :: rest) = .ok ((), c :: rest) := skipWhile_cons hc rest
  have hhead : (seen (formatTerm (.uri iri)) ++ ' ' :: objects).head? = some '<' := by rfl
  rw [seen_formatObjects, append_assoc]
  change parsePredicates prefixes s (f + 1) (seen (formatTerm (.uri iri)) ++ ' ' :: objects) = _
  simp only [parsePredicates, bind, StateT.bind, Except.bind, hstart, peek, hhead]
  rw [if_neg (by decide)]
  simp only [StateT.bind, bind, Except.bind, hpredicate, hobject, hread, hend]
  have htriples : triplesOf s [(.uri iri, o :: os)] = (o :: os).map fun o => ⟨s, .uri iri, o⟩ := by
    simp [triplesOf]
  have hpeek : (peek : Parser (Option Char)) (c :: rest) = .ok (some c, c :: rest) := rfl
  rw [htriples, hpeek]
  dsimp only
  by_cases hsemicolon : c = ';'
  · rw [if_pos (by rw [hsemicolon]), if_pos hsemicolon]
  · rw [if_neg (by simpa using hsemicolon), if_neg hsemicolon]
    simp only [StateT.bind, bind, Except.bind, hpeek, Option.some.injEq]

theorem triplesOf_cons (s : RdfTerm) (e : RdfTerm × List RdfTerm) (es : List (RdfTerm × List RdfTerm)) :
    triplesOf s (e :: es) = triplesOf s [e] ++ triplesOf s es := by
  simp [triplesOf]

/-- Predicates begin with a bracket. -/
theorem joined_head (hes : ∀ x ∈ e :: es, Entry x) (rest : List Char) : ∃ u,
      seen (joined [' ', ';', '\n', ' ', ' '] ((e :: es).map formatObjects)) ++ rest = '<' :: u := by
  obtain ⟨iri, hiri, -⟩ := (hes e mem_cons_self).iri
  rw [map_cons, joined, seen_append, seen_formatObjects, hiri, formatTerm, seen_formatIri]
  exact ⟨_, rfl⟩

/-- **The predicates of a subject are read back up to the full stop.** -/
theorem parsePredicates_eq (hes : ∀ x ∈ e :: es, Entry x) (hf : weight (e :: es) ≤ f) (rest : List Char) :
    parsePredicates prefixes s f
      (seen (joined [' ', ';', '\n', ' ', ' '] ((e :: es).map formatObjects)) ++ ' ' :: '.' :: rest) =
        .ok (triplesOf s (e :: es), rest) := by
  induction es generalizing e f with
  | nil =>
    obtain ⟨he, -⟩ := forall_mem_cons.mp hes
    simp only [weight, map_cons, map_nil, sum_cons, sum_nil] at hf
    obtain ⟨f, rfl⟩ : ∃ k, f = k + 1 := ⟨f - 1, by omega⟩
    have hstep := parsePredicates_step prefixes he (s := s) (c := '.') rfl (by decide) (f := f) (by omega) rest
    have htext : joined [' ', ';', '\n', ' ', ' '] ([e].map formatObjects) = formatObjects e := append_nil _
    rw [htext, hstep, if_neg (by decide), if_pos rfl]
    rfl
  | cons e' es ih =>
    rw [forall_mem_cons] at hes
    have hw : weight (e :: e' :: es) = e.2.length + 1 + weight (e' :: es) := by rfl
    obtain ⟨f, rfl⟩ : ∃ k, f = k + 1 := ⟨f - 1, by omega⟩
    have htail := ih hes.2 (f := f) (by omega)
    let more := seen (joined [' ', ';', '\n', ' ', ' '] ((e' :: es).map formatObjects)) ++ ' ' :: '.' :: rest
    have htext : seen (joined [' ', ';', '\n', ' ', ' '] ((e :: e' :: es).map formatObjects)) ++ ' ' :: '.' :: rest =
        seen (formatObjects e) ++ ' ' :: ';' :: '\n' :: ' ' :: ' ' :: more := by
      simp only [more, seen_joined _ (show ∀ c ∈ [' ', ';', '\n', ' ', ' '], Utf8.Ascii c by decide)]
      simp [joined]
    have hstep := parsePredicates_step prefixes hes.1 (s := s) (c := ';') rfl (by decide) (f := f)
      (by omega) ('\n' :: ' ' :: ' ' :: more)
    have hskip : skipWs ('\n' :: ' ' :: ' ' :: more) = .ok ((), more) := by
      obtain ⟨u, hu⟩ := joined_head hes.2 (' ' :: '.' :: rest)
      have hmore : more = '<' :: u := hu
      rw [hmore]
      exact skipWs_pad (p := ['\n', ' ', ' ']) (by decide) rfl
    rw [htext, hstep, if_pos rfl]
    have htail' : parsePredicates prefixes s f more = _ := htail
    simp only [bind, StateT.bind, Except.bind, bump, tail_cons, hskip, htail']
    rw [triplesOf_cons s e (e' :: es)]
    rfl

/-! ### Statements -/

/-- A subject with predicates that are read back. -/
structure Block (entry : RdfTerm × List (RdfTerm × RdfTerm)) : Prop where
  printable : entry.1.Printable
  ascii : entry.1.Ascii
  ne_nil : (VecMap.group entry.2).entries ≠ []
  entries : ∀ x ∈ (VecMap.group entry.2).entries, Entry x

theorem length_le_seen (text : List Char) : text.length ≤ (seen text).length := by
  rw [seen, Utf8.latin1, length_map]
  exact Utf8.length_le_length_encode text

theorem formatTerm_ne_nil (t : RdfTerm) : formatTerm t ≠ [] := by
  obtain ⟨c, u, htext, -⟩ := formatTerm_head t
  rw [htext]
  exact cons_ne_nil c u

/-- There are no more predicates and objects than characters. -/
theorem weight_le (entries : List (RdfTerm × List RdfTerm)) :
    weight entries ≤ (seen (joined [' ', ';', '\n', ' ', ' '] (entries.map formatObjects))).length := by
  refine Nat.le_trans ?_ ((sum_length_le_joined _ _).trans (length_le_seen _))
  rw [weight, map_map]
  refine sum_le_sum fun e _ => ?_
  have hobjects : (e.2.map formatTerm).length ≤ (joined [' ', ',', ' '] (e.2.map formatTerm)).length := by
    refine length_le_length_joined _ fun part hpart => ?_
    obtain ⟨o, -, rfl⟩ := List.mem_map.mp hpart
    exact formatTerm_ne_nil o
  rw [length_map] at hobjects
  rw [comp_apply, formatObjects, length_append, length_cons]
  omega

theorem seen_formatSubject (h : Block entry) (rest : List Char) :
    seen (formatSubject entry) ++ rest = seen (formatTerm entry.1) ++ ' ' ::
      (seen (joined [' ', ';', '\n', ' ', ' '] ((VecMap.group entry.2).entries.map formatObjects)) ++
        ' ' :: '.' :: '\n' :: rest) := by
  have hend : seen [' ', '.', '\n'] = [' ', '.', '\n'] := seen_eq_self.mpr (by decide)
  rw [formatSubject, if_neg h.ne_nil, append_assoc, seen_append, singleton_append,
    seen_cons (by decide), seen_append, hend]
  simp

/-- **A block is read back up to the end of its line.** -/
theorem parseTriplesBlock_eq (h : Block entry) (rest : List Char) (hf : (seen (formatSubject entry)).length ≤ f) :
    parseTriplesBlock prefixes f (seen (formatSubject entry) ++ rest) =
      .ok (triplesOf entry.1 (VecMap.group entry.2).entries, '\n' :: rest) := by
  obtain ⟨e, es, hentries⟩ := exists_cons_of_ne_nil h.ne_nil
  have hes := h.entries
  have hlength := seen_formatSubject h []
  rw [append_nil] at hlength
  rw [hlength, length_append, length_cons, length_append] at hf
  have hweight := weight_le (VecMap.group entry.2).entries
  rw [seen_formatSubject h]
  rw [hentries] at hes hweight hf ⊢
  have hstart := skipWs_start entry.1 (' ' ::
    (seen (joined [' ', ';', '\n', ' ', ' '] ((e :: es).map formatObjects)) ++ ' ' :: '.' :: '\n' :: rest))
  have hsubject := parseTerm_pad prefixes h.printable h.ascii
    (seen (joined [' ', ';', '\n', ' ', ' '] ((e :: es).map formatObjects)) ++ ' ' :: '.' :: '\n' :: rest)
  have hpredicates := parsePredicates_eq prefixes (s := entry.1) hes (f := f) (by omega) ('\n' :: rest)
  obtain ⟨u, hu⟩ := joined_head hes (' ' :: '.' :: '\n' :: rest)
  have hskip : skipWs (' ' :: (seen (joined [' ', ';', '\n', ' ', ' '] ((e :: es).map formatObjects)) ++
      ' ' :: '.' :: '\n' :: rest)) = .ok ((), seen (joined [' ', ';', '\n', ' ', ' ']
        ((e :: es).map formatObjects)) ++ ' ' :: '.' :: '\n' :: rest) := by
    rw [hu]
    exact skipWs_pad (p := [' ']) (by decide) rfl
  simp only [parseTriplesBlock, bind, StateT.bind, Except.bind, hstart, hsubject, hskip, hpredicates]

theorem skipComments_pad (hpad : ∀ c ∈ pad, isWhitespace c = true) (rest : List Char) :
    skipComments false (pad ++ rest) = skipComments false rest := by
  induction pad with
  | nil => rfl
  | cons c pad ih =>
    rw [forall_mem_cons] at hpad
    rw [cons_append, skipComments, if_neg (by decide), if_pos hpad.1, ih hpad.2]

/-- No keyword is in front of a term. -/
theorem peekKeyword_term (hc : c = '<' ∨ c = '_' ∨ c = '"') (u : List Char) :
    ∀ kw ∈ ["PREFIX", "@prefix", "BASE", "@base"], peekKeyword kw (c :: u) = false := by
  intro kw hkw
  have hfirst : kw.toList.isPrefixOf (c :: u) = false := by
    simp only [mem_cons, not_mem_nil, or_false] at hkw
    rcases hkw with rfl | rfl | rfl | rfl <;> rcases hc with rfl | rfl | rfl <;> rfl
  rw [peekKeyword, hfirst, Bool.false_and]

/-- **The statements are read back one after the other.** -/
theorem parseStatements_eq {entries : List (RdfTerm × List (RdfTerm × RdfTerm))} (h : ∀ e ∈ entries, Block e)
    (hpad : ∀ c ∈ pad, isWhitespace c = true) (hf : (pad ++ seen (entries.flatMap formatSubject)).length < f) :
    parseStatements f prefixes (pad ++ seen (entries.flatMap formatSubject)) =
      .ok (entries.flatMap fun e => triplesOf e.1 (VecMap.group e.2).entries, []) := by
  induction entries generalizing pad f with
  | nil =>
    obtain ⟨f, rfl⟩ : ∃ k, f = k + 1 := ⟨f - 1, by omega⟩
    have hskip : skipComments false (pad ++ seen (([] : List _).flatMap formatSubject)) = [] :=
      skipComments_pad hpad []
    simp only [parseStatements, bind, StateT.bind, Except.bind, skipWsAndComments, hskip]
    rfl
  | cons e entries ih =>
    obtain ⟨f, rfl⟩ : ∃ k, f = k + 1 := ⟨f - 1, by omega⟩
    rw [forall_mem_cons] at h
    have hnewline : ∀ c ∈ ['\n'], isWhitespace c = true := by decide
    have htext : seen ((e :: entries).flatMap formatSubject) =
        seen (formatSubject e) ++ seen (entries.flatMap formatSubject) := by simp [seen_append]
    rw [htext, length_append, length_append] at hf
    have hblock := parseTriplesBlock_eq prefixes h.1 (f := f + 1) (seen (entries.flatMap formatSubject)) (by omega)
    obtain ⟨c, u, hseen, hc⟩ := seen_formatTerm_head e.1
    obtain ⟨v, hv⟩ : ∃ v, seen (formatSubject e) ++ seen (entries.flatMap formatSubject) = c :: v := by
      rw [seen_formatSubject h.1, hseen]
      exact ⟨_, rfl⟩
    have hlength : 1 < (seen (formatSubject e)).length := by
      have hsubject := seen_formatSubject h.1 []
      rw [append_nil] at hsubject
      rw [hsubject, hseen]
      simp
    have htail := ih h.2 hnewline (f := f) (by rw [length_append, length_singleton]; omega)
    rw [singleton_append] at htail
    have hblank : isWhitespace c = false ∧ c ≠ '#' := by rcases hc with rfl | rfl | rfl <;> decide
    have hskip : skipComments false (pad ++ c :: v) = c :: v := by
      rw [skipComments_pad hpad, skipComments, if_neg (by decide), if_neg (by simp [hblank.1]), if_neg hblank.2]
    have hkeyword := peekKeyword_term hc v
    rw [htext, hv]
    rw [hv] at hblock
    have hget : (get : Parser (List Char)) (c :: v) = .ok (c :: v, c :: v) := rfl
    simp only [parseStatements, bind, StateT.bind, Except.bind, skipWsAndComments, hskip, hget]
    rw [if_neg (cons_ne_nil c v), hkeyword "PREFIX" (by decide), hkeyword "@prefix" (by decide),
      hkeyword "BASE" (by decide), hkeyword "@base" (by decide)]
    simp only [Bool.or_self, Bool.false_eq_true, if_false, StateT.bind, bind, Except.bind, hblock, htail]
    rfl

/-! ### Lists of triples -/

/-- The triples of a group of predicates and objects. -/
theorem perm_triplesOf (s : RdfTerm) (l : List (RdfTerm × RdfTerm)) :
    (triplesOf s (VecMap.group l).entries).Perm (l.map fun e => ⟨s, e.1, e.2⟩) := by
  have hpairs : triplesOf s (VecMap.group l).entries =
      (VecMap.pairs (VecMap.group l).entries).map fun e => ⟨s, e.1, e.2⟩ := by
    simp [triplesOf, VecMap.pairs, map_flatMap, comp_def]
  rw [hpairs]
  exact (VecMap.perm_group l).map _

/-- The triples of all blocks are the triples that were printed. -/
theorem perm_statements (ts : List Triple) :
    ((VecMap.group (ts.map fun t => (t.subject, (t.predicate, t.object)))).entries.flatMap fun e =>
      triplesOf e.1 (VecMap.group e.2).entries).Perm ts := by
  let blocks := (VecMap.group (ts.map fun t => (t.subject, (t.predicate, t.object)))).entries
  have hblocks : (blocks.flatMap fun e => triplesOf e.1 (VecMap.group e.2).entries).Perm
      (blocks.flatMap fun e => e.2.map fun po => ⟨e.1, po.1, po.2⟩) :=
    List.Perm.flatMap_left blocks fun e _ => perm_triplesOf e.1 e.2
  have hpairs : (blocks.flatMap fun e => e.2.map fun po => (⟨e.1, po.1, po.2⟩ : Triple)) =
      (VecMap.pairs blocks).map fun e => ⟨e.1, e.2.1, e.2.2⟩ := by
    simp [VecMap.pairs, map_flatMap, comp_def]
  have hgroup := (VecMap.perm_group (ts.map fun t => (t.subject, (t.predicate, t.object)))).map
    fun e => (⟨e.1, e.2.1, e.2.2⟩ : Triple)
  rw [map_map] at hgroup
  have hsame : ts.map ((fun e => (⟨e.1, e.2.1, e.2.2⟩ : Triple)) ∘
      fun t => (t.subject, (t.predicate, t.object))) = ts := map_id ts
  rw [hsame] at hgroup
  exact hblocks.trans (hpairs ▸ hgroup)

/-- The blocks of triples that read back. -/
theorem blocks_of_readsBack (hts : ∀ t ∈ ts, t.Printable) (h : ∀ t ∈ ts, t.ReadsBack) :
    ∀ e ∈ (VecMap.group (ts.map fun t => (t.subject, (t.predicate, t.object)))).entries, Block e := by
  have hpairs : ∀ e ∈ ts.map fun t => (t.subject, (t.predicate, t.object)),
      Triple.Printable ⟨e.1, e.2.1, e.2.2⟩ ∧ Triple.ReadsBack ⟨e.1, e.2.1, e.2.2⟩ := by
    intro e he
    obtain ⟨t, ht, rfl⟩ := List.mem_map.mp he
    exact ⟨hts t ht, h t ht⟩
  intro e he
  obtain ⟨hne, hvalues⟩ := VecMap.forall_group
    (P := fun s po => Triple.Printable ⟨s, po.1, po.2⟩ ∧ Triple.ReadsBack ⟨s, po.1, po.2⟩) hpairs e he
  obtain ⟨po, hpo⟩ := exists_mem_of_ne_nil e.2 hne
  refine ⟨(hvalues po hpo).1.1, (hvalues po hpo).2.subject_ascii, ?_, fun x hx => ?_⟩
  · intro hnil
    have hperm := VecMap.perm_group e.2
    rw [hnil] at hperm
    exact hne hperm.nil_eq.symm
  · obtain ⟨hobjects, hall⟩ := VecMap.forall_group
      (P := fun p o => Triple.Printable ⟨e.1, p, o⟩ ∧ Triple.ReadsBack ⟨e.1, p, o⟩) hvalues x hx
    obtain ⟨o, ho⟩ := exists_mem_of_ne_nil x.2 hobjects
    obtain ⟨iri, hiri⟩ := (hall o ho).2.predicate
    have hprintable := (hall o ho).1.2.1
    dsimp only at hiri hprintable
    rw [hiri] at hprintable
    exact ⟨⟨iri, hiri, hprintable⟩, hobjects, fun o' ho' => ⟨(hall o' ho').1.2.2, (hall o' ho').2.object_ascii⟩⟩

/-- **Triples that read back are read back from Turtle, grouped.** -/
theorem parseTurtle_serializeTurtle (hts : ∀ t ∈ ts, t.Printable) (h : ∀ t ∈ ts, t.ReadsBack) :
    ∃ l, parseTurtle (serializeTurtle ts) = .ok l ∧ l.Perm ts := by
  refine ⟨_, ?_, perm_statements ts⟩
  have hpad : ∀ c ∈ ([] : List Char), isWhitespace c = true := nofun
  have hread := parseStatements_eq ∅ (blocks_of_readsBack hts h) hpad
    (f := (seen (serializeTurtle ts)).length + 1) (Nat.lt_succ_self _)
  rw [List.nil_append, ← serializeTurtle] at hread
  rw [parseTurtle, hread]
  rfl

/-- **Both round trips hold if and only if no IRI has a line break and every triple reads back.** -/
theorem serialize_roundTrips_iff {ts : List Triple} (hts : ∀ t ∈ ts, t.Printable) :
    (parseNtriples (serializeNtriples ts) = .ok ts ∧
      ∃ l, parseTurtle (serializeTurtle ts) = .ok l ∧ l.Perm ts) ↔
    ∀ t ∈ ts, t.OneLine ∧ t.ReadsBack := by
  rw [parseNtriples_serializeNtriples_iff hts]
  exact ⟨And.left, fun h => ⟨h, parseTurtle_serializeTurtle hts fun t ht => (h t ht).2⟩⟩

theorem serialize_roundTrips_tagged :
    let ts : List Triple := [⟨.uri "s", .uri "p", .literal "a \"b\"" (some "@en-GB")⟩,
      ⟨.blankNode "n1", .uri "p", .blankNode "n1"⟩, ⟨.uri "s", .uri "p", .literal "7" (some "int")⟩]
    parseNtriples (serializeNtriples ts) = .ok ts ∧
      ∃ l, parseTurtle (serializeTurtle ts) = .ok l ∧ l.Perm ts := by
  intro ts
  refine (serialize_roundTrips_iff (show ∀ t ∈ ts, t.Printable from ?_)).mpr ?_
  · simp [ts, Triple.Printable, RdfTerm.Printable, IriText, NameChar, TagText]
  · have hback : ∀ s o, RdfTerm.Ascii s → RdfTerm.Ascii o → (∀ value tag, s ≠ .literal value tag) →
        Triple.ReadsBack ⟨s, .uri "p", o⟩ := fun s o hs ho hnot => ⟨hnot, ⟨"p", rfl⟩, hs, ho⟩
    have hall : ∀ t ∈ ts, t.ReadsBack :=
      forall_mem_cons.mpr ⟨hback _ _ trivial (by simp [RdfTerm.Ascii, Utf8.Ascii]) nofun,
        forall_mem_cons.mpr ⟨hback _ _ (by simp [RdfTerm.Ascii, Utf8.Ascii])
          (by simp [RdfTerm.Ascii, Utf8.Ascii]) nofun,
          forall_mem_singleton.mpr (hback _ _ trivial (by simp [RdfTerm.Ascii, Utf8.Ascii]) nofun)⟩⟩
    have hline : ∀ t ∈ ts, t.OneLine := by simp [ts, Triple.OneLine, RdfTerm.OneLine]
    exact fun t ht => ⟨hline t ht, hall t ht⟩

/-- A literal outside ASCII is read back as its bytes. -/
theorem latin1_literal : let ts : List Triple := [⟨.uri "s", .uri "p", .literal "é" none⟩]
    (∀ t ∈ ts, t.Printable) ∧ parseNtriples (serializeNtriples ts) = .ok [⟨.uri "s", .uri "p", .literal "Ã©" none⟩] ∧
      parseNtriples (serializeNtriples ts) ≠ .ok ts := by
  refine ⟨?_, ?_, ?_⟩
  · simp [Triple.Printable, RdfTerm.Printable, IriText]
  · set_option maxRecDepth 8000 in decide
  · set_option maxRecDepth 8000 in decide

end CenDB.Rdf
