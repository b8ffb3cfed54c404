import CenDB.Rdf.SparqlMistakes

/-! # Panics of the SPARQL parser

A `Lexeme` is what the tokenizer passes over at once; `Cut` says that behind some lexemes there is a name
that begins or ends inside a character, or a datatype that begins inside one.  The tokenizer panics on these
texts and on no others (`tokens_panic_iff`), and the parser never panics (`orderly_parseQuery`). -/

namespace CenDB.Rdf

open Text Reader TokenStream List

namespace Tokenizer

/-! ### Lexemes -/

/-- A name that begins or ends inside a character. -/
def NameCut (rest : List Char) : Prop := atBoundary rest = false ∨ atBoundary (nameSpan rest).2 = false

/-- An IRI, up to its closing bracket. -/
def Closes (rest after : List Char) : Prop := ∃ taken, '>' ∉ taken ∧ rest = taken ++ '>' :: after

/-- A character that begins a number: a digit, or a minus sign in front of a digit. -/
def startsNumber (c : Char) (rest : List Char) : Bool := c.isDigit || (c = '-' && rest.head?.any Char.isDigit)

/-- From the end of a literal to the end of its tag. -/
inductive Tag : List Char → List Char → Prop
  | none {rest} (hlang : rest.head? ≠ some '@') (hdatatype : ∀ after, rest ≠ '^' :: '^' :: after) : Tag rest rest
  | language {rest} : Tag ('@' :: rest) (rest.dropWhile fun c => isAlphanumeric c || c = '-')
  | datatype {rest after} (h : Closes rest.tail after) : Tag ('^' :: '^' :: rest) after

/-- From the first character of a lexeme to what follows it. -/
inductive Lexeme : List Char → List Char → Prop
  | symbol {c t rest} (h : symbol c = some t) : Lexeme (c :: rest) rest
  | twofold {c rest} (h : c = '<' ∨ c = '>' ∨ c = '!') : Lexeme (c :: '=' :: rest) rest
  | less {rest} (hne : rest.head? ≠ some '=') (h : rest.head?.any isIriStart = false) : Lexeme ('<' :: rest) rest
  | greater {rest} (hne : rest.head? ≠ some '=') : Lexeme ('>' :: rest) rest
  | iri {n rest after} (hn : isIriStart n = true) (h : Closes (n :: rest) after) : Lexeme ('<' :: n :: rest) after
  | var {c rest} (hc : c = '?' ∨ c = '$') (h : slice (nameSpan rest).1 ≠ []) : Lexeme (c :: rest) (nameSpan rest).2
  | label {rest} : Lexeme ('_' :: ':' :: rest) (nameSpan rest).2
  | word {c rest} (hc : isAlphabetic c = true ∨ c = ':') : Lexeme (c :: rest) (nameSpan (c :: rest)).2
  | number {c rest} (hc : startsNumber c rest = true) : Lexeme (c :: rest) (signedSpan (c :: rest)).2
  | literal {quote rest value mid after} (hquote : quote = '"' ∨ quote = '\'')
    (h : literalBody quote [] 0 rest = .ok (value, mid)) (htag : Tag mid after) : Lexeme (quote :: rest) after

/-- A lexeme of which a name or a datatype is cut. -/
inductive Cuts : List Char → Prop
  | var {c rest} (hc : c = '?' ∨ c = '$') (h : NameCut rest) : Cuts (c :: rest)
  | label {rest} (h : NameCut rest) : Cuts ('_' :: ':' :: rest)
  | word {c rest} (hc : isAlphabetic c = true ∨ c = ':') (h : NameCut (c :: rest)) : Cuts (c :: rest)
  | datatype {quote rest value mid} (hquote : quote = '"' ∨ quote = '\'')
    (h : literalBody quote [] 0 rest = .ok (value, '^' :: '^' :: mid)) (hcut : atBoundary mid.tail = false) :
    Cuts (quote :: rest)

/-- Behind white space, comments and lexemes there is one that is cut. -/
inductive Cut : List Char → Prop
  | here {text} (h : Cuts (skipWsAndComments text)) : Cut text
  | later {text after} (h : Lexeme (skipWsAndComments text) after) (hcut : Cut after) : Cut text

/-- Behind an ASCII character another one begins, or the text ends. -/
def Sound (text : List Char) : Prop := ∀ c rest, c :: rest <:+ text → Utf8.Ascii c → atBoundary rest = true

variable {rest after mid : List Char} {c quote : Char}

variable {text taken value : List Char} {α β : Type} {r : Lexer α} {g : α → β} {e : Failure} {t : Token}

theorem Sound.suffix (h : Sound text) (hrest : rest <:+ text) : Sound rest :=
  fun c after hafter => h c after (hafter.trans hrest)

theorem Sound.of_cons (h : Sound (c :: rest)) (hc : Utf8.Ascii c) :
    atBoundary rest = true := h c rest suffix_rfl hc

theorem sound_append (htaken : ∀ c ∈ taken, ¬Utf8.Ascii c) (h : Sound rest) :
    Sound (taken ++ rest) := by
  induction taken with
  | nil => exact h
  | cons d taken ih =>
    rw [forall_mem_cons] at htaken
    intro c after hsuffix hc
    rw [cons_append, suffix_cons_iff] at hsuffix
    rcases hsuffix with heq | hsuffix
    · cases heq
      exact absurd hc htaken.1
    · exact ih htaken.2 c after hsuffix hc

theorem sound_seen (text : List Char) : Sound (seen text) := by
  induction text with
  | nil =>
    intro c rest hsuffix
    cases suffix_nil.mp hsuffix
  | cons d text ih =>
    by_cases hd : Utf8.Ascii d
    · intro c rest hsuffix hc
      rw [seen_cons hd, suffix_cons_iff] at hsuffix
      rcases hsuffix with heq | hsuffix
      · cases heq
        have hstart : atBoundary (seen text ++ []) = true := atBoundary_seen fun _ => rfl
        rwa [append_nil] at hstart
      · exact ih c rest hsuffix hc
    · obtain ⟨e, u, hseen, -, hall⟩ := seen_of_not_ascii hd
      have happend : seen (d :: text) = seen [d] ++ seen text := by rw [← seen_append, singleton_append]
      rw [happend, hseen]
      exact sound_append hall ih

/-! ### Slices that cut a character -/

theorem sliceBetween_panic {start : List Char} {span : List Char × List Char} :
    sliceBetween start span = .error .panic ↔ atBoundary start = false ∨ atBoundary span.2 = false := by
  unfold sliceBetween
  cases hstart : atBoundary start <;> cases hend : atBoundary span.2 <;> simp

/-- A slice is cut, or it is the text between the two places. -/
theorem sliceBetween_eq (start : List Char) (span : List Char × List Char) :
    sliceBetween start span = .error .panic ∨
      sliceBetween start span = .ok (String.ofList (slice span.1), span.2) := by
  unfold sliceBetween
  split
  · simp
  · simp

theorem readName_panic : readName rest = .error .panic ↔ NameCut rest := sliceBetween_panic

/-! ### IRIs, tags and numbers -/

/-- The end of an IRI: its bracket, or the end of the text. -/
theorem dropWhile_bracket (rest : List Char) : rest.dropWhile (· ≠ '>') = [] ∨
    ∃ after, rest.dropWhile (· ≠ '>') = '>' :: after := by
  have hhead := head?_dropWhile_not (fun c => decide (c ≠ '>')) rest
  cases hdrop : rest.dropWhile (· ≠ '>') with
  | nil => exact Or.inl rfl
  | cons c after =>
    rw [hdrop] at hhead
    have hc : c = '>' := by simpa using hhead
    exact Or.inr ⟨after, by rw [hc]⟩

theorem not_mem_takeWhile (rest : List Char) : '>' ∉ rest.takeWhile (· ≠ '>') := by
  intro hmem
  have hall := all_eq_true.mp (all_takeWhile (p := fun c => decide (c ≠ '>')) (l := rest)) _ hmem
  simp at hall

/-- **An IRI is cut if it begins inside a character, and is read up to its bracket otherwise.** -/
theorem readIriRest_cases (rest : List Char) :
    (readIriRest rest = .error .panic ∧ atBoundary rest = false) ∨ atBoundary rest = true ∧
      ((∃ s after, readIriRest rest = .ok (s, after) ∧ Closes rest after) ∨
        (∃ e, readIriRest rest = .error (.syntaxErr e)) ∧ '>' ∉ rest) := by
  have hend : atBoundary (rest.dropWhile (· ≠ '>')) = true := by
    rcases dropWhile_bracket rest with hdrop | ⟨after, hdrop⟩
    · rw [hdrop]
      rfl
    · rw [hdrop]
      exact atBoundary_ascii (by decide) after
  have hsplit : rest.takeWhile (· ≠ '>') ++ rest.dropWhile (· ≠ '>') = rest := takeWhile_append_dropWhile
  cases hstart : atBoundary rest with
  | false =>
    refine Or.inl ⟨?_, rfl⟩
    have hcut : sliceBetween rest (rest.span (· ≠ '>')) = .error .panic := sliceBetween_panic.mpr (Or.inl hstart)
    simp only [readIriRest, bind, StateT.bind, Except.bind, hcut]
  | true =>
    refine Or.inr ⟨rfl, ?_⟩
    have hslice : sliceBetween rest (rest.span (· ≠ '>')) =
        .ok (String.ofList (slice (rest.takeWhile (· ≠ '>'))), rest.dropWhile (· ≠ '>')) := by
      rw [span_eq_takeWhile_dropWhile, sliceBetween, hstart, hend]
      rfl
    rcases dropWhile_bracket rest with hdrop | ⟨after, hdrop⟩
    · refine Or.inr ⟨⟨.message "unterminated IRI", ?_⟩, ?_⟩
      · rw [hdrop] at hslice
        simp only [readIriRest, bind, StateT.bind, Except.bind, hslice]
        rfl
      · rw [hdrop, append_nil] at hsplit
        rw [← hsplit]
        exact not_mem_takeWhile rest
    · refine Or.inl ⟨String.ofList (slice (rest.takeWhile (· ≠ '>'))), after, ?_, _, not_mem_takeWhile rest, ?_⟩
      · rw [hdrop] at hslice
        simp only [readIriRest, bind, StateT.bind, Except.bind, hslice]
        rfl
      · rw [← hdrop, hsplit]

theorem Closes.dropWhile (h : Closes rest after) : rest.dropWhile (· ≠ '>') = '>' :: after := by
  obtain ⟨taken, hnot, rfl⟩ := h
  have hall : ∀ c ∈ taken, decide (c ≠ '>') = true := fun c hc => by
    rw [decide_eq_true_iff]
    rintro rfl
    exact hnot hc
  rw [dropWhile_append_of_pos hall]
  simp

theorem Closes.unique {after' : List Char} (h : Closes rest after) (h' : Closes rest after') :
    after = after' := (List.cons.inj (h.dropWhile.symm.trans h'.dropWhile)).2

theorem Closes.mem (h : Closes rest after) : '>' ∈ rest := by
  obtain ⟨taken, -, rfl⟩ := h
  simp

theorem readIriRest_panic : readIriRest rest = .error .panic ↔ atBoundary rest = false := by
  rcases readIriRest_cases rest with ⟨hread, hcut⟩ | ⟨hstart, ⟨s, after, hread, -⟩ | ⟨⟨e, hread⟩, -⟩⟩ <;> simp [*]

theorem closes_of_readIriRest {s : String} (h : readIriRest rest = .ok (s, after)) : Closes rest after := by
  rcases readIriRest_cases rest with ⟨hread, -⟩ | ⟨-, ⟨s, after, hread, hcloses⟩ | ⟨⟨e, hread⟩, -⟩⟩
  · rw [hread] at h
    cases h
  · rw [hread] at h
    cases h
    exact hcloses
  · rw [hread] at h
    cases h

theorem readIriRest_of_closes (h : Closes rest after) :
    readIriRest rest = .error .panic ∨ ∃ s, readIriRest rest = .ok (s, after) := by
  rcases readIriRest_cases rest with ⟨hread, -⟩ | ⟨-, ⟨s, after', hread, hcloses⟩ | ⟨-, hnot⟩⟩
  · exact Or.inl hread
  · exact Or.inr ⟨s, by rw [hread, h.unique hcloses]⟩
  · exact absurd h.mem hnot

/-- A reader whose result is wrapped up panics, or goes on, as it does. -/
theorem map_error :
    (g <$> r) rest = .error e ↔ r rest = .error e := by
  simp only [Functor.map, StateT.map, bind, Except.bind]
  cases r rest with
  | error e => simp
  | ok e => simp [pure, Except.pure]

theorem map_ok :
    (∃ b, (g <$> r) rest = .ok (b, after)) ↔ ∃ a, r rest = .ok (a, after) := by
  constructor
  · rintro ⟨b, hb⟩
    obtain ⟨a, ha, -⟩ := map_eq_ok.mp hb
    exact ⟨a, ha⟩
  · rintro ⟨a, ha⟩
    exact ⟨g a, map_eq_ok.mpr ⟨a, ha, rfl⟩⟩

theorem exponent_start {seenE : Bool} (h : ((decide (c = 'e') || decide (c = 'E')) && !seenE) = true) :
    c = 'e' ∨ c = 'E' := by
  rw [Bool.and_eq_true, Bool.or_eq_true, decide_eq_true_iff, decide_eq_true_iff] at h
  exact h.1

/-- A number is made of ASCII characters. -/
theorem numberSpan_spec (seenDot seenE : Bool) (bs : List Char) :
    (numberSpan seenDot seenE bs).1 ++ (numberSpan seenDot seenE bs).2 = bs ∧
      ∀ c ∈ (numberSpan seenDot seenE bs).1, Utf8.Ascii c := by
  fun_induction numberSpan seenDot seenE bs with
  | case1 | case4 | case8 => exact ⟨rfl, forall_mem_nil _⟩
  | case2 _ _ c rest hc ih =>
    exact ⟨congrArg (c :: ·) ih.1, forall_mem_cons.mpr ⟨Utf8.isDigit_ascii hc, ih.2⟩⟩
  | case3 _ _ c rest _ hc _ ih =>
    have hdot : c = '.' := by
      simp only [Bool.and_eq_true, decide_eq_true_eq] at hc
      exact hc.1.1
    exact ⟨congrArg (c :: ·) ih.1, forall_mem_cons.mpr ⟨by rw [hdot]; decide, ih.2⟩⟩
  | case5 _ _ c _ _ hc =>
    have he : c = 'e' ∨ c = 'E' := exponent_start hc
    exact ⟨rfl, forall_mem_singleton.mpr (by rcases he with rfl | rfl <;> decide)⟩
  | case6 _ _ c _ _ hc sign rest hsign ih =>
    have he : c = 'e' ∨ c = 'E' := exponent_start hc
    have hs : sign = '+' ∨ sign = '-' := by simpa using hsign
    refine ⟨congrArg (c :: sign :: ·) ih.1, forall_mem_cons.mpr ⟨?_, forall_mem_cons.mpr ⟨?_, ih.2⟩⟩⟩
    · rcases he with rfl | rfl <;> decide
    · rcases hs with rfl | rfl <;> decide
  | case7 _ _ c _ _ hc sign rest _ ih =>
    have he : c = 'e' ∨ c = 'E' := exponent_start hc
    refine ⟨congrArg (c :: ·) ih.1, forall_mem_cons.mpr ⟨?_, ih.2⟩⟩
    rcases he with rfl | rfl <;> decide

/-- A text that goes on behind ASCII characters goes on with a character. -/
theorem Sound.atBoundary_append (h : Sound (taken ++ rest)) (hne : taken ≠ [])
    (hascii : ∀ c ∈ taken, Utf8.Ascii c) : atBoundary rest = true := by
  have hlast := dropLast_append_getLast hne
  refine h (taken.getLast hne) rest ⟨taken.dropLast, ?_⟩ (hascii _ (getLast_mem hne))
  conv_rhs => rw [← hlast]
  rw [append_assoc, singleton_append]

/-- A signed number is made of ASCII characters. -/
theorem signedSpan_spec (bs : List Char) : (signedSpan bs).1 ++ (signedSpan bs).2 = bs ∧
    ∀ c ∈ (signedSpan bs).1, Utf8.Ascii c := by
  unfold signedSpan
  split
  · rename_i rest
    obtain ⟨happend, hascii⟩ := numberSpan_spec false false rest
    exact ⟨congrArg ('-' :: ·) happend, forall_mem_cons.mpr ⟨by decide, hascii⟩⟩
  · exact numberSpan_spec false false bs

/-- A number is never cut. -/
theorem readNumber_eq (h : Sound (c :: rest)) (hc : startsNumber c rest = true) :
    ∃ n, readNumber (c :: rest) = .ok (n, (signedSpan (c :: rest)).2) := by
  obtain ⟨happend, hascii⟩ := signedSpan_spec (c :: rest)
  have hne : (signedSpan (c :: rest)).1 ≠ [] := by
    intro hnil
    have hlen := (suffix_signedSpan hc).length_le
    rw [hnil, List.nil_append] at happend
    rw [happend, length_cons] at hlen
    omega
  have hstart : atBoundary (c :: rest) = true := by
    obtain ⟨d, u, hspan⟩ := exists_cons_of_ne_nil hne
    rw [hspan] at happend hascii
    obtain ⟨rfl, -⟩ := List.cons.inj happend
    exact atBoundary_ascii (hascii d mem_cons_self) rest
  have hend : atBoundary (signedSpan (c :: rest)).2 = true :=
    Sound.atBoundary_append (happend.symm ▸ h) hne hascii
  refine ⟨String.ofList (slice (signedSpan (c :: rest)).1), ?_⟩
  rw [readNumber, sliceBetween, hstart, hend]
  rfl

/-! ### Literals and variables -/

theorem syntaxErr_of_literalBody {skip : ℕ} {bs : List Char} (h : literalBody quote value skip bs = .error e) :
    ∃ m, e = .syntaxErr m := by
  fun_induction literalBody quote value skip bs with
  | case1 | case4 =>
    cases h
    exact ⟨_, rfl⟩
  | case2 _ _ _ _ ih | case5 _ _ _ ih | case6 _ _ _ _ _ ih | case7 _ _ _ _ _ ih => exact ih h
  | case3 => cases h

/-- Only a datatype is cut of what follows a literal. -/
theorem readTag_panic :
    readTag mid = .error .panic ↔ ∃ rest, mid = '^' :: '^' :: rest ∧ atBoundary rest.tail = false := by
  constructor
  · intro h
    unfold readTag at h
    split at h
    · cases h
    · rename_i rest
      exact ⟨rest, rfl, readIriRest_panic.mp (map_error.mp h)⟩
    · cases h
  · rintro ⟨rest, rfl, hcut⟩
    have hread : readIri rest = .error .panic := readIriRest_panic.mpr hcut
    exact map_error.mpr hread

theorem tag_of_readTag {tag : Option String} (h : readTag mid = .ok (tag, after)) : Tag mid after := by
  unfold readTag at h
  split at h
  · cases h
    rw [span_eq_takeWhile_dropWhile]
    exact Tag.language
  · obtain ⟨s, hread, -⟩ := map_eq_ok.mp h
    exact Tag.datatype (closes_of_readIriRest hread)
  · rename_i hlang hdatatype
    cases h
    refine Tag.none (fun hhead => ?_) hdatatype
    obtain ⟨rest, hmid⟩ := head?_eq_some_iff.mp hhead
    exact hlang rest hmid

theorem readTag_of_tag (h : Tag mid after) :
    readTag mid = .error .panic ∨ ∃ tag, readTag mid = .ok (tag, after) := by
  cases h with
  | none hlang hdatatype =>
    refine Or.inr ⟨none, ?_⟩
    unfold readTag
    split
    · exact absurd rfl hlang
    · exact absurd rfl (hdatatype _)
    · rfl
  | language =>
    refine Or.inr ?_
    unfold readTag
    simp only [span_eq_takeWhile_dropWhile]
    exact ⟨_, rfl⟩
  | @datatype rest after h =>
    rcases readIriRest_of_closes h with hread | hread
    · have hpanic : readIri rest = .error .panic := hread
      exact Or.inl (map_error.mpr hpanic)
    · have hok : ∃ s, readIri rest = .ok (s, after) := hread
      exact Or.inr (map_ok.mpr hok)

theorem readLiteral_panic : readLiteral quote rest = .error .panic ↔
    ∃ value mid, literalBody quote [] 0 rest = .ok (value, '^' :: '^' :: mid) ∧ atBoundary mid.tail = false := by
  simp only [readLiteral, bind, StateT.bind, Except.bind]
  cases hbody : literalBody quote [] 0 rest with
  | error e =>
    obtain ⟨m, rfl⟩ := syntaxErr_of_literalBody hbody
    simp
  | ok e =>
    obtain ⟨value, mid⟩ := e
    dsimp only
    cases htag : readTag mid with
    | error e =>
      simp only [Except.error.injEq, Except.ok.injEq, Prod.mk.injEq]
      constructor
      · rintro rfl
        obtain ⟨rest, rfl, hcut⟩ := readTag_panic.mp htag
        exact ⟨value, rest, ⟨rfl, rfl⟩, hcut⟩
      · rintro ⟨_, rest, ⟨-, rfl⟩, hcut⟩
        rw [readTag_panic.mpr ⟨rest, rfl, hcut⟩] at htag
        cases htag
        rfl
    | ok e =>
      refine iff_of_false (fun h => by cases h) ?_
      rintro ⟨_, rest, heq, hcut⟩
      cases heq
      rw [readTag_panic.mpr ⟨rest, rfl, hcut⟩] at htag
      cases htag

theorem lexeme_of_readLiteral (hquote : quote = '"' ∨ quote = '\'')
    (h : readLiteral quote rest = .ok (t, after)) : Lexeme (quote :: rest) after := by
  obtain ⟨value, mid, hbody, h⟩ := bind_eq_ok.mp h
  obtain ⟨tag, left, htag, h⟩ := bind_eq_ok.mp h
  cases h
  exact Lexeme.literal hquote hbody (tag_of_readTag htag)

theorem readLiteral_of_tag (h : literalBody quote [] 0 rest = .ok (value, mid)) (htag : Tag mid after) :
    readLiteral quote rest = .error .panic ∨ ∃ t, readLiteral quote rest = .ok (t, after) := by
  simp only [readLiteral, bind, StateT.bind, Except.bind, h]
  rcases readTag_of_tag htag with hread | ⟨tag, hread⟩
  · simp [hread]
  · rw [hread]
    exact Or.inr ⟨_, rfl⟩

/-- The name of a variable is cut, missing, or read. -/
theorem readVar_cases (rest : List Char) : (readVar rest = .error .panic ∧ NameCut rest) ∨ ¬NameCut rest ∧
    ((slice (nameSpan rest).1 = [] ∧ ∃ e, readVar rest = .error (.syntaxErr e)) ∨
      (slice (nameSpan rest).1 ≠ [] ∧ ∃ t, readVar rest = .ok (t, (nameSpan rest).2))) := by
  rcases sliceBetween_eq rest (nameSpan rest) with hread | hread
  · have hname : readName rest = .error .panic := hread
    refine Or.inl ⟨?_, readName_panic.mp hname⟩
    simp only [readVar, bind, StateT.bind, Except.bind, hname]
  · have hname : readName rest = .ok (String.ofList (slice (nameSpan rest).1), (nameSpan rest).2) := hread
    have hcut : ¬NameCut rest := fun hcut => by
      rw [readName_panic.mpr hcut] at hname
      cases hname
    refine Or.inr ⟨hcut, ?_⟩
    have hempty : String.ofList (slice (nameSpan rest).1) = "" ↔ slice (nameSpan rest).1 = [] :=
      String.ofList_eq_empty_iff
    simp only [readVar, bind, StateT.bind, Except.bind, hname]
    split_ifs with hnil
    · exact Or.inl ⟨hempty.mp hnil, _, rfl⟩
    · exact Or.inr ⟨fun hslice => hnil (hempty.mpr hslice), _, rfl⟩

/-! ### Tokens -/

theorem cuts_of_readToken (hsound : Sound (c :: rest)) (h : readToken c rest = .error .panic) :
    Cuts (c :: rest) := by
  unfold readToken at h
  split at h
  · cases h
  · split_ifs at h with hvar hless hgreater hnot heq hquote hblank hnumber hword
    · rw [Bool.or_eq_true, decide_eq_true_iff, decide_eq_true_iff] at hvar
      rcases readVar_cases rest with ⟨-, hcut⟩ | ⟨-, ⟨-, e, hread⟩ | ⟨-, t, hread⟩⟩
      · exact Cuts.var hvar hcut
      · rw [hread] at h
        cases h
      · rw [hread] at h
        cases h
    · -- what follows the bracket is the start of an IRI, hence of a character
      unfold readLess at h
      split at h
      · cases h
      · rename_i n rest _
        split at h
        · rename_i hstart
          have hpanic : readIriRest (n :: rest) = .error .panic := map_error.mp h
          have hcut := readIriRest_panic.mp hpanic
          have hbegin : atBoundary (n :: rest) = true := hsound.of_cons (by rw [hless]; decide)
          rw [hcut] at hbegin
          cases hbegin
        · cases h
      · cases h
    · cases h
    · rw [Bool.or_eq_true, decide_eq_true_iff, decide_eq_true_iff] at hquote
      obtain ⟨value, mid, hbody, hcut⟩ := readLiteral_panic.mp h
      exact Cuts.datatype hquote hbody hcut
    · rw [Bool.and_eq_true, decide_eq_true_iff, decide_eq_true_iff] at hblank
      obtain ⟨rfl, hcolon⟩ := hblank
      obtain ⟨rest, rfl⟩ := head?_eq_some_iff.mp hcolon
      exact Cuts.label (readName_panic.mp (map_error.mp h))
    · obtain ⟨n, hread⟩ := readNumber_eq hsound hnumber
      rw [map_error, hread] at h
      cases h
    · rw [Bool.or_eq_true, decide_eq_true_iff] at hword
      exact Cuts.word hword (readName_panic.mp (map_error.mp h))
    · cases h

/-- **A token that is read is a lexeme.** -/
theorem lexeme_of_readToken (h : readToken c rest = .ok (t, after)) : Lexeme (c :: rest) after := by
  unfold readToken at h
  split at h
  · rename_i t' hsymbol
    cases h
    exact Lexeme.symbol hsymbol
  · split_ifs at h with hvar hless hgreater hge hnot heq hquote hblank hnumber hword
    · rw [Bool.or_eq_true, decide_eq_true_iff, decide_eq_true_iff] at hvar
      rcases readVar_cases rest with ⟨hread, -⟩ | ⟨-, ⟨-, e, hread⟩ | ⟨hne, t, hread⟩⟩
      · rw [hread] at h
        cases h
      · rw [hread] at h
        cases h
      · rw [hread] at h
        cases h
        exact Lexeme.var hvar hne
    · rw [hless]
      unfold readLess at h
      split at h
      · cases h
        exact Lexeme.twofold (Or.inl rfl)
      · rename_i n rest hne
        split at h
        · rename_i hstart
          obtain ⟨s, hread, -⟩ := map_eq_ok.mp h
          exact Lexeme.iri hstart (closes_of_readIriRest hread)
        · rename_i hstart
          cases h
          exact Lexeme.less (by simpa using hne) (by simpa using hstart)
      · cases h
        exact Lexeme.less nofun rfl
    · obtain ⟨rest, rfl⟩ := head?_eq_some_iff.mp hge
      cases h
      exact Lexeme.twofold (Or.inr (Or.inl hgreater))
    · cases h
      rw [hgreater]
      exact Lexeme.greater hge
    · obtain ⟨rest, rfl⟩ := head?_eq_some_iff.mp heq
      cases h
      exact Lexeme.twofold (Or.inr (Or.inr hnot))
    · rw [Bool.or_eq_true, decide_eq_true_iff, decide_eq_true_iff] at hquote
      exact lexeme_of_readLiteral hquote h
    · rw [Bool.and_eq_true, decide_eq_true_iff, decide_eq_true_iff] at hblank
      obtain ⟨rfl, hcolon⟩ := hblank
      obtain ⟨rest, rfl⟩ := head?_eq_some_iff.mp hcolon
      obtain ⟨label, hread, -⟩ := map_eq_ok.mp h
      rw [(eq_of_sliceBetween hread).2]
      exact Lexeme.label
    · obtain ⟨n, hread, -⟩ := map_eq_ok.mp h
      rw [(eq_of_sliceBetween hread).2]
      exact Lexeme.number hnumber
    · rw [Bool.or_eq_true, decide_eq_true_iff] at hword
      obtain ⟨word, hread, -⟩ := map_eq_ok.mp h
      rw [(eq_of_sliceBetween hread).2]
      exact Lexeme.word hword

/-- A character of a word begins nothing else. -/
theorem readToken_word (hc : isAlphabetic c = true ∨ c = ':') (rest : List Char) :
    readToken c rest = (classify <$> readName) (c :: rest) := by
  have hword : (isAlphabetic c || decide (c = ':')) = true := by simpa using hc
  obtain ⟨hchar, hpoint⟩ := isNameChar_of_word hword
  have hunderscore : c ≠ '_' := by
    rintro rfl
    revert hc
    decide
  have hminus : c ≠ '-' := by
    rintro rfl
    revert hc
    decide
  have hdigit : c.isDigit = false := by
    rw [Bool.eq_false_iff]
    intro hdigit
    refine Utf8.ofNat_ascii (P := fun c => c.isDigit = true → ¬(isAlphabetic c = true ∨ c = ':')) ?_
      (Utf8.isDigit_ascii hdigit) hdigit hc
    decide
  rw [readToken_of_isNameChar hchar hpoint, if_neg (by simp [hunderscore]), if_neg (by simp [hdigit, hminus]),
    if_pos hword]

theorem readToken_number_start (hc : startsNumber c rest = true) :
    readToken c rest = (.number <$> readNumber) (c :: rest) := by
  have hfirst : isNameChar c = true ∧ c ≠ '.' ∧ c ≠ '_' := by
    rw [startsNumber, Bool.or_eq_true, Bool.and_eq_true, decide_eq_true_iff] at hc
    rcases hc with hdigit | ⟨rfl, -⟩
    · exact isDigit_spec hdigit
    · decide
  obtain ⟨hchar, hpoint, hunderscore⟩ := hfirst
  rw [startsNumber] at hc
  rw [readToken_of_isNameChar hchar hpoint, if_neg (by simp [hunderscore]), if_pos hc]

theorem readToken_of_cuts (h : Cuts (c :: rest)) : readToken c rest = .error .panic := by
  cases h with
  | var hc h =>
    rcases readVar_cases rest with ⟨hread, -⟩ | ⟨hcut, -⟩
    · rcases hc with rfl | rfl
      · exact hread
      · exact hread
    · exact absurd h hcut
  | label h => exact map_error.mpr (readName_panic.mpr h)
  | word hc h =>
    rw [readToken_word hc]
    exact map_error.mpr (readName_panic.mpr h)
  | datatype hquote h hcut =>
    have hread := readLiteral_panic.mpr ⟨_, _, h, hcut⟩
    rcases hquote with rfl | rfl
    · exact hread
    · exact hread

/-- A reader whose result is wrapped up stops where it does. -/
theorem map_stops (g : α → β) (h : r rest = .error .panic ∨ ∃ a, r rest = .ok (a, after)) :
    (g <$> r) rest = .error .panic ∨ ∃ b, (g <$> r) rest = .ok (b, after) :=
  h.imp map_error.mpr map_ok.mpr

theorem readName_stops (rest : List Char) :
    readName rest = .error .panic ∨ ∃ name, readName rest = .ok (name, (nameSpan rest).2) :=
  (sliceBetween_eq rest (nameSpan rest)).imp_right fun h => ⟨_, h⟩

/-- **A lexeme is read unless it is cut.** -/
theorem readToken_of_lexeme (hsound : Sound (c :: rest)) (h : Lexeme (c :: rest) after) :
    readToken c rest = .error .panic ∨ ∃ t, readToken c rest = .ok (t, after) := by
  cases h with
  | @symbol _ t _ h =>
    refine Or.inr ⟨t, ?_⟩
    rw [readToken, h]
  | twofold h =>
    rcases h with rfl | rfl | rfl
    · exact Or.inr ⟨_, rfl⟩
    · exact Or.inr ⟨_, rfl⟩
    · exact Or.inr ⟨_, rfl⟩
  | less hne h =>
    cases rest with
    | nil => exact Or.inr ⟨_, rfl⟩
    | cons n rest =>
      have hother : n ≠ '=' := fun heq => hne (by rw [heq]; rfl)
      exact Or.inr ⟨_, readLess_other hother h rest⟩
  | greater hne =>
    refine Or.inr ⟨.gt, ?_⟩
    have hread : readToken '>' rest = .ok (if rest.head? = some '=' then (.ge, rest.tail) else (.gt, rest)) := rfl
    rw [hread, if_neg hne]
  | @iri n rest _ hn h =>
    have hread : readToken '<' (n :: rest) = (.iri <$> readIriRest) (n :: rest) := readLess_start hn rest
    rw [hread]
    exact map_stops _ (readIriRest_of_closes h)
  | var hc h =>
    have hread : readVar rest = .error .panic ∨ ∃ t, readVar rest = .ok (t, (nameSpan rest).2) := by
      rcases readVar_cases rest with ⟨hread, -⟩ | ⟨-, ⟨hnil, -⟩ | ⟨-, hread⟩⟩
      · exact Or.inl hread
      · exact absurd hnil h
      · exact Or.inr hread
    rcases hc with rfl | rfl
    · exact hread
    · exact hread
  | label => exact map_stops _ (readName_stops _)
  | word hc =>
    rw [readToken_word hc]
    exact map_stops _ (readName_stops _)
  | number hc =>
    rw [readToken_number_start hc]
    obtain ⟨n, hread⟩ := readNumber_eq hsound hc
    exact map_stops _ (Or.inr ⟨n, hread⟩)
  | literal hquote h htag =>
    have hread := readLiteral_of_tag h htag
    rcases hquote with rfl | rfl
    · exact hread
    · exact hread

/-- A text is cut if it is cut here, or behind its first lexeme. -/
theorem cut_iff : Cut text ↔
    Cuts (skipWsAndComments text) ∨ ∃ after, Lexeme (skipWsAndComments text) after ∧ Cut after := by
  constructor
  · rintro (h | ⟨h, hcut⟩)
    · exact Or.inl h
    · exact Or.inr ⟨_, h, hcut⟩
  · rintro (h | ⟨after, h, hcut⟩)
    · exact Cut.here h
    · exact Cut.later h hcut

/-- **The tokenizer panics on the texts that are cut, and on no others.** -/
theorem tokens_panic_iff (hsound : Sound text) : tokens text = .error .panic ↔ Cut text := by
  induction hlen : text.length using Nat.strong_induction_on generalizing text with
  | h n ih =>
    have hsuffix := suffix_skipComments false text
    rw [cut_iff]
    cases hnext : skipWsAndComments text with
    | nil =>
      rw [tokens_nil hnext]
      refine iff_of_false (fun h => by cases h) ?_
      rintro (h | ⟨after, h, -⟩)
      · cases h
      · cases h
    | cons c rest =>
      rw [tokens_cons hnext]
      have hsuffix : c :: rest <:+ text := hnext ▸ hsuffix
      have hhere := hsound.suffix hsuffix
      cases hread : readToken c rest with
      | error e =>
        simp only [bind, Except.bind, Except.error.injEq]
        constructor
        · rintro rfl
          exact Or.inl (cuts_of_readToken hhere hread)
        · rintro (h | ⟨after, h, -⟩)
          · rw [readToken_of_cuts h] at hread
            cases hread
            rfl
          · rcases readToken_of_lexeme hhere h with hpanic | ⟨t, hok⟩
            · rw [hread] at hpanic
              cases hpanic
              rfl
            · rw [hread] at hok
              cases hok
      | ok e =>
        obtain ⟨t, after⟩ := e
        have hafter := suffix_of_readToken hread
        have htail : after <:+ c :: rest := hafter.trans (suffix_cons c rest)
        have hlt : after.length < n := by
          have hle := hafter.length_le
          have hle' := hsuffix.length_le
          rw [length_cons] at hle'
          omega
        have hrest := ih _ hlt (hhere.suffix htail) rfl
        have hpanic : (tokens after).map (t :: ·) = .error .panic ↔ tokens after = .error .panic := by
          cases tokens after with
          | error e => rfl
          | ok ts => exact iff_of_false (fun h => by cases h) fun h => by cases h
        change (tokens after).map (t :: ·) = .error .panic ↔ _
        rw [hpanic, hrest]
        constructor
        · exact fun hcut => Or.inr ⟨after, lexeme_of_readToken hread, hcut⟩
        · rintro (h | ⟨left, h, hcut⟩)
          · rw [readToken_of_cuts h] at hread
            cases hread
          · rcases readToken_of_lexeme hhere h with hpanic | ⟨t', hok⟩
            · rw [hread] at hpanic
              cases hpanic
            · rw [hread] at hok
              cases hok
              exact hcut

/-! ### There is always fuel -/

theorem readTag_ne_outOfFuel (mid : List Char) : readTag mid ≠ .error .outOfFuel := by
  intro h
  unfold readTag at h
  split at h
  · cases h
  · rename_i rest
    have hread : readIriRest rest.tail = .error .outOfFuel := map_error.mp h
    rcases readIriRest_cases rest.tail with ⟨hpanic, -⟩ | ⟨-, ⟨s, after, hok, -⟩ | ⟨⟨e, herr⟩, -⟩⟩ <;> simp_all
  · cases h

theorem readLiteral_ne_outOfFuel (quote : Char) (rest : List Char) :
    readLiteral quote rest ≠ .error .outOfFuel := by
  intro h
  simp only [readLiteral, bind, StateT.bind, Except.bind] at h
  cases hbody : literalBody quote [] 0 rest with
  | error e =>
    obtain ⟨m, rfl⟩ := syntaxErr_of_literalBody hbody
    simp [hbody] at h
  | ok e =>
    rw [hbody] at h
    dsimp only at h
    cases htag : readTag e.2 with
    | error e' =>
      simp only [htag, Except.error.injEq] at h
      exact readTag_ne_outOfFuel e.2 (h ▸ htag)
    | ok e' =>
      rw [htag] at h
      cases h

theorem sliceBetween_ne_outOfFuel (start : List Char) (span : List Char × List Char) :
    sliceBetween start span ≠ .error .outOfFuel := by
  rcases sliceBetween_eq start span with h | h <;> simp [h]

theorem readToken_ne_outOfFuel (c : Char) (rest : List Char) : readToken c rest ≠ .error .outOfFuel := by
  intro h
  unfold readToken at h
  split at h
  · cases h
  · split_ifs at h
    · rcases readVar_cases rest with ⟨hread, -⟩ | ⟨-, ⟨-, e, hread⟩ | ⟨-, t, hread⟩⟩ <;> simp [hread] at h
    · unfold readLess at h
      split at h
      · cases h
      · rename_i n rest _
        split at h
        · have hread : readIriRest (n :: rest) = .error .outOfFuel := map_error.mp h
          rcases readIriRest_cases (n :: rest) with ⟨hpanic, -⟩ | ⟨-, ⟨s, after, hok, -⟩ | ⟨⟨e, herr⟩, -⟩⟩ <;> simp_all
        · cases h
      · cases h
    · cases h
    · exact readLiteral_ne_outOfFuel c rest h
    · exact sliceBetween_ne_outOfFuel _ _ (map_error.mp h)
    · exact sliceBetween_ne_outOfFuel _ _ (map_error.mp h)
    · exact sliceBetween_ne_outOfFuel _ _ (map_error.mp h)
    · cases h

theorem tokens_ne_outOfFuel (text : List Char) : tokens text ≠ .error .outOfFuel := by
  induction hlen : text.length using Nat.strong_induction_on generalizing text with
  | h n ih =>
    have hskip := length_skip_le text
    cases hnext : skipWsAndComments text with
    | nil => simp [tokens_nil hnext]
    | cons c rest =>
      rw [tokens_cons hnext]
      rw [hnext, length_cons] at hskip
      cases hread : readToken c rest with
      | error e =>
        intro heq
        obtain rfl : e = .outOfFuel := Except.error.inj heq
        exact readToken_ne_outOfFuel c rest hread
      | ok e =>
        obtain ⟨t, after⟩ := e
        have hafter := (suffix_of_readToken hread).length_le
        intro heq
        cases htokens : tokens after with
        | error e =>
          simp only [bind, Except.bind, htokens] at heq
          obtain rfl : e = .outOfFuel := Except.error.inj heq
          exact ih after.length (by omega) after rfl htokens
        | ok ts =>
          simp only [bind, Except.bind, htokens] at heq
          cases heq

end Tokenizer

/-! ### The parser never panics -/

/-- A reader that gives back no more than it was given, or an error that is returned. -/
def Settles {α : Type} (n : ℕ) : Except Failure (α × List Token) → Prop
  | .ok (_, rest) => rest.length ≤ n
  | .error e => ∃ m, e = .syntaxErr m

def Orderly {α : Type} (r : TokenStream α) : Prop := ∀ ts, Settles ts.length (r ts)

section orderly

variable {α γ : Type} {r : TokenStream α} {f : α → TokenStream γ} {k n : ℕ} {ts : List Token}

theorem Settles.mono {x : Except Failure (α × List Token)} (h : Settles n x) (hn : n ≤ k) : Settles k x := by
  cases x with
  | error e => exact h
  | ok e => exact le_trans (b := n) h hn

theorem Settles.bind (h : Settles n (r ts)) (hf : ∀ a rest, rest.length ≤ n → Settles k (f a rest)) :
    Settles k ((r >>= f) ts) := by
  simp only [Bind.bind, StateT.bind, Except.bind]
  cases hr : r ts with
  | error e =>
    rw [hr] at h
    exact h
  | ok e =>
    rw [hr] at h
    exact hf e.1 e.2 h

theorem Orderly.bind (h : Orderly r) (hf : ∀ a, Orderly (f a)) : Orderly (r >>= f) :=
  fun ts => (h ts).bind fun a rest hrest => (hf a rest).mono hrest

theorem orderly_pure (a : α) : Orderly (pure a : TokenStream α) := fun _ => le_rfl

theorem orderly_syntaxErr (m : SparqlError) : Orderly (syntaxErr m : TokenStream α) := fun _ => ⟨m, rfl⟩

theorem orderly_next : Orderly next := fun ts => by
  change ts.tail.length ≤ ts.length
  rw [length_tail]
  omega

theorem orderly_peek : Orderly (peek : TokenStream (Option Token)) := fun _ => le_rfl

theorem orderly_bump : Orderly (bump : TokenStream Unit) := fun ts => by
  change ts.tail.length ≤ ts.length
  rw [length_tail]
  omega

theorem orderly_expect (t : Token) : Orderly (expect t) := by
  refine orderly_next.bind fun got => ?_
  split
  · split
    · exact orderly_pure ()
    · exact orderly_syntaxErr _
  · exact orderly_syntaxErr _

theorem orderly_skipToken (t : Token) : Orderly (skipToken t) := by
  refine orderly_peek.bind fun got => ?_
  split
  · exact orderly_bump
  · exact orderly_pure ()

theorem orderly_parsePatternTerm : Orderly parsePatternTerm := by
  refine orderly_next.bind fun got => ?_
  split
  all_goals first | exact orderly_pure _ | exact orderly_syntaxErr _

theorem orderly_parseFilter (parseF64 : String → Option Float) : Orderly (parseFilter parseF64) := by
  have hvar : Orderly parseFilterVar := by
    refine orderly_next.bind fun got => ?_
    split
    all_goals first | exact orderly_pure _ | exact orderly_syntaxErr _
  have hop : Orderly parseFilterOp := by
    refine orderly_next.bind fun got => ?_
    split
    · split
      · exact orderly_pure _
      · exact orderly_syntaxErr _
    · exact orderly_syntaxErr _
  have hvalue : Orderly (parseFilterValue parseF64) := by
    refine orderly_next.bind fun got => ?_
    split
    · rename_i n
      intro ts
      change Settles _ ((numberValue parseF64 n).bind fun a => .ok (a, ts))
      unfold numberValue
      split
      · split
        · exact le_refl ts.length
        · exact ⟨_, rfl⟩
      · split
        · exact le_refl ts.length
        · exact ⟨_, rfl⟩
    all_goals first | exact orderly_pure _ | exact orderly_syntaxErr _
  exact (orderly_expect _).bind fun _ => hvar.bind fun _ => hop.bind fun _ => hvalue.bind fun _ =>
    (orderly_expect _).bind fun _ => orderly_pure _

theorem orderly_parseProjection : Orderly parseProjection := by
  have hvars : Orderly fun ts => .ok (leadingVars ts) := by
    intro ts
    change (leadingVars ts).2.length ≤ ts.length
    fun_induction leadingVars ts with
    | case1 name rest ih => exact ih.trans (Nat.le_succ _)
    | case2 => exact le_rfl
  refine orderly_peek.bind fun got => ?_
  split
  · exact orderly_bump.bind fun _ => orderly_pure _
  · refine hvars.bind fun select => ?_
    split
    · exact orderly_syntaxErr _
    · exact orderly_pure _

/-- A pattern takes a token. -/
theorem settles_parseTriplePattern (t : Token) (ts : List Token) : Settles ts.length (parseTriplePattern (t :: ts)) := by
  have hfirst : Settles ts.length (parsePatternTerm (t :: ts)) := by
    cases t
    all_goals first | exact le_refl ts.length | exact ⟨_, rfl⟩
  have hrest (subject : PatternTerm) : Orderly do
      let predicate ← parsePatternTerm
      let object ← parsePatternTerm
      return (⟨subject, predicate, object⟩ : TriplePattern) :=
    orderly_parsePatternTerm.bind fun _ => orderly_parsePatternTerm.bind fun _ => orderly_pure _
  exact hfirst.bind fun subject rest hle => (hrest subject rest).mono hle

/-- The clauses end before the fuel does. -/
theorem settles_parseClauses (parseF64 : String → Option Float) {fuel : ℕ} {ts : List Token} (h : ts.length < fuel) :
    Settles ts.length (parseClauses parseF64 fuel ts) := by
  induction fuel generalizing ts with
  | zero => omega
  | succ fuel ih =>
    cases ts with
    | nil => exact ⟨_, rfl⟩
    | cons t ts =>
      rw [length_cons] at h
      have hclauses {rest : List Token} (hrest : rest.length ≤ ts.length) :
          Settles (t :: ts).length (parseClauses parseF64 fuel rest) :=
        (ih (by omega)).mono (by rw [length_cons]; omega)
      by_cases ht : t ≠ .rBrace ∧ t ≠ .filter ∧ t ≠ .dot
      · rw [parseClauses_pattern parseF64 fuel ht]
        refine (settles_parseTriplePattern t ts).bind fun pat rest hrest => ?_
        refine (orderly_skipToken .dot rest).bind fun _ left hleft => ?_
        exact (hclauses (hleft.trans hrest)).bind fun e rest hrest => hrest
      · rw [not_and_or, not_and_or, not_not, not_not, not_not] at ht
        rcases ht with rfl | rfl | rfl
        · exact Nat.le_succ ts.length
        · rw [parseClauses_filter]
          refine (orderly_parseFilter parseF64 ts).bind fun f rest hrest => ?_
          refine (orderly_skipToken .dot rest).bind fun _ left hleft => ?_
          exact (hclauses (hleft.trans hrest)).bind fun e rest hrest => hrest
        · exact hclauses le_rfl

theorem orderly_parseLimit : Orderly parseLimit := by
  have hlimits (limit : Option ℕ) (ts : List Token) : ∀ e, parseLimits limit ts = .error e → ∃ m, e = .syntaxErr m := by
    fun_induction parseLimits limit ts with
    | case1 =>
      intro e h
      cases h
    | case2 _ _ _ _ _ ih => exact ih
    | _ =>
      intro e h
      cases h
      exact ⟨_, rfl⟩
  intro ts
  rw [parseLimit]
  cases h : parseLimits none ts with
  | error e => exact hlimits none ts e h
  | ok limit => exact Nat.zero_le _

/-- **The parser returns a query or an error for every list of tokens.** -/
theorem orderly_parseQuery (parseF64 : String → Option Float) : Orderly (parseQuery parseF64) := by
  have hselect : Orderly parseSelect := by
    refine orderly_next.bind fun got => ?_
    split
    all_goals first | exact orderly_pure _ | exact orderly_syntaxErr _
  have hwhere : Orderly (parseWhere parseF64) := fun ts => settles_parseClauses parseF64 (Nat.lt_succ_self _)
  have hlimit (select : List String) (selectAll : Bool) (e : List TriplePattern × List Filter) :
      Orderly (limitThen select selectAll e) := by
    unfold limitThen
    split
    · exact orderly_syntaxErr _
    · exact orderly_parseLimit.bind fun _ => orderly_pure _
  rw [parseQuery_eq]
  exact hselect.bind fun _ => orderly_parseProjection.bind fun p => (orderly_skipToken _).bind fun _ =>
    (orderly_expect _).bind fun _ => hwhere.bind (hlimit p.1 p.2)

end orderly

/-- **A text is parsed or refused if and only if it is not cut.** -/
theorem parseSparql_settles_iff (parseF64 : String → Option Float) (text : List Char) :
    ((∃ q, parseSparql parseF64 text = .ok q) ∨ ∃ e, parseSparql parseF64 text = .error (.syntaxErr e)) ↔
      ¬Tokenizer.Cut (seen text) := by
  have hpanic := Tokenizer.tokens_panic_iff (Tokenizer.sound_seen text)
  have hfuel := Tokenizer.tokens_ne_outOfFuel (seen text)
  have htokenize : Tokenizer.tokenize text = Tokenizer.tokens (seen text) := rfl
  rw [parseSparql, htokenize, ← hpanic]
  cases htokens : Tokenizer.tokens (seen text) with
  | error e =>
    cases e with
    | syntaxErr m => exact iff_of_true (Or.inr ⟨m, rfl⟩) fun h => by cases h
    | panic => exact iff_of_false (by rintro (⟨q, h⟩ | ⟨m, h⟩) <;> cases h) fun h => h rfl
    | outOfFuel => exact absurd htokens hfuel
  | ok ts =>
    refine iff_of_true ?_ fun h => by cases h
    have hquery := orderly_parseQuery parseF64 ts
    simp only [bind, Except.bind]
    cases h : parseQuery parseF64 ts with
    | error e =>
      rw [h] at hquery
      obtain ⟨m, rfl⟩ := hquery
      exact Or.inr ⟨m, rfl⟩
    | ok e => exact Or.inl ⟨e.1, rfl⟩

/-- **A text of a source is read as its query if and only if all its tokens are read as they are, and any
text is parsed or refused if and only if it is not cut.** -/
theorem parseSparql_reads_iff {parseF64 : String → Option Float} {s : Source} (hs : s.Valid parseF64)
    {lead : List Char} (hlead : Tokenizer.Blank lead) {items : List Tokenizer.Item}
    (h : Tokenizer.Written items) (hitems : items.map Tokenizer.Item.token = s.tokens) (text : List Char) :
    (parseSparql parseF64 (lead ++ Tokenizer.write items) = .ok s.query ↔ Tokenizer.Good items) ∧
      (((∃ q, parseSparql parseF64 text = .ok q) ∨ ∃ e, parseSparql parseF64 text = .error (.syntaxErr e)) ↔
        ¬Tokenizer.Cut (seen text)) :=
  ⟨parseSparql_write_iff hs hlead h hitems, parseSparql_settles_iff parseF64 text⟩

theorem parseSparql_reads_names :
    let s : Source := ⟨some ["x"], [(.pattern ⟨.var "x", .term (.uri "p"), .term (.literal "o" none)⟩, false)], none⟩
    let items : List Tokenizer.Item := [⟨.select, "Select".toList, [' ']⟩, ⟨.var "x", "?x".toList, ['\n']⟩,
      ⟨.where, "WHERE".toList, []⟩, ⟨.lBrace, ['\x7b'], []⟩, ⟨.var "x", "$x".toList, [' ']⟩,
      ⟨.iri "p", "<p>".toList, [' ']⟩, ⟨.literal "o" none, "\"o\"".toList, []⟩, ⟨.rBrace, ['\x7d'], []⟩]
    parseSparql (fun _ => none) ([' '] ++ Tokenizer.write items) = .ok s.query ∧
      ¬Tokenizer.Cut (seen ([' '] ++ Tokenizer.write items)) := by
  intro s items
  have hs : s.Valid fun _ => none := {
    select := by simp [s]
    patterns := by simp [s, Source.query, Clause.pattern?]
    constants := by simp [s]
    limit := by simp [s] }
  have hx : Tokenizer.VarName "x" := by simp [Tokenizer.VarName]
  have h : Tokenizer.Written items := {
    spells := by
      have hselect : Tokenizer.Spells .select "Select".toList := Tokenizer.Spells.keyword rfl rfl
      have hwhere : Tokenizer.Spells .where "WHERE".toList := Tokenizer.Spells.keyword rfl rfl
      have hiri : Tokenizer.Spells (.iri "p") "<p>".toList := Tokenizer.Spells.iri (by decide)
      have hliteral : Tokenizer.Spells (.literal "o" none) "\"o\"".toList := Tokenizer.Spells.literal nofun
      intro i hi
      simp only [items, mem_cons, not_mem_nil, or_false] at hi
      rcases hi with rfl | rfl | rfl | rfl | rfl | rfl | rfl | rfl
      · exact hselect
      · exact Tokenizer.Spells.var (Or.inl rfl) hx
      · exact hwhere
      · exact Tokenizer.Spells.symbol rfl
      · exact Tokenizer.Spells.var (Or.inr rfl) hx
      · exact hiri
      · exact hliteral
      · exact Tokenizer.Spells.symbol rfl
    blank := by
      have hblank : ∀ i ∈ items, ∀ c ∈ i.gap, c = ' ' ∨ c = '\n' := by simp [items]
      intro i hi c hc
      rcases hblank i hi c hc with rfl | rfl <;> decide
    apart := by simp [items, Tokenizer.isSymbol] }
  have hname : ∀ c ∈ seen "x".toList, isAlphanumeric c = true ∨ c = '_' := by
    rw [seen_eq_self.mpr (by decide)]
    decide
  have hiri : (seen "p".toList).head?.any Tokenizer.isIriStart = true := by
    rw [seen_eq_self.mpr (by decide)]
    decide
  have hascii : ∀ c ∈ "o".toList, Utf8.Ascii c := by decide
  have hgood : Tokenizer.Good items :=
    ⟨trivial, ⟨hname, fun hdot => absurd hdot (by set_option maxRecDepth 8000 in decide)⟩, trivial, trivial,
      ⟨hname, fun hdot => absurd hdot (by set_option maxRecDepth 8000 in decide)⟩, hiri, hascii, trivial, trivial⟩
  have hlead : Tokenizer.Blank [' '] := forall_mem_singleton.mpr (by decide)
  have hread := parseSparql_reads_iff hs hlead h rfl
    ([' '] ++ Tokenizer.write items)
  have hquery := hread.1.mpr hgood
  exact ⟨hquery, hread.2.mp (Or.inl ⟨s.query, hquery⟩)⟩

/-- A variable whose name ends inside a character for the tokenizer. -/
theorem variable_cut :
    parseSparql (fun _ => none) "SELECT ?é WHERE \x7b ?é <p> ?o \x7d".toList = .error .panic := by
  have hcut : Tokenizer.tokenize "SELECT ?é WHERE \x7b ?é <p> ?o \x7d".toList = .error .panic := by
    decide
  rw [parseSparql, hcut]
  rfl

end CenDB.Rdf
