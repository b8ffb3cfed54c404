import CenDB.Rdf.SparqlTokens

/-! # Texts of tokens

A text of a token is read as the token if the name, the literal or the bracket allows it
(`readToken_of_reads`), and otherwise as another one, of a kind that the parser can tell apart
(`mistaken_of_readToken`). -/

namespace CenDB.Rdf

open Text Reader List Bool

namespace Tokenizer

/-! ### How tokens are written -/

/-- A name of letters, digits, underscores and any characters above U+00A0. -/
def VarName (name : String) : Prop :=
  name ≠ "" ∧ ∀ c ∈ name.toList, c.isAlphanum = true ∨ c = '_' ∨ 0xA0 < c.toNat

/-- Digits, a fraction or none, an exponent or none, and a minus sign or none in front. -/
structure NumberText (n : List Char) (sign whole fraction exponent : List Char) : Prop where
  text : n = sign ++ (whole ++ (fraction ++ exponent))
  sign : sign = [] ∨ sign = ['-']
  whole_ne : whole ≠ []
  whole : ∀ c ∈ whole, c.isDigit = true
  fraction : fraction = [] ∨ ∃ ds, fraction = '.' :: ds ∧ ds ≠ [] ∧ ∀ c ∈ ds, c.isDigit = true
  exponent : exponent = [] ∨ ∃ e s ds, exponent = e :: (s ++ ds) ∧ (e = 'e' ∨ e = 'E') ∧
    (s = [] ∨ s = ['+'] ∨ s = ['-']) ∧ ds ≠ [] ∧ ∀ c ∈ ds, c.isDigit = true

def keyword : Token → Option String
  | .select => some "SELECT"
  | .where => some "WHERE"
  | .filter => some "FILTER"
  | .limit => some "LIMIT"
  | _ => none

/-- The texts of a token; keywords are written in any case. -/
inductive Spells : Token → List Char → Prop
  | symbol {c t} (h : symbol c = some t) : Spells t [c]
  | keyword {t kw word} (ht : keyword t = some kw) (hword : word.map Char.toUpper = kw.toList) : Spells t word
  | ne : Spells .ne ['!', '=']
  | lt : Spells .lt ['<']
  | gt : Spells .gt ['>']
  | le : Spells .le ['<', '=']
  | ge : Spells .ge ['>', '=']
  | var {sigil name} (hs : sigil = '?' ∨ sigil = '$') (hname : VarName name) :
    Spells (.var name) (sigil :: name.toList)
  | iri {s} (hs : '>' ∉ s.toList) : Spells (.iri s) (formatIri s.toList)
  | literal {value tag} (htag : ∀ s ∈ tag, TagText s) :
    Spells (.literal value tag) (formatTerm (.literal value tag))
  | number {n sign whole fraction exponent} (hn : NumberText n.toList sign whole fraction exponent) :
    Spells (.number n) n.toList

/-- The name, the literal or the bracket is read as it is, in front of what the cursor sees. -/
def Reads : Token → List Char → Prop
  | .var name, rest => (∀ c ∈ seen name.toList, isAlphanumeric c = true ∨ c = '_') ∧
    (rest.head? = some '.' → endsStatement rest.tail = true)
  | .iri s, _ => (seen s.toList).head?.any isIriStart = true
  | .literal value _, _ => ∀ c ∈ value.toList, Utf8.Ascii c
  | .lt, rest => rest.head?.any isIriStart = false
  | _, _ => True

/-- White space of ASCII, and the characters that punctuation and operators begin with. -/
def separates (c : Char) : Bool :=
  (decide (Utf8.Ascii c) && isWhitespace c) || (symbol c).isSome || c = '!' || c = '<' || c = '>'

/-- The end, or a character that separates. -/
def Apart (rest : List Char) : Prop := ∀ c ∈ rest.head?, separates c = true

/-- What may follow the token. -/
def Stops : Token → List Char → Prop
  | .lt, rest | .gt, rest => rest.head? ≠ some '='
  | .select, rest | .where, rest | .filter, rest | .limit, rest | .number _, rest =>
    Apart rest ∧ rest.head? ≠ some '.'
  | .var _, rest | .literal _ _, rest => Apart rest
  | _, _ => True

/-- Another token, by which the parser can tell that it was not the first one. -/
inductive Mistaken : Token → Token → Prop
  | var {name name'} (h : name' ≠ name) : Mistaken (.var name) (.var name')
  | literal {value tag value' tag'} (h : value' ≠ value) : Mistaken (.literal value tag) (.literal value' tag')
  | iri {s t} (h : t = .lt ∨ t = .le) : Mistaken (.iri s) t
  | lt {s} : Mistaken .lt (.iri s)

/-! ### Characters -/

variable {c : Char} {text rest exponent sign whole fraction : List Char} {t : Token}

theorem ascii_of_separates (h : separates c = true) : Utf8.Ascii c := by
  by_cases hc : Utf8.Ascii c
  · exact hc
  · have hne : ∀ d : Char, Utf8.Ascii d → c ≠ d := fun d hd heq => hc (heq ▸ hd)
    exfalso
    unfold separates symbol at h
    split at h
    all_goals try exact hc (by decide)
    simp [hc, hne '!' (by decide), hne '<' (by decide), hne '>' (by decide)] at h

/-- A name goes on at no separating character, a dot apart. -/
theorem separates_spec (h : separates c = true) :
    (c ≠ '.' → isNameChar c = false) ∧ isAlphanumeric c = false ∧ c ≠ '-' ∧ c ≠ '@' ∧ c ≠ '^' := by
  refine Utf8.ofNat_ascii (P := fun c => separates c = true → (c ≠ '.' → isNameChar c = false) ∧
    isAlphanumeric c = false ∧ c ≠ '-' ∧ c ≠ '@' ∧ c ≠ '^') ?_ (ascii_of_separates h) h
  decide

/-! ### Slices -/

theorem atBoundary_ascii (hc : Utf8.Ascii c) (rest : List Char) : atBoundary (c :: rest) = true := by
  have hlt : c.toNat < 128 := hc
  have hnot : ¬128 ≤ c.toNat := by omega
  simp [atBoundary, hnot]

theorem atBoundary_seen (h : text = [] → atBoundary rest = true) : atBoundary (seen text ++ rest) = true := by
  cases text with
  | nil => exact h rfl
  | cons c text =>
    by_cases hc : Utf8.Ascii c
    · rw [seen_cons hc, cons_append]
      exact atBoundary_ascii hc _
    · obtain ⟨d, u, hseen, hd, -⟩ := seen_of_not_ascii hc
      have happend : seen (c :: text) = seen [c] ++ seen text := by rw [← seen_append, singleton_append]
      have hnot : ¬d.toNat < 192 := by omega
      rw [happend, hseen]
      simp [atBoundary, hnot]

theorem atBoundary_of_apart (h : Apart rest) : atBoundary rest = true := by
  cases rest with
  | nil => rfl
  | cons c rest => exact atBoundary_ascii (ascii_of_separates (h c rfl)) rest

theorem sliceBetween_seen {start : List Char} (hstart : atBoundary start = true)
    (hrest : atBoundary rest = true) :
    sliceBetween start (seen text, rest) = .ok (String.ofList text, rest) := by
  rw [sliceBetween, hstart, hrest, slice_seen]
  rfl

/-! ### Names -/

theorem nameSpan_append {name : List Char} (hname : ∀ c ∈ name, isNameChar c = true ∧ c ≠ '.')
    (hrest : nameSpan rest = ([], rest)) : nameSpan (name ++ rest) = (name, rest) := by
  induction name with
  | nil => exact hrest
  | cons c name ih =>
    rw [forall_mem_cons] at hname
    rw [cons_append, nameSpan_cons hname.1.1 hname.1.2, ih hname.2]
    rfl

/-- A name stops in front of what separates. -/
theorem nameSpan_of_apart (h : Apart rest) (hdot : rest.head? = some '.' → endsStatement rest.tail = true) :
    nameSpan rest = ([], rest) := by
  cases rest with
  | nil => rfl
  | cons c rest =>
    have hc := (separates_spec (h c rfl)).1
    unfold nameSpan
    rw [if_neg]
    by_cases heq : c = '.'
    · have hends : endsStatement rest = true := hdot (by rw [heq]; rfl)
      simp [heq, hends]
    · simp [hc heq]

/-- What a name takes, and where it stops. -/
theorem nameSpan_spec (bs : List Char) : (nameSpan bs).1 ++ (nameSpan bs).2 = bs ∧
    (∀ c ∈ (nameSpan bs).1, isNameChar c = true) ∧
    ((nameSpan bs).2.head? = some '.' → endsStatement (nameSpan bs).2.tail = true) := by
  induction bs with
  | nil => exact ⟨rfl, forall_mem_nil _, fun h => by cases h⟩
  | cons c rest ih =>
    unfold nameSpan
    split
    · rename_i hc
      rw [and_eq_true] at hc
      exact ⟨congrArg (c :: ·) ih.1, forall_mem_cons.mpr ⟨hc.1, ih.2.1⟩, ih.2.2⟩
    · rename_i hc
      refine ⟨rfl, forall_mem_nil _, fun hdot => ?_⟩
      have heq : c = '.' := by simpa using hdot
      simpa [heq, isNameChar] using hc

variable {name kw : String} {after n word u : List Char} {tag : Option String}

/-- The characters of a variable name, as the cursor sees them. -/
theorem varName_seen (h : VarName name) (hc : c ∈ seen name.toList) (hchar : isNameChar c = true) :
    isAlphanumeric c = true ∨ c = '_' := by
  by_cases hascii : Utf8.Ascii c
  · have hlt : c.toNat < 128 := hascii
    rcases h.2 c (mem_of_mem_seen hc hascii) with halnum | rfl | hhigh
    · exact Or.inl (isAlphanumeric_of_isAlphanum halnum)
    · simp
    · omega
  · have hne : ∀ d : Char, Utf8.Ascii d → c ≠ d := fun d hd heq => hascii (heq ▸ hd)
    simpa [isNameChar, hne '_' (by decide), hne '-' (by decide), hne ':' (by decide), hne '.' (by decide)]
      using hchar

/-- A name is read as it is if its characters and what follows allow it. -/
theorem readName_of_reads (hrest : Apart rest) (hreads : Reads (.var name) rest) :
    readName (seen name.toList ++ rest) = .ok (name, rest) := by
  have hchars : ∀ c ∈ seen name.toList, isNameChar c = true ∧ c ≠ '.' := by
    intro c hc
    rcases hreads.1 c hc with halnum | rfl
    · refine ⟨by simp [isNameChar, halnum], ?_⟩
      rintro rfl
      cases halnum
    · decide
  have hspan := nameSpan_append hchars (nameSpan_of_apart hrest hreads.2)
  have hstart : atBoundary (seen name.toList ++ rest) = true :=
    atBoundary_seen fun _ => atBoundary_of_apart hrest
  rw [readName, hspan, sliceBetween_seen hstart (atBoundary_of_apart hrest), String.ofList_toList]

/-- If a name is read as it is, its characters and what follows allow it. -/
theorem reads_of_readName (h : VarName name) (hrest : ∀ c ∈ rest, c.toNat < 256)
    (hread : readName (seen name.toList ++ rest) = .ok (name, after)) :
    Reads (.var name) rest := by
  obtain ⟨happend, hchars, hdot⟩ := nameSpan_spec (seen name.toList ++ rest)
  obtain ⟨hname, -⟩ := eq_of_sliceBetween hread
  have hslice := congrArg String.toList hname.symm
  rw [String.toList_ofList] at hslice
  have hne : name.toList ≠ [] := fun hnil => h.1 (String.toList_eq_nil_iff.mp hnil)
  have hlt : ∀ c ∈ (nameSpan (seen name.toList ++ rest)).1, c.toNat < 256 := by
    intro c hc
    have hmem := mem_append_left (nameSpan (seen name.toList ++ rest)).2 hc
    rw [happend] at hmem
    rcases mem_append.mp hmem with hmem | hmem
    · exact lt_of_mem_seen hmem
    · exact hrest c hmem
  have htaken := seen_slice hslice hne hlt
  rw [← htaken] at happend hchars
  have hafter := append_cancel_left happend
  rw [hafter] at hdot
  exact ⟨fun c hc => varName_seen h hc (hchars c hc), hdot⟩

/-! ### Numbers -/

theorem numberSpan_digits {ds : List Char} (hds : ∀ c ∈ ds, c.isDigit = true) (seenDot seenE : Bool)
    (rest : List Char) : numberSpan seenDot seenE (ds ++ rest) =
      (numberSpan seenDot seenE rest).map (fun n => ds ++ n) id := by
  induction ds with
  | nil => rfl
  | cons c ds ih =>
    rw [forall_mem_cons] at hds
    conv_lhs => unfold numberSpan
    rw [cons_append]
    dsimp only
    rw [if_pos hds.1, ih hds.2]
    rfl

/-- A number stops in front of what separates. -/
theorem numberSpan_of_apart (h : Apart rest) (hdot : rest.head? ≠ some '.') (seenDot seenE : Bool) :
    numberSpan seenDot seenE rest = ([], rest) := by
  cases rest with
  | nil => rfl
  | cons c rest =>
    have halnum := (separates_spec (h c rfl)).2.1
    have hne : ∀ d : Char, isAlphanumeric d = true → c ≠ d := fun d hd heq => by
      rw [heq, hd] at halnum
      cases halnum
    have hdigit : c.isDigit = false := by
      by_contra hdigit
      rw [Bool.not_eq_false] at hdigit
      simp [isAlphanumeric, isNumeric, hdigit] at halnum
    have hpoint : c ≠ '.' := fun heq => hdot (by rw [heq]; rfl)
    unfold numberSpan
    rw [if_neg (by simp [hdigit]), if_neg (by simp [hpoint]),
      if_neg (by simp [hne 'e' (by decide), hne 'E' (by decide)])]

theorem numberSpan_exponent {seenDot : Bool}
    (h : exponent = [] ∨ ∃ e s ds, exponent = e :: (s ++ ds) ∧ (e = 'e' ∨ e = 'E') ∧ (s = [] ∨ s = ['+'] ∨ s = ['-']) ∧ ds ≠ [] ∧ ∀ c ∈ ds, c.isDigit = true)
    (hrest : Apart rest) (hdot : rest.head? ≠ some '.') :
    numberSpan seenDot false (exponent ++ rest) = (exponent, rest) := by
  rcases h with rfl | ⟨e, s, ds, rfl, he, hs, hne, hds⟩
  · exact numberSpan_of_apart hrest hdot seenDot false
  · have hend : numberSpan seenDot true (ds ++ rest) = (ds, rest) := by
      rw [numberSpan_digits hds, numberSpan_of_apart hrest hdot]
      simp
    obtain ⟨d, ds, rfl⟩ := exists_cons_of_ne_nil hne
    have hd : d ≠ '+' ∧ d ≠ '-' := by
      have hdigit := hds d mem_cons_self
      constructor <;> rintro rfl <;> cases hdigit
    rw [cons_append] at hend
    rcases hs with rfl | rfl | rfl <;> rcases he with rfl | rfl <;> simp [numberSpan, hend, hd.1, hd.2]

/-- **A number is read up to what separates.** -/
theorem signedSpan_append (h : NumberText n sign whole fraction exponent) (hrest : Apart rest)
    (hdot : rest.head? ≠ some '.') : signedSpan (n ++ rest) = (n, rest) := by
  have hfraction : numberSpan false false (fraction ++ (exponent ++ rest)) = (fraction ++ exponent, rest) := by
    rcases h.fraction with rfl | ⟨ds, rfl, hne, hds⟩
    · exact numberSpan_exponent h.exponent hrest hdot
    · obtain ⟨d, ds, rfl⟩ := exists_cons_of_ne_nil hne
      have hfirst : d.isDigit = true := hds d mem_cons_self
      have hend : numberSpan true false (d :: (ds ++ (exponent ++ rest))) = (d :: ds ++ exponent, rest) := by
        have hdigits := numberSpan_digits hds true false (exponent ++ rest)
        rw [numberSpan_exponent h.exponent hrest hdot] at hdigits
        exact hdigits
      conv_lhs => unfold numberSpan
      simp [hend, hfirst]
  have hwhole : numberSpan false false (whole ++ (fraction ++ (exponent ++ rest))) =
      (whole ++ (fraction ++ exponent), rest) := by
    rw [numberSpan_digits h.whole, hfraction]
    rfl
  rw [h.text]
  simp only [append_assoc]
  rcases h.sign with rfl | rfl
  · obtain ⟨d, ds, hcons⟩ := exists_cons_of_ne_nil h.whole_ne
    have hdigit : d.isDigit = true := h.whole d (hcons ▸ mem_cons_self)
    rw [List.nil_append, List.nil_append, ← hwhole]
    unfold signedSpan
    split
    · rename_i heq
      rw [hcons] at heq
      cases heq
      cases hdigit
    · rfl
  · rw [singleton_append, signedSpan, hwhole]
    rfl

/-! ### IRIs and literals -/

theorem readIriRest_append {s : String} (hs : '>' ∉ s.toList) (rest : List Char) :
    readIriRest (seen s.toList ++ '>' :: rest) = .ok (s, rest) := by
  have hall : ∀ c ∈ seen s.toList, (decide (c ≠ '>')) = true := by
    intro c hc
    rw [decide_eq_true_iff]
    rintro rfl
    exact hs (mem_of_mem_seen hc (by decide))
  have hspan : (seen s.toList ++ '>' :: rest).span (· ≠ '>') = (seen s.toList, '>' :: rest) := by
    rw [span_eq_takeWhile_dropWhile, takeWhile_append_of_pos hall, dropWhile_append_of_pos hall]
    simp
  have hclose : atBoundary ('>' :: rest) = true := atBoundary_ascii (by decide) rest
  have hstart : atBoundary (seen s.toList ++ '>' :: rest) = true := atBoundary_seen fun _ => hclose
  have hslice : sliceBetween (seen s.toList ++ '>' :: rest) (seen s.toList, '>' :: rest) = .ok (s, '>' :: rest) := by
    rw [sliceBetween_seen hstart hclose, String.ofList_toList]
  simp only [readIriRest, bind, StateT.bind, Except.bind, hspan, hslice, peek, head?_cons]
  rfl

theorem literalBody_escaped (s value rest : List Char) :
    literalBody '"' value 0 (seen (escapeLiteral s) ++ '"' :: rest) = .ok (value ++ seen s, rest) := by
  have hend : ∀ value, literalBody '"' value 0 ('"' :: rest) = .ok (value, rest) := fun value => by
    unfold literalBody
    rw [if_pos rfl]
  rw [body_escapeLiteral (fun value rest => literalBody '"' value 0 rest) (fun c value rest hquote hbackslash => ?_)
    (fun d value rest hu _ => ?_), hend]
  · conv_lhs => unfold literalBody
    rw [if_neg hquote, if_neg hbackslash]
  · conv_lhs => unfold literalBody
    rw [if_neg (by decide), if_pos rfl]
    dsimp only
    rw [if_neg hu]

/-- A tag is read up to what separates. -/
theorem readTag_append (htag : ∀ s ∈ tag, TagText s) (hrest : Apart rest) :
    readTag (seen (formatTag tag) ++ rest) = .ok (tag, rest) := by
  cases tag with
  | none =>
    change readTag rest = .ok (none, rest)
    unfold readTag
    split
    · exact absurd rfl (separates_spec (hrest _ rfl)).2.2.2.1
    · exact absurd rfl (separates_spec (hrest _ rfl)).2.2.2.2
    · rfl
  | some tag =>
    have htag' := htag tag rfl
    unfold TagText at htag'
    split at htag'
    · rename_i lang hlang
      have htext : seen (formatTag (some tag)) = '@' :: lang := seen_language hlang htag'
      have hallowed := language_allowed htag'
      have hstop : Until (fun c => isAlphanumeric c || c = '-') rest := by
        intro c hc
        obtain ⟨-, halnum, hminus, -⟩ := separates_spec (hrest c hc)
        simp [halnum, hminus]
      rw [htext, cons_append]
      simp only [readTag, span_eq_takeWhile_dropWhile, takeWhile_append hallowed hstop,
        dropWhile_append hallowed hstop]
      rw [← hlang, String.ofList_toList]
    · rename_i hat
      have hiri : '>' ∉ tag.toList := fun hmem => (htag' _ hmem).1 rfl
      rw [formatTag_datatype hat, seen_cons (by decide), seen_cons (by decide), seen_formatIri]
      have hread := readIriRest_append hiri rest
      simp only [cons_append, append_assoc, List.nil_append, readTag, readIri, Functor.map,
        StateT.map, bind, StateT.bind, Except.bind, bump, tail_cons, hread]
      rfl

/-- **A literal is read as the cursor sees it.** -/
theorem readLiteral_append (value : String) (htag : ∀ s ∈ tag, TagText s) (hrest : Apart rest) :
    readLiteral '"' (seen (escapeLiteral value.toList) ++ '"' :: (seen (formatTag tag) ++ rest)) =
      .ok (.literal (String.ofList (seen value.toList)) tag, rest) := by
  have hbody := literalBody_escaped value.toList [] (seen (formatTag tag) ++ rest)
  simp only [readLiteral, bind, StateT.bind, Except.bind, hbody, readTag_append htag hrest, List.nil_append]
  rfl

/-! ### Tokens -/

theorem symbol_ne (h : symbol c = some t) : c ∈ ['\x7b', '\x7d', '(', ')', '.', ';', ',', '*', '='] ∧
      t ∈ [.lBrace, .rBrace, .lParen, .rParen, .dot, .semi, .comma, .star, .eq] := by
  unfold symbol at h
  split at h
  all_goals first | (cases h; decide) | cases h

/-- A character of names begins a label, a number or a word. -/
theorem readToken_of_isNameChar (hc : isNameChar c = true) (hdot : c ≠ '.') (rest : List Char) :
    readToken c rest = if c = '_' && rest.head? = some ':' then (.blankNode <$> readName) rest.tail
      else if c.isDigit || (c = '-' && rest.head?.any Char.isDigit) then (.number <$> readNumber) (c :: rest)
      else if isAlphabetic c || c = ':' then (classify <$> readName) (c :: rest)
      else .error (.syntaxErr (.unexpectedChar c)) := by
  have hne : ∀ d, isNameChar d = false → c ≠ d := fun d hd heq => by
    rw [heq, hd] at hc
    cases hc
  have hsymbol : symbol c = none := by
    cases hsymbol : symbol c with
    | none => rfl
    | some t =>
      have hmem := (symbol_ne hsymbol).1
      simp [hne '\x7b' (by decide), hne '\x7d' (by decide), hne '(' (by decide), hne ')' (by decide), hdot,
        hne ';' (by decide), hne ',' (by decide), hne '*' (by decide), hne '=' (by decide)] at hmem
  rw [readToken, hsymbol]
  dsimp only
  rw [if_neg (by simp [hne '?' (by decide), hne '$' (by decide)]), if_neg (hne '<' (by decide)),
    if_neg (hne '>' (by decide)), if_neg (hne '!' (by decide)),
    if_neg (by simp [hne '"' (by decide), hne '\'' (by decide)])]

theorem isAlpha_of_toUpper (h : c.toUpper.isAlpha = true) : c.isAlpha = true := by
  unfold Char.toUpper at h
  split at h
  · rename_i hlower
    have hletters : c.isAlpha = (c.isUpper || decide (c.val ≥ 97) && decide (c.val ≤ 122)) := rfl
    rw [hletters, or_eq_true, and_eq_true, decide_eq_true_iff, decide_eq_true_iff]
    exact Or.inr hlower
  · exact h

/-- The letters of a keyword. -/
theorem isAlpha_of_keyword (ht : keyword t = some kw) (hword : word.map Char.toUpper = kw.toList) :
    word ≠ [] ∧ ∀ c ∈ word, c.isAlpha = true := by
  have hkw : kw.toList ≠ [] ∧ ∀ c ∈ kw.toList, c.isAlpha = true := by
    cases t <;> cases ht <;> decide
  rw [← hword] at hkw
  refine ⟨fun hnil => hkw.1 (by rw [hnil]; rfl), fun c hc => ?_⟩
  exact isAlpha_of_toUpper (hkw.2 _ (mem_map_of_mem hc))

theorem classify_keyword (ht : keyword t = some kw) (hword : word.map Char.toUpper = kw.toList) :
    classify (String.ofList word) = t := by
  unfold classify
  rw [String.toList_ofList, hword]
  cases t <;> cases ht <;> rfl

theorem ascii_of_isAlpha (h : c.isAlpha = true) : Utf8.Ascii c := by
  rw [isAlpha_iff] at h
  rw [Utf8.Ascii]
  omega

theorem isAlpha_spec (h : c.isAlpha = true) : isNameChar c = true ∧ c ≠ '.' ∧ c ≠ '_' ∧ c ≠ '-' ∧
    c.isDigit = false ∧ isAlphabetic c = true := by
  have hletter : isAlphabetic c = true := by simp [isAlphabetic, h]
  have hne (d : Char) (hd : d.isAlpha = false) : c ≠ d := fun heq => by
    rw [heq, hd] at h
    cases h
  have hdigit : c.isDigit = false := by
    by_contra hdigit
    rw [Bool.not_eq_false, Char.isDigit_iff_toNat] at hdigit
    have hle : c.toNat ≤ 57 := hdigit.2
    rw [isAlpha_iff] at h
    omega
  exact ⟨by simp [isNameChar, isAlphanumeric, hletter], hne '.' rfl, hne '_' rfl, hne '-' rfl, hdigit, hletter⟩

/-- A word of letters is read up to what separates. -/
theorem readToken_keyword (ht : keyword t = some kw) (hword : (c :: word).map Char.toUpper = kw.toList)
    (hrest : Apart rest) (hdot : rest.head? ≠ some '.') :
    readToken c (word ++ rest) = .ok (t, rest) := by
  have halpha := (isAlpha_of_keyword ht hword).2
  obtain ⟨hchar, hpoint, hunderscore, hminus, hdigit, halphabetic⟩ := isAlpha_spec (halpha c mem_cons_self)
  have hspan : nameSpan (c :: word ++ rest) = (c :: word, rest) :=
    nameSpan_append (fun d hd => ⟨(isAlpha_spec (halpha d hd)).1, (isAlpha_spec (halpha d hd)).2.1⟩)
      (nameSpan_of_apart hrest fun heq => absurd heq hdot)
  have hseen : seen (c :: word) = c :: word := seen_eq_self.mpr fun d hd => ascii_of_isAlpha (halpha d hd)
  have hread : readName (c :: (word ++ rest)) = .ok (String.ofList (c :: word), rest) := by
    have hstart : atBoundary (c :: word ++ rest) = true :=
      atBoundary_ascii (ascii_of_isAlpha (halpha c mem_cons_self)) _
    have hslice : sliceBetween (c :: word ++ rest) (seen (c :: word), rest) = .ok (String.ofList (c :: word), rest) :=
      sliceBetween_seen hstart (atBoundary_of_apart hrest)
    rw [hseen, ← hspan] at hslice
    exact hslice
  rw [readToken_of_isNameChar hchar hpoint, if_neg (by simp [hunderscore]), if_neg (by simp [hdigit, hminus]),
    if_pos (by simp [halphabetic])]
  simp only [Functor.map, StateT.map, bind, Except.bind, hread, classify_keyword ht hword]
  rfl

theorem NumberText.ascii (h : NumberText n sign whole fraction exponent) : ∀ c ∈ n, Utf8.Ascii c := by
  have hwhole : ∀ c ∈ whole, Utf8.Ascii c := fun c hc => Utf8.isDigit_ascii (h.whole c hc)
  have hsign : ∀ c ∈ sign, Utf8.Ascii c := by rcases h.sign with rfl | rfl <;> decide
  have hfraction : ∀ c ∈ fraction, Utf8.Ascii c := by
    rcases h.fraction with rfl | ⟨ds, rfl, -, hds⟩
    · nofun
    · exact forall_mem_cons.mpr ⟨by decide, fun c hc => Utf8.isDigit_ascii (hds c hc)⟩
  have hexponent : ∀ c ∈ exponent, Utf8.Ascii c := by
    rcases h.exponent with rfl | ⟨e, s, ds, rfl, he, hs, -, hds⟩
    · nofun
    · have hsign : ∀ c ∈ s, Utf8.Ascii c := by rcases hs with rfl | rfl | rfl <;> decide
      refine forall_mem_cons.mpr ⟨by rcases he with rfl | rfl <;> decide, fun c hc => ?_⟩
      rcases mem_append.mp hc with hc | hc
      · exact hsign c hc
      · exact Utf8.isDigit_ascii (hds c hc)
  intro c hc
  rw [h.text, mem_append, mem_append, mem_append] at hc
  rcases hc with hc | hc | hc | hc
  · exact hsign c hc
  · exact hwhole c hc
  · exact hfraction c hc
  · exact hexponent c hc

/-- A number begins with a digit, or with its sign and a digit. -/
theorem NumberText.head (h : NumberText n sign whole fraction exponent) :
    ∃ c u, n = c :: u ∧ (c.isDigit = true ∨ c = '-' ∧ ∃ d v, u = d :: v ∧ d.isDigit = true) := by
  obtain ⟨d, ds, hwhole⟩ := exists_cons_of_ne_nil h.whole_ne
  have hdigit : d.isDigit = true := h.whole d (hwhole ▸ mem_cons_self)
  have htext := h.text
  rw [hwhole] at htext
  rcases h.sign with rfl | rfl
  · exact ⟨d, _, htext, Or.inl hdigit⟩
  · exact ⟨'-', _, htext, Or.inr ⟨rfl, d, _, rfl, hdigit⟩⟩

theorem isDigit_spec (h : c.isDigit = true) : isNameChar c = true ∧ c ≠ '.' ∧ c ≠ '_' := by
  have hne (d : Char) (hd : d.isDigit = false) : c ≠ d := fun heq => by
    rw [heq, hd] at h
    cases h
  exact ⟨by simp [isNameChar, isAlphanumeric, isNumeric, h], hne '.' rfl, hne '_' rfl⟩

/-- A number is read up to what separates. -/
theorem readToken_number (h : NumberText (c :: u) sign whole fraction exponent) (hrest : Apart rest)
    (hdot : rest.head? ≠ some '.') :
    readToken c (u ++ rest) = .ok (.number (String.ofList (c :: u)), rest) := by
  have hseen : seen (c :: u) = c :: u := seen_eq_self.mpr h.ascii
  have hread : readNumber (c :: (u ++ rest)) = .ok (String.ofList (c :: u), rest) := by
    have hstart : atBoundary (c :: u ++ rest) = true := atBoundary_ascii (h.ascii c mem_cons_self) _
    have hslice : sliceBetween (c :: u ++ rest) (seen (c :: u), rest) = .ok (String.ofList (c :: u), rest) :=
      sliceBetween_seen hstart (atBoundary_of_apart hrest)
    rw [hseen, ← signedSpan_append h hrest hdot] at hslice
    exact hslice
  have hfirst : isNameChar c = true ∧ c ≠ '.' ∧ c ≠ '_' ∧
      (c.isDigit || (c = '-' && (u ++ rest).head?.any Char.isDigit)) = true := by
    obtain ⟨c', u', heq, hc⟩ := h.head
    cases heq
    rcases hc with hdigit | ⟨rfl, d, v, rfl, hdigit⟩
    · obtain ⟨hchar, hpoint, hunderscore⟩ := isDigit_spec hdigit
      exact ⟨hchar, hpoint, hunderscore, by simp [hdigit]⟩
    · exact ⟨by decide, by decide, by decide, by simp [hdigit]⟩
  obtain ⟨hchar, hpoint, hunderscore, hnumber⟩ := hfirst
  rw [readToken_of_isNameChar hchar hpoint, if_neg (by simp [hunderscore]), if_pos hnumber]
  simp only [Functor.map, StateT.map, bind, Except.bind, hread]
  rfl

/-- A bracket in front of the start of an IRI. -/
theorem readLess_start {n : Char} (h : isIriStart n = true) (rest : List Char) :
    readLess (n :: rest) = (.iri <$> readIriRest) (n :: rest) := by
  have hne : n ≠ '=' := by
    rintro rfl
    cases h
  unfold readLess
  split
  · rename_i heq
    exact absurd (List.cons.inj heq).1 hne
  · rename_i heq
    cases heq
    rw [if_pos h]
    rfl
  · rename_i heq
    cases heq

theorem readLess_other {n : Char} (hne : n ≠ '=') (h : isIriStart n = false) (rest : List Char) :
    readLess (n :: rest) = .ok (.lt, n :: rest) := by
  unfold readLess
  split
  · rename_i heq
    exact absurd (List.cons.inj heq).1 hne
  · rename_i heq
    cases heq
    rw [if_neg (by simp [h])]
  · rename_i heq
    cases heq

/-- **A text of a token is read as the token if the token allows it.** -/
theorem readToken_of_reads (h : Spells t text) (hstops : Stops t rest) (hreads : Reads t rest)
    (hseen : seen text = c :: u) :
    readToken c (u ++ rest) = .ok (t, rest) := by
  have hself : ∀ {l : List Char}, (∀ d ∈ l, Utf8.Ascii d) → seen l = l := fun hl => seen_eq_self.mpr hl
  cases h with
  | @symbol d _ h =>
    have hall : ∀ d ∈ ['\x7b', '\x7d', '(', ')', '.', ';', ',', '*', '='], Utf8.Ascii d := by decide
    have hascii := hall d (symbol_ne h).1
    rw [hself (forall_mem_singleton.mpr hascii)] at hseen
    cases hseen
    rw [readToken, h]
    rfl
  | @keyword _ kw word ht hword =>
    obtain ⟨-, halpha⟩ := isAlpha_of_keyword ht hword
    rw [hself fun d hd => ascii_of_isAlpha (halpha d hd)] at hseen
    subst hseen
    have hapart : Apart rest ∧ rest.head? ≠ some '.' := by cases t <;> cases ht <;> exact hstops
    exact readToken_keyword ht hword hapart.1 hapart.2
  | ne | le | ge =>
    rw [hself (by decide)] at hseen
    cases hseen
    rfl
  | lt =>
    rw [hself (by decide)] at hseen
    cases hseen
    change readLess rest = _
    cases rest with
    | nil => rfl
    | cons n rest => exact readLess_other (fun heq => hstops (by rw [heq]; rfl)) hreads rest
  | gt =>
    rw [hself (by decide)] at hseen
    cases hseen
    have hnot : rest.head? ≠ some '=' := hstops
    change Except.ok (if rest.head? = some '=' then (Token.ge, rest.tail) else (Token.gt, rest)) = _
    rw [if_neg hnot]
  | @var sigil name hs hname =>
    have hread := readName_of_reads hstops hreads
    have hvar : readVar (seen name.toList ++ rest) = .ok (.var name, rest) := by
      simp only [readVar, bind, StateT.bind, Except.bind, hread]
      rw [if_neg hname.1]
      rfl
    rcases hs with rfl | rfl
    · rw [seen_cons (by decide)] at hseen
      cases hseen
      exact hvar
    · rw [seen_cons (by decide)] at hseen
      cases hseen
      exact hvar
  | @iri s hs =>
    rw [seen_formatIri] at hseen
    cases hseen
    have hread := readIriRest_append hs rest
    have hstart : (seen s.toList).head?.any isIriStart = true := hreads
    rw [append_assoc, singleton_append]
    change readLess (seen s.toList ++ '>' :: rest) = _
    cases hiri : seen s.toList with
    | nil =>
      rw [hiri] at hstart
      cases hstart
    | cons n v =>
      rw [hiri] at hstart hread
      rw [cons_append, readLess_start hstart]
      simp only [Functor.map, StateT.map, bind, Except.bind, ← cons_append, hread]
      rfl
  | @literal value tag htag =>
    rw [seen_literal] at hseen
    cases hseen
    have hread := readLiteral_append value htag hstops
    rw [seen_eq_self.mpr hreads, String.ofList_toList] at hread
    rw [append_assoc, cons_append]
    exact hread
  | @number n sign whole fraction exponent hn =>
    rw [hself hn.ascii] at hseen
    rw [hseen] at hn
    have hread := readToken_number hn hstops.1 hstops.2
    rwa [← hseen, String.ofList_toList] at hread

/-- **A text of a token that does not allow it is read as one that the parser can tell apart.** -/
theorem mistaken_of_readToken {t' : Token} (h : Spells t text) (hstops : Stops t rest) (hreads : ¬Reads t rest)
    (hrest : ∀ c ∈ rest, c.toNat < 256) (hseen : seen text = c :: u)
    (hread : readToken c (u ++ rest) = .ok (t', after)) : Mistaken t t' := by
  cases h with
  | symbol h =>
    exfalso
    have hall : ∀ t ∈ [Token.lBrace, .rBrace, .lParen, .rParen, .dot, .semi, .comma, .star, .eq], Reads t rest := by
      simp [Reads]
    exact hreads (hall t (symbol_ne h).2)
  | keyword ht _ =>
    exfalso
    cases t <;> cases ht <;> exact hreads trivial
  | ne | gt | le | ge | number hn => exact absurd trivial hreads
  | lt =>
    rw [seen_eq_self.mpr (by decide)] at hseen
    cases hseen
    have hless : readLess rest = .ok (t', after) := hread
    cases rest with
    | nil => exact absurd rfl hreads
    | cons n rest =>
      have hstart : isIriStart n = true := Bool.not_eq_false _ ▸ hreads
      rw [readLess_start hstart] at hless
      obtain ⟨s, -, rfl⟩ := map_eq_ok.mp hless
      exact Mistaken.lt
  | @var sigil name hs hname =>
    have hvar : readVar (seen name.toList ++ rest) = .ok (t', after) := by
      rcases hs with rfl | rfl
      · rw [seen_cons (by decide)] at hseen
        cases hseen
        exact hread
      · rw [seen_cons (by decide)] at hseen
        cases hseen
        exact hread
    obtain ⟨name', mid, hname', hvar⟩ := bind_eq_ok.mp hvar
    split at hvar
    · cases hvar
    · cases hvar
      refine Mistaken.var fun heq => hreads ?_
      rw [heq] at hname'
      exact reads_of_readName hname hrest hname'
  | @iri s hs =>
    rw [seen_formatIri] at hseen
    cases hseen
    rw [append_assoc, singleton_append] at hread
    have hless : readLess (seen s.toList ++ '>' :: rest) = .ok (t', after) := hread
    obtain ⟨n, v, hcons, hstart⟩ : ∃ n v, seen s.toList ++ '>' :: rest = n :: v ∧ isIriStart n = false := by
      have hnot : ¬(seen s.toList).head?.any isIriStart = true := hreads
      cases hiri : seen s.toList with
      | nil => exact ⟨'>', rest, rfl, rfl⟩
      | cons n v =>
        rw [hiri] at hnot
        exact ⟨n, _, rfl, not_eq_true _ ▸ hnot⟩
    rw [hcons] at hless
    by_cases heq : n = '='
    · subst heq
      cases hless
      exact Mistaken.iri (Or.inr rfl)
    · rw [readLess_other heq hstart] at hless
      cases hless
      exact Mistaken.iri (Or.inl rfl)
  | @literal value tag htag =>
    rw [seen_literal] at hseen
    cases hseen
    rw [append_assoc, cons_append] at hread
    have hliteral := readLiteral_append value htag hstops
    have hsame : Except.ok (t', after) = Except.ok (Token.literal (String.ofList (seen value.toList)) tag, rest) :=
      hread.symm.trans hliteral
    cases hsame
    refine Mistaken.literal fun heq => hreads (seen_eq_self.mp ?_)
    have hlist := congrArg String.toList heq
    rwa [String.toList_ofList] at hlist

/-- Punctuation and operators. -/
def isSymbol : Token → Bool
  | .lBrace | .rBrace | .lParen | .rParen | .dot | .semi | .comma | .star
  | .eq | .ne | .lt | .gt | .le | .ge => true
  | _ => false

/-- The first character of a text of a token. -/
theorem spells_head (h : Spells t text) : ∃ c u, text = c :: u ∧ Utf8.Ascii c ∧
    isWhitespace c = false ∧ c ≠ '#' ∧ (isSymbol t = true → separates c = true) ∧ (c = '.' → t = .dot) ∧
    (c = '=' → t = .eq) := by
  cases h with
  | @symbol c _ h =>
    refine ⟨c, [], rfl, ?_⟩
    have hall : ∀ c ∈ ['\x7b', '\x7d', '(', ')', '.', ';', ',', '*', '='], Utf8.Ascii c ∧
        isWhitespace c = false ∧ c ≠ '#' ∧ separates c = true ∧ (c = '.' → symbol c = some .dot) ∧
          (c = '=' → symbol c = some .eq) := by
      decide
    obtain ⟨hascii, hblank, hhash, hsep, hdot, heq⟩ := hall c (symbol_ne h).1
    rw [h, Option.some.injEq] at hdot heq
    exact ⟨hascii, hblank, hhash, fun _ => hsep, hdot, heq⟩
  | @keyword _ kw word ht hword =>
    obtain ⟨hne, halpha⟩ := isAlpha_of_keyword ht hword
    obtain ⟨c, u, rfl⟩ := exists_cons_of_ne_nil hne
    have hc := halpha c mem_cons_self
    have hspec : ∀ n < 128, (Char.ofNat n).isAlpha = true → isWhitespace (Char.ofNat n) = false ∧
        Char.ofNat n ≠ '#' ∧ Char.ofNat n ≠ '.' ∧ Char.ofNat n ≠ '=' := by
      decide
    obtain ⟨hblank, hhash, hdot, heq⟩ := Utf8.ofNat_ascii (P := fun c => c.isAlpha = true → isWhitespace c = false ∧
      c ≠ '#' ∧ c ≠ '.' ∧ c ≠ '=') hspec (ascii_of_isAlpha hc) hc
    refine ⟨c, u, rfl, ascii_of_isAlpha hc, hblank, hhash, ?_, fun h => absurd h hdot, fun h => absurd h heq⟩
    cases t <;> cases ht <;> nofun
  | ne => exact ⟨'!', _, rfl, by decide⟩
  | lt | le => exact ⟨'<', _, rfl, by decide⟩
  | gt | ge => exact ⟨'>', _, rfl, by decide⟩
  | @var sigil name hs _ =>
    refine ⟨sigil, _, rfl, ?_⟩
    rcases hs with rfl | rfl <;> exact ⟨by decide, by decide, by decide, nofun, nofun, nofun⟩
  | iri _ => exact ⟨'<', _, rfl, by decide, by decide, by decide, nofun, nofun, nofun⟩
  | literal _ => exact ⟨'"', _, rfl, by decide, by decide, by decide, nofun, nofun, nofun⟩
  | @number n _ _ _ _ hn =>
    obtain ⟨c, u, htext, hc⟩ := hn.head
    refine ⟨c, u, htext, hn.ascii c (htext ▸ mem_cons_self), ?_⟩
    have hdigit : ∀ n < 128, (Char.ofNat n).isDigit = true ∨ Char.ofNat n = '-' → isWhitespace (Char.ofNat n) = false ∧
        Char.ofNat n ≠ '#' ∧ Char.ofNat n ≠ '.' ∧ Char.ofNat n ≠ '=' := by
      decide
    obtain ⟨hblank, hhash, hdot, heq⟩ := Utf8.ofNat_ascii (P := fun c => c.isDigit = true ∨ c = '-' →
      isWhitespace c = false ∧ c ≠ '#' ∧ c ≠ '.' ∧ c ≠ '=') hdigit (hn.ascii c (htext ▸ mem_cons_self))
      (hc.imp_right And.left)
    exact ⟨hblank, hhash, nofun, fun h => absurd h hdot, fun h => absurd h heq⟩

end Tokenizer

end CenDB.Rdf
