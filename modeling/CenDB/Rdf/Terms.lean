import CenDB.Rdf.Serialize

/-! # Printed terms

An IRI is read back as it is.  A literal is read back as the cursor sees it, and so is a label, up to the
first character that ends one (`takes_parseLiteral`, `takes_parseBlankNode`).  A label that comes back
right is ASCII (`ascii_of_label`). -/

namespace CenDB.Rdf

open Text Reader List

/-! ### Terms that are printed -/

/-- An IRI without closing brackets and backslashes. -/
def IriText (s : String) : Prop := ∀ c ∈ s.toList, c ≠ '>' ∧ c ≠ '\\'

/-- A character of names: a letter, a digit, a hyphen, an underscore or a colon; of those above U+00A0 any. -/
def NameChar (c : Char) : Prop := c.isAlphanum = true ∨ c = '-' ∨ c = '_' ∨ c = ':' ∨ 0xA0 < c.toNat

/-- A language tag of letters, digits and hyphens after an `@`, or a datatype IRI. -/
def TagText (tag : String) : Prop :=
  match tag.toList with
  | '@' :: lang => ∀ c ∈ lang, c.isAlphanum = true ∨ c = '-'
  | _ => IriText tag

def RdfTerm.Printable : RdfTerm → Prop
  | .uri s => IriText s
  | .blankNode label => ∀ c ∈ label.toList, NameChar c
  | .literal _ none => True
  | .literal _ (some tag) => TagText tag

/-- The labels and the literals are ASCII. -/
def RdfTerm.Ascii : RdfTerm → Prop
  | .uri _ => True
  | .blankNode label => ∀ c ∈ label.toList, Utf8.Ascii c
  | .literal value _ => ∀ c ∈ value.toList, Utf8.Ascii c

/-- What follows begins with a space. -/
def Spaced (rest : List Char) : Prop := rest.head? = some ' '

theorem spaced_cons (rest : List Char) : Spaced (' ' :: rest) := rfl

/-! ### IRIs -/

theorem iriBody_append {l : List Char} (hl : ∀ c ∈ l, c ≠ '>' ∧ c ≠ '\\') (rest : List Char) :
    iriBody (l ++ '>' :: rest) = (l, '>' :: rest) := by
  induction l with
  | nil =>
    unfold iriBody
    simp
  | cons c l ih =>
    rw [forall_mem_cons] at hl
    rw [cons_append]
    unfold iriBody
    rw [if_neg hl.1.1, if_neg hl.1.2, ih hl.2]
    rfl

theorem seen_formatIri (s : List Char) : seen (formatIri s) = '<' :: (seen s ++ ['>']) := by
  have hclose : seen ['>'] = ['>'] := seen_eq_self.mpr (by decide)
  rw [formatIri, seen_cons (by decide), seen_append, hclose]

theorem takes_expectChar (c : Char) : Takes (expectChar c) Any [c] () := fun rest _ => by simp [expectChar]

theorem takes_parseIri {s : String} (hs : IriText s) : Takes parseIri Any (seen (formatIri s.toList)) s := by
  intro rest _
  have hseen : ∀ c ∈ seen s.toList, c ≠ '>' ∧ c ≠ '\\' := by
    refine fun c hc => ⟨?_, ?_⟩
    · rintro rfl
      exact (hs _ (mem_of_mem_seen hc (by decide))).1 rfl
    · rintro rfl
      exact (hs _ (mem_of_mem_seen hc (by decide))).2 rfl
  have hbody := iriBody_append hseen rest
  rw [seen_formatIri, cons_append, append_assoc]
  simp only [parseIri, bind, StateT.bind, Except.bind, expectChar, if_true, singleton_append, hbody]
  rw [slice_seen, String.ofList_toList]
  rfl

/-! ### Literals -/

/-- A character is escaped by a letter that stands for it, or printed as it is. -/
theorem escapeChar_cases (c : Char) :
    (∃ d, escapeChar c = ['\\', d] ∧ literalEscape d = [c] ∧ d ≠ 'u' ∧ d ≠ 'U' ∧ Utf8.Ascii c ∧ Utf8.Ascii d) ∨
      c ≠ '"' ∧ c ≠ '\\' ∧ escapeChar c = [c] := by
  unfold escapeChar
  split_ifs with hquote hbackslash hn hr ht
  · exact Or.inl ⟨'"', by rw [hquote]; decide⟩
  · exact Or.inl ⟨'\\', by rw [hbackslash]; decide⟩
  · exact Or.inl ⟨'n', by rw [hn]; decide⟩
  · exact Or.inl ⟨'r', by rw [hr]; decide⟩
  · exact Or.inl ⟨'t', by rw [ht]; decide⟩
  · exact Or.inr ⟨hquote, hbackslash, rfl⟩

section escaped

variable {α : Type} (body : List Char → List Char → α)

theorem body_append (hplain : ∀ c value rest, c ≠ '"' → c ≠ '\\' → body value (c :: rest) = body (value ++ [c]) rest)
    {l : List Char} (hl : ∀ c ∈ l, c ≠ '"' ∧ c ≠ '\\') (value rest : List Char) :
    body value (l ++ rest) = body (value ++ l) rest := by
  induction l generalizing value with
  | nil => rw [List.nil_append, append_nil]
  | cons c l ih =>
    rw [forall_mem_cons] at hl
    rw [cons_append, hplain c value _ hl.1.1 hl.1.2, ih hl.2, append_assoc, singleton_append]

/-- **A reader that undoes the escapes reads the text as the cursor sees it.** -/
theorem body_escapeLiteral
    (hplain : ∀ c value rest, c ≠ '"' → c ≠ '\\' → body value (c :: rest) = body (value ++ [c]) rest)
    (hescape : ∀ d value rest, d ≠ 'u' → d ≠ 'U' →
      body value ('\\' :: d :: rest) = body (value ++ literalEscape d) rest) (s value rest : List Char) :
    body value (seen (escapeLiteral s) ++ rest) = body (value ++ seen s) rest := by
  induction s generalizing value with
  | nil =>
    change body value rest = body (value ++ []) rest
    rw [append_nil]
  | cons c s ih =>
    have hchar : body value (seen (escapeChar c) ++ (seen (escapeLiteral s) ++ rest)) =
        body (value ++ seen [c]) (seen (escapeLiteral s) ++ rest) := by
      rcases escapeChar_cases c with ⟨d, htext, hvalue, hu, hU, hc, hd⟩ | ⟨hquote, hbackslash, htext⟩
      · have hseen : seen ['\\', d] = ['\\', d] :=
          seen_eq_self.mpr (forall_mem_cons.mpr ⟨by decide, forall_mem_singleton.mpr hd⟩)
        have hself : seen [c] = [c] := seen_eq_self.mpr (forall_mem_singleton.mpr hc)
        rw [htext, hseen, hself, ← hvalue]
        exact hescape d value _ hu hU
      · rw [htext]
        refine body_append body hplain (fun d hd => ⟨?_, ?_⟩) value _
        · rintro rfl
          exact hquote (mem_singleton.mp (mem_of_mem_seen hd (by decide))).symm
        · rintro rfl
          exact hbackslash (mem_singleton.mp (mem_of_mem_seen hd (by decide))).symm
    rw [escapeLiteral, flatMap_cons, seen_append, append_assoc, ← escapeLiteral, hchar, ih,
      append_assoc, ← seen_append]
    rfl

end escaped

/-- **The text of a literal is read as the cursor sees it.** -/
theorem literalBody_escapeLiteral (s value rest : List Char) :
    literalBody '"' value 0 (seen (escapeLiteral s) ++ '"' :: rest) = .ok (value ++ seen s, rest) := by
  have hend : ∀ value, literalBody '"' value 0 ('"' :: rest) = .ok (value, rest) := fun value => by
    unfold literalBody
    rw [if_pos rfl]
  rw [body_escapeLiteral (fun value rest => literalBody '"' value 0 rest) (fun c value rest hquote hbackslash => ?_)
    (fun d value rest hu hU => ?_), hend]
  · conv_lhs => unfold literalBody
    rw [if_neg hquote, if_neg hbackslash]
  · conv_lhs => unfold literalBody
    rw [if_neg (by decide), if_pos rfl]
    dsimp only
    rw [if_neg hu, if_neg hU]

variable {c : Char}

theorem isAlpha_iff : c.isAlpha = true ↔ (65 ≤ c.toNat ∧ c.toNat ≤ 90) ∨ (97 ≤ c.toNat ∧ c.toNat ≤ 122) := by
  have hranges : c.isAlpha = (decide (c.val ≥ 65 ∧ c.val ≤ 90) || decide (c.val ≥ 97) && decide (c.val ≤ 122)) := rfl
  simp only [hranges, Bool.or_eq_true, Bool.and_eq_true, decide_eq_true_eq, ge_iff_le,
    UInt32.le_iff_toNat_le]
  rfl

theorem isAlphanum_iff : c.isAlphanum = true ↔
    (65 ≤ c.toNat ∧ c.toNat ≤ 90) ∨ (97 ≤ c.toNat ∧ c.toNat ≤ 122) ∨ (48 ≤ c.toNat ∧ c.toNat ≤ 57) := by
  rw [Char.isAlphanum, Bool.or_eq_true, isAlpha_iff, Char.isDigit_iff_toNat, or_assoc]
  rfl

/-! ### Tags -/

theorem isAlphanumeric_of_isAlphanum (hc : c.isAlphanum = true) : isAlphanumeric c = true := by
  rw [Char.isAlphanum, Bool.or_eq_true] at hc
  rw [isAlphanumeric, isAlphabetic, isNumeric]
  rcases hc with hc | hc
  · rw [hc]
    rfl
  · rw [hc]
    simp

variable {tag : String} {lang : List Char} {t : RdfTerm}

theorem formatTag_datatype (htag : ∀ lang, tag.toList ≠ '@' :: lang) :
    formatTag (some tag) = '^' :: '^' :: formatIri tag.toList := by simp [formatTag]

theorem seen_language (htag : tag.toList = '@' :: lang) (hlang : ∀ c ∈ lang, c.isAlphanum = true ∨ c = '-') :
    seen (formatTag (some tag)) = '@' :: lang := by
  have hascii : ∀ c ∈ lang, Utf8.Ascii c := by
    intro c hc
    rcases hlang c hc with hc | rfl
    · rw [isAlphanum_iff] at hc
      rw [Utf8.Ascii]
      omega
    · decide
  unfold formatTag
  dsimp only
  rw [htag]
  change seen ('@' :: lang) = '@' :: lang
  rw [seen_cons (by decide), seen_eq_self.mpr hascii]

/-- The characters of a language tag belong to it. -/
theorem language_allowed (hlang : ∀ c ∈ lang, c.isAlphanum = true ∨ c = '-') :
    ∀ c ∈ lang, (isAlphanumeric c || c = '-') = true := by
  intro c hc
  rcases hlang c hc with hc | rfl
  · rw [isAlphanumeric_of_isAlphanum hc]
    rfl
  · rfl

theorem takes_parseLanguage (htag : tag.toList = '@' :: lang)
    (hlang : ∀ c ∈ lang, c.isAlphanum = true ∨ c = '-') :
    Takes parseTag Spaced (seen (formatTag (some tag))) (some tag) := by
  have hspace : ∀ rest, Spaced rest → Until (fun c => isAlphanumeric c || c = '-') rest := by
    intro rest hrest
    obtain ⟨t, rfl⟩ := head?_eq_some_iff.mp hrest
    exact until_cons.mpr (by decide)
  have hvalue : some tag = some (String.ofList ('@' :: lang)) := by rw [← htag, String.ofList_toList]
  rw [seen_language htag hlang, hvalue]
  exact takes_peek ((takes_bump '@').andThen
    (((takes_takeWhile (language_allowed hlang)).mono hspace).bind_pure _))

theorem takes_parseTag {tag : Option String} (htag : ∀ t ∈ tag, TagText t) :
    Takes parseTag Spaced (seen (formatTag tag)) tag := by
  cases tag with
  | none =>
    intro rest hrest
    obtain ⟨t, rfl⟩ := head?_eq_some_iff.mp hrest
    rfl
  | some tag =>
    have htag' := htag tag rfl
    unfold TagText at htag'
    split at htag'
    · rename_i lang hlang
      exact takes_parseLanguage hlang htag'
    · rename_i hat
      rw [formatTag_datatype hat, seen_cons (by decide), seen_cons (by decide)]
      refine takes_peek ((takes_bump '^').andThen ((takes_expectChar '^').andThen ?_))
      exact ((takes_parseIri htag').bind_pure some).mono fun _ _ => trivial

/-! ### Terms -/

theorem seen_literal (value : String) (tag : Option String) : seen (formatTerm (.literal value tag)) =
      '"' :: (seen (escapeLiteral value.toList) ++ '"' :: seen (formatTag tag)) := by
  rw [formatTerm, seen_cons (by decide), seen_append, seen_cons (by decide)]

/-- **A literal is read as the cursor sees it.** -/
theorem takes_parseLiteral (value : String) {tag : Option String} (htag : ∀ t ∈ tag, TagText t) :
    Takes parseLiteral Spaced (seen (formatTerm (.literal value tag)))
      (.literal (String.ofList (seen value.toList)) tag) := by
  intro rest hrest
  have hbody := literalBody_escapeLiteral value.toList [] (seen (formatTag tag) ++ rest)
  have htagRead := takes_parseTag htag rest hrest
  rw [seen_literal, cons_append, append_assoc, cons_append]
  simp only [parseLiteral, bind, StateT.bind, Except.bind, parseQuoted, hbody, htagRead, List.nil_append]
  rfl

theorem not_endsLocal (hname : NameChar c) (hascii : Utf8.Ascii c) : endsLocal c = false := by
  rcases hname with hc | rfl | rfl | rfl | hc
  · have hne : ∀ d : Char, d.isAlphanum = false → c ≠ d := fun d hd heq => by
      rw [← heq, hc] at hd
      cases hd
    have hblank : isWhitespace c = false := by
      rw [isAlphanum_iff] at hc
      unfold isWhitespace
      simp
      omega
    rw [endsLocal, hblank]
    simp [hne '.' rfl, hne ';' rfl, hne ',' rfl, hne ')' rfl, hne '(' rfl]
  · rfl
  · rfl
  · rfl
  · rw [Utf8.Ascii] at hascii
    omega

/-- The name that is read of a label. -/
theorem takes_parseBlankNode {label : String} (hname : ∀ c ∈ label.toList, NameChar c)
    (hascii : ∀ c ∈ label.toList, Utf8.Ascii c) :
    Takes parseBlankNode Spaced (seen (formatTerm (.blankNode label))) (.blankNode label) := by
  have hlocal : ∀ c ∈ label.toList, (!endsLocal c) = true := fun c hc => by
    rw [not_endsLocal (hname c hc) (hascii c hc)]
    rfl
  have hspace : ∀ rest, Spaced rest → Until (fun c => !endsLocal c) rest := by
    intro rest hrest
    obtain ⟨t, rfl⟩ := head?_eq_some_iff.mp hrest
    exact until_cons.mpr rfl
  rw [formatTerm, seen_cons (by decide), seen_cons (by decide), seen_eq_self.mpr hascii]
  refine (takes_expectChar '_').andThen ((takes_expectChar ':').andThen ?_)
  have hread := ((takes_takeWhile (ε := SyntaxError) hlocal).mono hspace).bind_pure
    fun label => RdfTerm.blankNode (String.ofList label)
  rw [String.ofList_toList] at hread
  exact hread

/-! ### Labels outside ASCII -/

/-- The only character of one byte that is its own first byte is followed by no character of names. -/
theorem nameChar_bytes : ∀ n < 256, 128 ≤ n → (seen [Char.ofNat n]).head? = some (Char.ofNat n) →
      seen [Char.ofNat n] = [Char.ofNat n, Char.ofNat 0x83] := by
  set_option maxRecDepth 8000 in decide

theorem one_lt_length_seen (hc : ¬Utf8.Ascii c) : 1 < (seen [c]).length := by
  rw [seen, Utf8.encode_cons, Utf8.latin1, length_map, length_append]
  have hlong := Utf8.one_lt_length_encodeChar hc
  omega

/-- The cursor sees characters below U+0100. -/
theorem lt_of_mem_seen {text : List Char} (hc : c ∈ seen text) : c.toNat < 256 := by
  obtain ⟨b, -, rfl⟩ := List.mem_map.mp hc
  rw [Utf8.toNat_ofNat_byte]
  exact b.toNat_lt

/-- **A label that is read as it is has only ASCII characters.** -/
theorem ascii_of_label {label rest : List Char} (hname : ∀ c ∈ label, NameChar c)
    (hread : (seen label ++ rest).takeWhile (fun c => !endsLocal c) = label) : ∀ c ∈ label, Utf8.Ascii c := by
  induction label with
  | nil => nofun
  | cons c label ih =>
    rw [forall_mem_cons] at hname
    by_cases hc : Utf8.Ascii c
    · rw [seen_cons hc, cons_append, takeWhile_cons_of_pos (by simp [not_endsLocal hname.1 hc]),
        cons_inj_right] at hread
      exact forall_mem_cons.mpr ⟨hc, ih hname.2 hread⟩
    · -- the first byte would be the character, and the second one would be read as a name character
      exfalso
      obtain ⟨d, e, t, hseen⟩ : ∃ d e t, seen [c] = d :: e :: t := by
        have hlong := one_lt_length_seen hc
        match seen [c], hlong with
        | d :: e :: t, _ => exact ⟨d, e, t, rfl⟩
      have happend : seen (c :: label) = seen [c] ++ seen label := by rw [← seen_append, singleton_append]
      rw [happend, hseen, cons_append, cons_append] at hread
      have hd : d = c ∧ (!endsLocal d) = true := by
        by_cases hends : (!endsLocal d) = true
        · rw [takeWhile_cons_of_pos (p := fun c => !endsLocal c) hends] at hread
          exact ⟨(List.cons.inj hread).1, hends⟩
        · rw [takeWhile_cons_of_neg (p := fun c => !endsLocal c) hends] at hread
          cases hread
      have hbyte : c.toNat < 256 := by
        rw [← hd.1]
        exact lt_of_mem_seen (show d ∈ seen [c] by rw [hseen]; exact mem_cons_self)
      have hself := nameChar_bytes c.toNat hbyte (Nat.le_of_not_lt hc)
      rw [Char.ofNat_toNat, hseen, head?_cons, hd.1] at hself
      obtain ⟨-, htail⟩ := List.cons.inj (hself rfl)
      obtain ⟨rfl, -⟩ := List.cons.inj htail
      have hlocal : (!endsLocal (Char.ofNat 0x83)) = true := by decide
      rw [takeWhile_cons_of_pos (p := fun c => !endsLocal c) hd.2, cons_append, cons_append,
        takeWhile_cons_of_pos (p := fun c => !endsLocal c) hlocal] at hread
      have hlabel := (List.cons.inj hread).2
      have hbad : NameChar (Char.ofNat 0x83) := hname.2 _ (hlabel ▸ mem_cons_self)
      revert hbad
      unfold NameChar
      decide

/-! ### Starts of terms -/

/-- A term begins with a bracket, an underscore or a quote. -/
theorem formatTerm_head (t : RdfTerm) : ∃ c u, formatTerm t = c :: u ∧ (c = '<' ∨ c = '_' ∨ c = '"') := by
  cases t with
  | uri s => exact ⟨_, _, rfl, Or.inl rfl⟩
  | blankNode label => exact ⟨_, _, rfl, Or.inr (Or.inl rfl)⟩
  | literal value tag => exact ⟨_, _, rfl, Or.inr (Or.inr rfl)⟩

theorem seen_formatTerm_head (t : RdfTerm) :
    ∃ c u, seen (formatTerm t) = c :: u ∧ (c = '<' ∨ c = '_' ∨ c = '"') := by
  obtain ⟨c, u, htext, hc⟩ := formatTerm_head t
  refine ⟨c, seen u, ?_, hc⟩
  rw [htext, seen_cons]
  rcases hc with rfl | rfl | rfl <;> decide

/-- Skip to the first character of a term. -/
theorem takes_start {α : Type} {f : Option Char → Parser α} {Q : List Char → Prop} {u : List Char} {a : α}
    (hc : isWhitespace c = false) (h : Takes (f (some c)) Q (c :: u) a) :
    Takes (do skipWs; f (← peek)) Q (c :: u) a := by
  intro rest hrest
  have hskip := skipWhile_cons (ε := SyntaxError) hc (u ++ rest)
  simp only [bind, StateT.bind, Except.bind, cons_append, skipWs, hskip, peek, head?_cons]
  exact h rest hrest

/-- A reader of terms that goes by their first character. -/
theorem takes_byFirst {f : Option Char → Parser RdfTerm} (hiri : f (some '<') = .uri <$> parseIri)
    (hblank : f (some '_') = parseBlankNode) (hliteral : f (some '"') = parseLiteral) (ht : t.Printable)
    (hascii : t.Ascii) :
    Takes (do skipWs; f (← peek)) Spaced (seen (formatTerm t)) t := by
  cases t with
  | uri s =>
    have hread := ((takes_parseIri ht).map RdfTerm.uri).mono (Q := Spaced) fun _ _ => trivial
    rw [← hiri] at hread
    rw [formatTerm, seen_formatIri] at *
    exact takes_start rfl hread
  | blankNode label =>
    have hread := takes_parseBlankNode ht hascii
    rw [← hblank] at hread
    rw [formatTerm, seen_cons (by decide)] at *
    exact takes_start rfl hread
  | literal value tag =>
    have htag : ∀ s ∈ tag, TagText s := by
      intro s hs
      cases tag with
      | none => cases hs
      | some s' =>
        cases hs
        exact ht
    have hread := takes_parseLiteral value htag
    rw [seen_eq_self.mpr hascii, String.ofList_toList, ← hliteral] at hread
    rw [seen_literal] at *
    exact takes_start rfl hread

theorem takes_parseTerm (prefixes : Prefixes) (ht : t.Printable) (hascii : t.Ascii) :
    Takes (parseTerm prefixes) Spaced (seen (formatTerm t)) t := takes_byFirst rfl rfl rfl ht hascii

theorem takes_parseObject (ht : t.Printable) (hascii : t.Ascii) :
    Takes parseObject Spaced (seen (formatTerm t)) t := takes_byFirst rfl rfl rfl ht hascii

end CenDB.Rdf
