import CenDB.Rdf.SparqlSpelling

/-! # Texts of lists of tokens

Tokens are written one behind the other, with white space between them or, next to punctuation and
operators, none (`Written`).  Such a text is read as its tokens if every one of them allows it
(`tokens_of_good`); otherwise what is read goes wrong at the first token that does not
(`differs_of_not_good`). -/

namespace CenDB.Rdf

open Text Reader List

namespace Tokenizer

/-- White space of ASCII. -/
def Blank (gap : List Char) : Prop := ∀ c ∈ gap, Utf8.Ascii c ∧ isWhitespace c = true

/-- A token as it is written, and the white space behind it. -/
structure Item where
  token : Token
  text : List Char
  gap : List Char

def write (items : List Item) : List Char := items.flatMap fun i => i.text ++ i.gap

/-- Every token is a text of it, and only next to punctuation and operators there is no white space. -/
structure Written (items : List Item) : Prop where
  spells : ∀ i ∈ items, Spells i.token i.text
  blank : ∀ i ∈ items, Blank i.gap
  apart : items.IsChain fun i j => i.gap = [] → isSymbol i.token = true ∨ isSymbol j.token = true

/-- Every token allows to be read as it is. -/
def Good : List Item → Prop
  | [] => True
  | i :: items => Reads i.token (seen (i.gap ++ write items)) ∧ Good items

/-- Tokens that a full stop or an equals sign behind them might change. -/
def tight : Token → Bool
  | .select | .where | .filter | .limit | .number _ | .lt | .gt => true
  | _ => false

/-- The second token does not change the first one. -/
def Follows (t u : Token) : Prop := tight t = true → u ≠ .dot ∧ u ≠ .eq

/-- The lists agree up to a token that is another one in the second list. -/
inductive Differs : List Token → List Token → Prop
  | here {t t' ts ts'} (h : Mistaken t t') : Differs (t :: ts) (t' :: ts')
  | later {t ts ts'} (h : Differs ts ts') : Differs (t :: ts) (t :: ts')

variable {i : Item} {items : List Item}

theorem Written.tail (h : Written (i :: items)) : Written items where
  spells j hj := h.spells j (mem_cons_of_mem i hj)
  blank j hj := h.blank j (mem_cons_of_mem i hj)
  apart := h.apart.tail

/-! ### White space -/

theorem skip_gap {gap : List Char} (hgap : Blank gap) (rest : List Char) :
    skipWsAndComments (seen gap ++ rest) = skipWsAndComments rest := by
  have hseen : seen gap = gap := seen_eq_self.mpr fun c hc => (hgap c hc).1
  rw [hseen]
  induction gap with
  | nil => rfl
  | cons c gap ih =>
    have hgap' : Blank gap := fun d hd => hgap d (mem_cons_of_mem c hd)
    have hc := (hgap c mem_cons_self).2
    have htail := ih hgap' (seen_eq_self.mpr fun d hd => (hgap' d hd).1)
    rw [skipWsAndComments] at htail ⊢
    rw [cons_append, skipComments, if_neg (by decide), if_pos hc, htail]

variable {c : Char} {lead : List Char}

theorem skip_token (hblank : isWhitespace c = false) (hhash : c ≠ '#') (rest : List Char) :
    skipWsAndComments (c :: rest) = c :: rest := by
  rw [skipWsAndComments, skipComments, if_neg (by decide), if_neg (by simp [hblank]), if_neg hhash]

/-- The first character behind a token, white space or that of the next token. -/
theorem head_after (h : Written (i :: items)) (hfollows : ((i :: items).map Item.token).IsChain Follows)
    (hc : c ∈ (seen (i.gap ++ write items)).head?) :
    (isSymbol i.token = false → separates c = true) ∧ (tight i.token = true → c ≠ '.' ∧ c ≠ '=') := by
  have hblank := h.blank i mem_cons_self
  cases hgap : i.gap with
  | cons d gap =>
    rw [hgap] at hc hblank
    obtain ⟨hascii, hspace⟩ := hblank d mem_cons_self
    rw [cons_append, seen_cons hascii] at hc
    cases hc
    have hne : ∀ e : Char, isWhitespace e = false → c ≠ e := fun e he heq => by
      rw [heq, he] at hspace
      cases hspace
    exact ⟨fun _ => by simp [separates, hascii, hspace], fun _ => ⟨hne '.' rfl, hne '=' rfl⟩⟩
  | nil =>
    rw [hgap, List.nil_append] at hc
    cases items with
    | nil => cases hc
    | cons j items =>
      obtain ⟨d, u, htext, hascii, -, -, hsep, hdot, heq⟩ := spells_head (h.spells j (by simp))
      rw [write, flatMap_cons, htext, cons_append, cons_append, seen_cons hascii] at hc
      cases hc
      have happart := (isChain_cons_cons.mp h.apart).1 hgap
      have hnext := (isChain_cons_cons.mp hfollows).1
      refine ⟨fun hsymbol => hsep (happart.resolve_left (by simp [hsymbol])), fun htight => ?_⟩
      obtain ⟨hnotDot, hnotEq⟩ := hnext htight
      exact ⟨fun hc => hnotDot (hdot hc), fun hc => hnotEq (heq hc)⟩

/-- What stands behind a token is what may follow it. -/
theorem stops_of_written (h : Written (i :: items)) (hfollows : ((i :: items).map Item.token).IsChain Follows) :
    Stops i.token (seen (i.gap ++ write items)) := by
  have hhead := fun {c} => head_after h hfollows (c := c)
  generalize seen (i.gap ++ write items) = rest at hhead
  have hword : isSymbol i.token = false → Apart rest := fun hsymbol c hc => (hhead hc).1 hsymbol
  have htight : tight i.token = true → rest.head? ≠ some '.' ∧ rest.head? ≠ some '=' :=
    fun ht => ⟨fun hdot => ((hhead hdot).2 ht).1 rfl, fun heq => ((hhead heq).2 ht).2 rfl⟩
  cases htoken : i.token with
  | lt | gt =>
    rw [htoken] at htight
    exact (htight rfl).2
  | select | «where» | filter | limit | number n =>
    rw [htoken] at htight hword
    exact ⟨hword rfl, (htight rfl).1⟩
  | var name | literal value tag =>
    rw [htoken] at hword
    exact hword rfl
  | _ => exact trivial

/-! ### Tokens -/

/-- The first token of a text, and what is behind it. -/
theorem tokens_write (hlead : Blank lead) (h : Written (i :: items)) :
    ∃ c u, seen i.text = c :: u ∧ tokens (seen (lead ++ write (i :: items))) = do
        let (t, left) ← readToken c (u ++ seen (i.gap ++ write items))
        let ts ← tokens left
        return t :: ts := by
  obtain ⟨c, u, htext, hascii, hblank, hhash, -⟩ := spells_head (h.spells i mem_cons_self)
  have hseen : seen i.text = c :: seen u := by rw [htext, seen_cons hascii]
  have hwrite : seen (lead ++ write (i :: items)) = seen lead ++ c :: (seen u ++ seen (i.gap ++ write items)) := by
    rw [write, flatMap_cons, ← write, append_assoc, seen_append, seen_append, hseen, cons_append]
  refine ⟨c, seen u, hseen, tokens_cons ?_⟩
  rw [hwrite, skip_gap hlead, skip_token hblank hhash]

/-- **A text whose tokens allow it is read as its tokens.** -/
theorem tokens_of_good (hlead : Blank lead) (h : Written items)
    (hfollows : (items.map Item.token).IsChain Follows) (hgood : Good items) :
    tokens (seen (lead ++ write items)) = .ok (items.map Item.token) := by
  induction items generalizing lead with
  | nil =>
    have hskip : skipWsAndComments (seen (lead ++ write [])) = [] := by
      rw [seen_append, skip_gap hlead]
      rfl
    exact tokens_nil hskip
  | cons i items ih =>
    obtain ⟨c, u, hseen, htokens⟩ := tokens_write hlead h
    have hread := readToken_of_reads (h.spells i mem_cons_self) (stops_of_written h hfollows) hgood.1 hseen
    have htail := ih (h.blank i mem_cons_self) h.tail hfollows.tail hgood.2
    rw [htokens, hread]
    simp only [bind, Except.bind, htail]
    rfl

/-- **A text with a token that does not allow it is not read as its tokens.** -/
theorem differs_of_not_good (hlead : Blank lead) (h : Written items)
    (hfollows : (items.map Item.token).IsChain Follows) (hbad : ¬Good items) {ts : List Token}
    (hts : tokens (seen (lead ++ write items)) = .ok ts) : Differs (items.map Item.token) ts := by
  induction items generalizing lead ts with
  | nil => exact absurd trivial hbad
  | cons i items ih =>
    obtain ⟨c, u, hseen, htokens⟩ := tokens_write hlead h
    have hstops := stops_of_written h hfollows
    have hspells := h.spells i mem_cons_self
    by_cases hreads : Reads i.token (seen (i.gap ++ write items))
    · rw [htokens, readToken_of_reads hspells hstops hreads hseen] at hts
      simp only [bind, Except.bind] at hts
      cases htail : tokens (seen (i.gap ++ write items)) with
      | error e =>
        rw [htail] at hts
        cases hts
      | ok ts' =>
        rw [htail] at hts
        cases hts
        exact Differs.later (ih (h.blank i mem_cons_self) h.tail hfollows.tail
          (fun hgood => hbad ⟨hreads, hgood⟩) htail)
    · rw [htokens] at hts
      cases hread : readToken c (u ++ seen (i.gap ++ write items)) with
      | error e =>
        rw [hread] at hts
        cases hts
      | ok e =>
        obtain ⟨t', after⟩ := e
        rw [hread] at hts
        simp only [bind, Except.bind] at hts
        cases htail : tokens after with
        | error e =>
          rw [htail] at hts
          cases hts
        | ok ts' =>
          rw [htail] at hts
          cases hts
          exact Differs.here (mistaken_of_readToken hspells hstops hreads (fun _ hc => lt_of_mem_seen hc)
            hseen hread)

end Tokenizer

end CenDB.Rdf
