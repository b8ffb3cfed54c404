import Mathlib.Data.List.DropRight
import CenDB.Lib.Listed
import CenDB.Spatial.JsonParser
import CenDB.Spatial.TextRoundTrip

/-! # Texts on which the parser of GeoJSON panics

A `\u` escape is cut out of the text by its four bytes.  If these end inside a character, the parser panics;
`CutValue` says that it comes to such an escape, behind values and keys that it can read.  It panics on these
texts and on no others, and it returns on all others (`returns_iff`). -/

namespace CenDB.Spatial

open Text Reader List
open ByteCursor (byteLen byteLen_append takeBytes eq_append_of_takeBytes)

namespace JsonParser

/-! ### Texts of values -/

/-- Inside a string, up to its closing quote. -/
inductive Body : List Char → List Char → Prop
  | quote {rest} : Body ('"' :: rest) rest
  | char {c rest after} (hquote : c ≠ '"') (hescape : c ≠ '\\') (h : Body rest after) : Body (c :: rest) after
  | escape {esc c rest after} (hesc : simpleEscape esc = some c) (h : Body rest after) :
    Body ('\\' :: esc :: rest) after
  | unicode {hex code rest after} (hlen : hex.length = 4) (hhex : fromStrRadix16 hex = some code)
    (h : Body rest after) : Body ('\\' :: 'u' :: (hex ++ rest)) after

/-- Inside a string, there is an escape of which the four bytes end inside a character. -/
inductive CutBody : List Char → Prop
  | here {rest} (hlen : 4 ≤ utf8Len rest) (hcut : isBoundary 4 rest = false) : CutBody ('\\' :: 'u' :: rest)
  | char {c rest} (hquote : c ≠ '"') (hescape : c ≠ '\\') (h : CutBody rest) : CutBody (c :: rest)
  | escape {esc c rest} (hesc : simpleEscape esc = some c) (h : CutBody rest) : CutBody ('\\' :: esc :: rest)
  | unicode {hex code rest} (hlen : hex.length = 4) (hhex : fromStrRadix16 hex = some code) (h : CutBody rest) :
    CutBody ('\\' :: 'u' :: (hex ++ rest))

/-- A key and a colon. -/
inductive Lead : List Char → List Char → Prop
  | mk {text body mid start} (hquote : text.dropWhile isWhitespace = '"' :: body) (hbody : Body body mid)
    (hcolon : mid.dropWhile isWhitespace = ':' :: start) : Lead text start

inductive CutLead : List Char → Prop
  | mk {text body} (hquote : text.dropWhile isWhitespace = '"' :: body) (hbody : CutBody body) : CutLead text

section
variable {F : Type} (num : Decimals F)

/-- From in front of a value to behind it. -/
inductive Value : List Char → List Char → Prop
  | string {text body after} (h : text.dropWhile isWhitespace = '"' :: body) (hbody : Body body after) :
    Value text after
  | word {text word after} (hword : word ∈ ["true", "false", "null"])
    (h : text.dropWhile isWhitespace = word.toList ++ after) : Value text after
  | number {text c rest f} (h : text.dropWhile isWhitespace = c :: rest)
    (hc : c = '-' ∨ c = '+' ∨ c.isDigit = true) (hparse : num.parse (numeral (c :: rest)).1 = some f) :
    Value text (numeral (c :: rest)).2
  | emptyArray {text rest after} (h : text.dropWhile isWhitespace = '[' :: rest)
    (hclose : rest.dropWhile isWhitespace = ']' :: after) : Value text after
  | array {text rest after} (h : text.dropWhile isWhitespace = '[' :: rest)
    (hopen : ∀ after, rest.dropWhile isWhitespace ≠ ']' :: after)
    (hitems : Listed Eq Value isWhitespace ',' ']' (rest.dropWhile isWhitespace) after) : Value text after
  | emptyObject {text rest after} (h : text.dropWhile isWhitespace = '\x7b' :: rest)
    (hclose : rest.dropWhile isWhitespace = '\x7d' :: after) : Value text after
  | object {text rest after} (h : text.dropWhile isWhitespace = '\x7b' :: rest)
    (hopen : ∀ after, rest.dropWhile isWhitespace ≠ '\x7d' :: after)
    (hitems : Listed Lead Value isWhitespace ',' '\x7d' (rest.dropWhile isWhitespace) after) : Value text after

/-- In front of a value in which a string or a key is cut, behind values that are not. -/
inductive CutValue : List Char → Prop
  | string {text body} (h : text.dropWhile isWhitespace = '"' :: body) (hbody : CutBody body) : CutValue text
  | array {text rest} (h : text.dropWhile isWhitespace = '[' :: rest)
    (hopen : ∀ after, rest.dropWhile isWhitespace ≠ ']' :: after)
    (hitems : Spoilt Eq (Value num) (fun _ => False) CutValue isWhitespace ',' (rest.dropWhile isWhitespace)) :
    CutValue text
  | object {text rest} (h : text.dropWhile isWhitespace = '\x7b' :: rest)
    (hopen : ∀ after, rest.dropWhile isWhitespace ≠ '\x7d' :: after)
    (hitems : Spoilt Lead (Value num) CutLead CutValue isWhitespace ',' (rest.dropWhile isWhitespace)) :
    CutValue text

end

/-! ### Strings -/

variable {text rest after : List Char}

/-- Behind a `\u` stand four hexadecimal digits, and then `rest`. -/
def Hex (text : List Char) (code : ℕ) (rest : List Char) : Prop :=
  ∃ hex, text = hex ++ rest ∧ hex.length = 4 ∧ fromStrRadix16 hex = some code

variable {esc c : Char}

theorem body_escape_iff : Body ('\\' :: esc :: rest) after ↔
    (∃ c, simpleEscape esc = some c ∧ Body rest after) ∨
      esc = 'u' ∧ ∃ code rest', Hex rest code rest' ∧ Body rest' after := by
  constructor
  · intro h
    cases h with
    | char _ hescape _ => exact absurd rfl hescape
    | escape hesc h => exact Or.inl ⟨_, hesc, h⟩
    | unicode hlen hhex h => exact Or.inr ⟨rfl, _, _, ⟨_, rfl, hlen, hhex⟩, h⟩
  · rintro (⟨c, hesc, h⟩ | ⟨rfl, code, rest', ⟨hex, rfl, hlen, hhex⟩, h⟩)
    · exact .escape hesc h
    · exact .unicode hlen hhex h

theorem cutBody_escape_iff : CutBody ('\\' :: esc :: rest) ↔ (∃ c, simpleEscape esc = some c ∧ CutBody rest) ∨
      esc = 'u' ∧ ((4 ≤ utf8Len rest ∧ isBoundary 4 rest = false) ∨
        ∃ code rest', Hex rest code rest' ∧ CutBody rest') := by
  constructor
  · intro h
    cases h with
    | here hlen hcut => exact Or.inr ⟨rfl, Or.inl ⟨hlen, hcut⟩⟩
    | char _ hescape _ => exact absurd rfl hescape
    | escape hesc h => exact Or.inl ⟨_, hesc, h⟩
    | unicode hlen hhex h => exact Or.inr ⟨rfl, Or.inr ⟨_, _, ⟨_, rfl, hlen, hhex⟩, h⟩⟩
  · rintro (⟨c, hesc, h⟩ | ⟨rfl, ⟨hlen, hcut⟩ | ⟨code, rest', ⟨hex, rfl, hlen, hhex⟩, h⟩⟩)
    · exact .escape hesc h
    · exact .here hlen hcut
    · exact .unicode hlen hhex h

theorem body_char_iff (hquote : c ≠ '"') (hescape : c ≠ '\\') : Body (c :: rest) after ↔ Body rest after := by
  constructor
  · intro h
    cases h with
    | char _ _ h => exact h
    | quote => exact absurd rfl hquote
    | escape | unicode => exact absurd rfl hescape
  · exact .char hquote hescape

theorem cutBody_char_iff (hquote : c ≠ '"') (hescape : c ≠ '\\') : CutBody (c :: rest) ↔ CutBody rest := by
  constructor
  · intro h
    cases h with
    | char _ _ h => exact h
    | here | escape | unicode => exact absurd rfl hescape
  · exact .char hquote hescape

theorem body_quote_iff : Body ('"' :: rest) after ↔ after = rest := by
  constructor
  · intro h
    cases h with
    | quote => rfl
    | char hquote => exact absurd rfl hquote
  · rintro rfl
    exact .quote

theorem not_cutBody_quote : ¬CutBody ('"' :: rest) := by
  intro h
  cases h with
  | char hquote => exact absurd rfl hquote

theorem not_body_nil : ¬Body [] after := by
  intro h
  cases h

theorem not_cutBody_nil : ¬CutBody [] := by
  intro h
  cases h

theorem not_body_backslash : ¬Body ['\\'] after := by
  intro h
  cases h with
  | char _ hescape => exact absurd rfl hescape

theorem not_cutBody_backslash : ¬CutBody ['\\'] := by
  intro h
  cases h with
  | char _ hescape => exact absurd rfl hescape

variable {code : ℕ}

theorem Hex.unique {code' : ℕ} {rest' : List Char} (h : Hex text code rest) (h' : Hex text code' rest') :
    rest = rest' := by
  obtain ⟨hex, rfl, hlen, -⟩ := h
  obtain ⟨hex', heq, hlen', -⟩ := h'
  exact (append_inj heq (hlen.trans hlen'.symm)).2

theorem Hex.takeBytes (h : Hex text code rest) : ∃ hex, takeBytes 4 text = some hex ∧
    fromStrRadix16 hex = some code ∧ 4 ≤ byteLen text ∧ text.drop 4 = rest := by
  obtain ⟨hex, rfl, hlen, hhex⟩ := h
  refine ⟨hex, takeBytes_of_hex hhex hlen, hhex, ?_, by rw [← hlen, drop_left]⟩
  rw [byteLen_append, length_of_byteLen (ascii_of_fromStrRadix16 hhex), hlen]
  exact Nat.le_add_right 4 _

/-- Four digits are four bytes. -/
theorem Hex.whole (h : Hex text code rest) : isBoundary 4 text = true := by
  obtain ⟨hex, htake, -⟩ := h.takeBytes
  rw [isBoundary_eq, htake]
  rfl

theorem Hex.length_lt (h : Hex text code rest) : rest.length < text.length := by
  obtain ⟨hex, rfl, hlen, -⟩ := h
  rw [length_append, hlen]
  omega

theorem stringBody_hex (h : Hex text code rest) (s : List Char) : stringBody s ('\\' :: 'u' :: text) =
    stringBody (if code.isValidChar then s ++ [Char.ofNat code] else s) rest := by
  obtain ⟨hex, htake, hhex, hlen, hdrop⟩ := h.takeBytes
  rw [stringBody_unicode, if_neg (Nat.not_lt.mpr hlen), htake]
  simp only [hhex, hdrop]

/-- Without four digits the escape is an error, or a panic. -/
theorem stringBody_not_hex (h : ∀ code rest, ¬Hex text code rest) (s : List Char) :
    (∀ read, stringBody s ('\\' :: 'u' :: text) ≠ .ok read) ∧
      (stringBody s ('\\' :: 'u' :: text) = .error .panicked ↔ 4 ≤ utf8Len text ∧ isBoundary 4 text = false) := by
  have hlen : utf8Len text = byteLen text := rfl
  rw [stringBody_unicode, hlen, isBoundary_eq]
  split_ifs with hshort
  · exact ⟨nofun, iff_of_false nofun fun hle => Nat.not_lt.mpr hle.1 hshort⟩
  cases htake : takeBytes 4 text with
  | none => exact ⟨nofun, iff_of_true rfl ⟨Nat.not_lt.mp hshort, rfl⟩⟩
  | some hex =>
    obtain ⟨rest, rfl, hbytes⟩ := eq_append_of_takeBytes htake
    cases hcode : fromStrRadix16 hex with
    | none =>
      simp only [hcode]
      exact ⟨nofun, iff_of_false nofun nofun⟩
    | some code =>
      rw [length_of_byteLen (ascii_of_fromStrRadix16 hcode)] at hbytes
      exact absurd ⟨hex, rfl, hbytes, hcode⟩ (h code rest)

/-- **What becomes of the rest of a string.** -/
theorem stringBody_spec (s text : List Char) :
    (∀ after, (∃ s', stringBody s text = .ok (s', after)) ↔ Body text after) ∧
      (stringBody s text = .error .panicked ↔ CutBody text) := by
  induction hn : text.length using Nat.strong_induction_on generalizing s text with
  | h n ih =>
    subst hn
    cases text with
    | nil =>
      have hread : stringBody s [] = .error .unterminated := by rfl
      rw [hread]
      exact ⟨fun _ => iff_of_false (by simp) not_body_nil, iff_of_false (by simp) not_cutBody_nil⟩
    | cons c text =>
      by_cases hquote : c = '"'
      · subst hquote
        have hread : stringBody s ('"' :: text) = .ok (s, text) := by
          unfold stringBody
          rfl
        rw [hread]
        refine ⟨fun after => ?_, iff_of_false (by simp) not_cutBody_quote⟩
        rw [body_quote_iff]
        constructor
        · rintro ⟨s', h⟩
          cases h
          rfl
        · rintro rfl
          exact ⟨s, rfl⟩
      by_cases hescape : c = '\\'
      · subst hescape
        cases text with
        | nil =>
          have hread : stringBody s ['\\'] = .error .trailingBackslash := by rfl
          rw [hread]
          exact ⟨fun _ => iff_of_false (by simp) not_body_backslash, iff_of_false (by simp) not_cutBody_backslash⟩
        | cons esc rest =>
          have hlt : rest.length < ('\\' :: esc :: rest).length := by simp
          simp only [body_escape_iff, cutBody_escape_iff]
          cases hesc : simpleEscape esc with
          | some c =>
            have hrest := ih rest.length hlt (s ++ [c]) rest rfl
            have hu : esc ≠ 'u' := by
              rintro rfl
              cases hesc
            rw [stringBody_escape hesc]
            simp only [hu, false_and, or_false, Option.some.injEq, exists_eq_left']
            exact hrest
          | none =>
            simp only [reduceCtorEq, false_and, exists_false, false_or]
            by_cases hu : esc = 'u'
            · subst hu
              simp only [true_and]
              by_cases hhex : ∃ code rest', Hex rest code rest'
              · obtain ⟨code, rest', hhex⟩ := hhex
                have hrest := ih rest'.length (hhex.length_lt.trans hlt)
                  (if code.isValidChar then s ++ [Char.ofNat code] else s) rest' rfl
                rw [stringBody_hex hhex]
                simp only [hhex.whole, Bool.true_eq_false, and_false, false_or]
                refine ⟨fun after => (hrest.1 after).trans ⟨fun h => ⟨code, rest', hhex, h⟩, ?_⟩,
                  hrest.2.trans ⟨fun h => ⟨code, rest', hhex, h⟩, ?_⟩⟩
                · rintro ⟨code', rest'', hhex', h⟩
                  rwa [hhex.unique hhex']
                · rintro ⟨code', rest'', hhex', h⟩
                  rwa [hhex.unique hhex']
              · have hnot : ∀ code rest', ¬Hex rest code rest' := fun code rest' h => hhex ⟨code, rest', h⟩
                obtain ⟨hread, hpanic⟩ := stringBody_not_hex hnot s
                refine ⟨fun after => iff_of_false ?_ ?_, hpanic.trans (or_iff_left ?_).symm⟩
                · rintro ⟨s', h⟩
                  exact hread _ h
                · rintro ⟨code, rest', h, -⟩
                  exact hnot code rest' h
                · rintro ⟨code, rest', h, -⟩
                  exact hnot code rest' h
            · rw [stringBody_badEscape hesc hu]
              exact ⟨fun _ => iff_of_false (by simp) fun h => hu h.1, iff_of_false (by simp) fun h => hu h.1⟩
      · have hrest := ih text.length (Nat.lt_succ_self _) (s ++ [c]) text rfl
        rw [stringBody_char hquote hescape, cutBody_char_iff hquote hescape]
        simp only [body_char_iff hquote hescape]
        exact hrest

theorem parseString_eq (text : List Char) : Spatial.parseString text =
    if (text.dropWhile isWhitespace).head? = some '"' then stringBody [] (text.dropWhile isWhitespace).tail
    else .error (.expectedQuote (text.dropWhile isWhitespace)) := by
  simp only [Spatial.parseString, bind, StateT.bind, Except.bind, skipWhile, peek]
  split_ifs <;> rfl

theorem parseString_ok_iff : (∃ s, Spatial.parseString text = .ok (s, after)) ↔
    ∃ body, text.dropWhile isWhitespace = '"' :: body ∧ Body body after := by
  rw [parseString_eq]
  split_ifs with hhead
  · obtain ⟨body, hbody⟩ := head?_eq_some_iff.mp hhead
    simp only [hbody, tail_cons, List.cons.injEq, true_and, exists_eq_left']
    exact (stringBody_spec [] body).1 after
  · refine iff_of_false nofun ?_
    rintro ⟨body, hbody, -⟩
    exact hhead (by rw [hbody, head?_cons])

theorem parseString_panic_iff :
    Spatial.parseString text = .error .panicked ↔ ∃ body, text.dropWhile isWhitespace = '"' :: body ∧ CutBody body := by
  rw [parseString_eq]
  split_ifs with hhead
  · obtain ⟨body, hbody⟩ := head?_eq_some_iff.mp hhead
    simp only [hbody, tail_cons, List.cons.injEq, true_and, exists_eq_left']
    exact (stringBody_spec [] body).2
  · refine iff_of_false nofun ?_
    rintro ⟨body, hbody, -⟩
    exact hhead (by rw [hbody, head?_cons])

/-! ### Entries -/

section
variable {F : Type} {value : JsonReader (JsonValue F)}

/-- An entry by its key, the colon and its value. -/
theorem parseEntry_eq (value : JsonReader (JsonValue F)) (text : List Char) : Spatial.parseEntry value text =
    match Spatial.parseString text with
    | .error e => .error e
    | .ok (key, mid) =>
      if (mid.dropWhile isWhitespace).head? = some ':' then
        (value (mid.dropWhile isWhitespace).tail).map fun read => ((key, read.1), read.2)
      else .error (.expectedColon (mid.dropWhile isWhitespace)) := by
  have hskip : Spatial.parseString (text.dropWhile isWhitespace) = Spatial.parseString text := by
    simp [parseString_eq, dropWhile_idempotent]
  simp only [Spatial.parseEntry, bind, StateT.bind, Except.bind, skipWhile, hskip]
  cases Spatial.parseString text with
  | error e => rfl
  | ok read =>
    obtain ⟨key, mid⟩ := read
    simp only [peek]
    split_ifs
    · rfl
    · rfl

theorem parseEntry_ok_iff : (∃ entry, Spatial.parseEntry value text = .ok (entry, after)) ↔
    ∃ start, Lead text start ∧ ∃ v, value start = .ok (v, after) := by
  rw [parseEntry_eq]
  constructor
  · rintro ⟨entry, h⟩
    split at h
    · cases h
    rename_i key mid hkey
    obtain ⟨body, hquote, hbody⟩ := parseString_ok_iff.mp ⟨key, hkey⟩
    split_ifs at h with hhead
    obtain ⟨start, hcolon⟩ := head?_eq_some_iff.mp hhead
    rw [hcolon, tail_cons] at h
    cases hvalue : value start with
    | error e =>
      rw [hvalue] at h
      cases h
    | ok read =>
      rw [hvalue] at h
      cases h
      exact ⟨start, .mk hquote hbody hcolon, read.1, hvalue⟩
  · rintro ⟨start, ⟨hquote, hbody, hcolon⟩, v, hvalue⟩
    obtain ⟨key, hkey⟩ := parseString_ok_iff.mpr ⟨_, hquote, hbody⟩
    rw [hkey]
    simp only [hcolon, head?_cons, if_pos, tail_cons, hvalue]
    exact ⟨(key, v), rfl⟩

theorem parseEntry_panic_iff : Spatial.parseEntry value text = .error .panicked ↔
    CutLead text ∨ ∃ start, Lead text start ∧ value start = .error .panicked := by
  rw [parseEntry_eq]
  constructor
  · intro h
    split at h
    · rename_i e hkey
      cases h
      obtain ⟨body, hquote, hbody⟩ := parseString_panic_iff.mp hkey
      exact Or.inl (.mk hquote hbody)
    rename_i key mid hkey
    obtain ⟨body, hquote, hbody⟩ := parseString_ok_iff.mp ⟨key, hkey⟩
    split_ifs at h with hhead
    · obtain ⟨start, hcolon⟩ := head?_eq_some_iff.mp hhead
      rw [hcolon, tail_cons] at h
      cases hvalue : value start with
      | error e =>
        rw [hvalue] at h
        cases h
        exact Or.inr ⟨start, .mk hquote hbody hcolon, hvalue⟩
      | ok read =>
        rw [hvalue] at h
        cases h
    · cases h
  · rintro (⟨hquote, hbody⟩ | ⟨start, ⟨hquote, hbody, hcolon⟩, hvalue⟩)
    · rw [parseString_panic_iff.mpr ⟨_, hquote, hbody⟩]
    · obtain ⟨key, hkey⟩ := parseString_ok_iff.mpr ⟨_, hquote, hbody⟩
      rw [hkey]
      simp only [hcolon, head?_cons, if_pos, tail_cons, hvalue]
      rfl

end

/-! ### Values -/

section
variable {F : Type} {num : Decimals F}

variable {c : Char}

theorem value_iff (h : text.dropWhile isWhitespace = c :: rest) : Value num text after ↔
    (c = '"' ∧ Body rest after) ∨ (∃ word ∈ ["true", "false", "null"], c :: rest = word.toList ++ after) ∨
      ((c = '-' ∨ c = '+' ∨ c.isDigit = true) ∧ (num.parse (numeral (c :: rest)).1).isSome ∧
        after = (numeral (c :: rest)).2) ∨
      (c = '[' ∧ (rest.dropWhile isWhitespace = ']' :: after ∨ (∀ after, rest.dropWhile isWhitespace ≠ ']' :: after) ∧
        Listed Eq (Value num) isWhitespace ',' ']' (rest.dropWhile isWhitespace) after)) ∨
      c = '\x7b' ∧ (rest.dropWhile isWhitespace = '\x7d' :: after ∨
        (∀ after, rest.dropWhile isWhitespace ≠ '\x7d' :: after) ∧
          Listed Lead (Value num) isWhitespace ',' '\x7d' (rest.dropWhile isWhitespace) after) := by
  constructor
  · intro hv
    cases hv with
    | string h' hbody =>
      cases h.symm.trans h'
      exact Or.inl ⟨rfl, hbody⟩
    | word hword h' => exact Or.inr (Or.inl ⟨_, hword, h.symm.trans h'⟩)
    | number h' hc hparse =>
      cases h.symm.trans h'
      exact Or.inr (Or.inr (Or.inl ⟨hc, by rw [hparse]; rfl, rfl⟩))
    | emptyArray h' hclose =>
      cases h.symm.trans h'
      exact Or.inr (Or.inr (Or.inr (Or.inl ⟨rfl, Or.inl hclose⟩)))
    | array h' hopen hitems =>
      cases h.symm.trans h'
      exact Or.inr (Or.inr (Or.inr (Or.inl ⟨rfl, Or.inr ⟨hopen, hitems⟩⟩)))
    | emptyObject h' hclose =>
      cases h.symm.trans h'
      exact Or.inr (Or.inr (Or.inr (Or.inr ⟨rfl, Or.inl hclose⟩)))
    | object h' hopen hitems =>
      cases h.symm.trans h'
      exact Or.inr (Or.inr (Or.inr (Or.inr ⟨rfl, Or.inr ⟨hopen, hitems⟩⟩)))
  · rintro (⟨rfl, hbody⟩ | ⟨word, hword, h'⟩ | ⟨hc, hparse, rfl⟩ | ⟨rfl, hclose | ⟨hopen, hitems⟩⟩ |
      ⟨rfl, hclose | ⟨hopen, hitems⟩⟩)
    · exact .string h hbody
    · exact .word hword (h.trans h')
    · obtain ⟨f, hf⟩ := Option.isSome_iff_exists.mp hparse
      exact .number h hc hf
    · exact .emptyArray h hclose
    · exact .array h hopen hitems
    · exact .emptyObject h hclose
    · exact .object h hopen hitems

theorem cutValue_iff (h : text.dropWhile isWhitespace = c :: rest) : CutValue num text ↔
    (c = '"' ∧ CutBody rest) ∨ (c = '[' ∧ (∀ after, rest.dropWhile isWhitespace ≠ ']' :: after) ∧
        Spoilt Eq (Value num) (fun _ => False) (CutValue num) isWhitespace ',' (rest.dropWhile isWhitespace)) ∨
      c = '\x7b' ∧ (∀ after, rest.dropWhile isWhitespace ≠ '\x7d' :: after) ∧
        Spoilt Lead (Value num) CutLead (CutValue num) isWhitespace ',' (rest.dropWhile isWhitespace) := by
  constructor
  · intro hv
    cases hv with
    | string h' hbody =>
      cases h.symm.trans h'
      exact Or.inl ⟨rfl, hbody⟩
    | array h' hopen hitems =>
      cases h.symm.trans h'
      exact Or.inr (Or.inl ⟨rfl, hopen, hitems⟩)
    | object h' hopen hitems =>
      cases h.symm.trans h'
      exact Or.inr (Or.inr ⟨rfl, hopen, hitems⟩)
  · rintro (⟨rfl, hbody⟩ | ⟨rfl, hopen, hitems⟩ | ⟨rfl, hopen, hitems⟩)
    · exact .string h hbody
    · exact .array h hopen hitems
    · exact .object h hopen hitems

variable {word : String} {v : JsonValue F} {otherwise : JsonReader (JsonValue F)}

theorem literal_ok_iff : (∃ w, Spatial.literal word v otherwise text = .ok (w, after)) ↔
      text = word.toList ++ after ∨ ¬word.toList <+: text ∧ ∃ w, otherwise text = .ok (w, after) := by
  rw [Spatial.literal]
  split_ifs with hword
  · obtain ⟨rest, rfl⟩ := isPrefixOf_iff_prefix.mp hword
    rw [← String.length_toList, drop_left]
    constructor
    · simp
    · simp
  · have hno : ¬word.toList <+: text := fun hpre => hword ( isPrefixOf_iff_prefix.mpr hpre)
    rw [and_iff_right hno, or_iff_right]
    rintro rfl
    exact hno (prefix_append _ after)

theorem parseBool_ok_iff : (∃ v, (Spatial.parseBool : JsonReader (JsonValue F)) text = .ok (v, after)) ↔
    text = "true".toList ++ after ∨ text = "false".toList ++ after := by
  have hfail : ¬∃ w, (failWith JsonError.badLiteral : JsonReader (JsonValue F)) text = .ok (w, after) := nofun
  rw [Spatial.parseBool, literal_ok_iff, literal_ok_iff]
  simp only [hfail, and_false, or_false]
  refine or_congr_right (and_iff_right_of_imp ?_)
  rintro rfl ⟨rest, heq⟩
  cases (List.cons.inj heq).1

theorem parseNull_ok_iff : (∃ v, (Spatial.parseNull : JsonReader (JsonValue F)) text = .ok (v, after)) ↔
    text = "null".toList ++ after := by
  rw [Spatial.parseNull, literal_ok_iff, or_iff_left]
  rintro ⟨-, w, h⟩
  cases h

theorem literal_ne_panic (h : otherwise text ≠ .error .panicked) :
    Spatial.literal word v otherwise text ≠ .error .panicked := by
  rw [Spatial.literal]
  split_ifs
  · simp
  · exact h

/-- A word begins with one of three letters. -/
theorem not_word (ht : c ≠ 't') (hf : c ≠ 'f') (hn : c ≠ 'n') :
    ¬∃ word ∈ ["true", "false", "null"], c :: rest = word.toList ++ after := by
  rintro ⟨word, hword, heq⟩
  simp only [mem_cons, not_mem_nil, or_false] at hword
  rcases hword with rfl | rfl | rfl
  · exact ht (List.cons.inj heq).1
  · exact hf (List.cons.inj heq).1
  · exact hn (List.cons.inj heq).1

theorem bump_apply {α : Type} (r : JsonReader α) : (do bump; r : JsonReader α) (c :: rest) = r rest := rfl

theorem Body.length_lt (h : Body text after) : after.length < text.length := by
  induction h with
  | quote => exact Nat.lt_succ_self _
  | char _ _ _ ih => exact Nat.lt_succ_of_lt ih
  | escape _ _ ih => exact Nat.lt_succ_of_lt (Nat.lt_succ_of_lt ih)
  | unicode _ _ _ ih =>
    simp only [length_cons, length_append]
    omega

theorem Lead.length_lt (h : Lead text after) : after.length < text.length := by
  cases h with
  | @mk body mid _ hquote hbody hcolon =>
    have htext := (dropWhile_suffix (l := text) isWhitespace).length_le
    have hmid := (dropWhile_suffix (l := mid) isWhitespace).length_le
    rw [hquote, length_cons] at htext
    rw [hcolon, length_cons] at hmid
    have hlt := hbody.length_lt
    omega

theorem parseValue_succ (fuel : ℕ) (text : List Char) : Spatial.parseValue num (fuel + 1) text =
    match text.dropWhile isWhitespace with
    | [] => .error (.unexpected [])
    | c :: rest => Spatial.valueFrom num (Spatial.parseValue num fuel) c (c :: rest) := by
  simp only [Spatial.parseValue, bind, StateT.bind, Except.bind, skipWhile, peek]
  cases text.dropWhile isWhitespace <;> rfl

/-- **What becomes of a value**: it is read, or the parser panics in it, or it is neither. -/
theorem parseValue_spec {fuel : ℕ} (hfuel : text.length < fuel) :
    (∀ after, (∃ v, Spatial.parseValue num fuel text = .ok (v, after)) ↔ Value num text after) ∧
      (Spatial.parseValue num fuel text = .error .panicked ↔ CutValue num text) := by
  induction fuel generalizing text with
  | zero => cases hfuel
  | succ fuel ih =>
    rw [parseValue_succ]
    have hdrop := (dropWhile_suffix (l := text) isWhitespace).length_le
    have hsuffix : ∀ {bs mid v}, bs.length < fuel → Spatial.parseValue num fuel bs = .ok (v, mid) → mid <:+ bs :=
      fun {bs mid v} hbs => (at_parseValue hbs suffix_rfl).suffix v mid
    cases hhead : text.dropWhile isWhitespace with
    | nil =>
      refine ⟨fun after => iff_of_false nofun fun h => ?_, iff_of_false nofun fun h => ?_⟩
      · cases h <;> simp_all
      · cases h <;> simp_all
    | cons c rest =>
      rw [hhead, length_cons] at hdrop
      have hrest : rest.length < fuel := by omega
      simp only [value_iff hhead, cutValue_iff hhead]
      unfold Spatial.valueFrom
      split_ifs with hobject harray hquote hbool hnull hnumber
      · subst hobject
        have hitem : ∀ bs mid, bs.length ≤ rest.length →
            ((∃ entry, Spatial.parseEntry (Spatial.parseValue num fuel) bs = .ok (entry, mid)) ↔
              ∃ start, Lead bs start ∧ Value num start mid) := fun bs mid hbs =>
          parseEntry_ok_iff.trans (exists_congr fun start => and_congr_right fun hlead =>
            (ih (hlead.length_lt.trans (hbs.trans_lt hrest))).1 mid)
        have hbad : ∀ bs, bs.length ≤ rest.length →
            (Spatial.parseEntry (Spatial.parseValue num fuel) bs = .error .panicked ↔
              CutLead bs ∨ ∃ start, Lead bs start ∧ CutValue num start) := fun bs hbs =>
          parseEntry_panic_iff.trans (or_congr_right (exists_congr fun start => and_congr_right fun hlead =>
            (ih (hlead.length_lt.trans (hbs.trans_lt hrest))).2))
        have hshort : ∀ bs entry mid, bs.length ≤ rest.length →
            Spatial.parseEntry (Spatial.parseValue num fuel) bs = .ok (entry, mid) → mid.length ≤ bs.length :=
          fun bs entry mid hbs h => ((at_parseEntry (fun bs' hbs' =>
            at_parseValue (hbs'.length_le.trans_lt (hbs.trans_lt hrest)) hbs') suffix_rfl).suffix
              entry mid h).length_le
        have hdigit : '\x7b'.isDigit = false := rfl
        constructor
        · intro after
          rw [bump_apply, map_ok_iff, separated_ok_iff hitem hshort (by decide) le_rfl]
          simp [hdigit]
        · rw [bump_apply, map_eq_error, separated_error_iff hitem hshort (fun _ => by nofun) hbad le_rfl]
          simp
      · subst harray
        have hitem : ∀ bs mid, bs.length ≤ rest.length →
            ((∃ v, Spatial.parseValue num fuel bs = .ok (v, mid)) ↔ ∃ start, bs = start ∧ Value num start mid) :=
          fun bs mid hbs => by
            rw [exists_eq_left']
            exact (ih (hbs.trans_lt hrest)).1 mid
        have hbad : ∀ bs, bs.length ≤ rest.length → (Spatial.parseValue num fuel bs = .error .panicked ↔
            False ∨ ∃ start, bs = start ∧ CutValue num start) := fun bs hbs => by
          rw [exists_eq_left', false_or]
          exact (ih (hbs.trans_lt hrest)).2
        have hshort : ∀ bs v mid, bs.length ≤ rest.length → Spatial.parseValue num fuel bs = .ok (v, mid) →
            mid.length ≤ bs.length := fun bs v mid hbs h => (hsuffix (hbs.trans_lt hrest) h).length_le
        have hdigit : '['.isDigit = false := rfl
        constructor
        · intro after
          rw [bump_apply, map_ok_iff, separated_ok_iff hitem hshort (by decide) le_rfl]
          simp [hdigit]
        · rw [bump_apply, map_eq_error, separated_error_iff hitem hshort (fun _ => by nofun) hbad le_rfl]
          simp
      · subst hquote
        have hself : ('"' :: rest).dropWhile isWhitespace = '"' :: rest := rfl
        have hdigit : '"'.isDigit = false := rfl
        constructor
        · intro after
          rw [map_ok_iff, parseString_ok_iff, hself]
          simp [hdigit]
        · rw [map_eq_error, parseString_panic_iff, hself]
          simp
      · have hpanic : (Spatial.parseBool : JsonReader (JsonValue F)) (c :: rest) ≠ .error .panicked :=
          literal_ne_panic (literal_ne_panic nofun)
        have hc : c = 't' ∨ c = 'f' := by simpa using hbool
        have hdigit : c.isDigit = false := by rcases hc with rfl | rfl <;> rfl
        constructor
        · intro after
          rw [parseBool_ok_iff]
          rcases hc with rfl | rfl <;> simp [hdigit]
        · rw [iff_false_left hpanic]
          simp [hobject, harray, hquote]
      · have hpanic : (Spatial.parseNull : JsonReader (JsonValue F)) (c :: rest) ≠ .error .panicked :=
          literal_ne_panic nofun
        subst hnull
        have hdigit : 'n'.isDigit = false := rfl
        constructor
        · simp [parseNull_ok_iff]
        · simp [hpanic]
      · have hc : c = '-' ∨ c = '+' ∨ c.isDigit = true := by simpa [or_assoc] using hnumber
        have hword : ∀ after, ¬∃ word ∈ ["true", "false", "null"], c :: rest = word.toList ++ after := fun _ =>
          not_word (fun h => hbool (by simp [h])) (fun h => hbool (by simp [h])) hnull
        constructor
        · intro after
          rw [map_ok_iff, parseNumber_eq]
          simp only [hobject, harray, hquote, hword, hc, false_and, true_and, false_or, or_false]
          cases num.parse (numeral (c :: rest)).1 <;> simp [eq_comm]
        · rw [map_eq_error, parseNumber_eq]
          simp only [hobject, harray, hquote, false_and, or_false]
          cases num.parse (numeral (c :: rest)).1 <;> simp
      · have hword : ∀ after, ¬∃ word ∈ ["true", "false", "null"], c :: rest = word.toList ++ after := fun _ =>
          not_word (fun h => hbool (by simp [h])) (fun h => hbool (by simp [h])) hnull
        have hc : ¬(c = '-' ∨ c = '+' ∨ c.isDigit = true) := by simpa [or_assoc] using hnumber
        constructor
        · intro after
          simp only [hobject, harray, hquote, hword, hc, false_and, or_false]
          exact iff_of_false nofun not_false
        · simp only [hobject, harray, hquote, false_and, or_false]
          exact iff_of_false nofun not_false

/-! ### The parser -/

/-- **The parser panics exactly if it comes to an escape that is cut**, and returns otherwise. -/
theorem returns_fromGeojson_iff (num : Decimals F) (input : List Char) :
    Stop.Returns (fromGeojson num input) ↔ ¬CutValue num input := by
  have hspec := (@parseValue_spec _ _ num _ (Nat.lt_succ_self input.length)).2
  have hskip : Spatial.parseValue num (input.length + 1) (input.dropWhile isWhitespace) =
      Spatial.parseValue num (input.length + 1) input := by simp [parseValue_succ, dropWhile_idempotent]
  have hwhole := at_whole num input
  rw [fromGeojson, ByteCursor.whole_eq hwhole, ← hspec]
  have hfueled := hwhole.fueled
  have hread : (do skipWhile isWhitespace; let v ← Spatial.parseValue num (input.length + 1); skipWhile isWhitespace
                   return v : JsonReader (JsonValue F)) input =
      (Spatial.parseValue num (input.length + 1) input).map fun read => (read.1, read.2.dropWhile isWhitespace) := by
    simp only [bind, StateT.bind, Except.bind, skipWhile, hskip]
    cases Spatial.parseValue num (input.length + 1) input <;> rfl
  rw [hread] at hfueled ⊢
  cases hvalue : Spatial.parseValue num (input.length + 1) input with
  | error e =>
    rw [hvalue] at hfueled
    have hstop := hfueled e rfl
    cases e with
    | panicked =>
      refine iff_of_false ?_ (by simp)
      rintro (⟨g, h⟩ | ⟨e, h⟩)
      · cases h
      · cases h
    | outOfFuel => exact absurd rfl hstop
    | _ => exact iff_of_true (Or.inr ⟨_, rfl⟩) (by simp)
  | ok read =>
    obtain ⟨v, mid⟩ := read
    refine iff_of_true ?_ (by simp)
    cases hmid : mid.dropWhile isWhitespace with
    | cons c rest => exact Or.inr ⟨_, by simp only [Except.map, hmid]; rfl⟩
    | nil =>
      simp only [Except.map, hmid]
      cases hgeometry : jsonToGeometry v with
      | ok g => exact Or.inl ⟨g, rfl⟩
      | error e =>
        obtain ⟨message, rfl⟩ := invalid_jsonToGeometry v e hgeometry
        exact Or.inr ⟨_, rfl⟩

end

end JsonParser

/-- **The parsers of geometries return on every text without an escape that is cut**, and on no other. -/
theorem parsers_return_iff {F : Type} (num : Decimals F) (alphabetic : Char → Bool) (input : List Char) :
    Stop.Returns (WktParser.fromWkt num alphabetic input) ∧ Stop.Returns (JsonParser.fromGeojson num input) ↔
      ¬JsonParser.CutValue num input := by
  rw [JsonParser.returns_fromGeojson_iff]
  exact and_iff_right (WktParser.returns_fromWkt num alphabetic input)

/-- Three digits and a character of two bytes behind a `\u`. -/
theorem cut_escape_panics :
    JsonParser.fromGeojson wholeNumbers ['"', '\\', 'u', '0', '0', 'e', 'é', '"'] = .error .panic ∧
      ¬∀ input, Stop.Returns (WktParser.fromWkt wholeNumbers isAlphabetic input) ∧
        Stop.Returns (JsonParser.fromGeojson wholeNumbers input) := by
  have hpanic : JsonParser.fromGeojson wholeNumbers ['"', '\\', 'u', '0', '0', 'e', 'é', '"'] = .error .panic := rfl
  refine ⟨hpanic, fun h => ?_⟩
  have hreturns := (h ['"', '\\', 'u', '0', '0', 'e', 'é', '"']).2
  rw [hpanic] at hreturns
  rcases hreturns with ⟨g, hg⟩ | ⟨e, he⟩
  · cases hg
  · cases he

end CenDB.Spatial
