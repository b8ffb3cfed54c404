import CenDB.Lib.Reader

/-! # JSON texts

A reader of the standard format: the texts of numbers are kept, strings are lists of characters, and the
members of an object are kept in order.  Pairs of escaped surrogates stand for one character; a single one
stands for none, and the text is rejected.

`body_written_iff` is about writers that put the characters of a string between quotes as they are: such a
string is read back exactly if no character would have needed an escape. -/

namespace Json

open Reader List

inductive Value where
  | null
  | bool (b : Bool)
  | number (text : List Char)
  | string (s : List Char)
  | array (items : List Value)
  | object (members : List (List Char × Value))

abbrev JsonReader := Reader Char Unit

def isBlank (c : Char) : Bool := c == ' ' || c == '\t' || c == '\n' || c == '\r'

/-! ### Strings -/

def hexValue (c : Char) : Option ℕ :=
  if c.isDigit then some (c.toNat - 48)
  else if 'a' ≤ c ∧ c ≤ 'f' then some (c.toNat - 87)
  else if 'A' ≤ c ∧ c ≤ 'F' then some (c.toNat - 55)
  else none

/-- Four hexadecimal digits. -/
def hexUnit : List Char → Option (ℕ × List Char)
  | d₃ :: d₂ :: d₁ :: d₀ :: rest => do
    let d₃ ← hexValue d₃
    let d₂ ← hexValue d₂
    let d₁ ← hexValue d₁
    let d₀ ← hexValue d₀
    return (((d₃ * 16 + d₂) * 16 + d₁) * 16 + d₀, rest)
  | _ => none

/-- The second unit of a pair. -/
def lowSurrogate : List Char → Option (ℕ × List Char)
  | '\\' :: 'u' :: rest => do
    let (low, rest) ← hexUnit rest
    if 0xDC00 ≤ low ∧ low < 0xE000 then return (low, rest) else none
  | _ => none

def unicodeEscape (text : List Char) : Option (Char × List Char) := do
  let (unit, rest) ← hexUnit text
  if unit < 0xD800 ∨ 0xE000 ≤ unit then return (Char.ofNat unit, rest)
  else if unit < 0xDC00 then do
    let (low, rest) ← lowSurrogate rest
    return (Char.ofNat (0x10000 + (unit - 0xD800) * 0x400 + (low - 0xDC00)), rest)
  else none

def letterEscape (c : Char) : Option Char :=
  match c with
  | '"' => some '"'
  | '\\' => some '\\'
  | '/' => some '/'
  | 'b' => some (Char.ofNat 8)
  | 'f' => some (Char.ofNat 12)
  | 'n' => some '\n'
  | 'r' => some '\r'
  | 't' => some '\t'
  | _ => none

/-- The character that an escape stands for, after the backslash. -/
def escape : List Char → Option (Char × List Char)
  | [] => none
  | c :: rest => if c = 'u' then unicodeEscape rest else (letterEscape c).map fun x => (x, rest)

variable {text rest s : List Char} {c : Char} {quotes : Bool} {v : Value}

theorem hexUnit_eq_some {unit : ℕ} (h : hexUnit text = some (unit, rest)) :
    ∃ digits, text = digits ++ rest ∧ '"' ∉ digits := by
  have hdigit : ∀ {c n}, hexValue c = some n → c ≠ '"' := by
    rintro c n h rfl
    cases h
  rcases text with _ | ⟨d₃, _ | ⟨d₂, _ | ⟨d₁, _ | ⟨d₀, text⟩⟩⟩⟩
  · cases h
  · cases h
  · cases h
  · cases h
  · simp only [hexUnit, Option.bind_eq_bind, Option.bind_eq_some_iff] at h
    obtain ⟨n₃, h₃, n₂, h₂, n₁, h₁, n₀, h₀, heq⟩ := h
    cases heq
    refine ⟨[d₃, d₂, d₁, d₀], rfl, ?_⟩
    simp [(hdigit h₃).symm, (hdigit h₂).symm, (hdigit h₁).symm, (hdigit h₀).symm]

theorem escape_unicode_eq_none (h : hexValue c = none) (text : List Char) : escape ('u' :: c :: text) = none := by
  have hunit : hexUnit (c :: text) = none := by
    rcases text with _ | ⟨d₂, _ | ⟨d₁, _ | ⟨d₀, text⟩⟩⟩
    · rfl
    · rfl
    · rfl
    · simp only [hexUnit, h]
      rfl
  rw [escape, if_pos rfl, unicodeEscape, hunit]
  rfl

theorem unicodeEscape_eq_some (h : unicodeEscape text = some (c, rest)) :
    ∃ digits, text = digits ++ rest ∧ '"' ∉ digits := by
  rw [unicodeEscape, Option.bind_eq_bind, Option.bind_eq_some_iff] at h
  obtain ⟨⟨unit, mid⟩, hunit, h⟩ := h
  obtain ⟨digits, rfl, hdigits⟩ := hexUnit_eq_some hunit
  dsimp only at h
  split_ifs at h
  · cases h
    exact ⟨digits, rfl, hdigits⟩
  · rw [Option.bind_eq_some_iff] at h
    obtain ⟨⟨low, mid'⟩, hlow, h⟩ := h
    rw [Option.pure_def, Option.some_inj, Prod.mk.injEq] at h
    obtain ⟨-, rfl⟩ := h
    rw [lowSurrogate.eq_def] at hlow
    split at hlow
    · rw [Option.bind_eq_bind, Option.bind_eq_some_iff] at hlow
      obtain ⟨⟨low', mid₂⟩, hlow', h⟩ := hlow
      obtain ⟨digits', rfl, hdigits'⟩ := hexUnit_eq_some hlow'
      dsimp only at h
      split_ifs at h
      cases h
      exact ⟨digits ++ '\\' :: 'u' :: digits', by simp, by simp [hdigits, hdigits']⟩
    · cases hlow

/-- An escape takes a quote only where it stands for one. -/
theorem escape_eq_some (h : escape text = some (c, rest)) :
    ∃ taken, text = taken ++ rest ∧ taken ≠ [] ∧ ('"' ∉ taken ∨ taken = ['"'] ∧ c = '"') := by
  cases text with
  | nil => cases h
  | cons e text =>
    rw [escape] at h
    split_ifs at h with hu
    · obtain ⟨digits, rfl, hdigits⟩ := unicodeEscape_eq_some h
      exact ⟨e :: digits, rfl, cons_ne_nil _ _, .inl (by simp [hu, hdigits])⟩
    · obtain ⟨x, hx, heq⟩ := Option.map_eq_some_iff.mp h
      cases heq
      by_cases hquote : e = '"'
      · subst hquote
        cases hx
        exact ⟨['"'], rfl, cons_ne_nil _ _, .inr ⟨rfl, rfl⟩⟩
      · exact ⟨[e], rfl, cons_ne_nil _ _, .inl (by simpa using Ne.symm hquote)⟩

/-- The string after its opening quote, and what follows the closing one. -/
def body (text : List Char) : Option (List Char × List Char) :=
  match text with
  | [] => none
  | c :: text =>
    if c = '"' then some ([], text)
    else if c = '\\' then
      match _h : escape text with
      | some (x, rest) => (body rest).map (Prod.map (x :: ·) id)
      | none => none
    else if c.toNat < 0x20 then none
    else (body text).map (Prod.map (c :: ·) id)
termination_by text.length
decreasing_by
  · obtain ⟨taken, rfl, -, -⟩ := escape_eq_some _h
    simp only [length_cons, length_append]
    omega
  · simp

theorem body_quote (text : List Char) : body ('"' :: text) = some ([], text) := by simp [body]

theorem body_plain (hquote : c ≠ '"') (hslash : c ≠ '\\') (hcontrol : 0x20 ≤ c.toNat) (text : List Char) :
    body (c :: text) = (body text).map (Prod.map (c :: ·) id) := by
  rw [body, if_neg hquote, if_neg hslash, if_neg (Nat.not_lt.mpr hcontrol)]

theorem body_escape (h : escape text = some (c, rest)) :
    body ('\\' :: text) = (body rest).map (Prod.map (c :: ·) id) := by
  rw [body, if_neg (by decide), if_pos rfl]
  split
  · next x rest' h' =>
      rw [h] at h'
      cases h'
      rfl
  · next h' =>
      rw [h] at h'
      cases h'

theorem body_letter {e : Char} (h : letterEscape e = some c) (text : List Char) :
    body ('\\' :: e :: text) = (body text).map (Prod.map (c :: ·) id) := by
  have hu : e ≠ 'u' := by
    rintro rfl
    cases h
  refine body_escape ?_
  rw [escape, if_neg hu, h]
  rfl

theorem body_bad_escape (h : escape text = none) : body ('\\' :: text) = none := by
  rw [body, if_neg (by decide), if_pos rfl]
  split
  · next x rest h' =>
      rw [h] at h'
      cases h'
  · rfl

theorem body_control (h : c.toNat < 0x20) (text : List Char) : body (c :: text) = none := by
  have hne : ∀ d : Char, 0x20 ≤ d.toNat → c ≠ d := fun d hd heq => by
    rw [heq] at h
    omega
  rw [body, if_neg (hne '"' (by decide)), if_neg (hne '\\' (by decide)), if_pos h]

theorem map_cons_eq_some {read : Option (List Char × List Char)} :
    read.map (Prod.map (c :: ·) id) = some (c :: s, rest) ↔ read = some (s, rest) := by simp

/-- How a string begins that is not empty. -/
theorem body_eq_cons (h : body text = some (c :: s, rest)) :
    (∃ text', text = c :: text' ∧ c ≠ '"' ∧ c ≠ '\\' ∧ 0x20 ≤ c.toNat ∧ body text' = some (s, rest)) ∨
      ∃ text' text'', text = '\\' :: text' ∧ escape text' = some (c, text'') ∧ body text'' = some (s, rest) := by
  cases text with
  | nil =>
    rw [body] at h
    cases h
  | cons d text =>
    rw [body] at h
    split_ifs at h with hquote hslash hcontrol
    · cases h
    · split at h
      · next x text'' hescape =>
          obtain ⟨⟨s', rest'⟩, hbody, heq⟩ := Option.map_eq_some_iff.mp h
          cases heq
          exact .inr ⟨text, text'', hslash ▸ rfl, hescape, hbody⟩
      · cases h
    · obtain ⟨⟨s', rest'⟩, hbody, heq⟩ := Option.map_eq_some_iff.mp h
      cases heq
      exact .inl ⟨text, rfl, hquote, hslash, Nat.not_lt.mp hcontrol, hbody⟩

/-! ### Strings written as they are -/

/-- The characters of a string, with a backslash in front of quotes or without. -/
def written (quotes : Bool) (s : List Char) : List Char :=
  s.flatMap fun c => if quotes && c = '"' then ['\\', '"'] else [c]

/-- No character of the string needs an escape, other than quotes that have one. -/
def Clean (quotes : Bool) (s : List Char) : Prop := ∀ c ∈ s, c ≠ '\\' ∧ 0x20 ≤ c.toNat ∧ (c = '"' → quotes = true)

instance (quotes : Bool) (s : List Char) : Decidable (Clean quotes s) := List.decidableBAll _ s

theorem written_false (s : List Char) : written false s = s := by
  rw [written]
  simp

theorem written_cons (quotes : Bool) (c : Char) (s : List Char) : written quotes (c :: s) =
    (if quotes && c = '"' then ['\\', '"'] else [c]) ++ written quotes s := flatMap_cons

theorem written_cons_of_ne (quotes : Bool) (hc : c ≠ '"') (s : List Char) :
    written quotes (c :: s) = c :: written quotes s := by
  rw [written_cons, decide_eq_false hc, Bool.and_false, if_neg Bool.false_ne_true, singleton_append]

theorem written_quote (s : List Char) : written true ('"' :: s) = '\\' :: '"' :: written true s := by rfl

/-- A clean string is read back. -/
theorem body_written (h : Clean quotes s) (rest : List Char) :
    body (written quotes s ++ '"' :: rest) = some (s, rest) := by
  induction s with
  | nil => exact body_quote rest
  | cons c s ih =>
    rw [Clean, forall_mem_cons] at h
    obtain ⟨⟨hslash, hcontrol, hquote⟩, hs⟩ := h
    by_cases hc : c = '"'
    · subst hc
      obtain rfl : quotes = true := hquote rfl
      have hescape : escape ('"' :: (written true s ++ '"' :: rest)) = some ('"', written true s ++ '"' :: rest) :=
        rfl
      rw [written_quote, cons_append, cons_append, body_escape hescape, ih hs]
      rfl
    · rw [written_cons_of_ne quotes hc, cons_append, body_plain hc hslash hcontrol, ih hs]
      rfl

/-- Where a part without quotes of a written string ends: after some characters, or between a quote and its
backslash. -/
theorem split_written {taken : List Char} (hquote : '"' ∉ taken)
    (h : taken ++ text = written quotes s ++ '"' :: rest) :
    (∃ s', s = taken ++ s' ∧ text = written quotes s' ++ '"' :: rest) ∨
      ∃ s₁ s₂ text', s = s₁ ++ '"' :: s₂ ∧ taken = s₁ ++ ['\\'] ∧ text = '"' :: text' := by
  induction taken generalizing s with
  | nil => exact .inl ⟨s, rfl, h⟩
  | cons t taken ih =>
    rw [mem_cons, not_or] at hquote
    cases s with
    | nil =>
      cases h
      exact absurd rfl hquote.1
    | cons c s =>
      by_cases hc : c = '"'
      · subst hc
        cases quotes with
        | false =>
          rw [written_false, cons_append, cons_append, List.cons.injEq] at h
          exact absurd h.1.symm hquote.1
        | true =>
          rw [written_quote, cons_append, cons_append, List.cons.injEq] at h
          obtain ⟨rfl, h⟩ := h
          cases taken with
          | nil => exact .inr ⟨[], s, _, rfl, rfl, h⟩
          | cons t taken =>
            rw [cons_append, cons_append, List.cons.injEq] at h
            exact absurd (h.1 ▸ mem_cons_self) hquote.2
      · rw [written_cons_of_ne quotes hc, cons_append, cons_append, List.cons.injEq] at h
        obtain ⟨rfl, h⟩ := h
        rcases ih hquote.2 h with ⟨s', rfl, htext⟩ | ⟨s₁, s₂, text', rfl, rfl, htext⟩
        · exact .inl ⟨s', rfl, htext⟩
        · exact .inr ⟨t :: s₁, s₂, text', rfl, rfl, htext⟩

variable {rest' w ds signs : List Char} {b : Char}

/-- The first character of a written string that is not empty, as it is read: itself, or a backslash and what
goes with it. -/
theorem body_written_cons {x : Char} {tail : List Char}
    (h : body (written quotes (c :: s) ++ '"' :: rest) = some (x :: tail, rest')) :
    (x = c ∧ (c ≠ '\\' ∧ 0x20 ≤ c.toNat ∧ (c = '"' → quotes = true)) ∧
        body (written quotes s ++ '"' :: rest) = some (tail, rest')) ∨
      c = '\\' ∧ (x = '"' ∨ (tail = [] ∧ s ≠ []) ∨ ∃ taken s', s = taken ++ s' ∧ taken ≠ [] ∧ '"' ∉ taken ∧
        body (written quotes s' ++ '"' :: rest) = some (tail, rest')) := by
  by_cases hc : c = '"'
  · subst hc
    cases quotes with
    | false =>
      rw [written_false, cons_append, body_quote] at h
      cases h
    | true =>
      have hescape : escape ('"' :: (written true s ++ '"' :: rest)) =
          some ('"', written true s ++ '"' :: rest) := rfl
      rw [written_quote, cons_append, cons_append, body_escape hescape] at h
      obtain ⟨⟨tail', rest''⟩, hbody, heq⟩ := Option.map_eq_some_iff.mp h
      cases heq
      exact .inl ⟨rfl, ⟨by decide, by decide, fun _ => rfl⟩, hbody⟩
  · rw [written_cons_of_ne quotes hc, cons_append] at h
    rcases body_eq_cons h with ⟨text', htext, -, hslash, hcontrol, hbody⟩ | ⟨text', text'', htext, hescape, hbody⟩
    · cases htext
      exact .inl ⟨rfl, ⟨hslash, hcontrol, fun hquote => absurd hquote hc⟩, hbody⟩
    · rw [List.cons.injEq] at htext
      obtain ⟨rfl, rfl⟩ := htext
      refine .inr ⟨rfl, ?_⟩
      obtain ⟨taken, htaken, hne, hquote | ⟨-, hx⟩⟩ := escape_eq_some hescape
      · rcases split_written hquote htaken.symm with ⟨s', hs', rfl⟩ | ⟨s₁, s₂, text', hs, -, rfl⟩
        · exact .inr (.inr ⟨taken, s', hs', hne, hquote, hbody⟩)
        · rw [body_quote] at hbody
          cases hbody
          exact .inr (.inl ⟨rfl, by simp [hs]⟩)
      · exact .inl hx

/-- A written string is not read as itself behind other characters, and as itself only if it is clean.  An
escape in it would have to make up for what it takes with characters that come before. -/
theorem clean_of_body {front : List Char} (hfront : '"' ∉ front)
    (h : body (written quotes s ++ '"' :: rest) = some (front ++ s, rest')) : front = [] ∧ Clean quotes s := by
  induction hlen : s.length using Nat.strong_induction_on generalizing s front with
  | _ n ih =>
    cases s with
    | nil =>
      rw [append_nil] at h
      cases (body_quote rest).symm.trans h
      exact ⟨rfl, nofun⟩
    | cons c s =>
      rw [length_cons] at hlen
      cases front with
      | nil =>
        rcases body_written_cons h with ⟨-, hc, hbody⟩ | ⟨rfl, hx | ⟨hs, hne⟩ | ⟨taken, s', rfl, hne, hquote, hbody⟩⟩
        · exact ⟨rfl, forall_mem_cons.mpr ⟨hc, (ih s.length (by omega) not_mem_nil hbody rfl).2⟩⟩
        · cases hx
        · exact absurd hs hne
        · rw [length_append] at hlen
          exact absurd (ih s'.length (by omega) hquote hbody rfl).1 hne
      | cons x front =>
        rw [mem_cons, not_or] at hfront
        rw [cons_append] at h
        rcases body_written_cons h with ⟨rfl, -, hbody⟩ | ⟨rfl, hx | ⟨hs, -⟩ | ⟨taken, s', rfl, hne, hquote, hbody⟩⟩
        · have hmore : body (written quotes s ++ '"' :: rest) = some ((front ++ [x]) ++ s, rest') := by
            simp [hbody]
          exact absurd (ih s.length (by omega) (by simp [hfront.1, hfront.2]) hmore rfl).1 (by simp)
        · exact absurd hx.symm hfront.1
        · exact absurd hs (by simp)
        · rw [length_append] at hlen
          have hmore : body (written quotes s' ++ '"' :: rest) =
              some ((front ++ '\\' :: taken) ++ s', rest') := by simp [hbody]
          exact absurd (ih s'.length (by omega) (by simp [hfront.2, hquote]) hmore rfl).1 (by simp)

/-- **A string that is written as it is, is read back exactly if it is clean.** -/
theorem body_written_iff :
    body (written quotes s ++ '"' :: rest) = some (s, rest') ↔ rest' = rest ∧ Clean quotes s := by
  constructor
  · intro h
    have hclean := (clean_of_body not_mem_nil (h.trans (by rw [List.nil_append]))).2
    rw [body_written hclean] at h
    cases h
    exact ⟨rfl, hclean⟩
  · rintro ⟨rfl, hclean⟩
    exact body_written hclean _

/-! ### Values -/

def string : JsonReader (List Char) := fun text =>
  match text with
  | '"' :: text =>
    match body text with
    | some read => .ok read
    | none => .error ()
  | _ => .error ()

def someDigits : JsonReader (List Char) := do
  let digits ← takeWhile Char.isDigit
  if digits = [] then throw () else return digits

/-- The digits before the point; a zero stands alone. -/
def whole : JsonReader (List Char) := do
  let digits ← someDigits
  if digits.head? = some '0' ∧ digits ≠ ['0'] then throw () else return digits

/-- A sign that is one of those given, or none. -/
def sign (signs : List Char) : JsonReader (List Char) := do
  match ← peek with
  | some c => if signs.contains c then do bump; return [c] else return []
  | none => return []

def fraction : JsonReader (List Char) := do
  if (← peek) = some '.' then do
    bump
    let digits ← someDigits
    return '.' :: digits
  else return []

def exponent : JsonReader (List Char) := do
  match ← peek with
  | some e =>
    if e = 'e' || e = 'E' then do
      bump
      let sign ← sign ['-', '+']
      let digits ← someDigits
      return e :: (sign ++ digits)
    else return []
  | none => return []

def number : JsonReader (List Char) := do
  let sign ← sign ['-']
  let digits ← whole
  let fraction ← fraction
  let exponent ← exponent
  return sign ++ (digits ++ (fraction ++ exponent))

def word (w : String) (v : Value) : JsonReader Value := fun text =>
  if w.toList.isPrefixOf text then .ok (v, text.drop w.length) else .error ()

/-- A key, a colon and a value. -/
def member (value : JsonReader Value) : JsonReader (List Char × Value) := do
  skipWhile isBlank
  let key ← string
  skipWhile isBlank
  if (← peek) = some ':' then do
    bump
    (fun v => (key, v)) <$> value
  else throw ()

/-- A value that begins with `c`; `value` reads what is nested in it. -/
def valueFrom (value : JsonReader Value) (c : Char) : JsonReader Value :=
  if c = '\x7b' then do
    bump
    .object <$> separated (member value) isBlank ',' '\x7d' (fun _ => ())
  else if c = '[' then do
    bump
    .array <$> separated value isBlank ',' ']' (fun _ => ())
  else if c = '"' then .string <$> string
  else if c = 't' then word "true" (.bool true)
  else if c = 'f' then word "false" (.bool false)
  else if c = 'n' then word "null" .null
  else .number <$> number

/-- The fuel bounds the nesting. -/
def value : ℕ → JsonReader Value
  | 0 => throw ()
  | fuel + 1 => do
    skipWhile isBlank
    match ← peek with
    | some c => valueFrom (value fuel) c
    | none => throw ()

/-- The value of a whole text. -/
def parse (text : List Char) : Option Value :=
  match (do
    let v ← value (text.length + 1)
    skipWhile isBlank
    return v : JsonReader Value) text with
  | .ok (v, []) => some v
  | _ => none

/-! ### Texts that are read as a value -/

/-- May go on with a number. -/
def numberChar (c : Char) : Bool := c.isDigit || c == '.' || c == 'e' || c == 'E'

/-- In front of what does not go on with a number, the text is read as the value exactly if the condition
holds; it begins with neither a blank nor a bracket that closes. -/
structure ReadsIff (text : List Char) (v : Value) (c : Prop) : Prop where
  head : ∃ b t, text = b :: t ∧ isBlank b = false ∧ b ≠ ']'
  reads : ∀ fuel, text.length ≤ fuel → Exactly (value fuel) (Until numberChar) text v c

theorem ReadsIff.congr {c d : Prop} (h : ReadsIff text v c) (hcd : c ↔ d) :
    ReadsIff text v d := ⟨h.head, fun fuel hfuel => (h.reads fuel hfuel).congr hcd⟩

/-- A value is read by what its first character says. -/
theorem value_cons (hblank : isBlank b = false) (fuel : ℕ) (text : List Char) :
    value (fuel + 1) (b :: text) = valueFrom (value fuel) b (b :: text) := by
  have hskip := skipWhile_cons (ε := Unit) hblank text
  rw [value]
  simp only [bind, StateT.bind, Except.bind, hskip]
  rfl

theorem readsIff_of_valueFrom {t : List Char} {c : Prop} (hblank : isBlank b = false) (hb : b ≠ ']')
    (hread : ∀ fuel, t.length ≤ fuel → Exactly (valueFrom (value fuel) b) (Until numberChar) (b :: t) v c) :
    ReadsIff (b :: t) v c where
  head := ⟨b, t, rfl, hblank, hb⟩
  reads fuel hfuel := by
    cases fuel with
    | zero => cases hfuel
    | succ fuel =>
      intro rest hrest rest'
      rw [cons_append, value_cons hblank]
      exact hread fuel (Nat.le_of_succ_le_succ hfuel) rest hrest rest'

theorem parse_eq_some : parse text = some v ↔
    ∃ rest, value (text.length + 1) text = .ok (v, rest) ∧ rest.dropWhile isBlank = [] := by
  rw [parse]
  simp only [bind, StateT.bind, Except.bind, skipWhile, pure_apply]
  cases value (text.length + 1) text with
  | error e => simp
  | ok read =>
    obtain ⟨v', rest⟩ := read
    dsimp only
    cases hrest : rest.dropWhile isBlank with
    | nil =>
      simp only [Option.some_inj, Except.ok.injEq, Prod.mk.injEq]
      constructor
      · exact fun h => ⟨rest, ⟨h, rfl⟩, hrest⟩
      · rintro ⟨rest', h, -⟩
        exact h.1
    | cons b rest' =>
      constructor
      · intro h
        cases h
      · rintro ⟨rest'', heq, hnil⟩
        cases heq
        rw [hrest] at hnil
        cases hnil

theorem parse_iff {c : Prop} (h : ReadsIff text v c) : parse text = some v ↔ c := by
  have hread := h.reads (text.length + 1) (Nat.le_succ _) [] (until_nil _)
  rw [append_nil] at hread
  rw [parse_eq_some]
  constructor
  · rintro ⟨rest, hvalue, -⟩
    exact ((hread rest).mp hvalue).2
  · exact fun hc => ⟨[], (hread []).mpr ⟨rfl, hc⟩, rfl⟩

/-- A string is read as the body of the text is. -/
theorem exactly_string {c : Prop} (h : ∀ rest rest', body (w ++ '"' :: rest) = some (s, rest') ↔ rest' = rest ∧ c) :
    Exactly string Any ('"' :: (w ++ ['"'])) s c := by
  intro rest _ rest'
  have htext : '"' :: (w ++ ['"']) ++ rest = '"' :: (w ++ '"' :: rest) := by simp
  rw [htext, ← h, string]
  cases body (w ++ '"' :: rest) <;> simp

theorem readsIff_string {c : Prop} (h : ∀ rest rest', body (w ++ '"' :: rest) = some (s, rest') ↔ rest' = rest ∧ c) :
    ReadsIff ('"' :: (w ++ ['"'])) (.string s) c :=
  readsIff_of_valueFrom rfl (by decide) fun _ _ =>
    ((exactly_string h).map fun _ heq => Value.string.inj heq).mono fun _ _ => trivial

/-! ### Words and numbers -/

theorem takes_word (w : String) (v : Value) : Takes (word w v) Any w.toList v := by
  intro rest _
  have hprefix : w.toList.isPrefixOf (w.toList ++ rest) = true := isPrefixOf_iff_prefix.mpr (prefix_append _ _)
  rw [word, if_pos hprefix, ← String.length_toList, drop_left]

theorem readsIff_null : ReadsIff "null".toList .null True :=
  readsIff_of_valueFrom rfl (by decide) fun _ _ => (takes_word "null" .null).exactly.mono fun _ _ => trivial

theorem readsIff_bool (b : Bool) : ReadsIff (toString b).toList (.bool b) True := by
  cases b with
  | false =>
    exact readsIff_of_valueFrom rfl (by decide) fun _ _ =>
      (takes_word "false" (.bool false)).exactly.mono fun _ _ => trivial
  | true =>
    exact readsIff_of_valueFrom rfl (by decide) fun _ _ =>
      (takes_word "true" (.bool true)).exactly.mono fun _ _ => trivial

structure Digits (ds : List Char) : Prop where
  ne : ds ≠ []
  isDigit : ∀ c ∈ ds, c.isDigit = true

/-- A number: the digits before the point have no zero in front. -/
structure NumberParts (sign whole fraction exponent : List Char) : Prop where
  sign : sign = [] ∨ sign = ['-']
  zero : whole.head? = some '0' → whole = ['0']
  whole : Digits whole
  fraction : fraction = [] ∨ ∃ ds, fraction = '.' :: ds ∧ Digits ds
  exponent : exponent = [] ∨ ∃ e s ds, exponent = e :: (s ++ ds) ∧ (e = 'e' ∨ e = 'E') ∧
    (s = [] ∨ s = ['-'] ∨ s = ['+']) ∧ Digits ds

def NumberText (text : List Char) : Prop :=
  ∃ sign whole fraction exponent, text = sign ++ (whole ++ (fraction ++ exponent)) ∧
    NumberParts sign whole fraction exponent

theorem Digits.until (h : Digits ds) {p : Char → Bool} (hp : ∀ c, c.isDigit = true → p c = false) :
    Until p (ds ++ rest) := by
  obtain ⟨d, ds', rfl⟩ := exists_cons_of_ne_nil h.ne
  exact until_cons.mpr (hp d (h.isDigit d mem_cons_self))

/-- A digit is none of these characters. -/
theorem contains_eq_false (hsigns : ∀ s ∈ signs, s.isDigit = false) (hc : c.isDigit = true) :
    signs.contains c = false := by
  rw [Bool.eq_false_iff]
  intro hmem
  rw [hsigns c (contains_iff_mem.mp hmem)] at hc
  cases hc

theorem takes_sign (h : s = [] ∨ ∃ c, s = [c] ∧ signs.contains c = true) :
    Takes (sign signs) (Until signs.contains) s s := by
  intro rest hrest
  rcases h with rfl | ⟨c, rfl, hc⟩
  · cases rest with
    | nil => rfl
    | cons d rest =>
      rw [List.nil_append]
      simp only [sign, bind, StateT.bind, Except.bind, peek, head?_cons]
      rw [if_neg (by rw [until_cons.mp hrest]; exact Bool.false_ne_true)]
      rfl
  · rw [singleton_append]
    simp only [sign, bind, StateT.bind, Except.bind, peek, head?_cons]
    rw [if_pos hc]
    rfl

theorem takes_someDigits (h : Digits ds) : Takes someDigits (Until Char.isDigit) ds ds := by
  intro rest hrest
  have htake := takes_takeWhile (ε := Unit) h.isDigit rest hrest
  simp only [someDigits, bind, StateT.bind, Except.bind, htake]
  rw [if_neg h.ne]
  rfl

theorem takes_whole (h : Digits ds) (hzero : ds.head? = some '0' → ds = ['0']) :
    Takes whole (Until Char.isDigit) ds ds := by
  intro rest hrest
  simp only [whole, bind, StateT.bind, Except.bind, takes_someDigits h rest hrest]
  rw [if_neg fun hlong => hlong.2 (hzero hlong.1)]
  rfl

/-- May go on with a fraction. -/
def fractionChar (c : Char) : Bool := c.isDigit || c == '.'

theorem takes_fraction {f : List Char} (h : f = [] ∨ ∃ ds, f = '.' :: ds ∧ Digits ds) :
    Takes fraction (Until fractionChar) f f := by
  intro rest hrest
  rcases h with rfl | ⟨ds, rfl, hds⟩
  · have hdot : rest.head? ≠ some '.' := fun hhead => by cases hrest '.' hhead
    rw [List.nil_append]
    simp only [fraction, bind, StateT.bind, Except.bind, peek]
    rw [if_neg hdot]
    rfl
  · have hdigits := takes_someDigits hds rest fun c hc => (Bool.or_eq_false_iff.mp (hrest c hc)).1
    rw [cons_append]
    simp only [fraction, bind, StateT.bind, Except.bind, peek, head?_cons]
    rw [if_pos trivial]
    simp only [bump, tail_cons, StateT.bind, bind, Except.bind, hdigits]
    rfl

theorem until_isDigit (hrest : Until numberChar rest) : Until Char.isDigit rest := by
  intro c hc
  have hc' := hrest c hc
  simp only [numberChar, Bool.or_eq_false_iff] at hc'
  exact hc'.1.1.1

theorem takes_exponent {x : List Char} (h : x = [] ∨ ∃ e s ds, x = e :: (s ++ ds) ∧ (e = 'e' ∨ e = 'E') ∧
    (s = [] ∨ s = ['-'] ∨ s = ['+']) ∧ Digits ds) : Takes exponent (Until numberChar) x x := by
  intro rest hrest
  rcases h with rfl | ⟨e, s, ds, rfl, he, hs, hds⟩
  · cases rest with
    | nil => rfl
    | cons e rest =>
      have he := until_cons.mp hrest
      simp only [numberChar, Bool.or_eq_false_iff, beq_eq_false_iff_ne] at he
      rw [List.nil_append]
      simp only [exponent, bind, StateT.bind, Except.bind, peek, head?_cons]
      rw [if_neg (by simp [he])]
      rfl
  · have hsign : s = [] ∨ ∃ c, s = [c] ∧ ['-', '+'].contains c = true := by
      rcases hs with rfl | rfl | rfl
      · simp
      · simp
      · simp
    have hread := takes_sign hsign (ds ++ rest) (hds.until fun c => contains_eq_false (by simp))
    have hdigits := takes_someDigits hds rest (until_isDigit hrest)
    rw [cons_append, append_assoc]
    simp only [exponent, bind, StateT.bind, Except.bind, peek, head?_cons]
    rw [if_pos (by simpa using he)]
    simp only [bump, tail_cons, StateT.bind, bind, Except.bind, hread, hdigits]
    rfl

theorem takes_number (h : NumberText text) : Takes number (Until numberChar) text text := by
  obtain ⟨sign, whole, fraction, exponent, rfl, h⟩ := h
  have hsign : sign = [] ∨ ∃ c, sign = [c] ∧ ['-'].contains c = true :=
    h.sign.imp_right fun hminus => ⟨'-', hminus, rfl⟩
  have hbehindFraction : ∀ rest, Until numberChar rest → Until fractionChar (exponent ++ rest) := by
    intro rest hrest
    rcases h.exponent with rfl | ⟨e, s, ds, rfl, he, -⟩
    · intro c hc
      have hc' := hrest c hc
      simp only [numberChar, Bool.or_eq_false_iff] at hc'
      exact Bool.or_eq_false_iff.mpr hc'.1.1
    · rw [cons_append, until_cons]
      rcases he with rfl | rfl <;> rfl
  have hbehindWhole : ∀ rest, Until numberChar rest → Until Char.isDigit (fraction ++ exponent ++ rest) := by
    intro rest hrest
    rcases h.fraction with rfl | ⟨ds, rfl, -⟩
    · exact fun c hc => (Bool.or_eq_false_iff.mp (hbehindFraction rest hrest c hc)).1
    · exact until_cons.mpr rfl
  have hbehindSign : ∀ rest, Until numberChar rest →
      Until (['-'].contains) (whole ++ (fraction ++ exponent) ++ rest) := by
    intro rest _
    rw [append_assoc]
    exact h.whole.until fun c => contains_eq_false (by simp)
  have hexponent := (takes_exponent h.exponent).bind_pure fun x => sign ++ (whole ++ (fraction ++ x))
  have hfraction := (takes_fraction h.fraction).bind (f := fun f => do
    let x ← Json.exponent
    return sign ++ (whole ++ (f ++ x))) hexponent hbehindFraction
  have hwhole := (takes_whole h.whole h.zero).bind (f := fun w => do
    let f ← Json.fraction
    let x ← Json.exponent
    return sign ++ (w ++ (f ++ x))) hfraction hbehindWhole
  exact (takes_sign hsign).bind hwhole hbehindSign

theorem NumberText.head (h : NumberText text) : ∃ b t, text = b :: t ∧ (b = '-' ∨ b.isDigit = true) := by
  obtain ⟨sign, whole, fraction, exponent, rfl, h⟩ := h
  obtain ⟨d, ds, hwhole⟩ := exists_cons_of_ne_nil h.whole.ne
  rcases h.sign with rfl | rfl
  · exact ⟨d, ds ++ (fraction ++ exponent), by rw [hwhole]; rfl, .inr (h.whole.isDigit d (by simp [hwhole]))⟩
  · simp

/-- A number has no other characters. -/
theorem NumberText.notMem (h : NumberText text) (hdigit : c.isDigit = false)
    (hc : c ∉ ['-', '+', '.', 'e', 'E']) : c ∉ text := by
  obtain ⟨sign, whole, fraction, exponent, rfl, h⟩ := h
  have hdigits : ∀ {ds}, Digits ds → c ∉ ds := fun hds hmem => by
    rw [hds.isDigit c hmem] at hdigit
    cases hdigit
  simp only [mem_cons, not_mem_nil, or_false, not_or] at hc
  obtain ⟨hminus, hplus, hpoint, hlower, hupper⟩ := hc
  have hsign : c ∉ sign := by
    rcases h.sign with rfl | rfl <;> simp [hminus]
  have hfraction : c ∉ fraction := by
    rcases h.fraction with rfl | ⟨ds, rfl, hds⟩
    · simp
    · simp [hpoint, hdigits hds]
  have hexponent : c ∉ exponent := by
    rcases h.exponent with rfl | ⟨e, s, ds, rfl, he, hs, hds⟩
    · simp
    · have hs' : c ∉ s := by
        rcases hs with rfl | rfl | rfl <;> simp [hminus, hplus]
      have he' : c ≠ e := by
        rcases he with rfl | rfl <;> assumption
      simp [he', hs', hdigits hds]
  simp [hsign, hdigits h.whole, hfraction, hexponent]

theorem readsIff_number (h : NumberText text) : ReadsIff text (.number text) True := by
  obtain ⟨b, t, htext, hb⟩ := h.head
  have hne : ∀ c : Char, c ≠ '-' → c.isDigit = false → b ≠ c := by
    rintro c hminus hdigit rfl
    rcases hb with rfl | hb
    · exact hminus rfl
    · rw [hdigit] at hb
      cases hb
  have hread := ((takes_number h).map Value.number).exactly
  rw [htext] at hread ⊢
  refine readsIff_of_valueFrom (by simp [isBlank, hne]) (hne _ (by decide) rfl) fun fuel _ => ?_
  rw [valueFrom, if_neg (hne _ (by decide) rfl), if_neg (hne _ (by decide) rfl), if_neg (hne _ (by decide) rfl),
    if_neg (hne _ (by decide) rfl), if_neg (hne _ (by decide) rfl), if_neg (hne _ (by decide) rfl)]
  exact hread

theorem head_toDigits (n : ℕ) : (Nat.toDigits 10 n).head? = some '0' → n = 0 := by
  induction n using Nat.strong_induction_on with
  | _ n ih =>
    rw [Nat.toDigits_eq_if (by decide)]
    split_ifs with h
    · simp
    · rw [head?_append_of_ne_nil _ Nat.toDigits_ne_nil]
      intro hhead
      have hzero := ih (n / 10) (by omega) hhead
      omega

theorem digits_toDigits (n : ℕ) : Digits (Nat.toDigits 10 n) :=
  ⟨Nat.toDigits_ne_nil, fun _ hc => Nat.isDigit_of_mem_toDigits (by decide) (by decide) hc⟩

/-- An integer is a number, with a minus sign or none. -/
theorem numberText_integer {sign : List Char} (hsign : sign = [] ∨ sign = ['-']) (n : ℕ) :
    NumberText (sign ++ Nat.toDigits 10 n) := by
  refine ⟨sign, Nat.toDigits 10 n, [], [], by simp, hsign, fun hhead => ?_, digits_toDigits n, .inl rfl, .inl rfl⟩
  rw [head_toDigits n hhead]
  rfl

/-! ### Arrays and objects -/

section
variable {δ : Type} {ds : List δ} {text key : δ → List Char} {val : δ → Value} {c : δ → Prop}

theorem until_numberChar_of_ends {close : Char} (hclose : numberChar close = false) {rest : List Char}
    (h : Ends ',' close rest) : Until numberChar rest := by
  intro b hb
  rcases h with h | h
  · rw [h, Option.mem_some] at hb
    rw [← hb]
    rfl
  · rw [h, Option.mem_some] at hb
    rw [← hb, hclose]

variable {P : List Char → Prop} {w : List Char}

/-- Padding in front of a value. -/
theorem exactly_padded {text : List Char} {v : Value} {c : Prop} {fuel : ℕ}
    (h : Exactly (value fuel) P text v c) : Exactly (value fuel) P (' ' :: text) v c := by
  intro rest hrest rest'
  rw [← h rest hrest]
  cases fuel with
  | zero => exact iff_of_false nofun nofun
  | succ fuel =>
    have hskip : (skipWhile isBlank : JsonReader Unit) (' ' :: (text ++ rest)) = skipWhile isBlank (text ++ rest) := by
      rfl
    rw [value, cons_append]
    simp only [bind, StateT.bind, hskip]

/-- **An array is read exactly if its items are.** -/
theorem readsIff_array (pad : List Char) (hpad : pad = [] ∨ pad = [' '])
    (hitems : ∀ d ∈ ds, ReadsIff (text d) (val d) (c d)) :
    ReadsIff ('[' :: (joined (',' :: pad) (ds.map text) ++ [']'])) (.array (ds.map val)) (∀ d ∈ ds, c d) := by
  refine readsIff_of_valueFrom rfl (by decide) fun fuel hfuel => ?_
  have hread : ∀ d ∈ ds, Exactly (value fuel) (Ends ',' ']') (text d) (val d) (c d) := by
    intro d hd
    have hle : (text d).length ≤ (joined (',' :: pad) (ds.map text)).length := length_le_joined (mem_map_of_mem hd)
    rw [length_append] at hfuel
    exact ((hitems d hd).reads fuel (by omega)).mono fun _ => until_numberChar_of_ends rfl
  have hpadded : ∀ d ∈ ds, Exactly (value fuel) (Ends ',' ']') (pad ++ text d) (val d) (c d) := by
    intro d hd
    rcases hpad with rfl | rfl
    · exact hread d hd
    · exact exactly_padded (hread d hd)
  have hmore : Exactly (separated (value fuel) isBlank ',' ']' fun _ => ()) Any
      (joined (',' :: pad) (ds.map text) ++ [']']) (ds.map val ++ []) ((∀ d ∈ ds, c d) ∧ ([] : List Value) = []) :=
    exactly_separated rfl rfl (by decide) [] (fun d hd => (hitems d hd).head) hread hpadded
  rw [append_nil] at hmore
  have hlist := hmore.congr (and_iff_left rfl)
  have harray := hlist.map (g := Value.array) fun _ heq => Value.array.inj heq
  have hvalue := Exactly.after (f := fun _ => Value.array <$> separated (value fuel) isBlank ',' ']' fun _ => ()) harray
    (takes_bump '[') fun _ _ => trivial
  exact hvalue.mono fun _ _ => trivial

/-- The characters between the quotes of a string that is read as `s`. -/
def Spells (w s : List Char) : Prop := ∀ rest, body (w ++ '"' :: rest) = some (s, rest)

theorem spells_of_clean {s : List Char} (h : Clean false s) : Spells s s := by
  intro rest
  have hwritten := body_written h rest
  rwa [written_false] at hwritten

/-- A string that is written character by character. -/
theorem spells_flatMap {write : Char → List Char} {s : List Char}
    (h : ∀ c ∈ s, ∀ text, body (write c ++ text) = (body text).map (Prod.map (c :: ·) id)) :
    Spells (s.flatMap write) s := by
  intro rest
  induction s with
  | nil => exact body_quote rest
  | cons c s ih =>
    rw [forall_mem_cons] at h
    rw [flatMap_cons, append_assoc, h.1, ih h.2]
    rfl

theorem readsIff_spelled {s : List Char} (h : Spells w s) : ReadsIff ('"' :: (w ++ ['"'])) (.string s) True :=
  readsIff_string fun rest rest' => by
    rw [h rest]
    simp [eq_comm]

/-- The text of a member. -/
def memberText (key text : List Char) : List Char := '"' :: (key ++ '"' :: ':' :: text)

theorem exactly_member {key text : List Char} {v : Value} {c : Prop} {value : JsonReader Value}
    (hkey : Spells w key) (h : Exactly value P text v c) :
    Exactly (member value) P (memberText w text) (key, v) c := by
  intro rest hrest rest'
  have hskip := skipWhile_cons (ε := Unit) (p := isBlank) (b := '"') rfl (w ++ '"' :: ':' :: (text ++ rest))
  have hcolon := skipWhile_cons (ε := Unit) (p := isBlank) (b := ':') rfl (text ++ rest)
  have hstring : string ('"' :: (w ++ '"' :: ':' :: (text ++ rest))) = .ok (key, ':' :: (text ++ rest)) := by
    rw [string, hkey]
  have htext : memberText w text ++ rest = '"' :: (w ++ '"' :: ':' :: (text ++ rest)) := by
    simp [memberText]
  have hvalue := h.map (g := fun v => (key, v)) fun _ heq => (Prod.mk.inj heq).2
  rw [htext, ← hvalue rest hrest, member]
  simp only [bind, StateT.bind, Except.bind, hskip, hstring, hcolon, peek, head?_cons]
  rw [if_pos trivial]
  rfl

/-- **An object is read exactly if the values of its members are**, and no more members are expected. -/
theorem readsIff_object {spelling : δ → List Char} (more : List (List Char × Value))
    (hkeys : ∀ d ∈ ds, Spells (spelling d) (key d)) (hvals : ∀ d ∈ ds, ReadsIff (text d) (val d) (c d)) :
    ReadsIff ('\x7b' :: (joined [','] (ds.map fun d => memberText (spelling d) (text d)) ++ ['\x7d']))
      (.object ((ds.map fun d => (key d, val d)) ++ more)) ((∀ d ∈ ds, c d) ∧ more = []) := by
  refine readsIff_of_valueFrom rfl (by decide) fun fuel hfuel => ?_
  have hread : ∀ d ∈ ds, Exactly (member (value fuel)) (Ends ',' '\x7d') (memberText (spelling d) (text d))
      (key d, val d) (c d) := by
    intro d hd
    have hle : (memberText (spelling d) (text d)).length ≤
        (joined [','] (ds.map fun d => memberText (spelling d) (text d))).length :=
      length_le_joined (mem_map_of_mem (f := fun d => memberText (spelling d) (text d)) hd)
    have htext : (text d).length ≤ (memberText (spelling d) (text d)).length := by
      simp only [memberText, length_cons, length_append]
      omega
    rw [length_append] at hfuel
    exact exactly_member (hkeys d hd)
      (((hvals d hd).reads fuel (by omega)).mono fun _ => until_numberChar_of_ends rfl)
  have hlist : Exactly (separated (member (value fuel)) isBlank ',' '\x7d' fun _ => ()) Any
      (joined [','] (ds.map fun d => memberText (spelling d) (text d)) ++ ['\x7d'])
      ((ds.map fun d => (key d, val d)) ++ more) ((∀ d ∈ ds, c d) ∧ more = []) :=
    exactly_separated rfl rfl (by decide) more (fun d _ => ⟨'"', _, rfl, rfl, by decide⟩) hread hread
  have hobject := hlist.map (g := Value.object) fun _ heq => Value.object.inj heq
  have hvalue := Exactly.after (f := fun _ => Value.object <$> separated (member (value fuel)) isBlank ',' '\x7d'
    fun _ => ()) hobject (takes_bump '\x7b') fun _ _ => trivial
  exact hvalue.mono fun _ _ => trivial

end

end Json
