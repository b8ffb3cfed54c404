import CenDB.Lib.Reader

/-! # Cursors over bytes

A `ByteCursor` walks over a text by byte offsets.  It cuts the text at its offset to see the next
character, and it cuts out what lies between two offsets; a cut inside a character, behind the end of the
text or from a later offset to an earlier one is a panic.

`At` compares a cursor with a reader of characters: in front of the same text they return the same value
and stop in front of the same text, or they fail alike.  What the reader leaves is a part of the text that
it was given, so that a cursor that agrees with a reader only ever cuts between characters. -/

/-- Why an operation returns no value: an error that it reports, a panic, or the end of its fuel. -/
inductive Stop (ε : Type) where
  | err (e : ε)
  | panic
  | outOfFuel
deriving DecidableEq, Repr

/-- An operation returns a value or reports an error. -/
def Stop.Returns {ε α : Type} (result : Except (Stop ε) α) : Prop :=
  (∃ a, result = .ok a) ∨ ∃ e, result = .error (.err e)

/-- Walks over a text, given the byte offset. -/
abbrev ByteCursor (ε α : Type) := ReaderT (List Char) (StateT ℕ (Except (Stop ε))) α

namespace ByteCursor

open List Option

variable {ε ε' α γ : Type}

/-! ### Bytes -/

/-- The bytes of a text. -/
def byteLen (text : List Char) : ℕ := (text.map Char.utf8Size).sum

/-- `&text[n..]` -/
def dropBytes : ℕ → List Char → Option (List Char)
  | 0, text => some text
  | _ + 1, [] => none
  | n + 1, c :: text => if c.utf8Size ≤ n + 1 then dropBytes (n + 1 - c.utf8Size) text else none

/-- `&text[..n]` -/
def takeBytes : ℕ → List Char → Option (List Char)
  | 0, _ => some []
  | _ + 1, [] => none
  | n + 1, c :: text =>
    if c.utf8Size ≤ n + 1 then (takeBytes (n + 1 - c.utf8Size) text).map (c :: ·) else none

/-- `&text[start..stop]` -/
def sliceBytes (start stop : ℕ) (text : List Char) : Option (List Char) :=
  if start ≤ stop then (dropBytes start text).bind (takeBytes (stop - start)) else none

theorem byteLen_cons (c : Char) (text : List Char) : byteLen (c :: text) = c.utf8Size + byteLen text := rfl

theorem byteLen_append (front rest : List Char) : byteLen (front ++ rest) = byteLen front + byteLen rest := by
  simp [byteLen]

variable {n : ℕ} {input : List Char}

theorem dropBytes_cons (hn : n ≠ 0) (c : Char) (text : List Char) :
    dropBytes n (c :: text) = if c.utf8Size ≤ n then dropBytes (n - c.utf8Size) text else none := by
  cases n with
  | zero => exact absurd rfl hn
  | succ n => rfl

theorem takeBytes_cons (hn : n ≠ 0) (c : Char) (text : List Char) :
    takeBytes n (c :: text) = if c.utf8Size ≤ n then (takeBytes (n - c.utf8Size) text).map (c :: ·) else none := by
  cases n with
  | zero => exact absurd rfl hn
  | succ n => rfl

/-- A text is cut between two characters. -/
theorem dropBytes_append (front rest : List Char) : dropBytes (byteLen front) (front ++ rest) = some rest := by
  induction front with
  | nil => exact dropBytes.eq_1 rest
  | cons c front ih =>
    have hpos := c.utf8Size_pos
    rw [byteLen_cons, cons_append, dropBytes_cons (by omega), if_pos (Nat.le_add_right _ _),
      Nat.add_sub_cancel_left, ih]

theorem takeBytes_append (front rest : List Char) : takeBytes (byteLen front) (front ++ rest) = some front := by
  induction front with
  | nil => exact takeBytes.eq_1 rest
  | cons c front ih =>
    have hpos := c.utf8Size_pos
    rw [byteLen_cons, cons_append, takeBytes_cons (by omega), if_pos (Nat.le_add_right _ _),
      Nat.add_sub_cancel_left, ih]
    rfl

/-- What is taken is the front of the text. -/
theorem eq_append_of_takeBytes {text front : List Char} (h : takeBytes n text = some front) :
    ∃ rest, text = front ++ rest ∧ byteLen front = n := by
  induction text generalizing n front with
  | nil =>
    cases n with
    | zero =>
      cases h
      exact ⟨[], rfl, rfl⟩
    | succ n => cases h
  | cons c text ih =>
    by_cases hn : n = 0
    · subst hn
      cases h
      exact ⟨c :: text, rfl, rfl⟩
    · rw [takeBytes_cons hn] at h
      split_ifs at h with hc
      obtain ⟨front', hfront, rfl⟩ := map_eq_some_iff.mp h
      obtain ⟨rest, rfl, hlen⟩ := ih hfront
      exact ⟨rest, rfl, by rw [byteLen_cons, hlen, Nat.add_sub_cancel' hc]⟩

/-- The offset in front of the rest of a text. -/
def offset (input rest : List Char) : ℕ := byteLen input - byteLen rest

theorem offset_append (front rest : List Char) : offset (front ++ rest) rest = byteLen front := by
  simp [offset, byteLen_append]

theorem offset_self (input : List Char) : offset input input = 0 := Nat.sub_self _

variable {taken rest : List Char} {x : ByteCursor ε α} {b : α}

/-- The offset behind some characters. -/
theorem offset_add (h : taken ++ rest <:+ input) :
    offset input (taken ++ rest) + byteLen taken = offset input rest := by
  obtain ⟨front, rfl⟩ := h
  have hrest := offset_append (front ++ taken) rest
  rw [append_assoc, byteLen_append] at hrest
  rw [offset_append, hrest]

/-- The offset moves on with every character. -/
theorem offset_eq_iff (h : taken ++ rest <:+ input) :
    offset input rest = offset input (taken ++ rest) ↔ taken = [] := by
  rw [← offset_add h]
  cases taken with
  | nil => simp [byteLen]
  | cons c taken =>
    have hpos := c.utf8Size_pos
    rw [byteLen_cons]
    exact iff_of_false (by omega) (cons_ne_nil c taken)

theorem offset_lt_iff (h : rest <:+ input) : offset input rest < byteLen input ↔ rest ≠ [] := by
  obtain ⟨front, rfl⟩ := h
  rw [offset_append, byteLen_append]
  cases rest with
  | nil => simp [byteLen]
  | cons c rest =>
    have hpos := c.utf8Size_pos
    rw [byteLen_cons]
    exact iff_of_true (by omega) (cons_ne_nil c rest)

/-! ### Operations -/

/-- A part of the text, or a panic. -/
def cut (part : Option α) : ByteCursor ε α :=
  match part with
  | some a => pure a
  | none => throw .panic

/-- The offset. -/
def pos : ByteCursor ε ℕ := get

/-- The bytes of the whole text. -/
def len : ByteCursor ε ℕ := byteLen <$> read

/-- `pos += n` -/
def advance (n : ℕ) : ByteCursor ε Unit := modify (· + n)

/-- `pos = n` -/
def seek (n : ℕ) : ByteCursor ε Unit := set n

/-- The text behind the offset. -/
def remaining : ByteCursor ε (List Char) := fun input n => cut (dropBytes n input) input n

/-- The text between two offsets. -/
def slice (start stop : ℕ) : ByteCursor ε (List Char) := fun input n => cut (sliceBytes start stop input) input n

/-- The text between an earlier offset and this one. -/
def sliceFrom (start : ℕ) : ByteCursor ε (List Char) := fun input n => slice start n input n

/-- The next character. -/
def peek : ByteCursor ε (Option Char) := List.head? <$> remaining

/-- Report an error at the offset. -/
def fail (err : ℕ → ε) : ByteCursor ε α := fun _ n => .error (.err (err n))

/-- `unwrap_or_default`: a reported error is passed over. -/
def orDefault (x : ByteCursor ε α) (a : α) : ByteCursor ε α := fun input n =>
  match x input n with
  | .error (.err _) => .ok (a, n)
  | result => result

/-- Step over the characters that `p` allows, by the width of each. -/
def skipLoop (p : Char → Bool) (width : Char → ℕ) : ℕ → ByteCursor ε Unit
  | 0 => throw .outOfFuel
  | fuel + 1 => do
    match ← peek with
    | some c =>
      if p c then do
        advance (width c)
        skipLoop p width fuel
      else return ()
    | none => return ()

/-- Every step passes over a character, so there are no more steps than characters. -/
def skipWhile (p : Char → Bool) (width : Char → ℕ) : ByteCursor ε Unit := fun input =>
  skipLoop p width (input.length + 1) input

/-- What is read has to be the whole text. -/
def whole (x : ByteCursor ε α) (err : ℕ → ε) (input : List Char) : Except (Stop ε) α :=
  ((do
    let a ← x
    if (← pos) < (← len) then fail err else return a : ByteCursor ε α) input 0).map Prod.fst

section list
variable (item : ByteCursor ε α) (blank : Char → Bool) (sep close : Char) (err : ℕ → ε)

/-- One item and the rest of a list. -/
def itemLoop : ℕ → ByteCursor ε (List α)
  | 0 => throw .outOfFuel
  | fuel + 1 => do
    let a ← item
    skipWhile blank Char.utf8Size
    match ← peek with
    | some c =>
      if c = sep then do
        advance 1
        let as ← itemLoop fuel
        return a :: as
      else if c = close then do
        advance 1
        return [a]
      else fail err
    | none => fail err

/-- A list up to its closing character. -/
def separated : ByteCursor ε (List α) := do
  skipWhile blank Char.utf8Size
  if (← peek) = some close then do
    advance 1
    return []
  else fun input => itemLoop item blank sep close err (input.length + 1) input

end list

/-! ### Cursors between characters -/

theorem bind_apply (x : ByteCursor ε α) (f : α → ByteCursor ε γ) (input : List Char) (n : ℕ) :
    (x >>= f) input n = (x input n).bind fun read => f read.1 input read.2 := rfl

theorem map_apply (x : ByteCursor ε α) (g : α → γ) (input : List Char) (n : ℕ) :
    (g <$> x) input n = (x input n).map fun read => (g read.1, read.2) := by rfl

theorem pure_apply (a : α) (input : List Char) (n : ℕ) : (pure a : ByteCursor ε α) input n = .ok (a, n) := rfl

theorem pos_apply (input : List Char) (n : ℕ) : (pos : ByteCursor ε ℕ) input n = .ok (n, n) := rfl

theorem seek_apply (m : ℕ) (input : List Char) (n : ℕ) : (seek m : ByteCursor ε Unit) input n = .ok ((), m) := rfl

theorem len_apply (input : List Char) (n : ℕ) : (len : ByteCursor ε ℕ) input n = .ok (byteLen input, n) := rfl

theorem fail_apply (err : ℕ → ε) (input : List Char) (n : ℕ) :
    (fail err : ByteCursor ε α) input n = .error (.err (err n)) := rfl

theorem orDefault_ok {a : α} {m : ℕ} (h : x input n = .ok (a, m)) : orDefault x b input n = .ok (a, m) := by
  rw [orDefault, h]

theorem orDefault_err {e : ε} (h : x input n = .error (.err e)) : orDefault x b input n = .ok (b, n) := by
  rw [orDefault, h]

section between
variable {input rest : List Char}

theorem remaining_eq (h : rest <:+ input) :
    (remaining : ByteCursor ε (List Char)) input (offset input rest) = .ok (rest, offset input rest) := by
  obtain ⟨front, rfl⟩ := h
  rw [remaining, offset_append, dropBytes_append]
  rfl

theorem peek_eq (h : rest <:+ input) :
    (peek : ByteCursor ε (Option Char)) input (offset input rest) = .ok (rest.head?, offset input rest) := by
  rw [peek, map_apply, remaining_eq h]
  rfl

theorem advance_eq {c : Char} {n : ℕ} (h : c :: rest <:+ input) (hn : n = c.utf8Size) :
    (advance n : ByteCursor ε Unit) input (offset input (c :: rest)) = .ok ((), offset input rest) := by
  have hadd := @offset_add _ [c] _ h
  rw [singleton_append] at hadd
  rw [← hadd, hn]
  rfl

theorem sliceFrom_eq {taken : List Char} (h : taken ++ rest <:+ input) :
    (sliceFrom (offset input (taken ++ rest)) : ByteCursor ε (List Char)) input (offset input rest) =
      .ok (taken, offset input rest) := by
  have hadd := offset_add h
  obtain ⟨front, rfl⟩ := h
  rw [sliceFrom, slice, ← hadd, sliceBytes, if_pos (Nat.le_add_right _ _), Nat.add_sub_cancel_left, offset_append,
    dropBytes_append, bind_some, takeBytes_append]
  rfl

/-- Some bytes from the offset on. -/
theorem slice_eq (h : rest <:+ input) (n : ℕ) :
    (slice (offset input rest) (offset input rest + n) : ByteCursor ε (List Char)) input (offset input rest) =
      cut (takeBytes n rest) input (offset input rest) := by
  obtain ⟨front, rfl⟩ := h
  rw [slice, sliceBytes, if_pos (Nat.le_add_right _ _), Nat.add_sub_cancel_left, offset_append, dropBytes_append,
    bind_some]

variable {p : Char → Bool} {width : Char → ℕ}

theorem skipLoop_eq (hwidth : ∀ c, p c = true → width c = c.utf8Size) {fuel : ℕ} (hfuel : rest.length < fuel)
    (h : rest <:+ input) :
    (skipLoop p width fuel : ByteCursor ε Unit) input (offset input rest) =
      .ok ((), offset input (rest.dropWhile p)) := by
  induction rest generalizing fuel with
  | nil =>
    obtain ⟨fuel, rfl⟩ := Nat.exists_eq_add_of_lt hfuel
    rw [length_nil, Nat.zero_add, skipLoop, bind_apply, peek_eq h]
    rfl
  | cons c rest ih =>
    obtain ⟨fuel, rfl⟩ : ∃ k, fuel = k + 1 := ⟨fuel - 1, by omega⟩
    rw [skipLoop, bind_apply, peek_eq h]
    by_cases hc : p c = true
    · have hread := ih (Nat.lt_of_succ_lt_succ hfuel) ((suffix_cons c rest).trans h)
      rw [dropWhile_cons_of_pos hc, ← hread]
      simp only [Except.bind, head?_cons, if_pos hc]
      rw [bind_apply, advance_eq h (hwidth c hc)]
      rfl
    · rw [dropWhile_cons_of_neg hc]
      simp only [Except.bind, head?_cons, if_neg hc]
      rfl

theorem skipWhile_eq (hwidth : ∀ c, p c = true → width c = c.utf8Size) (h : rest <:+ input) :
    (skipWhile p width : ByteCursor ε Unit) input (offset input rest) = .ok ((), offset input (rest.dropWhile p)) :=
  skipLoop_eq hwidth (Nat.lt_succ_of_le h.length_le) h

end between

/-- The cursor passes over the front that `span` splits off. -/
def Passes (x : ByteCursor ε Unit) (span : List Char → List Char × List Char) : Prop :=
  ∀ input rest, rest <:+ input →
    x input (offset input rest) = .ok ((), offset input (span rest).2) ∧ rest = (span rest).1 ++ (span rest).2

/-- One part of the text and the part behind it. -/
def behind (first second : List Char → List Char × List Char) (text : List Char) : List Char × List Char :=
  ((first text).1 ++ (second (first text).2).1, (second (first text).2).2)

theorem Passes.bind {x y : ByteCursor ε Unit} {first second : List Char → List Char × List Char}
    (hx : Passes x first) (hy : Passes y second) : Passes (x >>= fun _ => y) (behind first second) := by
  intro input rest h
  obtain ⟨hread, hsplit⟩ := hx input rest h
  have hmid : (first rest).2 <:+ rest := ⟨(first rest).1, hsplit.symm⟩
  obtain ⟨hread', hsplit'⟩ := hy input (first rest).2 (hmid.trans h)
  constructor
  · rw [bind_apply, hread]
    exact hread'
  · rw [behind, append_assoc, ← hsplit', ← hsplit]

theorem passes_skipWhile {p : Char → Bool} {width : Char → ℕ} (hwidth : ∀ c, p c = true → width c = c.utf8Size) :
    Passes (skipWhile p width : ByteCursor ε Unit) fun text => (text.takeWhile p, text.dropWhile p) :=
  fun _ _ h => ⟨skipWhile_eq hwidth h, takeWhile_append_dropWhile.symm⟩

/-! ### Cursors and readers -/

section refinement
variable (fault : List Char → ε' → Stop ε)

/-- What a cursor returns where a reader returns this. -/
def outcome (input : List Char) : Except ε' (α × List Char) → Except (Stop ε) (α × ℕ)
  | .ok (a, rest) => .ok (a, offset input rest)
  | .error e => .error (fault input e)

/-- In front of the rest of the text the cursor does what the reader does, which leaves a part of it and
does not run out of fuel. -/
structure At (x : ByteCursor ε α) (r : Reader Char ε' α) (input rest : List Char) : Prop where
  eq : x input (offset input rest) = outcome fault input (r rest)
  suffix : ∀ a rest', r rest = .ok (a, rest') → rest' <:+ rest
  fueled : ∀ e, r rest = .error e → fault input e ≠ .outOfFuel

variable {fault} {x : ByteCursor ε α} {f : α → ByteCursor ε γ} {r : Reader Char ε' α} {g : α → Reader Char ε' γ}
  {input rest : List Char}

theorem At.of_ok {a : α} {rest' : List Char} (hx : x input (offset input rest) = .ok (a, offset input rest'))
    (hr : r rest = .ok (a, rest')) (hrest : rest' <:+ rest) : At fault x r input rest where
  eq := by rw [hx, hr, outcome]
  suffix _ _ h := by
    rw [hr] at h
    cases h
    exact hrest
  fueled _ h := by
    rw [hr] at h
    cases h

variable {e' : ε'} {e : ε} {c : Char}

theorem At.of_stop (hx : x input (offset input rest) = .error (fault input e')) (hr : r rest = .error e')
    (h : fault input e' ≠ .outOfFuel) : At fault x r input rest where
  eq := by rw [hx, hr, outcome]
  suffix _ _ hok := by
    rw [hr] at hok
    cases hok
  fueled _ he := by
    rw [hr] at he
    cases he
    exact h

theorem At.of_error (hx : x input (offset input rest) = .error (.err e)) (hr : r rest = .error e')
    (h : fault input e' = .err e) : At fault x r input rest :=
  At.of_stop (h ▸ hx) hr (by rw [h]; nofun)

theorem At.pure (a : α) : At fault (pure a) (pure a) input rest := At.of_ok rfl rfl suffix_rfl

/-- **One operation after the other.** -/
theorem At.bind (h : At fault x r input rest)
    (hf : ∀ a rest', rest' <:+ rest → r rest = .ok (a, rest') → At fault (f a) (g a) input rest') :
    At fault (x >>= f) (r >>= g) input rest where
  eq := by
    rw [bind_apply, h.eq]
    cases hread : r rest with
    | error e => simp only [Bind.bind, StateT.bind, hread, Except.bind, outcome]
    | ok read =>
      obtain ⟨a, rest'⟩ := read
      simp only [Bind.bind, StateT.bind, hread, Except.bind, outcome]
      exact (hf a rest' (h.suffix a rest' hread) hread).eq
  suffix c rest' hc := by
    obtain ⟨a, mid, hread, hrest⟩ := Reader.bind_eq_ok.mp hc
    have hmid := h.suffix a mid hread
    exact ((hf a mid hmid hread).suffix c rest' hrest).trans hmid
  fueled e he := by
    rcases Reader.bind_eq_error.mp he with hread | ⟨a, mid, hread, hrest⟩
    · exact h.fueled e hread
    · exact (hf a mid (h.suffix a mid hread) hread).fueled e hrest

theorem At.map {k : α → γ} (h : At fault x r input rest) : At fault (k <$> x) (k <$> r) input rest := by
  rw [← bind_pure_comp, ← bind_pure_comp]
  exact h.bind fun a _ _ _ => At.pure (k a)

theorem at_throw (h : fault input e' = .err e) :
    At fault (throw (.err e) : ByteCursor ε α) (throw e') input rest := At.of_error rfl rfl h

theorem at_fail {err : ℕ → ε} {err' : List Char → ε'} (h : fault input (err' rest) = .err (err (offset input rest))) :
    At fault (fail err : ByteCursor ε α) (Reader.failWith err') input rest := At.of_error rfl rfl h

/-- To look at the next character moves neither. -/
theorem At.peek {f : Option Char → ByteCursor ε γ} {r : Reader Char ε' γ} (hrest : rest <:+ input)
    (h : At fault (f rest.head?) r input rest) : At fault (peek >>= f) r input rest where
  eq := by
    rw [bind_apply, peek_eq hrest]
    exact h.eq
  suffix := h.suffix
  fueled := h.fueled

theorem at_peek {f : Option Char → ByteCursor ε γ} {g : Option Char → Reader Char ε' γ} (hrest : rest <:+ input)
    (h : At fault (f rest.head?) (g rest.head?) input rest) :
    At fault (ByteCursor.peek >>= f) (Reader.peek >>= g) input rest :=
  At.peek hrest ⟨h.eq, h.suffix, h.fueled⟩

/-- A step over a character that the reader takes first. -/
theorem At.advance {x : ByteCursor ε α} {r s : Reader Char ε' α} {n : ℕ} (hrest : c :: rest <:+ input)
    (hn : n = c.utf8Size) (hr : r (c :: rest) = s rest) (h : At fault x s input rest) :
    At fault (advance n >>= fun _ => x) r input (c :: rest) where
  eq := by
    rw [bind_apply, advance_eq hrest hn, hr]
    exact h.eq
  suffix a rest' ha := (h.suffix a rest' (hr ▸ ha)).trans (suffix_cons c rest)
  fueled e he := h.fueled e (hr ▸ he)

theorem at_bump {n : ℕ} (hrest : c :: rest <:+ input) (hn : n = c.utf8Size) :
    At fault (advance n) Reader.bump input (c :: rest) :=
  At.of_ok (advance_eq hrest hn) rfl (suffix_cons c rest)

theorem at_skipWhile {p : Char → Bool} {width : Char → ℕ} (hwidth : ∀ c, p c = true → width c = c.utf8Size)
    (hrest : rest <:+ input) : At fault (skipWhile p width) (Reader.skipWhile p) input rest :=
  At.of_ok (skipWhile_eq hwidth hrest) rfl (dropWhile_suffix p)

/-- What a cursor makes of a whole text. -/
theorem whole_eq (h : At fault x r input input) (err : ℕ → ε) : whole x err input = match r input with
    | .ok (a, []) => .ok a
    | .ok (_, rest) => .error (.err (err (offset input rest)))
    | .error e => .error (fault input e) := by
  have hcursor := h.eq
  rw [offset_self] at hcursor
  rw [whole, bind_apply, hcursor]
  cases hread : r input with
  | error e => rfl
  | ok read =>
    obtain ⟨a, rest⟩ := read
    have hend := offset_lt_iff (h.suffix a rest hread)
    simp only [outcome, Except.bind]
    rw [bind_apply, pos_apply]
    simp only [Except.bind]
    rw [bind_apply, len_apply]
    simp only [Except.bind]
    cases rest with
    | nil =>
      rw [if_neg fun hlt => hend.mp hlt rfl]
      rfl
    | cons c rest =>
      rw [if_pos (hend.mpr (cons_ne_nil c rest))]
      rfl

/-- Where the reader's errors are reported, so are the cursor's. -/
theorem returns_whole (h : At fault x r input input) (hpanic : ∀ e, fault input e ≠ .panic) (err : ℕ → ε) :
    Stop.Returns (whole x err input) := by
  rw [whole_eq h]
  cases hread : r input with
  | error e =>
    cases hstop : fault input e with
    | err e' => exact .inr ⟨e', congrArg Except.error hstop⟩
    | panic => exact absurd hstop (hpanic e)
    | outOfFuel => exact absurd hstop (h.fueled e hread)
  | ok read =>
    obtain ⟨a, _ | ⟨c, rest⟩⟩ := read
    · exact .inl ⟨a, rfl⟩
    · exact .inr ⟨err (offset input (c :: rest)), rfl⟩

/-! ### Lists -/

section list
variable {item : ByteCursor ε α} {item' : Reader Char ε' α} {blank : Char → Bool} {sep close : Char}
  {err : ℕ → ε} {err' : List Char → ε'}

theorem at_itemLoop (hsep : sep.utf8Size = 1) (hclose : close.utf8Size = 1)
    (herr : ∀ rest, fault input (err' rest) = .err (err (offset input rest)))
    (hitem : ∀ bs, bs <:+ rest → At fault item item' input bs) (hrest : rest <:+ input) {n m : ℕ}
    (hn : rest.length < n) (hm : rest.length < m) :
    At fault (itemLoop item blank sep close err n) (Reader.items item' blank sep close err' m) input rest := by
  induction n generalizing m rest with
  | zero => cases hn
  | succ n ih =>
    obtain ⟨m, rfl⟩ : ∃ k, m = k + 1 := ⟨m - 1, by omega⟩
    rw [itemLoop, Reader.items]
    refine (hitem rest suffix_rfl).bind fun a mid hmid _ => ?_
    refine (at_skipWhile (fun _ _ => rfl) (hmid.trans hrest)).bind fun _ behind hbehind _ => ?_
    have hsuffix := hbehind.trans hmid
    refine at_peek (hsuffix.trans hrest) ?_
    cases behind with
    | nil => exact at_fail (herr [])
    | cons c next =>
      have hnext := (suffix_cons c next).trans hsuffix
      have hlen := hsuffix.length_le
      rw [length_cons] at hlen
      simp only [head?_cons]
      split_ifs with hc hc'
      · subst hc
        refine (at_bump (hsuffix.trans hrest) hsep.symm).bind fun _ after hafter h => ?_
        cases h
        exact (ih (fun bs hbs => hitem bs (hbs.trans hnext)) (hnext.trans hrest) (by omega) (by omega)).bind
          fun as _ _ _ => At.pure (a :: as)
      · subst hc'
        exact (at_bump (hsuffix.trans hrest) hclose.symm).bind fun _ _ _ _ => At.pure [a]
      · exact at_fail (herr (c :: next))

/-- **A list with separators.** -/
theorem at_separated (hsep : sep.utf8Size = 1) (hclose : close.utf8Size = 1)
    (herr : ∀ rest, fault input (err' rest) = .err (err (offset input rest)))
    (hitem : ∀ bs, bs <:+ rest → At fault item item' input bs) (hrest : rest <:+ input) :
    At fault (separated item blank sep close err) (Reader.separated item' blank sep close err') input rest := by
  have hbehind : rest.dropWhile blank <:+ rest := dropWhile_suffix blank
  have hitems : At fault (itemLoop item blank sep close err (input.length + 1))
      (Reader.items item' blank sep close err' (rest.length + 1)) input (rest.dropWhile blank) :=
    at_itemLoop hsep hclose herr (fun bs hbs => hitem bs (hbs.trans hbehind)) (hbehind.trans hrest)
      (Nat.lt_succ_of_le (hbehind.trans hrest).length_le) (Nat.lt_succ_of_le hbehind.length_le)
  constructor
  · rw [Reader.separated_eq, separated, bind_apply, skipWhile_eq (fun _ _ => rfl) hrest]
    simp only [Except.bind]
    rw [bind_apply, peek_eq (hbehind.trans hrest)]
    simp only [Except.bind]
    split_ifs with hhead
    · obtain ⟨next, hnext⟩ := head?_eq_some_iff.mp hhead
      rw [hnext] at hbehind ⊢
      rw [bind_apply, advance_eq (hbehind.trans hrest) hclose.symm]
      rfl
    · exact hitems.eq
  · intro a rest' h
    rw [Reader.separated_eq] at h
    split_ifs at h
    · cases h
      exact (tail_suffix _).trans hbehind
    · exact (hitems.suffix a rest' h).trans hbehind
  · intro e h
    rw [Reader.separated_eq] at h
    split_ifs at h
    exact hitems.fueled e h

end list

end refinement

end ByteCursor
