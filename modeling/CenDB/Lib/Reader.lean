import Mathlib.Tactic

/-! # Readers

A `Reader` takes symbols from the front of a list and returns a value, or fails.  `Takes r stop bs a`
says that the reader takes exactly the symbols `bs` and returns `a`, in front of whatever `stop` allows.
The readers of a format are built from small ones with `>>=`, and so are the facts about them
(`Takes.bind`): what the first reader may stop at has to follow from what comes next.

`many` reads a counted list, `separated` a list with separators between the items and a closing symbol. -/

/-- Reads from the front of a list, or fails. -/
abbrev Reader (β ε α : Type) := StateT (List β) (Except ε) α

namespace Reader

open List

variable {β ε α γ : Type}

/-- Anything may follow. -/
def Any : List β → Prop := fun _ => True

/-- What follows does not begin with a symbol that `p` allows. -/
def Until (p : β → Bool) (rest : List β) : Prop := ∀ b ∈ rest.head?, p b = false

/-- In front of what `stop` allows, the reader takes `bs` and returns `a`. -/
def Takes (r : Reader β ε α) (stop : List β → Prop) (bs : List β) (a : α) : Prop :=
  ∀ rest, stop rest → r (bs ++ rest) = .ok (a, rest)

theorem until_nil (p : β → Bool) : Until p [] := nofun

theorem until_cons {p : β → Bool} {b : β} {rest : List β} : Until p (b :: rest) ↔ p b = false := by
  simp [Until]

section takes

variable {r : Reader β ε α} {f : α → Reader β ε γ} {P Q : List β → Prop} {bs cs : List β} {a : α} {c : γ}

theorem Takes.pure (a : α) : Takes (pure a : Reader β ε α) Any [] a := fun _ _ => rfl

theorem Takes.mono (h : Takes r P bs a) (hstop : ∀ rest, Q rest → P rest) : Takes r Q bs a :=
  fun rest hrest => h rest (hstop rest hrest)

/-- **One reader after the other.** -/
theorem Takes.bind (hr : Takes r P bs a) (hf : Takes (f a) Q cs c)
    (hstop : ∀ rest, Q rest → P (cs ++ rest)) : Takes (r >>= f) Q (bs ++ cs) c := by
  intro rest hrest
  have hfirst := hr (cs ++ rest) (hstop rest hrest)
  rw [append_assoc]
  simp only [Bind.bind, StateT.bind, hfirst, Except.bind]
  exact hf rest hrest

/-- A reader that may be followed by anything. -/
theorem Takes.andThen (hr : Takes r Any bs a) (hf : Takes (f a) Q cs c) :
    Takes (r >>= f) Q (bs ++ cs) c := hr.bind hf fun _ _ => trivial

theorem Takes.map (h : Takes r P bs a) (g : α → γ) : Takes (g <$> r) P bs (g a) := by
  intro rest hrest
  simp only [Functor.map, StateT.map, h rest hrest, Bind.bind, Except.bind, Pure.pure, Except.pure]

/-- A value made of the one that was read. -/
theorem Takes.bind_pure (h : Takes r P bs a) (g : α → γ) : Takes (r >>= fun a => Pure.pure (g a)) P bs (g a) := by
  intro rest hrest
  simp only [Bind.bind, StateT.bind, h rest hrest, Except.bind]
  rfl

/-- A reader that has read everything. -/
theorem Takes.run_eq (h : Takes r P bs a) (hstop : P []) : r bs = .ok (a, []) := by
  have hall := h [] hstop
  rwa [append_nil] at hall

end takes

/-! ### What a reader may return -/

theorem pure_apply (a : α) (bs : List β) : (pure a : Reader β ε α) bs = .ok (a, bs) := rfl

theorem bind_eq_ok {r : Reader β ε α} {f : α → Reader β ε γ} {bs rest : List β} {c : γ} :
    (r >>= f) bs = .ok (c, rest) ↔ ∃ a mid, r bs = .ok (a, mid) ∧ f a mid = .ok (c, rest) := by
  simp only [Bind.bind, StateT.bind, Except.bind]
  cases h : r bs with
  | error e => simp
  | ok e =>
    obtain ⟨a, mid⟩ := e
    simp

theorem bind_eq_error {r : Reader β ε α} {f : α → Reader β ε γ} {bs : List β} {e : ε} :
    (r >>= f) bs = .error e ↔ r bs = .error e ∨ ∃ a mid, r bs = .ok (a, mid) ∧ f a mid = .error e := by
  simp only [Bind.bind, StateT.bind, Except.bind]
  cases h : r bs with
  | error e => simp
  | ok read =>
    obtain ⟨a, mid⟩ := read
    simp

theorem map_eq_ok {r : Reader β ε α} {g : α → γ} {bs rest : List β} {c : γ} :
    (g <$> r) bs = .ok (c, rest) ↔ ∃ a, r bs = .ok (a, rest) ∧ g a = c := by
  simp only [Functor.map, StateT.map, Bind.bind, Except.bind, Pure.pure, Except.pure]
  cases h : r bs with
  | error e => simp
  | ok e =>
    obtain ⟨a, mid⟩ := e
    constructor
    · intro heq
      cases heq
      exact ⟨a, rfl, rfl⟩
    · rintro ⟨a', ha', rfl⟩
      cases ha'
      rfl

theorem map_ok_iff {r : Reader β ε α} {g : α → γ} {bs rest : List β} :
    (∃ c, (g <$> r) bs = .ok (c, rest)) ↔ ∃ a, r bs = .ok (a, rest) := by
  constructor
  · rintro ⟨c, h⟩
    obtain ⟨a, ha, -⟩ := map_eq_ok.mp h
    exact ⟨a, ha⟩
  · rintro ⟨a, ha⟩
    exact ⟨g a, map_eq_ok.mpr ⟨a, ha, rfl⟩⟩

theorem map_eq_error {r : Reader β ε α} {g : α → γ} {bs : List β} {e : ε} :
    (g <$> r) bs = .error e ↔ r bs = .error e := by
  simp only [Functor.map, StateT.map, bind, Except.bind]
  cases r bs with
  | error e' => simp
  | ok read => exact iff_of_false nofun nofun

/-- Reading keeps `I` of what is left, and returns only what `P` allows. -/
def Yields (I : List β → Prop) (r : Reader β ε α) (P : α → Prop) : Prop :=
  ∀ bs a rest, I bs → r bs = .ok (a, rest) → I rest ∧ P a

section yields

variable {I : List β → Prop} {r : Reader β ε α} {f : α → Reader β ε γ} {P : α → Prop} {Q : γ → Prop}

theorem Yields.mono {P' : α → Prop} (h : Yields I r P) (hP : ∀ a, P a → P' a) : Yields I r P' :=
  fun bs a rest hbs hr => (h bs a rest hbs hr).imp_right (hP a)

theorem Yields.pure {a : α} (ha : P a) : Yields I (pure a : Reader β ε α) P := by
  intro bs b rest hbs hr
  cases hr
  exact ⟨hbs, ha⟩

theorem yields_throw (e : ε) : Yields I (throw e : Reader β ε α) P := nofun

theorem Yields.bind (hr : Yields I r P) (hf : ∀ a, P a → Yields I (f a) Q) : Yields I (r >>= f) Q := by
  intro bs c rest hbs h
  obtain ⟨a, mid, hfirst, hrest⟩ := bind_eq_ok.mp h
  obtain ⟨hmid, ha⟩ := hr bs a mid hbs hfirst
  exact hf a ha mid c rest hmid hrest

theorem Yields.map {g : α → γ} (hr : Yields I r P) (hg : ∀ a, P a → Q (g a)) : Yields I (g <$> r) Q := by
  intro bs c rest hbs h
  obtain ⟨a, hread, rfl⟩ := map_eq_ok.mp h
  exact (hr bs a rest hbs hread).imp_right (hg a)

end yields

/-! ### Single symbols -/

/-- The next symbol, which stays where it is. -/
def peek : Reader β ε (Option β) := fun bs => .ok (bs.head?, bs)

/-- Step over a symbol. -/
def bump : Reader β ε Unit := fun bs => .ok ((), bs.tail)

/-- Step over the symbols that `p` allows. -/
def skipWhile (p : β → Bool) : Reader β ε Unit := fun bs => .ok ((), bs.dropWhile p)

/-- Take the symbols that `p` allows. -/
def takeWhile (p : β → Bool) : Reader β ε (List β) := fun bs => .ok (bs.takeWhile p, bs.dropWhile p)

theorem dropWhile_append {p : β → Bool} {bs rest : List β} (hbs : ∀ b ∈ bs, p b = true)
    (hrest : Until p rest) : (bs ++ rest).dropWhile p = rest := by
  rw [dropWhile_append_of_pos hbs]
  cases rest with
  | nil => rfl
  | cons b rest => rw [dropWhile_cons_of_neg (by simp [until_cons.mp hrest])]

theorem takeWhile_append {p : β → Bool} {bs rest : List β} (hbs : ∀ b ∈ bs, p b = true)
    (hrest : Until p rest) : (bs ++ rest).takeWhile p = bs := by
  rw [takeWhile_append_of_pos hbs]
  cases rest with
  | nil => simp
  | cons b rest => rw [takeWhile_cons_of_neg (by simp [until_cons.mp hrest]), append_nil]

theorem takes_skipWhile {p : β → Bool} {bs : List β} (hbs : ∀ b ∈ bs, p b = true) :
    Takes (skipWhile p : Reader β ε Unit) (Until p) bs () := fun rest hrest => by
  rw [skipWhile, dropWhile_append hbs hrest]

theorem skipWhile_cons {p : β → Bool} {b : β} (h : p b = false) (rest : List β) :
    (skipWhile p : Reader β ε Unit) (b :: rest) = .ok ((), b :: rest) := by
  rw [skipWhile, dropWhile_cons_of_neg (by simp [h])]

/-- To look at the next symbol takes nothing. -/
theorem takes_peek {f : Option β → Reader β ε α} {Q : List β → Prop} {b : β} {bs : List β} {a : α}
    (h : Takes (f (some b)) Q (b :: bs) a) : Takes (peek >>= f) Q (b :: bs) a := fun rest hrest => h rest hrest

theorem takes_bump (b : β) : Takes (bump : Reader β ε Unit) Any [b] () := fun _ _ => rfl

theorem takes_takeWhile {p : β → Bool} {bs : List β} (hbs : ∀ b ∈ bs, p b = true) :
    Takes (takeWhile p : Reader β ε (List β)) (Until p) bs bs := fun rest hrest => by
  rw [takeWhile, dropWhile_append hbs hrest, takeWhile_append hbs hrest]

/-! ### Lists -/

/-- A list of `n` values. -/
def many (r : Reader β ε α) : ℕ → Reader β ε (List α)
  | 0 => pure []
  | n + 1 => do
    let a ← r
    let as ← many r n
    return a :: as

theorem takes_many {r : Reader β ε α} {text : α → List β} {as : List α}
    (h : ∀ a ∈ as, Takes r Any (text a) a) : Takes (many r as.length) Any (as.flatMap text) as := by
  induction as with
  | nil => exact Takes.pure []
  | cons a as ih =>
    obtain ⟨hfirst, hrest⟩ := forall_mem_cons.mp h
    have htail := (ih hrest).andThen (f := fun as => pure (a :: as)) (Takes.pure (a :: as))
    rw [append_nil] at htail
    exact hfirst.andThen htail

/-! ### Lists with separators -/

/-- Some parts with a separator between them. -/
def joined (sep : List β) : List (List β) → List β
  | [] => []
  | part :: parts => part ++ parts.flatMap fun next => sep ++ next

/-- A part is no longer than all of them. -/
theorem length_le_joined {sep : List β} {part : List β} {parts : List (List β)} (h : part ∈ parts) :
    part.length ≤ (joined sep parts).length := by
  cases parts with
  | nil => cases h
  | cons first parts =>
    rw [joined, length_append]
    rcases mem_cons.mp h with rfl | h
    · omega
    · have hle := (sublist_flatten_of_mem (mem_map_of_mem (f := fun next => sep ++ next) h)).length_le
      rw [← flatMap_def, length_append] at hle
      omega

theorem sum_length_le_joined (sep : List β) (parts : List (List β)) :
    (parts.map List.length).sum ≤ (joined sep parts).length := by
  cases parts with
  | nil => exact Nat.le_refl 0
  | cons part parts =>
    rw [joined, map_cons, sum_cons, length_append, List.length_flatMap]
    refine Nat.add_le_add_left (sum_le_sum fun next _ => ?_) part.length
    rw [length_append]
    exact Nat.le_add_left _ _

/-- There are no more parts than symbols. -/
theorem length_le_length_joined (sep : List β) {parts : List (List β)} (h : ∀ part ∈ parts, part ≠ []) :
    parts.length ≤ (joined sep parts).length := by
  refine Nat.le_trans ?_ (sum_length_le_joined sep parts)
  rw [← length_map List.length]
  refine length_le_sum_of_one_le _ fun k hk => ?_
  obtain ⟨part, hpart, rfl⟩ := List.mem_map.mp hk
  exact length_pos_iff.mpr (h part hpart)

/-- Parts with a symbol in front of each. -/
theorem length_le_flatMap_cons {δ : Type} (b : β) (text : δ → List β) (ds : List δ) :
    ds.length ≤ (ds.flatMap fun d => b :: text d).length := by
  rw [List.length_flatMap, ← length_map (fun d => (b :: text d).length)]
  refine length_le_sum_of_one_le _ fun k hk => ?_
  obtain ⟨e, -, rfl⟩ := List.mem_map.mp hk
  exact Nat.le_add_left 1 _

/-- The next symbol ends an item. -/
def Ends (sep close : β) (rest : List β) : Prop := rest.head? = some sep ∨ rest.head? = some close

/-- Fail with what is left. -/
def failWith (err : List β → ε) : Reader β ε α := fun rest => .error (err rest)

section separated

variable [DecidableEq β] (item : Reader β ε α) (blank : β → Bool) (sep close : β) (err : List β → ε)

/-- One item and the rest of the list, of at most `n` items. -/
def items : ℕ → Reader β ε (List α)
  | 0 => failWith err
  | n + 1 => do
    let a ← item
    skipWhile blank
    match ← peek with
    | some b =>
      if b = sep then do
        bump
        let as ← items n
        return a :: as
      else if b = close then do
        bump
        return [a]
      else failWith err
    | none => failWith err

/-- A list up to its closing symbol.  Every item but the last takes a separator, so there are no more items
than symbols. -/
def separated : Reader β ε (List α) := fun rest => (do
  skipWhile blank
  match ← peek with
  | some b =>
    if b = close then do
      bump
      return []
    else items item blank sep close err (rest.length + 1)
  | none => items item blank sep close err (rest.length + 1) : Reader β ε (List α)) rest

variable {item blank sep close err} {δ : Type} {text : δ → List β} {val : δ → α} {pad : List β}

/-- The items, one step at a time. -/
theorem items_succ (n : ℕ) (bs : List β) : items item blank sep close err (n + 1) bs = match item bs with
    | .error e => .error e
    | .ok (a, mid) =>
      match mid.dropWhile blank with
      | [] => .error (err [])
      | b :: next =>
        if b = sep then (items item blank sep close err n next).map fun read => (a :: read.1, read.2)
        else if b = close then .ok ([a], next)
        else .error (err (b :: next)) := by
  rw [items]
  cases hread : item bs with
  | error e => simp only [bind, StateT.bind, Except.bind, hread]
  | ok read =>
    obtain ⟨a, mid⟩ := read
    simp only [bind, StateT.bind, Except.bind, hread, skipWhile, peek]
    cases mid.dropWhile blank with
    | nil => rfl
    | cons b next =>
      simp only [head?_cons]
      split_ifs
      · rfl
      · rfl
      · rfl

/-- The first item that was read is the first one returned. -/
theorem items_eq_ok {n : ℕ} {bs rest : List β} {a : α} {as : List α}
    (h : items item blank sep close err (n + 1) bs = .ok (a :: as, rest)) : ∃ mid, item bs = .ok (a, mid) := by
  rw [items_succ] at h
  cases hread : item bs with
  | error e =>
    rw [hread] at h
    cases h
  | ok read =>
    obtain ⟨a', mid⟩ := read
    refine ⟨mid, ?_⟩
    rw [hread] at h
    cases hdrop : mid.dropWhile blank with
    | nil =>
      simp only [hdrop] at h
      cases h
    | cons b next =>
      simp only [hdrop] at h
      split_ifs at h
      · cases hmore : items item blank sep close err n next with
        | error e =>
          rw [hmore] at h
          cases h
        | ok read =>
          rw [hmore] at h
          cases h
          rfl
      · cases h
        rfl

theorem items_of_sep (hsep : blank sep = false) {n : ℕ} {bs mid rest : List β} {a : α} {as : List α}
    (hitem : item bs = .ok (a, sep :: mid)) : items item blank sep close err (n + 1) bs = .ok (a :: as, rest) ↔
      items item blank sep close err n mid = .ok (as, rest) := by
  have hdrop : (sep :: mid).dropWhile blank = sep :: mid := dropWhile_cons_of_neg (ne_true_of_eq_false hsep)
  rw [items_succ, hitem]
  simp only [hdrop, if_true]
  cases items item blank sep close err n mid with
  | error e => exact iff_of_false nofun nofun
  | ok read =>
    obtain ⟨as', rest'⟩ := read
    simp [Except.map]

theorem items_of_close (hclose : blank close = false) (hne : sep ≠ close) {n : ℕ} {bs mid : List β} {a : α}
    (hitem : item bs = .ok (a, close :: mid)) :
    items item blank sep close err (n + 1) bs = .ok ([a], mid) := by
  have hdrop : (close :: mid).dropWhile blank = close :: mid := dropWhile_cons_of_neg (ne_true_of_eq_false hclose)
  rw [items_succ, hitem]
  simp only [hdrop, if_neg (Ne.symm hne), if_true]

/-- An item, and the items after it behind separators and padding. -/
theorem takes_items (hsep : blank sep = false) (hclose : blank close = false) (hne : sep ≠ close)
    {w : List β} {a : α} {ds : List δ} {n : ℕ} (hn : ds.length < n) (hfirst : Takes item (Ends sep close) w a)
    (hitems : ∀ d ∈ ds, Takes item (Ends sep close) (pad ++ text d) (val d)) :
    Takes (items item blank sep close err n) Any
      (w ++ (ds.flatMap (fun d => sep :: (pad ++ text d)) ++ [close])) (a :: ds.map val) := by
  intro rest _
  induction ds generalizing w a n with
  | nil =>
    obtain ⟨n, rfl⟩ := Nat.exists_eq_add_of_lt hn
    rw [flatMap_nil, List.nil_append, append_assoc]
    exact items_of_close hclose hne (hfirst (close :: rest) (.inr rfl))
  | cons d ds ih =>
    obtain ⟨n, rfl⟩ := Nat.exists_eq_add_of_lt hn
    rw [forall_mem_cons] at hitems
    have htail := ih (n := (d :: ds).length + n) (by simp; omega) hitems.1 hitems.2
    have hread := hfirst (sep :: (pad ++ text d ++
      (ds.flatMap (fun d => sep :: (pad ++ text d)) ++ [close]) ++ rest)) (.inl rfl)
    have happend : w ++ ((d :: ds).flatMap (fun d => sep :: (pad ++ text d)) ++ [close]) ++ rest =
        w ++ sep :: (pad ++ text d ++ (ds.flatMap (fun d => sep :: (pad ++ text d)) ++ [close]) ++ rest) := by simp
    rw [happend]
    exact (items_of_sep hsep hread).mpr htail

theorem separated_eq (rest : List β) : separated item blank sep close err rest =
    if (rest.dropWhile blank).head? = some close then .ok ([], (rest.dropWhile blank).tail)
    else items item blank sep close err (rest.length + 1) (rest.dropWhile blank) := by
  simp only [separated, bind, StateT.bind, Except.bind, skipWhile, peek]
  cases rest.dropWhile blank with
  | nil => rfl
  | cons b behind =>
    by_cases hb : b = close
    · subst hb
      simp only [head?_cons]
      rw [if_pos trivial, if_pos trivial]
      rfl
    · simp [hb]

/-- In front of a symbol that is neither blank nor the closing one there is an item. -/
theorem separated_of_head {rest : List β} {b : β} (hhead : rest.head? = some b) (hblank : blank b = false)
    (hb : b ≠ close) :
    separated item blank sep close err rest = items item blank sep close err (rest.length + 1) rest := by
  obtain ⟨t, rfl⟩ := head?_eq_some_iff.mp hhead
  have hskip := skipWhile_cons (ε := ε) hblank t
  simp only [separated, bind, StateT.bind, Except.bind, hskip, peek, head?_cons]
  rw [if_neg hb]

/-- **A list with separators**: its items begin with a symbol that is neither blank nor the closing one,
and may stand after the padding. -/
theorem takes_separated (hsep : blank sep = false) (hclose : blank close = false) (hne : sep ≠ close)
    {ds : List δ} (htext : ∀ d ∈ ds, ∃ b t, text d = b :: t ∧ blank b = false ∧ b ≠ close)
    (hfirst : ∀ d ∈ ds, Takes item (Ends sep close) (text d) (val d))
    (hitems : ∀ d ∈ ds, Takes item (Ends sep close) (pad ++ text d) (val d)) :
    Takes (separated item blank sep close err) Any (joined (sep :: pad) (ds.map text) ++ [close]) (ds.map val) := by
  intro rest _
  cases ds with
  | nil =>
    have hskip := skipWhile_cons (ε := ε) hclose rest
    simp only [map_nil, joined, List.nil_append, singleton_append, separated, bind,
      StateT.bind, Except.bind, hskip, peek, head?_cons]
    rw [if_pos trivial]
    rfl
  | cons d ds =>
    obtain ⟨b, t, htext, hblank, hb⟩ := htext d mem_cons_self
    have hjoined : joined (sep :: pad) ((d :: ds).map text) ++ [close] ++ rest =
        text d ++ (ds.flatMap (fun d => sep :: (pad ++ text d)) ++ [close]) ++ rest := by
      simp [joined, flatMap_map]
    have hlen := length_le_flatMap_cons sep (fun d => pad ++ text d) ds
    have hn : ds.length <
        (text d ++ (ds.flatMap (fun d => sep :: (pad ++ text d)) ++ [close]) ++ rest).length + 1 := by
      simp only [length_append]
      omega
    have hread : items item blank sep close err _ _ = _ :=
      takes_items hsep hclose hne hn (hfirst d mem_cons_self)
        (fun e he => hitems e (mem_cons_of_mem d he)) rest trivial
    rw [hjoined]
    refine (separated_of_head (b := b) ?_ hblank hb).trans hread
    rw [htext]
    rfl

end separated

/-! ### Readers that return what was written -/

/-- In front of what `stop` allows, the reader returns `a` for `bs` exactly if `c` holds, and takes `bs` then. -/
def Exactly (r : Reader β ε α) (stop : List β → Prop) (bs : List β) (a : α) (c : Prop) : Prop :=
  ∀ rest, stop rest → ∀ rest', r (bs ++ rest) = .ok (a, rest') ↔ rest' = rest ∧ c

section exactly

variable {r : Reader β ε α} {f : α → Reader β ε γ} {P Q : List β → Prop} {bs cs : List β} {a : α} {b : γ} {c : Prop}

theorem Takes.exactly (h : Takes r P bs a) : Exactly r P bs a True := fun rest hrest rest' => by
  rw [h rest hrest, and_true, Except.ok.injEq, Prod.mk.injEq, and_iff_right rfl]
  exact eq_comm

theorem Exactly.mono (h : Exactly r P bs a c) (hstop : ∀ rest, Q rest → P rest) : Exactly r Q bs a c :=
  fun rest hrest => h rest (hstop rest hrest)

theorem Exactly.congr (h : Exactly r P bs a c) {d : Prop} (hcd : c ↔ d) : Exactly r P bs a d :=
  fun rest hrest rest' => by rw [h rest hrest, hcd]

/-- A reader after one that takes what it is given. -/
theorem Exactly.after (hf : Exactly (f a) Q cs b c) (hr : Takes r P bs a) (hstop : ∀ rest, Q rest → P (cs ++ rest)) :
    Exactly (r >>= f) Q (bs ++ cs) b c := by
  intro rest hrest rest'
  have hfirst := hr (cs ++ rest) (hstop rest hrest)
  rw [append_assoc, ← hf rest hrest]
  simp only [Bind.bind, StateT.bind, hfirst, Except.bind]

theorem Exactly.map {g : α → γ} (h : Exactly r P bs a c) (hg : ∀ a', g a' = g a → a' = a) :
    Exactly (g <$> r) P bs (g a) c := by
  intro rest hrest rest'
  rw [map_eq_ok, ← h rest hrest]
  constructor
  · rintro ⟨a', hread, heq⟩
    rwa [hg a' heq] at hread
  · exact fun hread => ⟨a, hread, rfl⟩

end exactly

section exactlySeparated

variable [DecidableEq β] {item : Reader β ε α} {blank : β → Bool} {sep close : β} {err : List β → ε} {δ : Type}
  {text : δ → List β} {val : δ → α} {c : δ → Prop} {pad : List β}

/-- The items of the text, and no more. -/
theorem exactly_items (hsep : blank sep = false) (hclose : blank close = false) (hne : sep ≠ close)
    {w : List β} {a : α} {cw : Prop} {ds : List δ} (more : List α) {n : ℕ} (hn : ds.length < n)
    (hfirst : Exactly item (Ends sep close) w a cw)
    (hitems : ∀ d ∈ ds, Exactly item (Ends sep close) (pad ++ text d) (val d) (c d)) :
    Exactly (items item blank sep close err n) Any
      (w ++ (ds.flatMap (fun d => sep :: (pad ++ text d)) ++ [close])) (a :: (ds.map val ++ more))
      ((cw ∧ ∀ d ∈ ds, c d) ∧ more = []) := by
  intro rest _ rest'
  induction ds generalizing w a cw n with
  | nil =>
    obtain ⟨n, rfl⟩ := Nat.exists_eq_add_of_lt hn
    have htext : w ++ (([] : List δ).flatMap (fun d => sep :: (pad ++ text d)) ++ [close]) ++ rest =
        w ++ close :: rest := by simp
    rw [htext]
    by_cases hw : cw
    · have hread := @items_of_close β ε α _ item blank sep close err hclose hne (0 + n) _ rest a
        ((hfirst (close :: rest) (.inr rfl) _).mpr ⟨rfl, hw⟩)
      rw [length_nil, map_nil, List.nil_append, hread]
      simp [hw, eq_comm, and_comm]
    · refine iff_of_false (fun h => hw ?_) fun h => hw h.2.1.1
      obtain ⟨mid, hitem⟩ := items_eq_ok h
      exact ((hfirst (close :: rest) (.inr rfl) mid).mp hitem).2
  | cons d ds ih =>
    obtain ⟨n, rfl⟩ := Nat.exists_eq_add_of_lt hn
    rw [forall_mem_cons] at hitems
    have htail := ih (n := (d :: ds).length + n) (by simp; omega) hitems.1 hitems.2
    have htext : w ++ ((d :: ds).flatMap (fun d => sep :: (pad ++ text d)) ++ [close]) ++ rest =
        w ++ sep :: (pad ++ text d ++ (ds.flatMap (fun d => sep :: (pad ++ text d)) ++ [close]) ++ rest) := by simp
    rw [htext, map_cons, cons_append]
    by_cases hw : cw
    · rw [items_of_sep hsep ((hfirst _ (.inl rfl) _).mpr ⟨rfl, hw⟩), htail, and_iff_right hw, forall_mem_cons]
    · refine iff_of_false (fun h => hw ?_) fun h => hw h.2.1.1
      obtain ⟨mid, hitem⟩ := items_eq_ok h
      exact ((hfirst _ (.inl rfl) mid).mp hitem).2

/-- **A list with separators is returned exactly if all its items are**, and no more are expected. -/
theorem exactly_separated (hsep : blank sep = false) (hclose : blank close = false) (hne : sep ≠ close)
    {ds : List δ} (more : List α) (htext : ∀ d ∈ ds, ∃ b t, text d = b :: t ∧ blank b = false ∧ b ≠ close)
    (hfirst : ∀ d ∈ ds, Exactly item (Ends sep close) (text d) (val d) (c d))
    (hitems : ∀ d ∈ ds, Exactly item (Ends sep close) (pad ++ text d) (val d) (c d)) :
    Exactly (separated item blank sep close err) Any (joined (sep :: pad) (ds.map text) ++ [close])
      (ds.map val ++ more) ((∀ d ∈ ds, c d) ∧ more = []) := by
  intro rest _ rest'
  cases ds with
  | nil =>
    have hnone : separated item blank sep close err
        (joined (sep :: pad) (([] : List δ).map text) ++ [close] ++ rest) = .ok ([], rest) :=
      (takes_separated hsep hclose hne nofun nofun nofun : Takes _ Any _ (([] : List δ).map val)) rest trivial
    rw [hnone]
    simp [eq_comm, and_comm]
  | cons d ds =>
    obtain ⟨b, t, htext, hblank, hb⟩ := htext d mem_cons_self
    have hjoined : joined (sep :: pad) ((d :: ds).map text) ++ [close] ++ rest =
        text d ++ (ds.flatMap (fun d => sep :: (pad ++ text d)) ++ [close]) ++ rest := by
      simp [joined, flatMap_map]
    have hn : ds.length <
        (text d ++ (ds.flatMap (fun d => sep :: (pad ++ text d)) ++ [close]) ++ rest).length + 1 := by
      have hlen := length_le_flatMap_cons sep (fun d => pad ++ text d) ds
      simp only [length_append]
      omega
    have hread := @exactly_items β ε α _ item blank sep close err δ text val c pad hsep hclose hne _ _ _ ds more _ hn (hfirst d mem_cons_self)
      (fun e he => hitems e (mem_cons_of_mem d he)) rest trivial rest'
    rw [hjoined, forall_mem_cons, map_cons, cons_append, ← hread]
    rw [separated_of_head (b := b) ?_ hblank hb]
    rw [htext]
    rfl

end exactlySeparated

end Reader
