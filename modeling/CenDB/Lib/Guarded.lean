import CenDB.Lib.BitFields

/-! # Guarded access

Indexing, slicing and shifting that fail, with the error `fail`, where the machine panics: outside the list,
outside the slice, or by the width of the word and more.  Every access inside its bounds is the plain one
(`index_of_lt`, `takeAt_of_le`, `slice_of_le`, `shl_of_lt`, `shr_of_lt`).

`FailsUnless safe x y` compares a program `x` with such steps to the program `y` in which they never fail:
`x` is `y` where it is safe, and fails elsewhere. -/

namespace Guarded

open Words List

variable {ε α : Type} (fail : ε)

/-- `xs[i]`. -/
def index (xs : List α) (i : ℕ) : Except ε α :=
  match xs[i]? with
  | some x => .ok x
  | none => .error fail

/-- `[bytes[off], …, bytes[off + n - 1]]`. -/
def takeAt (bytes : List UInt8) (off : ℕ) : ℕ → Except ε (List UInt8)
  | 0 => return []
  | n + 1 => do
    let b ← index fail bytes off
    let bs ← takeAt bytes (off + 1) n
    return b :: bs

/-- `&bytes[i..j]`. -/
def slice (bytes : List UInt8) (i j : ℕ) : Except ε (List UInt8) :=
  if i ≤ j ∧ j ≤ bytes.length then .ok (Words.slice bytes i j) else .error fail

/-- `x << n`. -/
def shl (x : UInt64) (n : ℕ) : Except ε UInt64 := if n < 64 then .ok (x <<< UInt64.ofNat n) else .error fail

/-- `x >> n`. -/
def shr (x : UInt64) (n : ℕ) : Except ε UInt64 := if n < 64 then .ok (x >>> UInt64.ofNat n) else .error fail

variable {fail}

variable {i : ℕ} {β : Type} {f : α → Except ε β} {x y : Except ε α} {safe : Prop}

variable {xs : List α} {bytes : List UInt8} {n : ℕ} {a : α} {safe' : Prop}

theorem index_of_lt (h : i < xs.length) (d : α) : index fail xs i = .ok (xs.getD i d) := by
  rw [index, getElem?_eq_getElem h, getD_eq_getElem _ _ h]

theorem index_of_le (h : xs.length ≤ i) : index fail xs i = .error fail := by
  rw [index, getElem?_eq_none h]

theorem takeAt_of_le (off : ℕ) (h : off + n ≤ bytes.length) :
    takeAt fail bytes off n = .ok (Words.slice bytes off (off + n)) := by
  induction n generalizing off with
  | zero =>
    rw [takeAt, Words.slice, Nat.add_zero, Nat.sub_self, take_zero]
    rfl
  | succ n ih =>
    have hrest := ih (off + 1) (by omega)
    have hlt : off < bytes.length := by omega
    have hsub : off + (n + 1) - off = n + 1 := by omega
    have hsub' : off + 1 + n - (off + 1) = n := by omega
    rw [takeAt, index_of_lt hlt 0, hrest]
    simp only [bind, Except.bind, pure, Except.pure]
    rw [Words.slice, Words.slice, hsub, hsub', drop_eq_getElem_cons hlt, take_succ_cons, getD_eq_getElem _ _ hlt]

theorem slice_of_le {j : ℕ} (hij : i ≤ j) (hj : j ≤ bytes.length) :
    slice fail bytes i j = .ok (Words.slice bytes i j) := if_pos ⟨hij, hj⟩

/-- The slice up to the end. -/
theorem slice_to_end (h : i ≤ bytes.length) : slice fail bytes i bytes.length = .ok (bytes.drop i) := by
  rw [slice_of_le h le_rfl, Words.slice, take_of_length_le (by rw [length_drop])]

theorem shl_of_lt (x : UInt64) (h : n < 64) : shl fail x n = .ok (x <<< UInt64.ofNat n) := if_pos h

theorem shr_of_lt (x : UInt64) (h : n < 64) : shr fail x n = .ok (x >>> UInt64.ofNat n) := if_pos h

/-- A loop whose steps all succeed. -/
theorem mapM_eq_ok {g : α → β} (h : ∀ x ∈ xs, f x = .ok (g x)) : xs.mapM f = .ok (xs.map g) := by
  induction xs with
  | nil => rfl
  | cons x xs ih =>
    rw [forall_mem_cons] at h
    rw [mapM_cons, h.1, ih h.2]
    rfl

/-! ### Programs -/

/-- A sequence that returns: both parts do. -/
theorem of_bind_eq_ok {b : β} (h : x >>= f = .ok b) : ∃ a, x = .ok a ∧ f a = .ok b := by
  cases x with
  | error e => cases h
  | ok a => exact ⟨a, rfl, h⟩

/-- A program `x` does what `y` does where it is safe and fails elsewhere; `y` never fails this way. -/
structure FailsUnless (fail : ε) (safe : Prop) (x y : Except ε α) : Prop where
  eq : safe → x = y
  fails : ¬safe → x = .error fail
  returns : y ≠ .error fail

theorem FailsUnless.returns_iff (h : FailsUnless fail safe x y) : x ≠ .error fail ↔ safe := by
  constructor
  · intro hx
    by_contra hsafe
    exact hx (h.fails hsafe)
  · intro hsafe
    rw [h.eq hsafe]
    exact h.returns

theorem FailsUnless.ok_iff (h : FailsUnless fail safe x (.ok a)) : (∃ b, x = .ok b) ↔ safe := by
  constructor
  · rintro ⟨b, hb⟩
    by_contra hsafe
    rw [h.fails hsafe] at hb
    cases hb
  · intro hsafe
    exact ⟨a, h.eq hsafe⟩

theorem failsUnless_of_ne (h : x ≠ .error fail) : FailsUnless fail True x x :=
  ⟨fun _ => rfl, fun hsafe => absurd trivial hsafe, h⟩

theorem failsUnless_ok (a : α) : FailsUnless fail True (.ok a) (.ok a) := failsUnless_of_ne fun h => by cases h

theorem FailsUnless.congr (h : FailsUnless fail safe x y) (hiff : safe ↔ safe') : FailsUnless fail safe' x y :=
  ⟨fun hsafe => h.eq (hiff.mpr hsafe), fun hsafe => h.fails (mt hiff.mp hsafe), h.returns⟩

/-- A sequence is safe when its parts are, as far as it gets. -/
theorem FailsUnless.bind {g : α → Except ε β} {after : α → Prop} (h : FailsUnless fail safe x y)
    (hafter : ∀ a, y = .ok a → FailsUnless fail (after a) (f a) (g a)) :
    FailsUnless fail (safe ∧ ∀ a, y = .ok a → after a) (x >>= f) (y >>= g) := by
  cases y with
  | error e =>
    refine ⟨fun hsafe => ?_, fun hsafe => ?_, fun hy => h.returns (congrArg _ (Except.error.inj hy))⟩
    · rw [h.eq hsafe.1]
      rfl
    · have hunsafe : ¬safe := fun hs => hsafe ⟨hs, fun a ha => by cases ha⟩
      rw [h.fails hunsafe]
      rfl
  | ok a =>
    refine ⟨fun hsafe => ?_, fun hsafe => ?_, (hafter a rfl).returns⟩
    · rw [h.eq hsafe.1]
      exact (hafter a rfl).eq (hsafe.2 a rfl)
    · by_cases hs : safe
      · rw [h.eq hs]
        refine (hafter a rfl).fails fun ha => hsafe ⟨hs, fun b hb => ?_⟩
        rwa [← Except.ok.inj hb]
      · rw [h.fails hs]
        rfl

theorem FailsUnless.map (h : FailsUnless fail safe x y) (f : α → β) : FailsUnless fail safe (x.map f) (y.map f) := by
  refine ⟨fun hsafe => by rw [h.eq hsafe], fun hsafe => by rw [h.fails hsafe]; rfl, ?_⟩
  cases y with
  | error e => exact fun hy => h.returns (congrArg _ (Except.error.inj hy))
  | ok a => exact fun hy => by cases hy

/-- What comes after a part with a known value. -/
theorem FailsUnless.bind_ok {y : Except ε β} (h : FailsUnless fail safe x (.ok a))
    (h' : FailsUnless fail safe' (f a) y) :
    FailsUnless fail (safe ∧ safe') (x >>= f) y := by
  refine ⟨fun hsafe => ?_, fun hsafe => ?_, h'.returns⟩
  · rw [h.eq hsafe.1]
    exact h'.eq hsafe.2
  · by_cases hs : safe
    · rw [h.eq hs]
      exact h'.fails fun hs' => hsafe ⟨hs, hs'⟩
    · rw [h.fails hs]
      rfl

theorem bind_return (x : Except ε α) (f : α → β) : (x >>= fun a => pure (f a)) = x.map f := by rfl

/-- What comes after the last step that may fail. -/
theorem FailsUnless.bind_return (h : FailsUnless fail safe x y) (f : α → β) :
    FailsUnless fail safe (x >>= fun a => pure (f a)) (y >>= fun a => pure (f a)) := by
  rw [Guarded.bind_return, Guarded.bind_return]
  exact h.map f

end Guarded
