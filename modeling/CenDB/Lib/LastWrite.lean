import Mathlib.Tactic

/-! # Writes to a map

A sequence of writes as a map (`applyAll`), and by the last write of a key (`lastWrite`): the two
are the same (`applyAll_empty`). -/

/-- A write to a map. -/
inductive Write (κ ν : Type*) where
  | put (k : κ) (v : ν)
  | delete (k : κ)

namespace Write

open List

variable {κ ν : Type*} [DecidableEq κ]

/-- What a write leaves at a key; `none` if it is a write of another key. -/
def effect (k : κ) : Write κ ν → Option (Option ν)
  | put k' v => if k' = k then some (some v) else none
  | delete k' => if k' = k then some none else none

/-- The map after a write. -/
def apply (m : κ → Option ν) (w : Write κ ν) : κ → Option ν := fun k => (w.effect k).getD (m k)

def applyAll (m : κ → Option ν) (ws : List (Write κ ν)) : κ → Option ν := ws.foldl apply m

/-- The value of a key's last write, if that is a put. -/
def lastWrite (ws : List (Write κ ν)) (k : κ) : Option ν := (ws.reverse.findSome? (effect k)).join

@[simp] theorem apply_put (m : κ → Option ν) (k k' : κ) (v : ν) :
    apply m (put k v) k' = if k' = k then some v else m k' := by
  by_cases h : k' = k
  · subst h
    simp [apply, effect]
  · simp [apply, effect, h, Ne.symm h]

@[simp] theorem apply_delete (m : κ → Option ν) (k k' : κ) :
    apply m (delete k : Write κ ν) k' = if k' = k then none else m k' := by
  by_cases h : k' = k
  · subst h
    simp [apply, effect]
  · simp [apply, effect, h, Ne.symm h]

theorem applyAll_append (m : κ → Option ν) (ws us : List (Write κ ν)) :
    applyAll m (ws ++ us) = applyAll (applyAll m ws) us := foldl_append

/-- **Writes to the empty map leave the value of the last write.** -/
theorem applyAll_empty (ws : List (Write κ ν)) (k : κ) : applyAll (fun _ => none) ws k = lastWrite ws k := by
  induction ws using List.reverseRecOn with
  | nil => rfl
  | append_singleton ws w ih =>
    rw [applyAll_append, lastWrite, reverse_append, reverse_singleton, singleton_append, findSome?_cons]
    show (w.effect k).getD (applyAll (fun _ => none) ws k) = _
    cases w.effect k with
    | none => exact ih
    | some v => rfl

end Write
