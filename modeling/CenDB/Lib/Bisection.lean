import Mathlib.Tactic

/-! # Cells halved again and again

A `Halving` splits every cell into two halves and says, for a point, which half it is sent to.  The
choices for a point are its `path`; following choices from a cell is `descend`.

If the two halves divide the points of a cell (`Divides`), the cells reached by paths of one length
divide the points of the first cell (`Divides.mem_descend`).  A larger notion of being in a cell, such as
one with all boundaries, only has to be kept by the half that a point is sent to (`keeps_descend`). -/

structure Halving (S P : Type*) where
  side : S → P → Bool
  child : S → Bool → S

namespace Halving

variable {S P : Type*} (H : Halving S P)

def path : ℕ → S → P → List Bool
  | 0, _, _ => []
  | n + 1, s, p => H.side s p :: path n (H.child s (H.side s p)) p

def descend (s : S) (choices : List Bool) : S := choices.foldl H.child s

theorem length_path (n : ℕ) (s : S) (p : P) : (H.path n s p).length = n := by
  induction n generalizing s with
  | zero => rfl
  | succ n ih => rw [path, List.length_cons, ih]

theorem path_add (m n : ℕ) (s : S) (p : P) :
    H.path (m + n) s p = H.path m s p ++ H.path n (H.descend s (H.path m s p)) p := by
  induction m generalizing s with
  | zero => rw [Nat.zero_add]; rfl
  | succ m ih => rw [Nat.succ_add, path, ih]; rfl

/-- The points of a cell are divided between its halves. -/
def Divides (mem : P → S → Prop) : Prop := ∀ p s side, mem p (H.child s side) ↔ mem p s ∧ H.side s p = side

variable {H} {mem : P → S → Prop}

theorem Divides.mem_descend (h : H.Divides mem) (p : P) (s : S) (choices : List Bool) :
    mem p (H.descend s choices) ↔ mem p s ∧ H.path choices.length s p = choices := by
  induction choices generalizing s with
  | nil => exact (and_iff_left rfl).symm
  | cons side rest ih =>
    have hfirst := ih (H.child s side)
    rw [h] at hfirst
    refine hfirst.trans ?_
    rw [List.length_cons, path, List.cons.injEq, and_assoc]
    refine and_congr_right fun _ => and_congr_right fun hside => ?_
    rw [hside]

theorem keeps_descend (h : ∀ p s, mem p s → mem p (H.child s (H.side s p))) {p : P} {s : S}
    (hp : mem p s) (n : ℕ) : mem p (H.descend s (H.path n s p)) := by
  induction n generalizing s with
  | zero => exact hp
  | succ n ih => exact ih (h p s hp)

/-- What both halves keep of a cell is kept by every descent. -/
theorem descend_induction {good : S → Prop} (h : ∀ s side, good s → good (H.child s side)) {s : S}
    (hs : good s) (choices : List Bool) : good (H.descend s choices) := by
  induction choices generalizing s with
  | nil => exact hs
  | cons side rest ih => exact ih (h s side hs)

end Halving
