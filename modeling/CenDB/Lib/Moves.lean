import Mathlib.Tactic

/-! # Moves, one after another and all at once

A list of moves takes a place to the new place of the move of that place (`destination`).  Carried out one
after another, a move takes along whatever is at a place that looks like its old one (`follow`).  The two
agree after every move exactly if no move takes along what is not its own (`follow_take_eq_iff`). -/

/-- A move from one place to another. -/
structure Transfer (α : Type*) where
  old : α
  new : α
deriving DecidableEq, Repr

namespace Transfer

open List

variable {α : Type*} (same : α → α → Prop) [DecidableRel same]

/-- Where a move leaves what is at a place. -/
def hop (l : α) (m : Transfer α) : α := if same l m.old then m.new else l

/-- Where the moves leave what is at a place, one after another. -/
def follow (moves : List (Transfer α)) (l : α) : α := moves.foldl (hop same) l

theorem follow_take_succ {moves : List (Transfer α)} {i : ℕ} (hi : i < moves.length) (l : α) :
    follow same (moves.take (i + 1)) l = hop same (follow same (moves.take i) l) moves[i] := by
  rw [follow, take_succ_eq_append_getElem hi, foldl_append]
  rfl

variable [DecidableEq α]

/-- The new place of what is at a place. -/
def destination (moves : List (Transfer α)) (l : α) : α :=
  match moves.find? (·.old = l) with
  | some m => m.new
  | none => l

variable {moves : List (Transfer α)} {l : α}

/-- No earlier move is of the same place. -/
theorem find?_take_self (h : (moves.map old).Nodup) {i : ℕ} (hi : i < moves.length) :
    (moves.take i).find? (·.old = moves[i].old) = none := by
  refine find?_eq_none.mpr fun m hm => ?_
  obtain ⟨j, hj, rfl⟩ := mem_take_iff_getElem.mp hm
  have hlt : j < i := (Nat.lt_min.mp hj).1
  have hne := pairwise_iff_getElem.mp (pairwise_map.mp h) j i (hlt.trans hi) hi hlt
  simpa using hne

theorem destination_take_self (h : (moves.map old).Nodup) {i : ℕ} (hi : i < moves.length) :
    destination (moves.take i) moves[i].old = moves[i].old := by
  rw [destination, find?_take_self h hi]

/-- The move of a place decides its destination, and the other moves leave it as it is. -/
theorem destination_take_succ (h : (moves.map old).Nodup) {i : ℕ} (hi : i < moves.length) :
    destination (moves.take (i + 1)) l = if l = moves[i].old then moves[i].new else destination (moves.take i) l := by
  rw [destination, take_succ_eq_append_getElem hi, find?_append]
  split_ifs with hown
  · subst hown
    rw [find?_take_self h hi, Option.none_or, find?_cons_of_pos (by simp)]
  · rw [find?_cons_of_neg (by simpa using Ne.symm hown), find?_nil, Option.or_none, destination]

/-- **Moves one after another are those all at once exactly if each move takes along its own only**, or what
is at its new place already. -/
theorem follow_take_eq_iff (hrefl : ∀ l, same l l) (h : (moves.map old).Nodup) :
    (∀ i ≤ moves.length, follow same (moves.take i) l = destination (moves.take i) l) ↔
      ∀ i (hi : i < moves.length), same (destination (moves.take i) l) moves[i].old →
        l = moves[i].old ∨ destination (moves.take i) l = moves[i].new := by
  constructor
  · intro hall i hi hsame
    have hnext := hall (i + 1) hi
    rw [follow_take_succ same hi l, hall i hi.le, hop, if_pos hsame, destination_take_succ h hi] at hnext
    split_ifs at hnext with hown
    · exact Or.inl hown
    · exact Or.inr hnext.symm
  · intro hok i hi
    induction i with
    | zero => rfl
    | succ i ih =>
      rw [follow_take_succ same hi l, ih (Nat.le_of_succ_le hi), hop, destination_take_succ h hi]
      by_cases hown : l = moves[i].old
      · have hself := destination_take_self h hi
        rw [← hown] at hself
        rw [if_pos hown, hself, ← hown, if_pos (hrefl l)]
      · rw [if_neg hown]
        split_ifs with hsame
        · exact ((hok i hi hsame).resolve_left hown).symm
        · rfl

end Transfer
