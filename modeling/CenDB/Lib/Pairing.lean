import Mathlib.Tactic

/-! # Combining neighbours until one element is left

`pairUp f` combines every two neighbours of a list; a last element without a neighbour is combined
with itself.  `combine f n` does so until at most one element is left, for at most `n` rounds.

Over an arbitrary `f` the rounds only depend on the length of the list (`combine_map`), so that they
can be carried out on trees, where `f` is a constructor.  The trees they build are perfect
(`perfect_combine`), and a perfect tree is determined by its leaves (`Perfect.eq_of_leaves`). -/

namespace Pairing

open List

variable {α β γ : Type*}

def pairUp (f : α → α → β) : List α → List β
  | [] => []
  | [a] => [f a a]
  | a :: b :: rest => f a b :: pairUp f rest

def combine (f : α → α → α) : ℕ → List α → List α
  | 0, l => l
  | n + 1, l => if 1 < l.length then combine f n (pairUp f l) else l

theorem pairUp_nil (f : α → α → β) : pairUp f [] = [] := rfl

theorem pairUp_singleton (f : α → α → β) (a : α) : pairUp f [a] = [f a a] := rfl

theorem pairUp_cons_cons (f : α → α → β) (a b : α) (rest : List α) :
    pairUp f (a :: b :: rest) = f a b :: pairUp f rest := rfl

theorem combine_succ (f : α → α → α) (n : ℕ) (l : List α) :
    combine f (n + 1) l = if 1 < l.length then combine f n (pairUp f l) else l := rfl

theorem length_pairUp (f : α → α → β) : ∀ l : List α, (pairUp f l).length = (l.length + 1) / 2
  | [] => by simp [pairUp_nil]
  | [_] => by simp [pairUp_singleton]
  | a :: b :: rest => by
    rw [pairUp_cons_cons, length_cons, length_pairUp f rest, length_cons, length_cons]
    omega

theorem map_pairUp (f : α → α → β) (g : β → γ) : ∀ l : List α,
    (pairUp f l).map g = pairUp (fun a b => g (f a b)) l
  | [] => rfl
  | [_] => rfl
  | a :: b :: rest => by rw [pairUp_cons_cons, pairUp_cons_cons, map_cons, map_pairUp f g rest]

theorem pairUp_map (f : β → β → γ) (g : α → β) : ∀ l : List α,
    pairUp f (l.map g) = pairUp (fun a b => f (g a) (g b)) l
  | [] => rfl
  | [_] => rfl
  | a :: b :: rest => by
    rw [map_cons, map_cons, pairUp_cons_cons, pairUp_cons_cons, pairUp_map f g rest]

theorem mem_pairUp {f : α → α → β} {c : β} : ∀ {l : List α}, c ∈ pairUp f l → ∃ a ∈ l, ∃ b ∈ l, c = f a b
  | [], h => by cases h
  | [a], h => ⟨a, mem_cons_self, a, mem_cons_self, mem_singleton.mp h⟩
  | a :: b :: rest, h => by
    cases mem_cons.mp h with
    | inl hc => exact ⟨a, by simp, b, by simp, hc⟩
    | inr hc =>
      obtain ⟨a', ha', b', hb', rfl⟩ := mem_pairUp hc
      exact ⟨a', by simp [ha'], b', by simp [hb'], rfl⟩

theorem getElem?_pairUp (f : α → α → β) : ∀ (l : List α) (i : ℕ),
    (pairUp f l)[i]? = l[2 * i]?.map fun a => f a (l[2 * i + 1]?.getD a)
  | [], i => rfl
  | [a], 0 => rfl
  | [a], i + 1 => rfl
  | a :: b :: rest, 0 => rfl
  | a :: b :: rest, i + 1 => by
    rw [pairUp_cons_cons, Nat.mul_succ, getElem?_cons_succ, getElem?_pairUp f rest i]
    rfl

/-- The rounds commute with a map that respects the combination. -/
theorem combine_map (f : α → α → α) (f' : β → β → β) (g : α → β)
    (hg : ∀ a b, g (f a b) = f' (g a) (g b)) (n : ℕ) (l : List α) :
    combine f' n (l.map g) = (combine f n l).map g := by
  induction n generalizing l with
  | zero => rfl
  | succ n ih =>
    rw [combine_succ, combine_succ, length_map]
    by_cases hl : 1 < l.length
    · rw [if_pos hl, if_pos hl, ← ih, map_pairUp, pairUp_map]
      simp only [hg]
    · simp [hl]

/-- Enough rounds leave one element. -/
theorem combine_eq_singleton (f : α → α → α) {n : ℕ} {l : List α} (hl : l ≠ [])
    (hn : l.length ≤ n + 1) : ∃ a, combine f n l = [a] := by
  induction n generalizing l with
  | zero =>
    have hpos := length_pos_of_ne_nil hl
    change ∃ a, l = [a]
    exact length_eq_one_iff.mp (by omega)
  | succ n ih =>
    have hpos := length_pos_of_ne_nil hl
    have hlen := length_pairUp f l
    rw [combine_succ]
    by_cases h1 : 1 < l.length
    · rw [if_pos h1]
      exact ih (ne_nil_of_length_pos (by omega)) (by omega)
    · rw [if_neg h1]
      exact length_eq_one_iff.mp (by omega)

/-! ### Lists joined -/

theorem flatten_pairUp : ∀ ls : List (List α), ls.flatten <+: (pairUp (· ++ ·) ls).flatten
  | [] => prefix_rfl
  | [a] => by simp [pairUp_singleton]
  | a :: b :: rest => by
    rw [pairUp_cons_cons, flatten_cons, flatten_cons, flatten_cons, ← append_assoc]
    exact (prefix_append_right_inj _).mpr (flatten_pairUp rest)

/-- Joining neighbours puts repetitions behind the lists, nothing in front of them. -/
theorem flatten_combine (n : ℕ) (ls : List (List α)) : ls.flatten <+: (combine (· ++ ·) n ls).flatten := by
  induction n generalizing ls with
  | zero => exact prefix_rfl
  | succ n ih =>
    rw [combine_succ]
    split
    · exact (flatten_pairUp ls).trans (ih _)
    · simp

/-! ### Trees -/

inductive PairTree (α : Type*)
  | leaf (a : α)
  | node (l r : PairTree α)

namespace PairTree

def leaves : PairTree α → List α
  | leaf a => [a]
  | node l r => l.leaves ++ r.leaves

/-- All leaves are at the depth `d`. -/
def Perfect : ℕ → PairTree α → Prop
  | 0, leaf _ => True
  | d + 1, node l r => Perfect d l ∧ Perfect d r
  | _, _ => False

theorem Perfect.length_leaves {d : ℕ} {t : PairTree α} (h : t.Perfect d) : t.leaves.length = 2 ^ d := by
  induction d generalizing t with
  | zero =>
    cases t with
    | leaf a => rfl
    | node l r => cases h
  | succ d ih =>
    cases t with
    | leaf a => cases h
    | node l r => rw [leaves, length_append, ih h.1, ih h.2, pow_succ, mul_two]

/-- A perfect tree is determined by its leaves. -/
theorem Perfect.eq_of_leaves {d e : ℕ} {t u : PairTree α} (ht : t.Perfect d) (hu : u.Perfect e)
    (h : t.leaves = u.leaves) : t = u := by
  have hde : d = e := by
    have hlen := congrArg List.length h
    rw [ht.length_leaves, hu.length_leaves] at hlen
    exact Nat.pow_right_injective le_rfl hlen
  subst hde
  induction d generalizing t u with
  | zero =>
    cases t with
    | leaf a =>
      cases u with
      | leaf b => rw [singleton_inj.mp h]
      | node l r => cases hu
    | node l r => cases ht
  | succ d ih =>
    cases t with
    | leaf a => cases ht
    | node l r =>
      cases u with
      | leaf b => cases hu
      | node l' r' =>
        have hlen : l.leaves.length = l'.leaves.length := by simp [ht.1.length_leaves, hu.1.length_leaves]
        obtain ⟨hl, hr⟩ := append_inj h hlen
        rw [ih ht.1 hl hu.1, ih ht.2 hr hu.2]

end PairTree

/-- Rounds over leaves build perfect trees. -/
theorem perfect_combine (n : ℕ) {d : ℕ} {ts : List (PairTree α)} (h : ∀ t ∈ ts, t.Perfect d) :
    ∃ e, ∀ t ∈ combine .node n ts, t.Perfect e := by
  induction n generalizing d ts with
  | zero => exact ⟨d, h⟩
  | succ n ih =>
    rw [combine_succ]
    split
    · refine ih (d := d + 1) fun t ht => ?_
      obtain ⟨a, ha, b, hb, rfl⟩ := mem_pairUp ht
      exact ⟨h a ha, h b hb⟩
    · exact ⟨d, h⟩

end Pairing
