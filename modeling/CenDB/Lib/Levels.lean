import Mathlib.Tactic

/-! # Levels of a search

The elements that a search can reach from `a` lie on levels, by the length of a shortest walk (`Shortest`).  A
level is made of the successors of the one before that lie on no earlier level (`shortest_succ`), so a search in
breadth can go level by level: `Explored.step` adds a level to what is found, and after an empty level there is
no other (`Explored.complete`). -/

namespace Levels

open List

variable {α : Type*} {next : α → List α} {a b c : α} {d k n : ℕ}

/-- A walk of a number of steps. -/
inductive Walk (next : α → List α) (a : α) : ℕ → α → Prop where
  | nil : Walk next a 0 a
  | snoc {n : ℕ} {b c : α} : Walk next a n b → c ∈ next b → Walk next a (n + 1) c

/-- The length of a shortest walk. -/
def Shortest (next : α → List α) (a : α) (d : ℕ) (b : α) : Prop := IsLeast {n | Walk next a n b} d

theorem Shortest.unique (h : Shortest next a d b) (h' : Shortest next a k b) : d = k := IsLeast.unique h h'

theorem Walk.exists_shortest (h : Walk next a n b) : ∃ d ≤ n, Shortest next a d b := by
  classical
  have hex : ∃ n, Walk next a n b := ⟨n, h⟩
  exact ⟨Nat.find hex, Nat.find_min' hex h, Nat.find_spec hex, fun k hk => Nat.find_min' hex hk⟩

theorem walk_zero : Walk next a 0 b ↔ b = a := by
  constructor
  · intro h
    cases h
    rfl
  · rintro rfl
    exact .nil

theorem shortest_zero : Shortest next a 0 b ↔ b = a := by
  rw [← walk_zero]
  exact ⟨fun h => h.1, fun h => ⟨h, fun n _ => Nat.zero_le n⟩⟩

/-- A level has the successors of the level before it that are on no level so far. -/
theorem shortest_succ : Shortest next a (d + 1) c ↔
    (∃ b, Shortest next a d b ∧ c ∈ next b) ∧ ∀ k ≤ d, ¬Shortest next a k c := by
  constructor
  · intro h
    refine ⟨?_, fun k hk h' => by have := h.unique h'; omega⟩
    cases h.1 with
    | snoc hwalk hc =>
      rename_i b
      refine ⟨b, ⟨hwalk, fun n hn => ?_⟩, hc⟩
      have hle : d + 1 ≤ n + 1 := h.2 (Walk.snoc hn hc)
      omega
  · rintro ⟨⟨b, hb, hc⟩, hnone⟩
    refine ⟨hb.1.snoc hc, fun n hn => ?_⟩
    obtain ⟨k, hk, hshortest⟩ := Walk.exists_shortest hn
    by_contra hlt
    exact hnone k (by omega) hshortest

/-- After an empty level there is no other. -/
theorem not_shortest_of_empty (h : ∀ b, ¬Shortest next a d b) (hle : d ≤ k) (b : α) : ¬Shortest next a k b := by
  induction k, hle using Nat.le_induction generalizing b with
  | base => exact h b
  | succ k hle ih =>
    intro hb
    obtain ⟨⟨c, hc, -⟩, -⟩ := shortest_succ.mp hb
    exact ih c hc

/-- The elements up to a level are found, each once and with its level. -/
structure Explored (next : α → List α) (a : α) (depth : ℕ) (found : List (ℕ × α)) : Prop where
  nodup : (found.map Prod.snd).Nodup
  mem : ∀ d b, (d, b) ∈ found ↔ d ≤ depth ∧ Shortest next a d b

theorem explored_start (next : α → List α) (a : α) : Explored next a 0 [(0, a)] where
  nodup := nodup_singleton a
  mem d b := by
    rw [mem_singleton, Prod.mk.injEq]
    constructor
    · rintro ⟨rfl, rfl⟩
      exact ⟨le_rfl, shortest_zero.mpr rfl⟩
    · rintro ⟨hd, h⟩
      obtain rfl := Nat.le_zero.mp hd
      exact ⟨rfl, shortest_zero.mp h⟩

/-- The successors of a frontier that are not found yet, each once. -/
structure NextLevel (next : α → List α) (frontier : List α) (found : List (ℕ × α)) (level : List α) : Prop where
  nodup : level.Nodup
  mem : ∀ b, b ∈ level ↔ b ∉ found.map Prod.snd ∧ ∃ c ∈ frontier, b ∈ next c

variable {depth : ℕ} {found : List (ℕ × α)} {frontier level : List α}

theorem Explored.mem_map (h : Explored next a depth found) :
    b ∈ found.map Prod.snd ↔ ∃ d ≤ depth, Shortest next a d b := by
  constructor
  · intro hb
    obtain ⟨⟨d, b'⟩, hmem, rfl⟩ := List.mem_map.mp hb
    exact ⟨d, (h.mem d b').mp hmem⟩
  · rintro ⟨d, hd⟩
    exact List.mem_map.mpr ⟨(d, b), (h.mem d b).mpr hd, rfl⟩

/-- The next level of what is explored is the next level of the elements. -/
theorem Explored.mem_level (h : Explored next a depth found)
    (hfrontier : ∀ b, b ∈ frontier ↔ Shortest next a depth b) (hlevel : NextLevel next frontier found level) :
    b ∈ level ↔ Shortest next a (depth + 1) b := by
  rw [hlevel.mem, h.mem_map, shortest_succ, and_comm]
  simp only [hfrontier, not_exists, not_and]

theorem Explored.step (h : Explored next a depth found)
    (hfrontier : ∀ b, b ∈ frontier ↔ Shortest next a depth b) (hlevel : NextLevel next frontier found level) :
    Explored next a (depth + 1) (found ++ level.map fun b => (depth + 1, b)) where
  nodup := by
    rw [map_append, map_map, nodup_append']
    refine ⟨h.nodup, ?_, fun b hb hlast => ?_⟩
    · rw [Function.comp_def, map_id']
      exact hlevel.nodup
    · rw [Function.comp_def, map_id'] at hlast
      exact ((hlevel.mem b).mp hlast).1 hb
  mem d b := by
    have hlast : (d, b) ∈ level.map (fun b => (depth + 1, b)) ↔ d = depth + 1 ∧ b ∈ level := by
      rw [List.mem_map]
      constructor
      · rintro ⟨b', hb', heq⟩
        cases heq
        exact ⟨rfl, hb'⟩
      · rintro ⟨rfl, hb⟩
        exact ⟨b, hb, rfl⟩
    rw [mem_append, h.mem, hlast, h.mem_level hfrontier hlevel, Nat.le_succ_iff, or_and_right]
    constructor
    · rintro (hfirst | ⟨rfl, hb⟩)
      · exact Or.inl hfirst
      · exact Or.inr ⟨rfl, hb⟩
    · rintro (hfirst | ⟨rfl, hb⟩)
      · exact Or.inl hfirst
      · exact Or.inr ⟨rfl, hb⟩

/-- What is explored up to an empty level is all. -/
theorem Explored.complete (h : Explored next a depth found) (hempty : ∀ b, ¬Shortest next a (depth + 1) b)
    (hle : depth ≤ k) : Explored next a k found where
  nodup := h.nodup
  mem d b := by
    rw [h.mem]
    constructor
    · rintro ⟨hd, hb⟩
      exact ⟨hd.trans hle, hb⟩
    · rintro ⟨-, hb⟩
      refine ⟨?_, hb⟩
      by_contra hlt
      exact not_shortest_of_empty hempty (by omega) b hb

end Levels
