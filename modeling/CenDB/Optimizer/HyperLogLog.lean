import CenDB.Lib.Suprema
import Mathlib.Data.List.GetD
import Mathlib.Data.Nat.Size
import Mathlib.Tactic

/-! # HyperLogLog

The first bits of a hash choose a register, and the register keeps the highest rank that the rest of a hash
had.  As a function from places to ranks, a sketch takes a hash by a join with the sketch of that hash alone
(`rank_add`), and it merges another of its precision by a join (`rank_merge`).  So the sketch of a list
depends on its hashes only, and merging is union (`merge_is_union`). -/

namespace CenDB.Optimizer

open List

/-- A register for each value of the first bits of a hash, with the highest rank seen there. -/
structure HyperLogLog where
  registers : List ℕ
  precision : ℕ
  m : ℕ
  four_le : 4 ≤ precision
  le_twenty : precision ≤ 20
  m_eq : m = 2 ^ precision
  length_eq : registers.length = m
deriving DecidableEq

namespace HyperLogLog

/-- `precision.clamp(4, 20)` -/
def clamp (precision : ℕ) : ℕ := min (max precision 4) 20

def new (precision : ℕ) : HyperLogLog where
  registers := .replicate (2 ^ clamp precision) 0
  precision := clamp precision
  m := 2 ^ clamp precision
  four_le := le_min (le_max_right _ _) (by decide)
  le_twenty := min_le_right _ _
  m_eq := rfl
  length_eq := length_replicate

/-- The register of a hash. -/
def idx (precision : ℕ) (hash : BitVec 64) : ℕ := (hash >>> (64 - precision)).toNat

/-- The position of the first bit that is set behind the first `precision` bits. -/
def rho (precision : ℕ) (hash : BitVec 64) : ℕ :=
  let w := hash <<< precision
  if w = 0 then (64 - precision + 1) % 2 ^ 8 else (w.clz.toNat + 1) % 2 ^ 8

theorem idx_lt {precision : ℕ} (h : precision ≤ 64) (hash : BitVec 64) : idx precision hash < 2 ^ precision := by
  rw [idx, BitVec.toNat_ushiftRight, Nat.shiftRight_eq_div_pow]
  refine Nat.div_lt_of_lt_mul ?_
  rw [← pow_add, Nat.sub_add_cancel h]
  exact hash.isLt

theorem idx_lt_length (h : HyperLogLog) (hash : BitVec 64) : idx h.precision hash < h.registers.length := by
  rw [h.length_eq, h.m_eq]
  exact idx_lt (h.le_twenty.trans (by decide)) hash

def add (h : HyperLogLog) (hash : BitVec 64) : HyperLogLog :=
  have := h.idx_lt_length hash
  if rho h.precision hash > h.registers[idx h.precision hash] then
    { h with
      registers := h.registers.set (idx h.precision hash) (rho h.precision hash)
      length_eq := length_set.trans h.length_eq }
  else h

/-- Each register of the first list is raised to that of the second at its place. -/
def raise : List ℕ → List ℕ → List ℕ
  | a :: registers, b :: others => (if b > a then b else a) :: raise registers others
  | registers, [] => registers
  | [], _ => []

theorem length_raise (registers others : List ℕ) : (raise registers others).length = registers.length := by
  fun_induction raise registers others with
  | case1 a registers b others ih => rw [length_cons, ih, length_cons]
  | case2 | case3 => rfl

def merge (h other : HyperLogLog) : HyperLogLog :=
  { h with
    registers := raise h.registers other.registers
    length_eq := (length_raise _ _).trans h.length_eq }

/-- Adds the hashes of a list. -/
def addAll (h : HyperLogLog) (hashes : List (BitVec 64)) : HyperLogLog := hashes.foldl add h

/-- The sketch of a list. -/
def sketch (precision : ℕ) (hashes : List (BitVec 64)) : HyperLogLog := (new precision).addAll hashes

/-! ### Ranks -/

/-! ### Registers as functions -/

/-- The register at a place. -/
def rank (h : HyperLogLog) (i : ℕ) : ℕ := h.registers.getD i 0

theorem ext_rank {h h' : HyperLogLog} (hprecision : h.precision = h'.precision) (hrank : h.rank = h'.rank) :
    h = h' := by
  have hm : h.m = h'.m := by rw [h.m_eq, h'.m_eq, hprecision]
  have hregisters : h.registers = h'.registers := by
    refine ext_getElem (by rw [h.length_eq, h'.length_eq, hm]) fun i hi hi' => ?_
    have hat := congrFun hrank i
    rwa [rank, rank, getD_eq_getElem _ _ hi, getD_eq_getElem _ _ hi'] at hat
  cases h
  cases h'
  cases hprecision
  cases hm
  cases hregisters
  rfl

theorem rank_new (precision : ℕ) : (new precision).rank = 0 := by
  funext i
  exact getElem?_getD_replicate_default_eq _ _ _

theorem getD_raise (registers others : List ℕ) (h : registers.length = others.length) (i : ℕ) :
    (raise registers others).getD i 0 = max (registers.getD i 0) (others.getD i 0) := by
  fun_induction raise registers others generalizing i with
  | case1 a registers b others ih =>
    cases i with
    | zero =>
      simp only [getD_cons_zero]
      split_ifs <;> omega
    | succ i => exact ih (Nat.succ_injective h) i
  | case2 registers =>
    rw [eq_nil_of_length_eq_zero h]
    rfl
  | case3 others =>
    rw [eq_nil_of_length_eq_zero h.symm]
    rfl

theorem rank_merge {h other : HyperLogLog} (hprecision : h.precision = other.precision) :
    (h.merge other).rank = h.rank ⊔ other.rank := by
  have hlength : h.registers.length = other.registers.length := by
    rw [h.length_eq, h.m_eq, other.length_eq, other.m_eq, hprecision]
  exact funext (getD_raise _ _ hlength)

/-- The ranks of the sketch of one hash. -/
def single (precision : ℕ) (hash : BitVec 64) : ℕ → ℕ := Pi.single (idx precision hash) (rho precision hash)

theorem rank_add (h : HyperLogLog) (hash : BitVec 64) : (h.add hash).rank = h.rank ⊔ single h.precision hash := by
  have hidx := h.idx_lt_length hash
  have hold : h.rank (idx h.precision hash) = h.registers[idx h.precision hash] := getD_eq_getElem _ _ hidx
  funext i
  rw [Pi.sup_apply, single, add]
  by_cases hi : i = idx h.precision hash
  · subst hi
    rw [Pi.single_eq_same, hold]
    split_ifs with hrho
    · rw [rank, getD_eq_getElem _ _ (by rwa [length_set]), getElem_set_self, max_eq_right hrho.le]
    · omega
  · rw [Pi.single_eq_of_ne hi, Nat.max_zero]
    split_ifs with hrho
    · rw [rank, rank, getD_eq_getElem?_getD, getElem?_set_ne (Ne.symm hi), getD_eq_getElem?_getD]
    · rfl

@[simp] theorem precision_add (h : HyperLogLog) (hash : BitVec 64) : (h.add hash).precision = h.precision := by
  rw [add]
  split_ifs <;> rfl

theorem addAll_cons (h : HyperLogLog) (hash : BitVec 64) (hashes : List (BitVec 64)) :
    h.addAll (hash :: hashes) = (h.add hash).addAll hashes := rfl

theorem precision_addAll (h : HyperLogLog) (hashes : List (BitVec 64)) :
    (h.addAll hashes).precision = h.precision := by
  induction hashes generalizing h with
  | nil => rfl
  | cons hash hashes ih => rw [addAll_cons, ih, precision_add]

/-- Adding the hashes of a list joins their sketches. -/
theorem rank_addAll (h : HyperLogLog) (hashes : List (BitVec 64)) :
    (h.addAll hashes).rank = joinAll (single h.precision) h.rank hashes := by
  induction hashes generalizing h with
  | nil => rfl
  | cons hash hashes ih => rw [addAll_cons, ih, precision_add, rank_add, joinAll_cons]

/-! ### Sketches -/

theorem precision_sketch (precision : ℕ) (hashes : List (BitVec 64)) :
    (sketch precision hashes).precision = clamp precision := precision_addAll _ _

theorem rank_sketch (precision : ℕ) (hashes : List (BitVec 64)) :
    (sketch precision hashes).rank = joinAll (single (clamp precision)) 0 hashes := by
  rw [sketch, rank_addAll, rank_new]
  rfl

/-- **Merging is union**: the sketch of a list depends on the hashes in it only, and merged with the sketch of
another it is the sketch of both. -/
theorem merge_is_union (precision : ℕ) (xs ys : List (BitVec 64)) :
    ((∀ hash, hash ∈ xs ↔ hash ∈ ys) → sketch precision xs = sketch precision ys) ∧
      (sketch precision xs).merge (sketch precision ys) = sketch precision (xs ++ ys) ∧
      ∀ a b c : HyperLogLog, a.precision = b.precision → b.precision = c.precision →
        a.merge b = b.merge a ∧ (a.merge b).merge c = a.merge (b.merge c) ∧ a.merge a = a := by
  have hprecision : ∀ xs, (sketch precision xs).precision = clamp precision := precision_sketch precision
  refine ⟨fun h => ?_, ?_, fun a b c hab hbc => ⟨?_, ?_, ?_⟩⟩
  · refine ext_rank ((hprecision xs).trans (hprecision ys).symm) ?_
    rw [rank_sketch, rank_sketch, joinAll_congr h]
  · refine ext_rank ((hprecision xs).trans (hprecision (xs ++ ys)).symm) ?_
    rw [rank_merge ((hprecision xs).trans (hprecision ys).symm), rank_sketch, rank_sketch, rank_sketch,
      joinAll_sup_joinAll]
  · refine ext_rank hab ?_
    rw [rank_merge hab, rank_merge hab.symm, sup_comm]
  · refine ext_rank rfl ?_
    have hleft : (a.merge b).precision = c.precision := hab.trans hbc
    have hright : a.precision = (b.merge c).precision := hab
    rw [rank_merge hleft, rank_merge hab, rank_merge hright, rank_merge hbc, sup_assoc]
  · refine ext_rank rfl ?_
    rw [rank_merge rfl, sup_idem]

/-- Two lists of the same hashes, one of them without a bit that is set. -/
theorem merge_is_union_lists : sketch 4 [0#64, 7#64] = sketch 4 [7#64, 0#64, 7#64] ∧
      (sketch 4 [0#64]).merge (sketch 4 [7#64]) = (sketch 4 [7#64]).merge (sketch 4 [0#64]) := by
  obtain ⟨hset, -, hlaws⟩ := merge_is_union 4 [0#64, 7#64] [7#64, 0#64, 7#64]
  have hmem : ∀ hash, hash ∈ [0#64, 7#64] ↔ hash ∈ [7#64, 0#64, 7#64] := fun hash => by
    simp only [mem_cons, not_mem_nil, or_false]
    exact ⟨Or.inr, fun h => h.elim Or.inr id⟩
  exact ⟨hset hmem, (hlaws (sketch 4 [0#64]) (sketch 4 [7#64]) (sketch 4 []) rfl rfl).1⟩

end HyperLogLog

end CenDB.Optimizer
