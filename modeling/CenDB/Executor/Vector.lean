import CenDB.Lib.Guarded

/-! # Selection vectors

The vectorized filters walk a column of 64-bit numbers once and keep the number of every row that passes, as an
unsigned number of 32 bits.  The comparison is all they differ in, and they are `filterI64` of it.  The sum
wraps around. -/

namespace CenDB.Executor

open List

/-- The numbers of the rows that passed a filter. -/
structure SelectionVector where
  indices : List UInt32
  deriving DecidableEq

namespace SelectionVector

def new : SelectionVector := ⟨[]⟩

def push (sv : SelectionVector) (idx : UInt32) : SelectionVector := ⟨sv.indices ++ [idx]⟩

/-- `col[i as usize]` for every index; an index outside of the column is a panic. -/
def gatherI64 {ε : Type} (fail : ε) (sv : SelectionVector) (col : List Int64) : Except ε (List Int64) :=
  sv.indices.mapM fun i => Guarded.index fail col i.toNat

end SelectionVector

/-- The loop of the filters. -/
def filterI64 (pass : Int64 → Bool) (col : List Int64) : SelectionVector :=
  col.zipIdx.foldl (fun sv row => if pass row.1 then sv.push (UInt32.ofNat row.2) else sv) .new

def filterI64Eq (col : List Int64) (val : Int64) : SelectionVector := filterI64 (fun v => v == val) col

def filterI64Ne (col : List Int64) (val : Int64) : SelectionVector := filterI64 (fun v => v != val) col

def filterI64Gt (col : List Int64) (val : Int64) : SelectionVector := filterI64 (fun v => decide (v > val)) col

def filterI64Ge (col : List Int64) (val : Int64) : SelectionVector := filterI64 (fun v => decide (v ≥ val)) col

def filterI64Lt (col : List Int64) (val : Int64) : SelectionVector := filterI64 (fun v => decide (v < val)) col

def filterI64Le (col : List Int64) (val : Int64) : SelectionVector := filterI64 (fun v => decide (v ≤ val)) col

/-- `fold(0, wrapping_add)`. -/
def sumI64 (col : List Int64) : Int64 := col.foldl (fun a b => a + b) 0

/-! ### The rows of a selection vector -/

/-- The rows whose values pass. -/
def rowsWhere (pass : Int64 → Bool) (col : List Int64) : List ℕ :=
  (List.range col.length).filter fun i => (col[i]?).any pass

theorem mem_rowsWhere {pass : Int64 → Bool} {col : List Int64} {i : ℕ} :
    i ∈ rowsWhere pass col ↔ i < col.length ∧ (col[i]?).any pass = true := by simp [rowsWhere]

section

variable (pass : Int64 → Bool)
include pass

/-- One more row. -/
theorem filterI64_concat (col : List Int64) (v : Int64) : filterI64 pass (col ++ [v]) =
      if pass v then (filterI64 pass col).push (UInt32.ofNat col.length) else filterI64 pass col := by
  simp [filterI64, zipIdx_append]

theorem filterI64_take_succ {col : List Int64} {i : ℕ} {v : Int64} (h : col[i]? = some v) :
    filterI64 pass (col.take (i + 1)) =
      if pass v then (filterI64 pass (col.take i)).push (UInt32.ofNat i) else filterI64 pass (col.take i) := by
  obtain ⟨hlt, hv⟩ := List.getElem?_eq_some_iff.mp h
  have hlen : (col.take i).length = i := by
    rw [length_take]
    omega
  rw [take_succ_eq_append_getElem hlt, hv, filterI64_concat, hlen]

theorem length_filterI64_le (col : List Int64) : (filterI64 pass col).indices.length ≤ col.length := by
  induction col using List.reverseRecOn with
  | nil => exact Nat.zero_le _
  | append_singleton col v ih =>
    rw [filterI64_concat, length_append, length_singleton]
    split
    · rw [SelectionVector.push, length_append, length_singleton]
      exact Nat.succ_le_succ ih
    · omega

theorem rowsWhere_concat (col : List Int64) (v : Int64) :
    rowsWhere pass (col ++ [v]) = rowsWhere pass col ++ if pass v then [col.length] else [] := by
  have hcongr : ∀ i ∈ List.range col.length, ((col ++ [v])[i]?).any pass = (col[i]?).any pass := by
    intro i hi
    rw [getElem?_append_left (mem_range.mp hi)]
  have hlast : ((col ++ [v])[col.length]?).any pass = pass v := by simp
  rw [rowsWhere, length_append, length_singleton, range_succ, filter_append,
    filter_congr hcongr, filter_singleton, hlast, Bool.cond_eq_ite, ← rowsWhere]

/-- A filter selects the rows whose values pass. -/
theorem filterI64_indices (col : List Int64) :
    (filterI64 pass col).indices = (rowsWhere pass col).map UInt32.ofNat := by
  induction col using List.reverseRecOn with
  | nil => rfl
  | append_singleton col v ih =>
    rw [filterI64_concat, rowsWhere_concat, map_append, ← ih]
    split
    · rfl
    · simp

end

end CenDB.Executor
