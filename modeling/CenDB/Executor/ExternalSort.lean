import CenDB.Lib.Heap
import CenDB.Storage.Header

/-! # External merge sort

Values are collected in a buffer; a full buffer is sorted and becomes a run, and the runs are merged at the end
by a heap that holds the next value of each.  The values are integers, and their order is the ascending one.

`Holds` says that nothing is lost or made up on the way; the merge gives what is left of the runs in the heap
(`merge_perm`), smallest first (`sorted_merge`). -/

namespace CenDB.Executor

open List

open Storage (Halt)

/-- A value of a run, with the number of the run and the place in it. -/
abbrev HeapEntry := Int64 × ℕ × ℕ

/-- Entries are compared as tuples. -/
def HeapEntry.rank (e : HeapEntry) : ℤ ×ₗ ℕ ×ₗ ℕ := toLex (e.1.toInt, toLex e.2)

/-- The heap is of `Reverse` entries: the greatest is the smallest tuple. -/
abbrev MinHeap := Heap HeapEntry fun a b => HeapEntry.rank b < HeapEntry.rank a

structure ExternalMergeSort where
  runSize : ℕ
  runs : List (List Int64)
  buffer : List Int64

namespace ExternalMergeSort

/-- The most values that a buffer can be allocated for. -/
def maxCapacity : ℕ := (2 ^ 63 - 1) / 8

def new (runSize : ℕ) : Except Halt ExternalMergeSort :=
  if maxCapacity < runSize then .error .panic else .ok ⟨runSize, [], []⟩

def spill (s : ExternalMergeSort) : ExternalMergeSort :=
  if s.buffer.isEmpty then s
  else { s with runs := s.runs ++ [s.buffer.mergeSort fun x y => x ≤ y], buffer := [] }

def push (s : ExternalMergeSort) (value : Int64) : ExternalMergeSort :=
  let s := { s with buffer := s.buffer ++ [value] }
  if s.runSize ≤ s.buffer.length then s.spill else s

variable (h : MinHeap) (runs : List (List Int64))

/-- Push the first value of a run. -/
def pushFirst (heap : List HeapEntry) (run : List Int64 × ℕ) : List HeapEntry :=
  match run.1 with
  | [] => heap
  | v :: _ => h.push heap (v, run.2, 0)

def firstEntries : List HeapEntry := runs.zipIdx.foldl (pushFirst h) []

/-- Push the value that follows an entry in its run. -/
def pushNext (heap : List HeapEntry) (e : HeapEntry) : List HeapEntry :=
  let nextIdx := e.2.2 + 1
  match (runs.getD e.2.1 [])[nextIdx]? with
  | none => heap
  | some v => h.push heap (v, e.2.1, nextIdx)

/-- What is left of a run from an entry on. -/
def remaining (e : HeapEntry) : List Int64 := (runs.getD e.2.1 []).drop e.2.2

variable {heap : List HeapEntry} {e : HeapEntry}

variable {rest : List HeapEntry}

/-- A round of the loop leaves less to merge. -/
theorem sum_pushNext_lt (hpop : h.pop heap = some (e, rest)) :
    ((pushNext h runs rest e).map fun e => (remaining runs e).length + 1).sum <
      (heap.map fun e => (remaining runs e).length + 1).sum := by
  rw [((h.perm_pop heap e rest hpop).map _).sum_eq.symm, map_cons, sum_cons]
  unfold pushNext
  dsimp only
  cases hnext : (runs.getD e.2.1 [])[e.2.2 + 1]? with
  | none =>
    dsimp only
    omega
  | some v =>
    dsimp only
    rw [((h.perm_push rest (v, e.2.1, e.2.2 + 1)).map _).sum_eq, map_cons, sum_cons]
    obtain ⟨hlt, -⟩ := List.getElem?_eq_some_iff.mp hnext
    simp only [remaining, length_drop]
    omega

/-- Pop the smallest value until the heap is empty. -/
def merge (heap : List HeapEntry) : List Int64 :=
  match _hpop : h.pop heap with
  | none => []
  | some (e, rest) => e.1 :: merge (pushNext h runs rest e)
termination_by (heap.map fun e => (remaining runs e).length + 1).sum
decreasing_by exact sum_pushNext_lt h runs _hpop

def finish (s : ExternalMergeSort) : List Int64 :=
  match s.spill.runs with
  | [] => []
  | [run] => run
  | runs => merge h runs (firstEntries h runs)

/-! ### Runs -/

variable {h runs} {s : ExternalMergeSort} {values : List Int64}

/-- The runs are sorted, and with the buffer they have the values. -/
structure Holds (s : ExternalMergeSort) (values : List Int64) : Prop where
  sorted : ∀ run ∈ s.runs, run.Pairwise (· ≤ ·)
  perm : (s.runs.flatten ++ s.buffer).Perm values

theorem sorted_mergeSort (l : List Int64) : (l.mergeSort fun x y => x ≤ y).Pairwise (· ≤ ·) := by
  have htrans (a b c : Int64) (hab : decide (a ≤ b) = true) (hbc : decide (b ≤ c) = true) :
      decide (a ≤ c) = true := decide_eq_true (Int64.le_trans (of_decide_eq_true hab) (of_decide_eq_true hbc))
  have htotal (a b : Int64) : (decide (a ≤ b) || decide (b ≤ a)) = true := by
    simpa using Int64.le_total a b
  exact (pairwise_mergeSort htrans htotal l).imp of_decide_eq_true

theorem Holds.spill (hs : Holds s values) : Holds s.spill values ∧ s.spill.buffer = [] := by
  unfold ExternalMergeSort.spill
  by_cases hempty : s.buffer.isEmpty = true
  · rw [if_pos hempty]
    exact ⟨hs, List.isEmpty_iff.mp hempty⟩
  · rw [if_neg hempty]
    refine ⟨⟨?_, ?_⟩, rfl⟩
    · intro run hrun
      rcases mem_append.mp hrun with hold | hnew
      · exact hs.sorted run hold
      · rw [mem_singleton.mp hnew]
        exact sorted_mergeSort s.buffer
    · rw [flatten_append, flatten_singleton, append_nil]
      exact ((mergeSort_perm s.buffer _).append_left _).trans hs.perm

theorem Holds.push (hs : Holds s values) (value : Int64) : Holds (s.push value) (values ++ [value]) := by
  have hmore : Holds { s with buffer := s.buffer ++ [value] } (values ++ [value]) :=
    ⟨hs.sorted, by
      rw [← append_assoc]
      exact hs.perm.append_right [value]⟩
  unfold ExternalMergeSort.push
  dsimp only
  split
  · exact hmore.spill.1
  · exact hmore

theorem Holds.pushAll (hs : Holds s values) (more : List Int64) :
    Holds (more.foldl ExternalMergeSort.push s) (values ++ more) := by
  induction more generalizing s values with
  | nil =>
    rw [append_nil]
    exact hs
  | cons value more ih =>
    rw [append_cons]
    exact ih (hs.push value)

/-! ### The merge -/

/-- The entries of a heap stand in their runs. -/
def Placed (runs : List (List Int64)) (heap : List HeapEntry) : Prop :=
  ∀ e ∈ heap, remaining runs e = e.1 :: (runs.getD e.2.1 []).drop (e.2.2 + 1)

theorem remaining_next {v : Int64} (hv : (runs.getD e.2.1 [])[e.2.2 + 1]? = some v) :
    remaining runs (v, e.2.1, e.2.2 + 1) = v :: (runs.getD e.2.1 []).drop (e.2.2 + 1 + 1) ∧
      (runs.getD e.2.1 []).drop (e.2.2 + 1) = remaining runs (v, e.2.1, e.2.2 + 1) := by
  obtain ⟨hlt, rfl⟩ := List.getElem?_eq_some_iff.mp hv
  exact ⟨drop_eq_getElem_cons hlt, rfl⟩

/-- What is pushed after an entry is what follows it. -/
theorem pushNext_spec (hrest : Placed runs rest) (e : HeapEntry) :
    Placed runs (pushNext h runs rest e) ∧ ((pushNext h runs rest e).flatMap (remaining runs)).Perm
      ((runs.getD e.2.1 []).drop (e.2.2 + 1) ++ rest.flatMap (remaining runs)) := by
  unfold pushNext
  dsimp only
  cases hnext : (runs.getD e.2.1 [])[e.2.2 + 1]? with
  | none =>
    rw [drop_eq_nil_of_le (List.getElem?_eq_none_iff.mp hnext)]
    exact ⟨hrest, List.Perm.refl _⟩
  | some v =>
    obtain ⟨hcons, hdrop⟩ := remaining_next hnext
    refine ⟨fun e' he' => ?_, ?_⟩
    · rcases Heap.mem_push.mp he' with rfl | hold
      · exact hcons
      · exact hrest e' hold
    · rw [hdrop, ← flatMap_cons]
      exact (h.perm_push rest _).flatMap_right _

theorem merge_of_pop_none (hpop : h.pop heap = none) : merge h runs heap = [] := by
  rw [merge]
  split
  · rfl
  · rename_i hsome
    rw [hpop] at hsome
    cases hsome

theorem merge_of_pop (hpop : h.pop heap = some (e, rest)) :
    merge h runs heap = e.1 :: merge h runs (pushNext h runs rest e) := by
  rw [merge]
  split
  · rename_i hnone
    rw [hpop] at hnone
    cases hnone
  · rename_i hsome
    rw [hpop] at hsome
    cases hsome
    rfl

/-- The merge has what is left of the runs. -/
theorem merge_perm (heap : List HeapEntry) (hheap : Placed runs heap) :
    (merge h runs heap).Perm (heap.flatMap (remaining runs)) := by
  induction heap using merge.induct h runs with
  | case1 heap hpop =>
    rw [merge_of_pop_none hpop, (h.pop_eq_none heap).mp hpop]
    exact List.Perm.refl _
  | case2 heap e rest hpop ih =>
    have hsub := Heap.subset_of_pop hpop
    obtain ⟨hplaced, hperm⟩ := pushNext_spec (h := h) (fun e' he' => hheap e' (hsub he')) e
    rw [merge_of_pop hpop]
    refine (((ih hplaced).trans hperm).cons e.1).trans ?_
    rw [← cons_append, ← hheap e (Heap.mem_of_pop hpop), ← flatMap_cons]
    exact (h.perm_pop heap e rest hpop).flatMap_right _

/-- The value of an entry is the smallest that is left of its run. -/
theorem le_of_mem_remaining (hsorted : ∀ run ∈ runs, run.Pairwise (· ≤ ·)) (hheap : Placed runs heap)
    (he : e ∈ heap) {y : Int64} (hy : y ∈ remaining runs e) :
    e.1 ≤ y := by
  have hrun : (runs.getD e.2.1 []).Pairwise (· ≤ ·) := by
    rw [getD_eq_getElem?_getD]
    cases hget : runs[e.2.1]? with
    | none => exact List.Pairwise.nil
    | some run => exact hsorted run (mem_of_getElem? hget)
  have hleft : (remaining runs e).Pairwise (· ≤ ·) := hrun.sublist (drop_sublist _ _)
  rw [hheap e he] at hy hleft
  rcases mem_cons.mp hy with rfl | hlater
  · simp
  · exact (pairwise_cons.mp hleft).1 y hlater

theorem le_of_rank_le {e' : HeapEntry} (hle : e.rank ≤ e'.rank) : e.1 ≤ e'.1 := by
  rcases Prod.Lex.toLex_le_toLex.mp hle with hlt | heq
  · exact Int64.le_iff_toInt_le.mpr hlt.le
  · exact Int64.le_iff_toInt_le.mpr heq.1.le

/-- The merge of sorted runs is sorted. -/
theorem sorted_merge (hsorted : ∀ run ∈ runs, run.Pairwise (· ≤ ·)) (heap : List HeapEntry)
    (hheap : Placed runs heap) : (merge h runs heap).Pairwise (· ≤ ·) := by
  induction heap using merge.induct h runs with
  | case1 heap hpop =>
    rw [merge_of_pop_none hpop]
    exact List.Pairwise.nil
  | case2 heap e rest hpop ih =>
    have hsub := Heap.subset_of_pop hpop
    have he := Heap.mem_of_pop hpop
    have hrest : Placed runs rest := fun e' he' => hheap e' (hsub he')
    obtain ⟨hplaced, hperm⟩ := pushNext_spec (h := h) hrest e
    rw [merge_of_pop hpop]
    refine pairwise_cons.mpr ⟨fun y hy => ?_, ih hplaced⟩
    rw [((merge_perm _ hplaced).trans hperm).mem_iff, mem_append, mem_flatMap] at hy
    rcases hy with hown | ⟨e', he', hother⟩
    · refine le_of_mem_remaining hsorted hheap he ?_
      rw [hheap e he]
      exact mem_cons_of_mem e.1 hown
    · have hrank := h.pop_greatest (ranksBy_of_linearOrder HeapEntry.rank) heap e rest hpop e' he'
      exact Int64.le_trans (le_of_rank_le (not_lt.mp hrank)) (le_of_mem_remaining hsorted hrest he' hother)

/-- The entries pushed so far stand for their runs. -/
theorem foldl_pushFirst {done todo : List (List Int64)} (hsplit : runs = done ++ todo)
    (hheap : Placed runs heap) (hperm : (heap.flatMap (remaining runs)).Perm done.flatten) :
    Placed runs ((todo.zipIdx done.length).foldl (pushFirst h) heap) ∧
      (((todo.zipIdx done.length).foldl (pushFirst h) heap).flatMap (remaining runs)).Perm runs.flatten := by
  induction todo generalizing done heap with
  | nil =>
    rw [append_nil] at hsplit
    exact ⟨hheap, hsplit ▸ hperm⟩
  | cons run todo ih =>
    have hsplit' : runs = (done ++ [run]) ++ todo := by rw [hsplit, append_assoc]; rfl
    have hlen : done.length + 1 = (done ++ [run]).length := by rw [length_append, length_singleton]
    have hrun : runs.getD done.length [] = run := by simp [hsplit]
    rw [zipIdx_cons, foldl_cons, hlen]
    cases run with
    | nil =>
      refine ih hsplit' hheap ?_
      rw [flatten_append, flatten_singleton, append_nil]
      exact hperm
    | cons v vs =>
      have hfirst : remaining runs (v, done.length, 0) = v :: vs := by
        rw [remaining, hrun]
        rfl
      refine ih hsplit' (fun e he => ?_) ?_
      · rcases Heap.mem_push.mp he with rfl | hold
        · rw [hfirst, hrun]
          rfl
        · exact hheap e hold
      · refine ((h.perm_push heap _).flatMap_right _).trans ?_
        rw [flatMap_cons, hfirst, flatten_append, flatten_singleton]
        exact perm_append_comm.trans (hperm.append_right _)

/-- The first entries stand for all runs. -/
theorem firstEntries_spec (h : MinHeap) (runs : List (List Int64)) : Placed runs (firstEntries h runs) ∧
      ((firstEntries h runs).flatMap (remaining runs)).Perm runs.flatten := by
  have hempty : Placed runs [] := fun e he => absurd he not_mem_nil
  exact foldl_pushFirst (List.nil_append runs).symm hempty (List.Perm.refl _)

/-- The merged runs have the values in order. -/
theorem Holds.finish (hs : Holds s values) (h : MinHeap) :
    (s.finish h).Perm values ∧ (s.finish h).Pairwise (· ≤ ·) := by
  obtain ⟨hspill, hbuffer⟩ := hs.spill
  have hperm := hspill.perm
  rw [hbuffer, append_nil] at hperm
  have hsorted := hspill.sorted
  unfold ExternalMergeSort.finish
  split
  · rename_i hruns
    rw [hruns] at hperm
    exact ⟨hperm, List.Pairwise.nil⟩
  · rename_i run hruns
    rw [hruns, flatten_singleton] at hperm
    exact ⟨hperm, hsorted run (hruns ▸ mem_singleton_self run)⟩
  · obtain ⟨hplaced, hfirst⟩ := firstEntries_spec h s.spill.runs
    exact ⟨(merge_perm _ hplaced).trans (hfirst.trans hperm), sorted_merge hsorted _ hplaced⟩

/-- **The external sort is a sort** of integers, for every run size that a buffer can be allocated for. -/
theorem externalMergeSort_sorts (h : MinHeap) (runSize : ℕ) (values : List Int64) :
    (new runSize = .error .panic ↔ maxCapacity < runSize) ∧ ∀ s, new runSize = .ok s →
        ((values.foldl push s).finish h).Perm values ∧ ((values.foldl push s).finish h).Pairwise (· ≤ ·) := by
  unfold new
  split_ifs with hlarge
  · exact ⟨iff_of_true rfl hlarge, nofun⟩
  · refine ⟨iff_of_false nofun hlarge, fun s hs => ?_⟩
    obtain rfl := Except.ok.inj hs
    have hstart : Holds ⟨runSize, [], []⟩ [] := ⟨nofun, List.Perm.refl _⟩
    exact (hstart.pushAll values).finish h

/-- The order is the ascending one, and no other. -/
theorem not_sorted_by_every_order :
    ¬∀ le : Int64 → Int64 → Prop, (∀ a b c, le a b → le b c → le a c) → (∀ a b, le a b ∨ le b a) →
      (([1, 2].foldl push ⟨1, [], []⟩).finish (Heap.ofSort _)).Pairwise le := by
  intro hall
  have hdescending := hall (fun a b => b ≤ a) (fun _ _ _ hab hbc => Int64.le_trans hbc hab)
    fun a b => Int64.le_total b a
  have hstart : Holds ⟨1, [], []⟩ [] := ⟨nofun, List.Perm.refl _⟩
  obtain ⟨hperm, hascending⟩ := (hstart.pushAll [1, 2]).finish (Heap.ofSort _)
  have hsame := hperm.eq_of_pairwise (fun _ _ _ _ => Int64.le_antisymm) hascending (by decide)
  rw [hsame] at hdescending
  revert hdescending
  decide

end ExternalMergeSort

end CenDB.Executor
