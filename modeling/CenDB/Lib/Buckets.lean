import Mathlib.Tactic

/-! # Buckets of a sorted list

A list sorted by a key `f` falls into buckets, one for each key.  The bucket of `i` starts after
`below f l i` elements and has `within f l i` of them (`slice_sorted`); an element stands as far
behind the start of its bucket as there are elements of its key before it (`position`).

`histogram` counts the elements of every key in one pass and `prefixSums` turns the counts into
starts (`getElem?_prefixSums_histogram`). -/

namespace Buckets

open List

variable {α : Type*} (f : α → ℕ)

/-- The number of elements with a key below `i`. -/
def below (l : List α) (i : ℕ) : ℕ := l.countP fun e => f e < i

/-- The number of elements with the key `i`. -/
def within (l : List α) (i : ℕ) : ℕ := l.countP fun e => f e = i

theorem below_append (l l' : List α) (i : ℕ) : below f (l ++ l') i = below f l i + below f l' i := countP_append

theorem within_append (l l' : List α) (i : ℕ) : within f (l ++ l') i = within f l i + within f l' i := countP_append

theorem within_singleton (e : α) (i : ℕ) : within f [e] i = if f e = i then 1 else 0 := by simp [within]

theorem below_succ (l : List α) (i : ℕ) : below f l (i + 1) = below f l i + within f l i := by
  induction l with
  | nil => rfl
  | cons e l ih =>
    simp only [below, within, countP_cons, decide_eq_true_eq] at ih ⊢
    split_ifs <;> omega

theorem below_le_length (l : List α) (i : ℕ) : below f l i ≤ l.length := countP_le_length

/-! ### A sorted list -/

variable {f}

variable {l : List α} {n i : ℕ}

/-- A sorted list begins with the elements below a key and those of the key. -/
theorem sorted_split (h : l.Pairwise fun e e' => f e ≤ f e') (i : ℕ) :
    l = (l.filter fun e => f e < i) ++ ((l.filter fun e => f e = i) ++ l.filter fun e => i < f e) := by
  induction l with
  | nil => rfl
  | cons e l ih =>
    obtain ⟨hle, hrest⟩ := pairwise_cons.mp h
    have hih := ih hrest
    rcases lt_trichotomy (f e) i with hlt | heq | hgt
    · simp only [filter_cons, hlt, hlt.ne, hlt.le.not_gt, decide_true, decide_false, if_true,
        Bool.false_eq_true, if_false, cons_append]
      exact congrArg (e :: ·) hih
    · have hnone : (l.filter fun e => f e < i) = [] :=
        filter_eq_nil_iff.mpr fun e' he' => by
          have := hle e' he'
          simpa using heq ▸ this
      rw [hnone, List.nil_append] at hih
      simp only [filter_cons, heq, lt_irrefl, decide_true, decide_false, if_true,
        Bool.false_eq_true, if_false, cons_append, hnone, List.nil_append]
      exact congrArg (e :: ·) hih
    · have hall (e' : α) (he' : e' ∈ l) : i < f e' := hgt.trans_le (hle e' he')
      have hnone : (l.filter fun e => f e < i) = [] :=
        filter_eq_nil_iff.mpr fun e' he' => by simpa using (hall e' he').le
      have hnone' : (l.filter fun e => f e = i) = [] :=
        filter_eq_nil_iff.mpr fun e' he' => by simpa using (hall e' he').ne'
      rw [hnone, hnone', List.nil_append, List.nil_append] at hih
      simp only [filter_cons, hgt, hgt.ne', hgt.le.not_gt, decide_true, decide_false, if_true,
        Bool.false_eq_true, if_false, hnone, hnone', List.nil_append]
      exact congrArg (e :: ·) hih

/-- **A bucket is a slice.** -/
theorem slice_sorted (h : l.Pairwise fun e e' => f e ≤ f e') (i : ℕ) :
    (l.drop (below f l i)).take (within f l i) = l.filter fun e => f e = i := by
  have hfirst : below f l i = (l.filter fun e => f e < i).length := countP_eq_length_filter
  have hmiddle : within f l i = (l.filter fun e => f e = i).length := countP_eq_length_filter
  have hsplit := sorted_split h i
  generalize (l.filter fun e => f e < i) = front at hfirst hsplit
  generalize (l.filter fun e => f e = i) = middle at hmiddle hsplit ⊢
  rw [hfirst, hmiddle, hsplit, drop_left, take_left]

/-- Where an element of a sorted list stands. -/
theorem position {front back : List α} {e : α} (h : (front ++ e :: back).Pairwise fun e e' => f e ≤ f e') :
    below f (front ++ e :: back) (f e) + within f front (f e) = front.length := by
  obtain ⟨-, hback, hcross⟩ := pairwise_append.mp h
  have htail : below f (e :: back) (f e) = 0 := by
    refine countP_eq_zero.mpr fun e' he' => ?_
    rw [decide_eq_true_eq, not_lt]
    cases mem_cons.mp he' with
    | inl heq => rw [heq]
    | inr hmem => exact (pairwise_cons.mp hback).1 e' hmem
  have hfront : below f front (f e + 1) = front.length := by
    refine countP_eq_length.mpr fun e' he' => ?_
    exact decide_eq_true (Nat.lt_succ_of_le (hcross e' he' e mem_cons_self))
  rw [below_append, htail, Nat.add_zero, ← below_succ, hfront]

variable (f)

/-! ### Counting -/

/-- The number of elements of every key below `n`. -/
def histogram (n : ℕ) (l : List α) : List ℕ := l.foldl (fun h e => h.modify (f e) (· + 1)) (List.replicate n 0)

/-- Every entry becomes the sum of the entries up to it. -/
def prefixSums : ℕ → List ℕ → List ℕ
  | _, [] => []
  | acc, x :: xs => (acc + x) :: prefixSums (acc + x) xs

theorem length_histogram (n : ℕ) (l : List α) : (histogram f n l).length = n := by
  induction l using List.reverseRecOn with
  | nil => exact length_replicate
  | append_singleton l e ih =>
    rw [histogram, foldl_append]
    exact (length_modify _ _ _).trans ih

theorem getElem?_histogram (hi : i < n) (l : List α) : (histogram f n l)[i]? = some (within f l i) := by
  induction l using List.reverseRecOn with
  | nil =>
    rw [histogram, foldl_nil, getElem?_replicate_of_lt hi]
    rfl
  | append_singleton l e ih =>
    rw [histogram, foldl_append, foldl_cons, foldl_nil, ← histogram,
      getElem?_modify, ih, within_append, within_singleton]
    by_cases heq : f e = i
    · simp [heq]
    · simp [heq]

theorem length_prefixSums (acc : ℕ) (l : List ℕ) : (prefixSums acc l).length = l.length := by
  induction l generalizing acc with
  | nil => rfl
  | cons x xs ih => exact congrArg (· + 1) (ih (acc + x))

theorem getElem?_prefixSums (acc : ℕ) (l : List ℕ) (hi : i < l.length) :
    (prefixSums acc l)[i]? = some (acc + (l.take (i + 1)).sum) := by
  induction l generalizing acc i with
  | nil => exact absurd hi (Nat.not_lt_zero i)
  | cons x xs ih =>
    cases i with
    | zero => simp [prefixSums]
    | succ i =>
      rw [prefixSums, getElem?_cons_succ, ih (acc + x) (Nat.lt_of_succ_lt_succ hi),
        take_succ_cons, sum_cons, Nat.add_assoc]

/-- The prefix sums of the counts say where the next bucket starts. -/
theorem getElem?_prefixSums_histogram (hi : i < n) (l : List α) :
    (prefixSums 0 (histogram f n l))[i]? = some (below f l (i + 1)) := by
  have hlen : i < (histogram f n l).length := by rwa [length_histogram]
  rw [getElem?_prefixSums 0 _ hlen, Nat.zero_add]
  congr 1
  clear hlen
  induction i with
  | zero =>
    have hget := getElem?_histogram f hi l
    rw [take_add_one, hget, below_succ]
    simp [below]
  | succ i ih =>
    rw [take_add_one, getElem?_histogram f hi l, Option.toList_some, sum_append,
      ih (Nat.lt_of_succ_lt hi), sum_singleton, ← below_succ]

end Buckets
