import Mathlib.Tactic

/-! # Histograms

`build` puts sorted values into buckets and `selectivityGe` estimates how many are not below a value.  Numbers
are exact: integers for `i64` and rationals for `f64`.

The counts add up, and the estimates lie between 0 and 1 and never increase (`Sound`).  But a value that is not
below the last boundary opens one more bucket, each value moves on by one bucket at most, and the estimate for
the last boundary is 0: `build_right_iff` says how little is left. -/

namespace CenDB.Optimizer

open List Option Nat

/-- Boundaries, one more than buckets, and the numbers of rows in the buckets. -/
structure Histogram where
  boundaries : List ℤ
  counts : List ℕ
  totalRows : ℕ

namespace Histogram

/-! ### Building -/

/-- The state of the counting loop. -/
structure Counting where
  currentBucket : ℕ
  count : ℕ
  counts : List ℕ

/-- Count a value; it goes to the next bucket if it is not below the boundary. -/
def countValue (boundaries : List ℤ) (s : Counting) (v : ℤ) : Counting :=
  if boundaries[s.currentBucket + 1]?.any (· ≤ v) then ⟨s.currentBucket + 1, 1, s.counts ++ [s.count]⟩
  else { s with count := s.count + 1 }

def countValues (boundaries values : List ℤ) : Counting := values.foldl (countValue boundaries) ⟨0, 0, []⟩

/-- The boundaries between the first value and the last one. -/
def innerBoundaries (values : List ℤ) (bucketCount : ℕ) : List ℤ :=
  let bucketSize := values.length / max bucketCount 1
  (List.range' 1 (bucketCount - 1)).filterMap fun i => values[i * bucketSize]?

def build (sortedValues : List ℤ) (bucketCount : ℕ) : Histogram :=
  if h : sortedValues = [] then ⟨[], [], 0⟩
  else
    let boundaries := sortedValues.head h :: innerBoundaries sortedValues bucketCount ++ [sortedValues.getLast h]
    let counted := countValues boundaries sortedValues
    ⟨boundaries, counted.counts ++ [counted.count], sortedValues.length⟩

/-! ### Estimates -/

/-- The bucket that the lookup finds: the first one that ends behind the value. -/
def findBucket (h : Histogram) (val : ℤ) : Option ℕ :=
  (List.range h.counts.length).find? fun i => h.boundaries[i + 1]?.any (val < ·)

/-- Rows that are not below the value, of those in the bucket and behind it. -/
def rowsFrom (h : Histogram) (i : ℕ) (val : ℤ) : ℚ :=
  let bucketStart := h.boundaries.getD i 0
  let bucketEnd := h.boundaries.getD (i + 1) 0
  if bucketEnd = bucketStart then (h.counts.drop i).sum
  else
    (h.counts.getD i 0 : ℚ) * ((bucketEnd - val : ℤ) / (bucketEnd - bucketStart : ℤ)) + (h.counts.drop (i + 1)).sum

/-- Estimate the selectivity of `col >= val`. -/
def selectivityGe (h : Histogram) (val : ℤ) : ℚ :=
  if h.boundaries.isEmpty || h.totalRows == 0 then 333 / 1000
  else if h.boundaries.head?.any (val ≤ ·) then 1
  else if h.boundaries.getLast?.any (· < val) then 0
  else
    match h.findBucket val with
    | some i => h.rowsFrom i val / h.totalRows
    | none => 0

/-! ### What the estimates can be relied on for -/

/-- Ascending boundaries, and counts that add up. -/
structure Sound (h : Histogram) : Prop where
  sorted : h.boundaries.Pairwise (· ≤ ·)
  sum : h.counts.sum = h.totalRows
  ne : h.boundaries ≠ []
  pos : 0 < h.totalRows

/-- The value is in the bucket. -/
structure Inside (h : Histogram) (i : ℕ) (val : ℤ) : Prop where
  lt_length : i < h.counts.length
  start_le : h.boundaries.getD i 0 ≤ val
  lt_end : val < h.boundaries.getD (i + 1) 0

section estimates

variable {h : Histogram} {val : ℤ}

theorem any_lt_iff {o : Option ℤ} : o.any (val < ·) = true ↔ ∃ e, o = some e ∧ val < e := by
  cases o <;> simp

variable {i : ℕ}

/-- The bucket found is the first one that ends behind the value. -/
theorem findBucket_eq_some_iff : h.findBucket val = some i ↔
    (∃ e, h.boundaries[i + 1]? = some e ∧ val < e) ∧ i < h.counts.length ∧
      ∀ j < i, ∀ e, h.boundaries[j + 1]? = some e → e ≤ val := by
  rw [findBucket, find?_range_eq_some, any_lt_iff, mem_range]
  refine and_congr_right fun _ => and_congr_right fun _ => forall₂_congr fun j hj => ?_
  cases h.boundaries[j + 1]? <;> simp

theorem inside_of_findBucket (hfirst : h.boundaries.head?.any (val ≤ ·) = false)
    (hi : h.findBucket val = some i) : h.Inside i val := by
  obtain ⟨⟨e, he, hlt⟩, hlength, hbefore⟩ := findBucket_eq_some_iff.mp hi
  obtain ⟨hend, -⟩ := List.getElem?_eq_some_iff.mp he
  have hstart := getElem?_eq_getElem (show i < h.boundaries.length by omega)
  refine ⟨hlength, ?_, by rwa [getD_eq_getElem?_getD, he]⟩
  rw [getD_eq_getElem?_getD, hstart, getD_some]
  cases i with
  | zero =>
    rw [head?_eq_getElem?, hstart] at hfirst
    exact (by simpa using hfirst : _ < _).le
  | succ i => exact hbefore i (Nat.lt_succ_self i) _ hstart

/-- The estimate is between the rows behind the bucket and those from it on. -/
theorem rowsFrom_bounds (hi : h.Inside i val) :
    ((h.counts.drop (i + 1)).sum : ℚ) ≤ h.rowsFrom i val ∧ h.rowsFrom i val ≤ (h.counts.drop i).sum := by
  have hstart := hi.start_le
  have hend := hi.lt_end
  have hsum : ((h.counts.drop i).sum : ℚ) = h.counts.getD i 0 + (h.counts.drop (i + 1)).sum := by
    rw [drop_eq_getElem_cons hi.lt_length, sum_cons, Nat.cast_add, getD_eq_getElem?_getD,
      getElem?_eq_getElem hi.lt_length, getD_some]
  have hwidth : (0 : ℚ) < (h.boundaries.getD (i + 1) 0 - h.boundaries.getD i 0 : ℤ) := by
    exact_mod_cast (by omega : 0 < h.boundaries.getD (i + 1) 0 - h.boundaries.getD i 0)
  have hnonneg : (0 : ℚ) ≤ (h.boundaries.getD (i + 1) 0 - val : ℤ) := by
    exact_mod_cast (by omega : 0 ≤ h.boundaries.getD (i + 1) 0 - val)
  have hle : ((h.boundaries.getD (i + 1) 0 - val : ℤ) : ℚ) ≤
      (h.boundaries.getD (i + 1) 0 - h.boundaries.getD i 0 : ℤ) := by
    exact_mod_cast (by omega : h.boundaries.getD (i + 1) 0 - val ≤ _)
  have hfraction := div_nonneg hnonneg hwidth.le
  have hone := (div_le_one hwidth).mpr hle
  have hrows : (0 : ℚ) ≤ h.counts.getD i 0 := Nat.cast_nonneg _
  rw [rowsFrom, if_neg (by omega), hsum]
  exact ⟨le_add_of_nonneg_left (mul_nonneg hrows hfraction),
    add_le_add_left (mul_le_of_le_one_right hrows hone) _⟩

/-- The estimate does not increase within a bucket. -/
theorem rowsFrom_antitone {x y : ℤ} (hx : h.Inside i x) (hxy : x ≤ y) : h.rowsFrom i y ≤ h.rowsFrom i x := by
  have hstart := hx.start_le
  have hend := hx.lt_end
  have hwidth : (0 : ℚ) ≤ (h.boundaries.getD (i + 1) 0 - h.boundaries.getD i 0 : ℤ) := by
    exact_mod_cast (by omega : 0 ≤ h.boundaries.getD (i + 1) 0 - h.boundaries.getD i 0)
  have hle : ((h.boundaries.getD (i + 1) 0 - y : ℤ) : ℚ) ≤ (h.boundaries.getD (i + 1) 0 - x : ℤ) := by
    exact_mod_cast (by omega : h.boundaries.getD (i + 1) 0 - y ≤ h.boundaries.getD (i + 1) 0 - x)
  have hrows : (0 : ℚ) ≤ h.counts.getD i 0 := Nat.cast_nonneg _
  rw [rowsFrom, rowsFrom, if_neg (by omega), if_neg (by omega)]
  exact add_le_add_left (mul_le_mul_of_nonneg_left (div_le_div_of_nonneg_right hle hwidth) hrows) _

theorem sum_drop_le (counts : List ℕ) {j : ℕ} (hij : i ≤ j) : (counts.drop j).sum ≤ (counts.drop i).sum := by
  obtain ⟨k, rfl⟩ := Nat.exists_eq_add_of_le hij
  rw [← drop_drop]
  exact (drop_sublist k _).sum_le_sum fun _ _ => Nat.zero_le _

/-- A value in the middle: no bucket, or one that it is inside of. -/
theorem selectivityGe_of_middle (hs : h.Sound) (hfirst : h.boundaries.head?.any (val ≤ ·) = false)
    (hlast : h.boundaries.getLast?.any (· < val) = false) :
    h.selectivityGe val = ((h.findBucket val).map fun i => h.rowsFrom i val / h.totalRows).getD 0 := by
  have hempty : ¬(h.boundaries.isEmpty || h.totalRows == 0) = true := by simp [hs.ne, hs.pos.ne']
  rw [selectivityGe, if_neg hempty, if_neg (by simp [hfirst]), if_neg (by simp [hlast])]
  cases h.findBucket val <;> rfl

/-- **Estimates are between 0 and 1.** -/
theorem Sound.selectivityGe_mem (hs : h.Sound) (val : ℤ) : 0 ≤ h.selectivityGe val ∧ h.selectivityGe val ≤ 1 := by
  have hempty : ¬(h.boundaries.isEmpty || h.totalRows == 0) = true := by simp [hs.ne, hs.pos.ne']
  cases hfirst : h.boundaries.head?.any (val ≤ ·) with
  | true =>
    rw [selectivityGe, if_neg hempty, if_pos hfirst]
    exact ⟨zero_le_one, le_refl 1⟩
  | false =>
    cases hlast : h.boundaries.getLast?.any (· < val) with
    | true =>
      rw [selectivityGe, if_neg hempty, if_neg (by simp [hfirst]), if_pos hlast]
      exact ⟨le_refl 0, zero_le_one⟩
    | false =>
      rw [selectivityGe_of_middle hs hfirst hlast]
      cases hfind : h.findBucket val with
      | none => exact ⟨le_refl 0, zero_le_one⟩
      | some i =>
        obtain ⟨hlow, hhigh⟩ := rowsFrom_bounds (inside_of_findBucket hfirst hfind)
        have htotal : (0 : ℚ) < h.totalRows := Nat.cast_pos.mpr hs.pos
        have hall : ((h.counts.drop i).sum : ℚ) ≤ h.totalRows := by
          rw [← hs.sum]
          exact_mod_cast sum_drop_le h.counts (Nat.zero_le i)
        rw [map_some, getD_some]
        exact ⟨div_nonneg ((Nat.cast_nonneg _).trans hlow) htotal.le, (div_le_one htotal).mpr (hhigh.trans hall)⟩

/-- **Estimates never increase.** -/
theorem Sound.selectivityGe_antitone (hs : h.Sound) : Antitone h.selectivityGe := by
  intro x y hxy
  have hempty : ¬(h.boundaries.isEmpty || h.totalRows == 0) = true := by simp [hs.ne, hs.pos.ne']
  cases hfirst : h.boundaries.head?.any (x ≤ ·) with
  | true =>
    have hx : h.selectivityGe x = 1 := by rw [selectivityGe, if_neg hempty, if_pos hfirst]
    rw [hx]
    exact (hs.selectivityGe_mem y).2
  | false =>
    have hfirst' : h.boundaries.head?.any (y ≤ ·) = false := by
      cases hhead : h.boundaries.head? with
      | none => rfl
      | some b =>
        rw [hhead] at hfirst
        simp only [any_some, decide_eq_false_iff_not] at hfirst ⊢
        omega
    cases hlast : h.boundaries.getLast?.any (· < y) with
    | true =>
      have hy : h.selectivityGe y = 0 := by
        rw [selectivityGe, if_neg hempty, if_neg (by simp [hfirst']), if_pos hlast]
      rw [hy]
      exact (hs.selectivityGe_mem x).1
    | false =>
      have hlast' : h.boundaries.getLast?.any (· < x) = false := by
        cases hend : h.boundaries.getLast? with
        | none => rfl
        | some b =>
          rw [hend] at hlast
          simp only [any_some, decide_eq_false_iff_not] at hlast ⊢
          omega
      have htotal : (0 : ℚ) ≤ h.totalRows := Nat.cast_nonneg _
      cases hj : h.findBucket y with
      | none =>
        rw [selectivityGe_of_middle hs hfirst' hlast, hj]
        exact (hs.selectivityGe_mem x).1
      | some j =>
        -- the bucket of the smaller value is the same or comes before
        obtain ⟨⟨e, he, hlt⟩, hlength, -⟩ := findBucket_eq_some_iff.mp hj
        obtain ⟨i, hi⟩ : ∃ i, h.findBucket x = some i := by
          rw [← isSome_iff_exists, findBucket, find?_isSome]
          exact ⟨j, mem_range.mpr hlength, any_lt_iff.mpr ⟨e, he, by omega⟩⟩
        have hij : i ≤ j := by
          by_contra hlt'
          have hle := (findBucket_eq_some_iff.mp hi).2.2 j (by omega) e he
          omega
        have hx := inside_of_findBucket hfirst hi
        rw [selectivityGe_of_middle hs hfirst' hlast, selectivityGe_of_middle hs hfirst hlast', hi, hj]
        refine div_le_div_of_nonneg_right ?_ htotal
        rcases hij.eq_or_lt with rfl | hlt'
        · exact rowsFrom_antitone hx hxy
        · have hupper := (rowsFrom_bounds (inside_of_findBucket hfirst' hj)).2
          have hlower := (rowsFrom_bounds hx).1
          have hmid : ((h.counts.drop j).sum : ℚ) ≤ (h.counts.drop (i + 1)).sum := by
            exact_mod_cast sum_drop_le h.counts hlt'
          exact hupper.trans (hmid.trans hlower)

end estimates

/-! ### The boundaries -/

section build

variable {values : List ℤ} {bucketCount : ℕ}

/-- The value at a place. -/
def valueAt (values : List ℤ) (i : ℕ) : ℤ := values.getD i 0

variable {i k : ℕ}

theorem valueAt_eq (hi : i < values.length) : valueAt values i = values[i] := by simp [valueAt, hi]

theorem valueAt_mono (hsorted : values.Pairwise (· ≤ ·)) {j : ℕ} (hij : i ≤ j) (hj : j < values.length) :
    valueAt values i ≤ valueAt values j := by
  rcases hij.eq_or_lt with rfl | hlt
  · exact le_refl _
  · rw [valueAt_eq (hlt.trans hj), valueAt_eq hj]
    exact pairwise_iff_getElem.mp hsorted i j _ hj hlt

def boundaryList (values : List ℤ) (bucketCount : ℕ) : List ℤ :=
  (List.range bucketCount).map (fun i => valueAt values (i * (values.length / bucketCount))) ++
    [valueAt values (values.length - 1)]

theorem place_lt (hne : values ≠ []) (hi : i < bucketCount) :
    i * (values.length / bucketCount) < values.length := by
  have hpos : 0 < values.length := length_pos_iff.mpr hne
  rcases Nat.eq_zero_or_pos (values.length / bucketCount) with hzero | hsize
  · rw [hzero, Nat.mul_zero]
    exact hpos
  · calc i * (values.length / bucketCount) < bucketCount * (values.length / bucketCount) :=
          Nat.mul_lt_mul_of_pos_right hi hsize
      _ ≤ values.length := Nat.mul_div_le _ _

theorem build_eq (hne : values ≠ []) (hcount : 1 ≤ bucketCount) : build values bucketCount =
      ⟨boundaryList values bucketCount, (countValues (boundaryList values bucketCount) values).counts ++
        [(countValues (boundaryList values bucketCount) values).count], values.length⟩ := by
  have hboundaries : values.head hne :: innerBoundaries values bucketCount ++ [values.getLast hne] =
      boundaryList values bucketCount := by
    obtain ⟨k, rfl⟩ := Nat.exists_eq_add_of_le hcount
    have hinner : innerBoundaries values (1 + k) =
        (List.range' 1 k).map fun i => valueAt values (i * (values.length / (1 + k))) := by
      rw [innerBoundaries, Nat.add_sub_cancel_left, max_eq_left hcount, ← filterMap_eq_map]
      refine filterMap_congr fun i hi => ?_
      have hlt := place_lt hne (mem_range'_1.mp hi).2
      rw [getElem?_eq_getElem hlt, Function.comp_apply, valueAt_eq hlt]
    have hhead : values.head hne = valueAt values (0 * (values.length / (1 + k))) := by
      rw [Nat.zero_mul, valueAt_eq (length_pos_iff.mpr hne), head_eq_getElem]
    have hlast : values.getLast hne = valueAt values (values.length - 1) := by
      rw [valueAt_eq (by have hpos := length_pos_iff.mpr hne; omega), getLast_eq_getElem]
    rw [boundaryList, range_eq_range', Nat.add_comm 1 k, range'_succ, map_cons, Nat.zero_add,
      Nat.add_comm k 1, ← hinner, hhead, hlast]
  rw [build, dif_neg hne, hboundaries]

theorem length_boundaryList : (boundaryList values bucketCount).length = bucketCount + 1 := by
  simp [boundaryList]

theorem getElem?_boundaryList (hi : i < bucketCount) : (boundaryList values bucketCount)[i]? =
    some (valueAt values (i * (values.length / bucketCount))) := by
  rw [boundaryList, getElem?_append_left (by simpa using hi), getElem?_map, getElem?_range hi, map_some]

theorem getElem?_boundaryList_last : (boundaryList values bucketCount)[bucketCount]? =
    some (valueAt values (values.length - 1)) := by simp [boundaryList]

theorem boundaryList_sorted (hne : values ≠ []) (hsorted : values.Pairwise (· ≤ ·)) :
    (boundaryList values bucketCount).Pairwise (· ≤ ·) := by
  have hpos : 0 < values.length := length_pos_iff.mpr hne
  rw [boundaryList, pairwise_append, pairwise_map]
  refine ⟨pairwise_lt_range.imp_of_mem fun hi hj hlt => ?_, pairwise_singleton _ _, ?_⟩
  · exact valueAt_mono hsorted (Nat.mul_le_mul_right _ hlt.le) (place_lt hne (mem_range.mp hj))
  · intro b hb c hc
    obtain ⟨i, hi, rfl⟩ := List.mem_map.mp hb
    have hlt := place_lt hne (mem_range.mp hi)
    rw [mem_singleton.mp hc]
    exact valueAt_mono hsorted (by omega) (by omega)

theorem le_last (hne : values ≠ []) (hsorted : values.Pairwise (· ≤ ·)) {b : ℤ}
    (hb : b ∈ boundaryList values bucketCount) : b ≤ valueAt values (values.length - 1) := by
  have hpos : 0 < values.length := length_pos_iff.mpr hne
  rw [boundaryList, mem_append, List.mem_map, mem_singleton] at hb
  rcases hb with ⟨i, hi, rfl⟩ | rfl
  · have hlt := place_lt hne (mem_range.mp hi)
    exact valueAt_mono hsorted (by omega) (by omega)
  · exact le_refl _

/-! ### The counts -/

theorem foldl_countValue_sum (boundaries values : List ℤ) (s : Counting) :
    (values.foldl (countValue boundaries) s).counts.sum + (values.foldl (countValue boundaries) s).count =
      s.counts.sum + s.count + values.length := by
  induction values generalizing s with
  | nil => rfl
  | cons v values ih =>
    have hstep : (countValue boundaries s v).counts.sum + (countValue boundaries s v).count =
        s.counts.sum + s.count + 1 := by
      rw [countValue]
      split_ifs
      · simp
      · rfl
    rw [foldl_cons, ih, hstep, length_cons]
    omega

/-- **A histogram is sound**, whatever the values are. -/
theorem build_sound (hne : values ≠ []) (hsorted : values.Pairwise (· ≤ ·)) (hcount : 1 ≤ bucketCount) :
    (build values bucketCount).Sound := by
  have hsum := foldl_countValue_sum (boundaryList values bucketCount) values ⟨0, 0, []⟩
  rw [build_eq hne hcount]
  refine ⟨boundaryList_sorted hne hsorted, ?_, by simp [boundaryList], length_pos_iff.mpr hne⟩
  dsimp only
  rw [List.sum_append, sum_singleton, countValues, hsum]
  simp

/-- **Every value has a positive estimate exactly if all values are equal**: the estimate for the last boundary
is 0, unless it is the first one too. -/
theorem selectivityGe_pos_iff (hne : values ≠ []) (hsorted : values.Pairwise (· ≤ ·)) (hcount : 1 ≤ bucketCount) :
    (∀ v ∈ values, 0 < (build values bucketCount).selectivityGe v) ↔ ∀ v ∈ values, v = valueAt values 0 := by
  have hsound := build_sound hne hsorted hcount
  have hpos : 0 < values.length := length_pos_iff.mpr hne
  have hplace : ∀ v ∈ values, ∃ i < values.length, v = valueAt values i := by
    intro v hv
    obtain ⟨i, hi, rfl⟩ := mem_iff_getElem.mp hv
    exact ⟨i, hi, (valueAt_eq hi).symm⟩
  have hempty : ¬((build values bucketCount).boundaries.isEmpty || (build values bucketCount).totalRows == 0) = true := by
    simp [hsound.ne, hsound.pos.ne']
  have hhead : (build values bucketCount).boundaries.head? = some (valueAt values 0) := by
    rw [build_eq hne hcount, head?_eq_getElem?]
    have hfirst := @getElem?_boundaryList values _ _ (Nat.lt_of_succ_le hcount)
    rwa [Nat.zero_mul] at hfirst
  constructor
  · intro h
    have hlast : valueAt values (values.length - 1) ∈ values := by
      rw [valueAt_eq (by omega)]
      exact getElem_mem _
    have hle : valueAt values (values.length - 1) ≤ valueAt values 0 := by
      by_contra hlt
      have hzero : (build values bucketCount).selectivityGe (valueAt values (values.length - 1)) = 0 := by
        have hend : (build values bucketCount).boundaries.getLast? = some (valueAt values (values.length - 1)) := by
          rw [build_eq hne hcount]
          exact getLast?_concat
        have hnone : (build values bucketCount).findBucket (valueAt values (values.length - 1)) = none := by
          rw [eq_none_iff_forall_ne_some]
          intro i hi
          obtain ⟨⟨e, he, hlt'⟩, -⟩ := findBucket_eq_some_iff.mp hi
          rw [build_eq hne hcount] at he
          have hle := le_last hne hsorted (mem_of_getElem? he)
          omega
        rw [selectivityGe_of_middle hsound (by simpa [hhead] using hlt) (by simp [hend]), hnone]
        rfl
      exact (h _ hlast).ne' hzero
    intro v hv
    obtain ⟨i, hi, rfl⟩ := hplace v hv
    have hlow := valueAt_mono hsorted (Nat.zero_le i) hi
    have hhigh := valueAt_mono hsorted (Nat.le_sub_one_of_lt hi) (by omega)
    omega
  · intro h v hv
    rw [selectivityGe, if_neg hempty, hhead, h v hv, if_pos (by simp)]
    exact one_pos

/-! ### The number of counts -/

/-- The state of the loop after the first values. -/
def after (values : List ℤ) (bucketCount k : ℕ) : Counting :=
  countValues (boundaryList values bucketCount) (values.take k)

/-- The next value opens a bucket. -/
def Opens (values : List ℤ) (bucketCount k : ℕ) : Prop :=
  ∃ e, (boundaryList values bucketCount)[(after values bucketCount k).currentBucket + 1]? = some e ∧
    e ≤ valueAt values k

theorem after_succ (hk : k < values.length) :
    (Opens values bucketCount k → (after values bucketCount (k + 1)).currentBucket =
        (after values bucketCount k).currentBucket + 1 ∧ (after values bucketCount (k + 1)).count = 1) ∧
      (¬Opens values bucketCount k → (after values bucketCount (k + 1)).currentBucket =
        (after values bucketCount k).currentBucket) := by
  have hstep : after values bucketCount (k + 1) =
      countValue (boundaryList values bucketCount) (after values bucketCount k) (valueAt values k) := by
    rw [after, after, countValues, countValues, ← take_concat_get' _ _ hk, foldl_append, valueAt_eq hk]
    rfl
  have hany : (boundaryList values bucketCount)[(after values bucketCount k).currentBucket + 1]?.any
      (· ≤ valueAt values k) = true ↔ Opens values bucketCount k := by
    rw [Opens]
    cases (boundaryList values bucketCount)[(after values bucketCount k).currentBucket + 1]? <;> simp
  rw [hstep, countValue]
  constructor
  · intro h
    rw [if_pos (hany.mpr h)]
    exact ⟨rfl, rfl⟩
  · intro h
    rw [if_neg fun hopens => h (hany.mp hopens)]

theorem foldl_countValue_length (boundaries values : List ℤ) {s : Counting} (h : s.counts.length = s.currentBucket) :
    (values.foldl (countValue boundaries) s).counts.length =
      (values.foldl (countValue boundaries) s).currentBucket := by
  induction values generalizing s with
  | nil => exact h
  | cons v values ih =>
    rw [foldl_cons]
    refine ih ?_
    rw [countValue]
    split_ifs
    · rw [length_append, h, length_singleton]
    · exact h

/-- Buckets are opened one by one, and there are no more than boundaries. -/
theorem currentBucket_le (k : ℕ) (hk : k ≤ values.length) :
    (after values bucketCount k).currentBucket ≤ k ∧ (after values bucketCount k).currentBucket ≤ bucketCount := by
  induction k with
  | zero => exact ⟨le_refl 0, Nat.zero_le _⟩
  | succ k ih =>
    obtain ⟨hle, hbound⟩ := ih (by omega)
    obtain ⟨hopens, hstays⟩ := @after_succ _ bucketCount _ (Nat.lt_of_succ_le hk)
    by_cases h : Opens values bucketCount k
    · have hnext := (hopens h).1
      obtain ⟨e, he, -⟩ := h
      have hlt := (List.getElem?_eq_some_iff.mp he).1
      rw [length_boundaryList] at hlt
      omega
    · have hnext := hstays h
      omega

theorem currentBucket_succ (hk : k < values.length) :
    (after values bucketCount k).currentBucket ≤ (after values bucketCount (k + 1)).currentBucket ∧
      (after values bucketCount (k + 1)).currentBucket ≤ (after values bucketCount k).currentBucket + 1 := by
  obtain ⟨hopens, hstays⟩ := @after_succ _ bucketCount _ hk
  by_cases h : Opens values bucketCount k
  · have hnext := (hopens h).1
    omega
  · have hnext := hstays h
    omega

/-- With fewer values than buckets every value opens one. -/
theorem currentBucket_few (hsorted : values.Pairwise (· ≤ ·)) (hfew : values.length < bucketCount)
    (hk : k ≤ values.length) : (after values bucketCount k).currentBucket = k := by
  induction k with
  | zero => rfl
  | succ k ih =>
    have hbucket := ih (by omega)
    have hopens : Opens values bucketCount k := by
      refine ⟨_, getElem?_boundaryList (by omega), ?_⟩
      rw [Nat.div_eq_of_lt hfew, Nat.mul_zero]
      exact valueAt_mono hsorted (Nat.zero_le k) (by omega)
    rw [((after_succ (by omega)).1 hopens).1, hbucket]

/-- Otherwise a bucket is open as soon as its first value has been counted. -/
theorem le_currentBucket (hmany : bucketCount ≤ values.length) (hk : k ≤ values.length) (hi : i < bucketCount)
    (hplace : i * (values.length / bucketCount) < k) :
    i ≤ (after values bucketCount k).currentBucket := by
  have hsize : 0 < values.length / bucketCount := Nat.div_pos hmany (by omega)
  induction k generalizing i with
  | zero => exact absurd hplace (Nat.not_lt_zero _)
  | succ k ih =>
    have hmono := @currentBucket_succ _ bucketCount _ (Nat.lt_of_succ_le hk)
    rcases (Nat.lt_succ_iff.mp hplace).lt_or_eq with hbefore | hhere
    · have hle := ih (by omega) hi hbefore
      omega
    · cases i with
      | zero => exact Nat.zero_le _
      | succ i =>
        have hprev := ih (by omega) (i := i) (by omega) (by rw [← hhere, succ_mul]; omega)
        by_cases hopen : i + 1 ≤ (after values bucketCount k).currentBucket
        · omega
        · have hbucket : (after values bucketCount k).currentBucket = i := by omega
          have hopens : Opens values bucketCount k :=
            ⟨_, by rw [hbucket]; exact getElem?_boundaryList hi, by rw [hhere]⟩
          rw [((after_succ (by omega)).1 hopens).1, hbucket]

/-- Equal values open buckets as long as there are boundaries. -/
theorem currentBucket_equal (hequal : ∀ i < values.length, valueAt values i = valueAt values 0)
    (hk : k ≤ values.length) (hle : k ≤ bucketCount) : (after values bucketCount k).currentBucket = k := by
  induction k with
  | zero => rfl
  | succ k ih =>
    have hbucket := ih (by omega) (by omega)
    have hne : values ≠ [] := length_pos_iff.mp (by omega)
    have hopens : Opens values bucketCount k := by
      rw [Opens, hbucket, hequal k (by omega)]
      rcases Nat.lt_or_ge (k + 1) bucketCount with hlt | hge
      · exact ⟨_, getElem?_boundaryList hlt, (hequal _ (place_lt hne hlt)).le⟩
      · obtain rfl : bucketCount = k + 1 := by omega
        exact ⟨_, getElem?_boundaryList_last, (hequal _ (by omega)).le⟩
    rw [((after_succ (by omega)).1 hopens).1, hbucket]

theorem length_counts (hne : values ≠ []) (hcount : 1 ≤ bucketCount) : (build values bucketCount).counts.length =
    (after values bucketCount values.length).currentBucket + 1 := by
  have hlength := foldl_countValue_length (boundaryList values bucketCount) values (s := ⟨0, 0, []⟩) rfl
  rw [build_eq hne hcount, after, take_length]
  simp only [length_append, length_singleton, countValues, hlength]

/-- As many values as buckets: all of them are open at the end only if the values are equal. -/
theorem currentBucket_same (hsorted : values.Pairwise (· ≤ ·)) (hsame : values.length = bucketCount)
    (h : (after values bucketCount values.length).currentBucket = values.length) :
    ∀ i < values.length, valueAt values i = valueAt values 0 := by
  have hback : ∀ j ≤ values.length,
      values.length - j ≤ (after values bucketCount (values.length - j)).currentBucket := by
    intro j hj
    induction j with
    | zero => exact h.ge
    | succ j ih =>
      have hstep := @currentBucket_succ values bucketCount (values.length - (j + 1)) (by omega)
      have hnext : values.length - (j + 1) + 1 = values.length - j := by omega
      rw [hnext] at hstep
      have hle := ih (by omega)
      omega
  have hbucket : ∀ k ≤ values.length, (after values bucketCount k).currentBucket = k := by
    intro k hk
    have hle := hback (values.length - k) (Nat.sub_le _ _)
    rw [Nat.sub_sub_self hk] at hle
    have hupper := (@currentBucket_le _ bucketCount k hk).1
    omega
  intro i hi
  induction i with
  | zero => rfl
  | succ i ih =>
    have hopens : Opens values bucketCount i := by
      by_contra hstays
      have hnext := (after_succ (by omega)).2 hstays
      rw [hbucket i (by omega), hbucket (i + 1) hi.le] at hnext
      omega
    obtain ⟨e, he, hle⟩ := hopens
    rw [hbucket i (by omega), getElem?_boundaryList (by omega), hsame, Nat.div_self (by omega), Nat.mul_one] at he
    cases he
    have hlow := valueAt_mono hsorted (Nat.zero_le (i + 1)) hi
    have hfirst := ih (by omega)
    omega

/-- **There is one count fewer than boundaries exactly if** there is one value fewer than buckets, or as many
values that are not all equal. -/
theorem length_counts_iff (hne : values ≠ []) (hsorted : values.Pairwise (· ≤ ·)) (hcount : 1 ≤ bucketCount) :
    (build values bucketCount).counts.length + 1 = (build values bucketCount).boundaries.length ↔
      values.length + 1 = bucketCount ∨
        values.length = bucketCount ∧ ¬∀ i < values.length, valueAt values i = valueAt values 0 := by
  have hpos : 0 < values.length := length_pos_iff.mpr hne
  have hboundaries : (build values bucketCount).boundaries.length = bucketCount + 1 := by
    rw [build_eq hne hcount]
    exact length_boundaryList
  rw [length_counts hne hcount, hboundaries]
  rcases lt_trichotomy values.length bucketCount with hfew | hsame | hmany
  · rw [currentBucket_few hsorted hfew le_rfl]
    omega
  · have hlow : bucketCount - 1 ≤ (after values bucketCount values.length).currentBucket := by
      refine le_currentBucket hsame.ge le_rfl (by omega) ?_
      rw [hsame, Nat.div_self (by omega)]
      omega
    have hhigh := (@currentBucket_le _ bucketCount values.length le_rfl).2
    have hiff : (after values bucketCount values.length).currentBucket = bucketCount ↔
        ∀ i < values.length, valueAt values i = valueAt values 0 :=
      ⟨fun h => currentBucket_same hsorted hsame (h.trans hsame.symm),
        fun h => (currentBucket_equal h le_rfl hsame.le).trans hsame⟩
    rw [← hiff]
    omega
  · -- the last value opens one more bucket
    have hsize : 0 < values.length / bucketCount := Nat.div_pos hmany.le (by omega)
    have hplace : (bucketCount - 1) * (values.length / bucketCount) < values.length - 1 := by
      have hmul : bucketCount * (values.length / bucketCount) ≤ values.length := Nat.mul_div_le _ _
      rw [Nat.sub_mul, Nat.one_mul]
      rcases Nat.eq_or_lt_of_le (Nat.succ_le_of_lt hsize) with hone | htwo
      · rw [← hone, Nat.mul_one]
        omega
      · omega
    have hlow := le_currentBucket hmany.le (Nat.sub_le values.length 1) (by omega) hplace
    have hhigh := (@currentBucket_le _ bucketCount (values.length - 1) (Nat.sub_le _ _)).2
    have hlast := @after_succ values bucketCount (values.length - 1) (by omega)
    have hmono := @currentBucket_succ values bucketCount (values.length - 1) (by omega)
    rw [Nat.sub_add_cancel hpos] at hlast hmono
    have hall : bucketCount ≤ (after values bucketCount values.length).currentBucket := by
      rcases hlow.eq_or_lt with heq | hlt
      · have hopens : Opens values bucketCount (values.length - 1) := by
          refine ⟨_, ?_, le_rfl⟩
          rw [← heq, Nat.sub_add_cancel hcount]
          exact getElem?_boundaryList_last
        rw [(hlast.1 hopens).1]
        omega
      · omega
    omega

/-! ### What is right -/

/-- The range of a bucket; the last one includes its end. -/
def inRange (h : Histogram) (i : ℕ) (v : ℤ) : Bool :=
  h.boundaries.getD i 0 ≤ v &&
    (v < h.boundaries.getD (i + 1) 0 || i + 2 == h.boundaries.length && v ≤ h.boundaries.getD (i + 1) 0)

/-- The buckets partition the values, and the estimates are fit for them. -/
structure Right (values : List ℤ) (h : Histogram) : Prop where
  length : h.counts.length + 1 = h.boundaries.length
  sum : h.counts.sum = values.length
  counts : ∀ i < h.counts.length, h.counts.getD i 0 = values.countP (h.inRange i)
  bounds : ∀ val, 0 ≤ h.selectivityGe val ∧ h.selectivityGe val ≤ 1
  antitone : Antitone h.selectivityGe
  pos : ∀ v ∈ values, 0 < h.selectivityGe v

theorem all_equal_iff : (∀ v ∈ values, v = valueAt values 0) ↔ ∀ i < values.length, valueAt values i = valueAt values 0 := by
  constructor
  · intro h i hi
    rw [valueAt_eq hi]
    exact h _ (getElem_mem hi)
  · intro h v hv
    obtain ⟨i, hi, rfl⟩ := mem_iff_getElem.mp hv
    rw [← valueAt_eq hi]
    exact h i hi

/-- With fewer values than buckets the last value that was counted has opened the last bucket. -/
theorem getD_counts_few (hne : values ≠ []) (hsorted : values.Pairwise (· ≤ ·)) (hfew : values.length < bucketCount) :
    (build values bucketCount).counts.getD values.length 0 = 1 := by
  have hpos : 0 < values.length := length_pos_iff.mpr hne
  have hlast := @after_succ values bucketCount (values.length - 1) (by omega)
  have hprev := currentBucket_few hsorted hfew (Nat.sub_le values.length 1)
  have hfull := currentBucket_few hsorted hfew le_rfl
  rw [Nat.sub_add_cancel hpos] at hlast
  have hcount : (after values bucketCount values.length).count = 1 := by
    by_cases hopens : Opens values bucketCount (values.length - 1)
    · exact (hlast.1 hopens).2
    · have hstays := hlast.2 hopens
      omega
  have hlength : (countValues (boundaryList values bucketCount) values).counts.length = values.length := by
    have heq := foldl_countValue_length (boundaryList values bucketCount) values (s := ⟨0, 0, []⟩) rfl
    rw [after, take_length] at hfull
    exact heq.trans hfull
  rw [after, take_length] at hcount
  rw [build_eq hne (by omega), getD_eq_getElem?_getD, getElem?_append_right hlength.le, hlength, Nat.sub_self,
    hcount]
  rfl

/-- **A histogram is right only for a single value and two buckets.** -/
theorem build_right_iff (hne : values ≠ []) (hsorted : values.Pairwise (· ≤ ·)) (hcount : 1 ≤ bucketCount) :
    Right values (build values bucketCount) ↔ values.length = 1 ∧ bucketCount = 2 := by
  have hsound := build_sound hne hsorted hcount
  constructor
  · intro h
    have hequal := (selectivityGe_pos_iff hne hsorted hcount).mp h.pos
    have hfew : values.length + 1 = bucketCount :=
      ((length_counts_iff hne hsorted hcount).mp h.length).resolve_right fun hsame => hsame.2 (all_equal_iff.mp hequal)
    -- the range of the last bucket has all values, but its count is 1
    have hall : values.countP ((build values bucketCount).inRange values.length) = values.length := by
      have hstart : (boundaryList values bucketCount).getD values.length 0 = valueAt values 0 := by
        rw [getD_eq_getElem?_getD, getElem?_boundaryList (by omega), Nat.div_eq_of_lt (by omega), Nat.mul_zero]
        rfl
      have hend : (boundaryList values bucketCount).getD (values.length + 1) 0 =
          valueAt values (values.length - 1) := by
        rw [hfew, getD_eq_getElem?_getD, getElem?_boundaryList_last]
        rfl
      rw [countP_eq_length]
      intro v hv
      have hlast : valueAt values (values.length - 1) = valueAt values 0 :=
        all_equal_iff.mp hequal _ (Nat.sub_lt (length_pos_iff.mpr hne) Nat.one_pos)
      rw [build_eq hne hcount, inRange, hstart, hend, length_boundaryList, hlast, hequal v hv]
      simp [hfew]
    have hlength := length_counts hne hcount
    rw [currentBucket_few hsorted (by omega) le_rfl] at hlength
    have hlast := h.counts values.length (by omega)
    rw [getD_counts_few hne hsorted (by omega), hall] at hlast
    omega
  · rintro ⟨hone, rfl⟩
    obtain ⟨v, rfl⟩ := length_eq_one_iff.mp hone
    have hbuild : build [v] 2 = ⟨[v, v, v], [0, 1], 1⟩ := by
      simp [build, innerBoundaries, countValues, countValue]
    refine ⟨?_, ?_, ?_, hsound.selectivityGe_mem, hsound.selectivityGe_antitone, ?_⟩
    · rw [hbuild]
      rfl
    · rw [hbuild]
      rfl
    · rw [hbuild]
      intro i hi
      have hi' : i < 2 := hi
      interval_cases i <;> simp [inRange]
    · exact (selectivityGe_pos_iff hne hsorted hcount).mpr (by simp [valueAt])

theorem build_right_iff_single : Right [5] (build [5] 2) ↔ [(5 : ℤ)].length = 1 ∧ 2 = 2 :=
  build_right_iff (by simp) (by simp) (by decide)

/-- **The last value has a bucket of its own, without a range, and is estimated as absent.** -/
theorem build_loses_last : (build [1, 2, 3, 4] 2).boundaries = [1, 3, 4] ∧ (build [1, 2, 3, 4] 2).counts = [2, 1, 1] ∧
    (build [1, 2, 3, 4] 2).selectivityGe 4 = 0 ∧
    ¬∀ (values : List ℤ) (bucketCount : ℕ), values ≠ [] → values.Pairwise (· ≤ ·) → 1 ≤ bucketCount →
      Right values (build values bucketCount) := by
  have hlength : (build [1, 2, 3, 4] 2).counts.length + 1 ≠ (build [1, 2, 3, 4] 2).boundaries.length := by decide
  refine ⟨by decide, by decide, by decide, fun h => ?_⟩
  exact hlength (h [1, 2, 3, 4] 2 (by simp) (by simp) (by decide)).length

end build

end Histogram

end CenDB.Optimizer
