import CenDB.Lib.Guarded
import CenDB.Optimizer.Plan

/-! # Overflow of estimates

Estimates multiply the rows of the inputs of a join as 64-bit numbers.  `expectedRows` and `plannedRows` are
the estimates without a bound; the planner makes them exactly if all the products on the way fit in 64 bits
(`RowsFit`, `PlanFits`), and overflows elsewhere.  The selectivity of a range takes differences of the
statistics, which have to fit as well, and it is a fraction of at most 1 only up to the bound of the column
on the other side. -/

namespace CenDB.Optimizer

open Guarded

/-- The planner with overflow checks. -/
def checked (isAlphanumeric : Char → Bool) : Runtime := ⟨isAlphanumeric, checkedMul⟩

/-- The planner with numbers of any size. -/
def unbounded (isAlphanumeric : Char → Bool) : Runtime := ⟨isAlphanumeric, fun a b => .ok (a * b)⟩

namespace LogicalPlan

/-- The rows of a plan, as estimated with numbers of any size. -/
def expectedRows (s : StatsCatalog) : LogicalPlan → ℕ
  | scan table predicate => if predicate.isSome then toU64 (toF64 (s.baseRows table) * 0.1) else s.baseRows table
  | filter input _ => toU64 (toF64 (input.expectedRows s) * 0.1)
  | project input _ => input.expectedRows s
  | join left right _ => toU64 (toF64 (left.expectedRows s * right.expectedRows s) * 0.01)
  | sort input _ => input.expectedRows s
  | aggregate input _ _ => toU64 (toF64 (input.expectedRows s)).sqrt
  | limit input count => min (input.expectedRows s) count.toNat

/-- The inputs of every join have a 64-bit product. -/
def RowsFit (s : StatsCatalog) : LogicalPlan → Prop
  | scan _ _ => True
  | filter input _ => input.RowsFit s
  | project input _ => input.RowsFit s
  | join left right _ => left.RowsFit s ∧ right.RowsFit s ∧ left.expectedRows s * right.expectedRows s < 2 ^ 64
  | sort input _ => input.RowsFit s
  | aggregate input _ _ => input.RowsFit s
  | limit input _ => input.RowsFit s

/-- The rows of the physical plan: an index gives one. -/
def plannedRows (rt : Runtime) (s : StatsCatalog) : LogicalPlan → ℕ
  | scan table predicate => if (scanIndex rt s table predicate).isSome then 1 else s.baseRows table
  | filter input _ => toU64 (toF64 (input.plannedRows rt s) * 0.1)
  | project input _ => input.plannedRows rt s
  | join left right _ => toU64 (toF64 (left.plannedRows rt s * right.plannedRows rt s) * 0.01)
  | sort input _ => input.plannedRows rt s
  | aggregate input _ _ => toU64 (toF64 (input.plannedRows rt s)).sqrt
  | limit input count => min (input.plannedRows rt s) count.toNat

/-- The inputs of a join are estimated again when it is an equi-join and one of them is not sorted. -/
def Reestimated (left right : LogicalPlan) (condition : List Char) : Prop :=
  isEquiJoin condition = true ∧ ¬(left.isSorted = true ∧ right.isSorted = true)

/-- The inputs of every join have a 64-bit product in the physical plan, and fit as they are estimated. -/
def PlanFits (rt : Runtime) (s : StatsCatalog) : LogicalPlan → Prop
  | scan _ _ => True
  | filter input _ => input.PlanFits rt s
  | project input _ => input.PlanFits rt s
  | join left right condition => left.PlanFits rt s ∧ right.PlanFits rt s ∧
    (Reestimated left right condition → left.RowsFit s ∧ right.RowsFit s) ∧
    left.plannedRows rt s * right.plannedRows rt s < 2 ^ 64
  | sort input _ => input.PlanFits rt s
  | aggregate input _ _ => input.PlanFits rt s
  | limit input _ => input.PlanFits rt s

end LogicalPlan

/-- The differences fit in 64 bits, and the value is not beyond the bound on the other side. -/
def ColumnStats.RangeFits (c : ColumnStats) (val : Int64) (greaterThan : Bool) : Prop :=
  ∀ min max, c.minI64 = some min → c.maxI64 = some max → min < max → max.toInt - min.toInt < 2 ^ 63 ∧
      if greaterThan then min ≤ val ∧ -2 ^ 63 ≤ max.toInt - val.toInt
      else val ≤ max ∧ -2 ^ 63 ≤ val.toInt - min.toInt

/-- The statistics of a column have the minimum at most the maximum. -/
def ColumnStats.Ordered (c : ColumnStats) : Prop :=
  ∀ min max, c.minI64 = some min → c.maxI64 = some max → min ≤ max

/-! ### Rows -/

variable {isAlphanumeric : Char → Bool} {s : StatsCatalog}

theorem checkedMul_failsUnless (a b : ℕ) : FailsUnless .overflow (a * b < 2 ^ 64) (checkedMul a b) (.ok (a * b)) :=
  ⟨fun h => if_pos h, fun h => if_neg h, fun h => by cases h⟩

theorem estimateRows_failsUnless (plan : LogicalPlan) :
    FailsUnless .overflow (plan.RowsFit s) (plan.estimateRows (checked isAlphanumeric) s)
      (.ok (plan.expectedRows s)) := by
  induction plan with
  | scan table predicate => exact failsUnless_ok _
  | filter input predicate ih => exact ih.bind_return fun base => toU64 (toF64 base * 0.1)
  | project input columns ih | sort input column ih => exact ih
  | join left right condition ihleft ihright =>
    refine ihleft.bind_ok (ihright.bind_ok ?_)
    exact (checkedMul_failsUnless _ _).bind_return fun product => toU64 (toF64 product * 0.01)
  | aggregate input groupKey aggs ih => exact ih.bind_return fun base => toU64 (toF64 base).sqrt
  | limit input count ih => exact ih.bind_return fun base => min base count.toNat

theorem estimateRows_unbounded (plan : LogicalPlan) :
    plan.estimateRows (unbounded isAlphanumeric) s = .ok (plan.expectedRows s) := by
  induction plan with
  | scan table predicate => rfl
  | filter input predicate ih | aggregate input groupKey aggs ih | limit input count ih =>
    rw [LogicalPlan.estimateRows, ih]
    rfl
  | project input columns ih | sort input column ih => exact ih
  | join left right condition ihleft ihright =>
    rw [LogicalPlan.estimateRows, ihleft, ihright]
    rfl

theorem estimateJoinCardinality_ok_iff (tableA tableB colA colB : Name) :
    (∃ n, s.estimateJoinCardinality (checked isAlphanumeric) tableA tableB colA colB = .ok n) ↔
      ∀ a b, s.tables.lookup tableA = some a → s.tables.lookup tableB = some b →
        a.rowCount.toNat * b.rowCount.toNat < 2 ^ 64 := by
  unfold StatsCatalog.estimateJoinCardinality
  split
  · rename_i a b ha hb
    rw [ha, hb]
    have hproduct := (checkedMul_failsUnless a.rowCount.toNat b.rowCount.toNat).bind_return fun product =>
      product / max (max (StatsCatalog.distinctOf a colA) (StatsCatalog.distinctOf b colB)) 1
    refine hproduct.ok_iff.trans ⟨fun h a' b' ha' hb' => ?_, fun h => h a b rfl rfl⟩
    rwa [← Option.some.inj ha', ← Option.some.inj hb']
  · rename_i hnone
    exact iff_of_true ⟨1000, rfl⟩ fun a b ha hb => absurd hb (hnone a b ha)

/-! ### Physical plans -/

theorem chooseJoinMethodSpec_failsUnless (left right : LogicalPlan) (condition : List Char) :
    FailsUnless .overflow (LogicalPlan.Reestimated left right condition → left.RowsFit s ∧ right.RowsFit s)
      (chooseJoinMethodSpec (checked isAlphanumeric) s left right condition)
      (.ok (joinMethod left right condition)) := by
  unfold chooseJoinMethodSpec joinMethod LogicalPlan.Reestimated
  by_cases hequi : isEquiJoin condition = true
  · by_cases hsorted : left.isSorted = true ∧ right.isSorted = true
    · simp only [hequi, hsorted.1, hsorted.2]
      exact (failsUnless_ok _).congr (by simp)
    · have hnot : ¬(left.isSorted && right.isSorted) = true := by rwa [Bool.and_eq_true]
      simp only [hequi, if_neg hnot, Bool.not_true, Bool.false_eq_true, if_false, ite_self]
      apply FailsUnless.congr
      · exact (estimateRows_failsUnless left).bind_ok ((estimateRows_failsUnless right).bind_ok (failsUnless_ok _))
      · simp [hsorted]
  · simp only [hequi]
    exact (failsUnless_ok _).congr (by simp)

theorem chooseJoinMethodSpec_unbounded (left right : LogicalPlan) (condition : List Char) :
    chooseJoinMethodSpec (unbounded isAlphanumeric) s left right condition = .ok (joinMethod left right condition) := by
  unfold chooseJoinMethodSpec joinMethod
  rw [estimateRows_unbounded, estimateRows_unbounded]
  simp only [ite_self]
  split_ifs <;> rfl

theorem buildPhysical_unbounded (plan : LogicalPlan) : ∃ p, buildPhysical (unbounded isAlphanumeric) s plan = .ok p ∧
    p.estimatedRows = plan.plannedRows (unbounded isAlphanumeric) s := by
  induction plan with
  | scan table predicate =>
    refine ⟨_, rfl, ?_⟩
    unfold buildScan chooseScanOp LogicalPlan.plannedRows
    cases scanIndex (unbounded isAlphanumeric) s table predicate <;> rfl
  | filter input predicate ih | aggregate input groupKey aggs ih | limit input count ih =>
    obtain ⟨p, hp, hrows⟩ := ih
    rw [buildPhysical, hp, LogicalPlan.plannedRows, ← hrows]
    exact ⟨_, rfl, rfl⟩
  | project input columns ih | sort input column ih =>
    obtain ⟨p, hp, hrows⟩ := ih
    rw [buildPhysical, hp]
    exact ⟨_, rfl, hrows⟩
  | join left right condition ihleft ihright =>
    obtain ⟨p, hp, hrows⟩ := ihleft
    obtain ⟨q, hq, hrows'⟩ := ihright
    rw [buildPhysical, hp, hq, LogicalPlan.plannedRows, ← hrows, ← hrows']
    simp only [chooseJoinMethodSpec_unbounded]
    exact ⟨_, rfl, rfl⟩

theorem buildPhysical_failsUnless (plan : LogicalPlan) :
    FailsUnless .overflow (plan.PlanFits (unbounded isAlphanumeric) s)
      (buildPhysical (checked isAlphanumeric) s plan) (buildPhysical (unbounded isAlphanumeric) s plan) := by
  induction plan with
  | scan table predicate => exact failsUnless_ok _
  | filter input predicate ih | project input columns ih | sort input column ih
  | aggregate input groupKey aggs ih | limit input count ih => exact ih.bind_return _
  | join left right condition ihleft ihright =>
    obtain ⟨p, hp, hrows⟩ := @buildPhysical_unbounded isAlphanumeric s left
    obtain ⟨q, hq, hrows'⟩ := @buildPhysical_unbounded isAlphanumeric s right
    rw [hp] at ihleft
    rw [hq] at ihright
    have hbuilt : buildPhysical (unbounded isAlphanumeric) s (.join left right condition) =
        .ok (.mk (.join (joinMethod left right condition) p q condition)
          (p.cost + q.cost + joinCost (joinMethod left right condition) p.estimatedRows q.estimatedRows)
          (toU64 (toF64 (p.estimatedRows * q.estimatedRows) * 0.01))) := by
      rw [buildPhysical, hp, hq]
      simp only [chooseJoinMethodSpec_unbounded]
      rfl
    rw [hbuilt, buildPhysical, LogicalPlan.PlanFits, ← hrows, ← hrows']
    refine ihleft.bind_ok (ihright.bind_ok ((chooseJoinMethodSpec_failsUnless left right condition).bind_ok ?_))
    exact (checkedMul_failsUnless _ _).bind_return fun product =>
      PhysicalPlan.mk (.join (joinMethod left right condition) p q condition)
        (p.cost + q.cost + joinCost (joinMethod left right condition) p.estimatedRows q.estimatedRows)
        (toU64 (toF64 product * 0.01))

theorem buildPhysical_ok_iff (plan : LogicalPlan) : (∃ p, buildPhysical (checked isAlphanumeric) s plan = .ok p) ↔
    plan.PlanFits (unbounded isAlphanumeric) s := by
  have hfails := @buildPhysical_failsUnless isAlphanumeric s plan
  obtain ⟨p, hp, -⟩ := @buildPhysical_unbounded isAlphanumeric s plan
  rw [hp] at hfails
  exact hfails.ok_iff

/-! ### Ranges -/

theorem checkedSub_eq_ok {a b : Int64} {d : ℤ} : checkedSub a b = .ok d ↔
    (-2 ^ 63 ≤ a.toInt - b.toInt ∧ a.toInt - b.toInt < 2 ^ 63) ∧ d = a.toInt - b.toInt := by
  unfold checkedSub
  split_ifs with h
  · rw [Except.ok.injEq, and_iff_right h, eq_comm]
  · exact iff_of_false (fun heq => by cases heq) fun hand => h hand.1

/-- A part of a range is a fraction exactly if it is no longer than the range. -/
theorem fraction_iff {part range : ℤ} (hrange : 0 < range) :
    (0 ≤ ((part ⊔ 0 : ℤ) : ℚ) / range ∧ ((part ⊔ 0 : ℤ) : ℚ) / range ≤ 1) ↔ part ≤ range := by
  have hpos : (0 : ℚ) < range := Int.cast_pos.mpr hrange
  have hnonneg : (0 : ℚ) ≤ (part ⊔ 0 : ℤ) := by exact_mod_cast (le_sup_right : (0 : ℤ) ≤ part ⊔ 0)
  rw [and_iff_right (div_nonneg hnonneg hpos.le), div_le_one hpos, Int.cast_le, sup_le_iff,
    and_iff_left hrange.le]

/-- The fraction that a difference is of a range. -/
theorem difference_iff {a b : Int64} {range : ℤ} (hrange : 0 < range) (hbound : range < 2 ^ 63) : (∃ q, (do
        let part ← checkedSub a b
        return ((part ⊔ 0 : ℤ) : ℚ) / range) = Except.ok q ∧ 0 ≤ q ∧ q ≤ 1) ↔
      a.toInt - b.toInt ≤ range ∧ -2 ^ 63 ≤ a.toInt - b.toInt := by
  constructor
  · rintro ⟨q, hq, hfraction⟩
    cases hsub : checkedSub a b with
    | error e =>
      rw [hsub] at hq
      cases hq
    | ok part =>
      rw [hsub] at hq
      cases hq
      obtain ⟨hbounds, rfl⟩ := checkedSub_eq_ok.mp hsub
      exact ⟨(fraction_iff hrange).mp hfraction, hbounds.1⟩
  · rintro ⟨hle, hlow⟩
    rw [checkedSub_eq_ok.mpr ⟨⟨hlow, hle.trans_lt hbound⟩, rfl⟩]
    exact ⟨_, rfl, (fraction_iff hrange).mpr hle⟩

theorem selectivityRange_iff {c : ColumnStats} (hordered : c.Ordered) (val : Int64) (greaterThan : Bool) :
    (∃ q, c.selectivityRange val greaterThan = .ok q ∧ 0 ≤ q ∧ q ≤ 1) ↔ c.RangeFits val greaterThan := by
  unfold ColumnStats.selectivityRange ColumnStats.RangeFits
  split
  case h_2 hnone =>
    refine iff_of_true ⟨333 / 1000, rfl, by norm_num, by norm_num⟩ fun min max hmin hmax => ?_
    exact absurd hmax (hnone min max hmin)
  case h_1 min max hmin hmax =>
    have hle := hordered min max hmin hmax
    by_cases heq : min = max
    · rw [if_pos heq]
      refine iff_of_true ⟨0, rfl, le_rfl, zero_le_one⟩ fun min' max' hmin' hmax' hlt => ?_
      rw [hmin] at hmin'
      rw [hmax] at hmax'
      cases hmin'
      cases hmax'
      exact absurd (heq ▸ hlt) (Int64.lt_irrefl)
    · have hlt : min < max := Int64.lt_of_le_of_ne hle heq
      have hpos : 0 < max.toInt - min.toInt := sub_pos.mpr (Int64.lt_iff_toInt_lt.mp hlt)
      have hlow : -2 ^ 63 ≤ max.toInt - min.toInt := by omega
      rw [if_neg heq]
      have hfits : (∀ min' max', c.minI64 = some min' → c.maxI64 = some max' → min' < max' →
          max'.toInt - min'.toInt < 2 ^ 63 ∧ if greaterThan then min' ≤ val ∧ -2 ^ 63 ≤ max'.toInt - val.toInt
            else val ≤ max' ∧ -2 ^ 63 ≤ val.toInt - min'.toInt) ↔
          max.toInt - min.toInt < 2 ^ 63 ∧ if greaterThan then min ≤ val ∧ -2 ^ 63 ≤ max.toInt - val.toInt
            else val ≤ max ∧ -2 ^ 63 ≤ val.toInt - min.toInt := by
        rw [hmin, hmax]
        simp [hlt]
      rw [hfits]
      by_cases hbound : max.toInt - min.toInt < 2 ^ 63
      · rw [checkedSub_eq_ok.mpr ⟨⟨hlow, hbound⟩, rfl⟩, and_iff_right hbound]
        cases greaterThan
        · refine (difference_iff hpos hbound).trans (and_congr_left fun _ => ?_)
          rw [sub_le_sub_iff_right, Int64.le_iff_toInt_le]
        · refine (difference_iff hpos hbound).trans (and_congr_left fun _ => ?_)
          rw [sub_le_sub_iff_left, Int64.le_iff_toInt_le]
      · refine iff_of_false ?_ fun h => hbound h.1
        rintro ⟨q, hq, -⟩
        have herror : checkedSub max min = .error .overflow := if_neg fun h => hbound h.2
        rw [herror] at hq
        cases hq

/-! ### All of them -/

/-- The estimates for a plan, a join of two tables and a range of a column do not overflow, and the last one
is a fraction. -/
structure CardinalitySafe (isAlphanumeric : Char → Bool) (s : StatsCatalog) (plan : LogicalPlan)
    (tableA tableB colA colB : Name) (c : ColumnStats) (val : Int64) (greaterThan : Bool) : Prop where
  rows : ∃ n, plan.estimateRows (checked isAlphanumeric) s = .ok n
  joinRows : ∃ n, s.estimateJoinCardinality (checked isAlphanumeric) tableA tableB colA colB = .ok n
  physical : ∃ p, buildPhysical (checked isAlphanumeric) s plan = .ok p
  range : ∃ q, c.selectivityRange val greaterThan = .ok q ∧ 0 ≤ q ∧ q ≤ 1

/-- The products and differences fit in 64 bits, and the value is not beyond the far bound of the column. -/
structure CardinalityFits (isAlphanumeric : Char → Bool) (s : StatsCatalog) (plan : LogicalPlan)
    (tableA tableB : Name) (c : ColumnStats) (val : Int64) (greaterThan : Bool) : Prop where
  rows : plan.RowsFit s
  joinRows : ∀ a b, s.tables.lookup tableA = some a → s.tables.lookup tableB = some b →
    a.rowCount.toNat * b.rowCount.toNat < 2 ^ 64
  physical : plan.PlanFits (unbounded isAlphanumeric) s
  range : c.RangeFits val greaterThan

/-- **Estimates are safe exactly if everything fits.** -/
theorem cardinalitySafe_iff (isAlphanumeric : Char → Bool) (s : StatsCatalog) (plan : LogicalPlan)
    (tableA tableB colA colB : Name) {c : ColumnStats} (hordered : c.Ordered) (val : Int64) (greaterThan : Bool) :
    CardinalitySafe isAlphanumeric s plan tableA tableB colA colB c val greaterThan ↔
      CardinalityFits isAlphanumeric s plan tableA tableB c val greaterThan := by
  have hrows := (@estimateRows_failsUnless isAlphanumeric s plan).ok_iff
  have hjoin := @estimateJoinCardinality_ok_iff isAlphanumeric s tableA tableB colA colB
  have hplan := @buildPhysical_ok_iff isAlphanumeric s plan
  have hrange := selectivityRange_iff hordered val greaterThan
  constructor
  · intro h
    exact ⟨hrows.mp h.rows, hjoin.mp h.joinRows, hplan.mp h.physical, hrange.mp h.range⟩
  · intro h
    exact ⟨hrows.mpr h.rows, hjoin.mpr h.joinRows, hplan.mpr h.physical, hrange.mpr h.range⟩

/-- A table `t` with some number of rows. -/
def oneTable (rowCount : UInt64) : StatsCatalog := ⟨AList.singleton "t".toList ⟨rowCount, ∅⟩, ∅⟩

/-- The table joined with itself. -/
def selfJoin : LogicalPlan := .join (.scan "t".toList none) (.scan "t".toList none) "t.a == t.b".toList

/-- The values from 0 to 10. -/
def toTen : ColumnStats := ⟨11, some 0, some 10⟩

theorem ordered_toTen : toTen.Ordered := by
  rintro min max hmin hmax
  cases hmin
  cases hmax
  decide

theorem cardinalitySafe_small :
    CardinalitySafe Char.isAlphanum (oneTable 1000) selfJoin "t".toList "t".toList "a".toList "b".toList toTen 5 true := by
  refine (cardinalitySafe_iff _ _ _ _ _ _ _ ordered_toTen _ _).mpr ⟨?_, ?_, ?_, ?_⟩
  · exact ⟨trivial, trivial, by decide⟩
  · intro a b ha hb
    cases ha
    cases hb
    decide
  · exact ⟨trivial, trivial, fun _ => ⟨trivial, trivial⟩, by decide⟩
  · intro min max hmin hmax hlt
    cases hmin
    cases hmax
    exact ⟨by decide, by decide, by decide⟩

/-- The product of 2 ^ 32 rows and 2 ^ 32 rows is no `u64`. -/
theorem not_cardinalitySafe : ¬∀ isAlphanumeric s plan tableA tableB colA colB c val greaterThan,
    c.Ordered → CardinalitySafe isAlphanumeric s plan tableA tableB colA colB c val greaterThan := by
  intro h
  obtain ⟨n, hn⟩ := (h Char.isAlphanum (oneTable 4294967296) selfJoin [] [] [] [] toTen 5 true ordered_toTen).rows
  have hoverflow : selfJoin.estimateRows (checked Char.isAlphanum) (oneTable 4294967296) = .error .overflow := by
    rfl
  rw [hoverflow] at hn
  cases hn

end CenDB.Optimizer
