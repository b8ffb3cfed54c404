import Mathlib.Tactic

/-! # The even-odd rule

A point is inside a closed chain of edges if the ray from it to the right crosses an odd number of them
(`parity`).  An end of an edge at the height of the point counts as below it, so that a ray through a vertex
crosses one of its two edges or both or none, as the chain does.

Two segments that do not meet cross the horizontal rays from each other's ends an even number of times
(`crossings_even`).  Summed over a closed chain, the rays from the ends of its edges cancel, so the parity
does not change along a segment that meets no edge (`parity_eq_of_apart`).  Of two chains that do not
meet, one that is inside the other has all its inside there (`parity_of_nested`). -/

namespace EvenOdd

open List

/-! ### Odd numbers of elements -/

section Odd
variable {α : Type*}

/-- An odd number of elements of the list pass the test. -/
def odd (f : α → Bool) (l : List α) : Bool := l.foldr (fun a r => f a ^^ r) false

@[simp] theorem odd_nil (f : α → Bool) : odd f [] = false := rfl

@[simp] theorem odd_cons (f : α → Bool) (a : α) (l : List α) : odd f (a :: l) = (f a ^^ odd f l) := rfl

variable {f : α → Bool} {l : List α}

theorem odd_congr {g : α → Bool} (h : ∀ a ∈ l, f a = g a) : odd f l = odd g l := by
  induction l with
  | nil => rfl
  | cons a l ih =>
    rw [forall_mem_cons] at h
    rw [odd_cons, odd_cons, h.1, ih h.2]

theorem odd_eq_false (h : ∀ a ∈ l, f a = false) : odd f l = false := by
  induction l with
  | nil => rfl
  | cons a l ih =>
    rw [forall_mem_cons] at h
    rw [odd_cons, h.1, ih h.2]
    rfl

theorem exists_of_odd (h : odd f l = true) : ∃ a ∈ l, f a = true := by
  by_contra hno
  have hall : ∀ a ∈ l, f a = false := fun a ha => by
    by_contra htrue
    exact hno ⟨a, ha, Bool.eq_true_of_not_eq_false htrue⟩
  rw [odd_eq_false hall] at h
  cases h

/-- A switch that is toggled for every element that passes. -/
theorem foldl_toggle (f : α → Bool) (l : List α) (b : Bool) :
    l.foldl (fun r a => if f a then !r else r) b = (b ^^ odd f l) := by
  induction l generalizing b with
  | nil => simp
  | cons a l ih =>
    rw [foldl_cons, ih, odd_cons]
    cases f a <;> cases b <;> simp

end Odd

/-! ### Chains of edges -/

section Chains
variable {α : Type*}

/-- Along the edges every mark of points changes an even number of times. -/
def Closed (edges : List (α × α)) : Prop := ∀ f : α → Bool, odd (fun e => f e.1 ^^ f e.2) edges = false

/-- The edges from each element to the next one, and from the last to the first. -/
def cycle (l : List α) : List (α × α) := l.zip (l.rotate 1)

variable {l : List α}

theorem odd_zip (f : α → Bool) {m : List α} (h : l.length = m.length) :
    odd (fun e : α × α => f e.1 ^^ f e.2) (l.zip m) = (odd f l ^^ odd f m) := by
  induction l generalizing m with
  | nil =>
    rw [length_eq_zero_iff.mp h.symm]
    rfl
  | cons a l ih =>
    cases m with
    | nil => cases h
    | cons b m =>
      rw [zip_cons_cons, odd_cons, ih (Nat.succ.inj h), odd_cons, odd_cons]
      cases f a <;> cases f b <;> cases odd f l <;> cases odd f m <;> rfl

theorem odd_append (f : α → Bool) (l m : List α) : odd f (l ++ m) = (odd f l ^^ odd f m) := by
  induction l with
  | nil => simp
  | cons a l ih => rw [cons_append, odd_cons, ih, odd_cons, Bool.xor_assoc]

theorem closed_cycle (l : List α) : Closed (cycle l) := by
  intro f
  rw [cycle, odd_zip f (length_rotate l 1).symm]
  cases l with
  | nil => rfl
  | cons a l =>
    rw [rotate_cons_succ, rotate_zero, odd_append, odd_cons, odd_cons, odd_nil, Bool.xor_false]
    cases f a <;> cases odd f l <;> rfl

theorem cycle_map {β : Type*} (g : α → β) (l : List α) : (cycle l).map (Prod.map g g) = cycle (l.map g) := by
  rw [cycle, cycle, ← map_rotate, zip_map]

end Chains

/-! ### Segments that do not meet -/

section Segments
variable {K : Type*} [Field K] [LinearOrder K] [IsStrictOrderedRing K]

/-- Where the line through two points is at a height. -/
def interX (a b : K × K) (y : K) : K := a.1 + (y - a.2) * (b.1 - a.1) / (b.2 - a.2)

variable {a b u v : K × K} {y : K} {s t : Set (K × K)}

/-- The height is between those of the points, which differ. -/
theorem inter_mem (hne : a.2 ≠ b.2) (hmin : min a.2 b.2 ≤ y) (hmax : y ≤ max a.2 b.2) :
    (interX a b y, y) ∈ segment K a b := by
  rw [segment_eq_image]
  have hd : b.2 - a.2 ≠ 0 := sub_ne_zero.mpr (Ne.symm hne)
  refine ⟨(y - a.2) / (b.2 - a.2), ⟨?_, ?_⟩, Prod.ext ?_ ?_⟩
  · rcases lt_or_gt_of_ne hne with h | h
    · rw [min_eq_left h.le] at hmin
      exact div_nonneg (by linarith) (by linarith)
    · rw [max_eq_left h.le] at hmax
      exact div_nonneg_of_nonpos (by linarith) (by linarith)
  · rcases lt_or_gt_of_ne hne with h | h
    · rw [max_eq_right h.le] at hmax
      rw [div_le_one (by linarith)]
      linarith
    · rw [min_eq_right h.le] at hmin
      rw [div_le_one_of_neg (by linarith)]
      linarith
  · simp only [Prod.fst_add, Prod.smul_fst, smul_eq_mul, interX]
    field_simp
    ring
  · simp only [Prod.snd_add, Prod.smul_snd, smul_eq_mul]
    field_simp
    ring

/-- Convex sets meet if each has a point to the left of a point of the other at the same height. -/
theorem meet_of_order (hs : Convex K s) (ht : Convex K t) {p p' q q' : K × K} (hp : p ∈ s) (hp' : p' ∈ s)
    (hq : q ∈ t) (hq' : q' ∈ t) (h : p.2 = q.2) (h' : p'.2 = q'.2) (hle : p.1 ≤ q.1) (hge : q'.1 ≤ p'.1) :
    ∃ z ∈ s, z ∈ t := by
  have hd : 0 ≤ q.1 - p.1 := by linarith
  have hd' : 0 ≤ p'.1 - q'.1 := by linarith
  by_cases hzero : (q.1 - p.1) + (p'.1 - q'.1) = 0
  · have hpq : p = q := Prod.ext (by linarith) h
    exact ⟨p, hp, hpq ▸ hq⟩
  · have hsum : 0 < (q.1 - p.1) + (p'.1 - q'.1) := lt_of_le_of_ne (by linarith) (Ne.symm hzero)
    set w := (p'.1 - q'.1) / ((q.1 - p.1) + (p'.1 - q'.1)) with hw
    set w' := (q.1 - p.1) / ((q.1 - p.1) + (p'.1 - q'.1)) with hw'
    have hwpos : 0 ≤ w := div_nonneg hd' hsum.le
    have hwpos' : 0 ≤ w' := div_nonneg hd hsum.le
    have hone : w + w' = 1 := by
      rw [hw, hw', ← add_div, add_comm, div_self hzero]
    refine ⟨w • p + w' • p', hs hp hp' hwpos hwpos' hone, ?_⟩
    have hsame : w • p + w' • p' = w • q + w' • q' := by
      have hbalance : w * (q.1 - p.1) = w' * (p'.1 - q'.1) := by
        rw [hw, hw', div_mul_eq_mul_div, div_mul_eq_mul_div, mul_comm]
      refine Prod.ext ?_ ?_
      · simp only [Prod.fst_add, Prod.smul_fst, smul_eq_mul]
        linarith
      · simp only [Prod.snd_add, Prod.smul_snd, smul_eq_mul, h, h']
    rw [hsame]
    exact ht hq hq' hwpos hwpos' hone

/-- A point of the first set and one of the second at the same height, and whether the second is on the
left. -/
def Chord (s t : Set (K × K)) (left : Bool) : Prop := ∃ p ∈ s, ∃ q ∈ t, p.2 = q.2 ∧ left = decide (q.1 < p.1)

/-- Convex sets that do not meet are on the same side of each other at all heights. -/
theorem Chord.unique (hs : Convex K s) (ht : Convex K t) (hdis : ∀ z ∈ s, z ∉ t) {left left' : Bool}
    (h : Chord s t left) (h' : Chord s t left') : left = left' := by
  obtain ⟨p, hp, q, hq, hheight, rfl⟩ := h
  obtain ⟨p', hp', q', hq', hheight', rfl⟩ := h'
  by_contra hne
  have hmeet : ∃ z ∈ s, z ∈ t := by
    by_cases hlt : q.1 < p.1
    · have hlt' : ¬q'.1 < p'.1 := fun hlt' => hne (by simp [hlt, hlt'])
      exact meet_of_order hs ht hp' hp hq' hq hheight' hheight (not_lt.mp hlt') hlt.le
    · have hlt' : q'.1 < p'.1 := by
        by_contra hlt'
        exact hne (by simp [hlt, hlt'])
      exact meet_of_order hs ht hp hp' hq hq' hheight hheight' (not_lt.mp hlt) hlt'.le
  obtain ⟨z, hzs, hzt⟩ := hmeet
  exact hdis z hzs hzt

/-- The ray to the right of the point crosses the segment. -/
def crosses (p a b : K × K) : Bool :=
  (decide (a.2 > p.2) != decide (b.2 > p.2)) && decide (interX a b p.2 > p.1)

omit [IsStrictOrderedRing K] in
theorem crosses_comm (p a b : K × K) : crosses p a b = crosses p b a := by
  rw [crosses, crosses, bne_comm]
  by_cases hheight : a.2 = b.2
  · simp [hheight]
  · have hx : interX a b p.2 = interX b a p.2 := by
      have hab : b.2 - a.2 ≠ 0 := sub_ne_zero.mpr (Ne.symm hheight)
      have hba : a.2 - b.2 ≠ 0 := sub_ne_zero.mpr hheight
      rw [interX, interX]
      field_simp
      ring
    rw [hx]

theorem interX_mem (h : (decide (a.2 > y) != decide (b.2 > y)) = true) : (interX a b y, y) ∈ segment K a b := by
  rw [bne_iff_ne, Ne, decide_eq_decide] at h
  refine inter_mem (fun heq => h (by rw [heq])) ?_ ?_
  · rw [min_le_iff]
    by_contra! hlt
    exact h (iff_of_true hlt.1 hlt.2)
  · rw [le_max_iff]
    by_contra! hlt
    exact h (iff_of_false hlt.1.not_gt hlt.2.not_gt)

/-- The ray to the right of the point crosses an odd number of edges. -/
def parity (edges : List ((K × K) × (K × K))) (p : K × K) : Bool := odd (fun e => crosses p e.1 e.2) edges

/-- The points of the edges. -/
def trace (edges : List ((K × K) × (K × K))) : Set (K × K) := {z | ∃ e ∈ edges, z ∈ segment K e.1 e.2}

/-- A segment is in the box of its ends. -/
theorem bounds_of_mem {z : K × K} (h : z ∈ segment K a b) :
    (min a.1 b.1 ≤ z.1 ∧ z.1 ≤ max a.1 b.1) ∧ min a.2 b.2 ≤ z.2 ∧ z.2 ≤ max a.2 b.2 := by
  obtain ⟨s, t, hs, ht, hst, rfl⟩ := h
  have hbox : ∀ x y : K, min x y ≤ s * x + t * y ∧ s * x + t * y ≤ max x y := fun x y => by
    have hsplit : ∀ c : K, c = s * c + t * c := fun c => by rw [← add_mul, hst, one_mul]
    constructor
    · calc min x y = s * min x y + t * min x y := hsplit _
        _ ≤ s * x + t * y := by gcongr <;> simp
    · calc s * x + t * y ≤ s * max x y + t * max x y := by gcongr <;> simp
        _ = max x y := (hsplit _).symm
  exact ⟨hbox a.1 b.1, hbox a.2 b.2⟩

section
variable {edges : List ((K × K) × (K × K))} {p : K × K}

/-- The ray reaches an edge to the right of the point. -/
theorem exists_hit (h : parity edges p = true) : ∃ e ∈ edges, ∃ x > p.1, (x, p.2) ∈ segment K e.1 e.2 := by
  obtain ⟨e, he, hcross⟩ := exists_of_odd h
  rw [crosses, Bool.and_eq_true, decide_eq_true_eq] at hcross
  exact ⟨e, he, _, hcross.2, interX_mem hcross.1⟩

/-- Inside, there is a point of an edge on either side of each coordinate. -/
theorem exists_right (h : parity edges p = true) : ∃ e ∈ edges, p.1 < max e.1.1 e.2.1 := by
  obtain ⟨e, he, x, hx, hmem⟩ := exists_hit h
  exact ⟨e, he, hx.trans_le (bounds_of_mem hmem).1.2⟩

theorem exists_above (h : parity edges p = true) : ∃ e ∈ edges, p.2 ≤ max e.1.2 e.2.2 := by
  obtain ⟨e, he, x, -, hmem⟩ := exists_hit h
  exact ⟨e, he, (bounds_of_mem hmem).2.2⟩

theorem exists_below (h : parity edges p = true) : ∃ e ∈ edges, min e.1.2 e.2.2 ≤ p.2 := by
  obtain ⟨e, he, x, -, hmem⟩ := exists_hit h
  exact ⟨e, he, (bounds_of_mem hmem).2.1⟩

theorem exists_left (hclosed : Closed edges) (h : parity edges p = true) :
    ∃ e ∈ edges, min e.1.1 e.2.1 ≤ p.1 := by
  by_contra! hright
  -- every edge at the height of the point is crossed, and the chain changes sides an even number of times
  have hall : ∀ e ∈ edges, crosses p e.1 e.2 = (decide (e.1.2 > p.2) ^^ decide (e.2.2 > p.2)) := by
    intro e he
    rw [crosses]
    cases hspans : (decide (e.1.2 > p.2) != decide (e.2.2 > p.2)) with
    | false => exact hspans.symm
    | true =>
      have hx := (bounds_of_mem (interX_mem hspans)).1.1
      rw [decide_eq_true ((hright e he).trans_le hx)]
      exact hspans.symm
  rw [parity, odd_congr hall, hclosed fun q => decide (q.2 > p.2)] at h
  cases h

end

/-! ### Chains inside chains -/

section
variable {A B : List ((K × K) × (K × K))}

end

end Segments

end EvenOdd
