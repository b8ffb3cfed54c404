import Mathlib.Data.List.TakeWhile
import Mathlib.Tactic

/-! # Equi-joins

Rows of two lists are joined when they have the same key; a row without a key joins with none.
`nested` is the join by two loops, in the order of the first list.  `nested_swap` changes the list of
the outer loop, `nested_parts` joins part by part, and `merge_eq_nested` shows that a merge of two ascending
lists is the same join. -/

namespace Joins

open List Bool

variable {α β γ κ : Type*}

/-- Every pair that matches. -/
def nested (matching : α → β → Bool) (f : α → β → γ) (as : List α) (bs : List β) : List γ :=
  as.flatMap fun a => (bs.filter (matching a)).map (f a)

section nested

variable (matching : α → β → Bool) (f : α → β → γ)

theorem nested_cons (a : α) (as : List α) (bs : List β) :
    nested matching f (a :: as) bs = (bs.filter (matching a)).map (f a) ++ nested matching f as bs :=
  flatMap_cons

theorem nested_append (as as' : List α) (bs : List β) :
    nested matching f (as ++ as') bs = nested matching f as bs ++ nested matching f as' bs :=
  flatMap_append

theorem filter_map_eq_flatMap (p : β → Bool) (g : β → γ) (bs : List β) :
    (bs.filter p).map g = bs.flatMap fun b => if p b then [g b] else [] := by
  induction bs with
  | nil => rfl
  | cons b bs ih =>
    rw [filter_cons, flatMap_cons, ← ih]
    by_cases hb : p b
    · simp [hb]
    · simp [hb]

/-- The loops may be exchanged. -/
theorem nested_swap (as : List α) (bs : List β) :
    (nested matching f as bs).Perm (nested (fun b a => matching a b) (fun b a => f a b) bs as) := by
  induction as with
  | nil => simp [nested]
  | cons a as ih =>
    have hsplit : nested (fun b a => matching a b) (fun b a => f a b) bs (a :: as) =
        bs.flatMap fun b => (if matching a b then [f a b] else []) ++
          (as.filter fun a => matching a b).map fun a => f a b := by
      unfold nested
      congr 1
      funext b
      by_cases hb : matching a b
      · simp [hb]
      · simp [hb]
    rw [nested_cons, hsplit, filter_map_eq_flatMap]
    exact (ih.append_left _).trans (flatMap_append_perm bs _ _)

theorem nested_perm {as as' : List α} {bs bs' : List β} (has : as.Perm as') (hbs : bs.Perm bs') :
    (nested matching f as bs).Perm (nested matching f as' bs') :=
  (has.flatMap_right _).trans (List.Perm.flatMap_left as' fun _ _ => (hbs.filter _).map _)

end nested

/-! ### Parts -/

section parts

variable {n : ℕ} {part : α → ℕ} {as : List α}

/-- The parts of a list have all its elements. -/
theorem flatMap_parts_perm (h : ∀ a ∈ as, part a < n) :
    ((List.range n).flatMap fun p => as.filter fun a => part a = p).Perm as := by
  induction as with
  | nil => simp
  | cons a as ih =>
    obtain ⟨ha, has⟩ := forall_mem_cons.mp h
    have hown : ((List.range n).flatMap fun p => if part a = p then [a] else []) = [a] := by
      have hfilter := filter_map_eq_flatMap (fun p => decide (part a = p)) (fun _ => a) (List.range n)
      simp only [decide_eq_true_eq] at hfilter
      have hcount : (List.range n).count (part a) = 1 := count_eq_one_of_mem nodup_range (mem_range.mpr ha)
      rw [← hfilter, filter_congr fun p _ => decide_eq_decide.mpr eq_comm, filter_eq, hcount]
      rfl
    have hsplit : ((List.range n).flatMap fun p => (a :: as).filter fun a => part a = p) =
        (List.range n).flatMap fun p =>
          (if part a = p then [a] else []) ++ as.filter fun a => part a = p := by
      congr 1
      funext p
      by_cases hp : part a = p
      · simp [hp]
      · simp [hp]
    rw [hsplit]
    refine (flatMap_append_perm (List.range n) _ _).symm.trans ?_
    rw [hown]
    exact (ih has).cons a

/-- Elements that match are in the same part, so the parts may be joined one by one. -/
theorem nested_parts {matching : α → β → Bool} (f : α → β → γ) {part' : β → ℕ} {bs : List β}
    (hsame : ∀ a b, matching a b = true → part a = part' b) (h : ∀ a ∈ as, part a < n) :
    ((List.range n).flatMap fun p =>
      nested matching f (as.filter fun a => part a = p) (bs.filter fun b => part' b = p)).Perm
        (nested matching f as bs) := by
  have hpart (p : ℕ) : nested matching f (as.filter fun a => part a = p) (bs.filter fun b => part' b = p) =
      (as.filter fun a => part a = p).flatMap fun a => (bs.filter (matching a)).map (f a) := by
    unfold nested
    rw [flatMap_def, flatMap_def]
    congr 1
    refine map_congr_left fun a ha => ?_
    have hp := of_decide_eq_true (mem_filter.mp ha).2
    rw [filter_filter]
    congr 1
    refine filter_congr fun b _ => ?_
    by_cases hmatch : matching a b = true
    · rw [hmatch, ← hsame a b hmatch, hp, decide_eq_true rfl]
      rfl
    · simp [hmatch]
  simp only [hpart]
  rw [← flatMap_assoc]
  exact (flatMap_parts_perm h).flatMap_right _

end parts

/-! ### Merging -/

section merge

variable (cmp : κ → κ → Ordering) (keyL : α → Option κ) (keyR : β → Option κ) (f : α → β → γ)

/-- The elements that follow with the same key. -/
def sameKey (key : α → Option κ) (x : κ) (a : α) : Bool := (key a).any fun y => cmp y x == .eq

/-- Walk through two lists together; runs of one key are joined each with each. -/
def merge : List α → List β → List γ
  | a :: as, b :: bs =>
    match keyL a, keyR b with
    | none, _ => merge as (b :: bs)
    | some _, none => merge (a :: as) bs
    | some x, some y =>
      match cmp x y with
      | .lt => merge as (b :: bs)
      | .gt => merge (a :: as) bs
      | .eq =>
        ((a :: as.takeWhile (sameKey cmp keyL x)).flatMap fun a' =>
          (b :: bs.takeWhile (sameKey cmp keyR y)).map (f a')) ++
            merge (as.dropWhile (sameKey cmp keyL x)) (bs.dropWhile (sameKey cmp keyR y))
  | _, _ => []
termination_by as bs => as.length + bs.length
decreasing_by
  all_goals simp only [List.length_cons]
  · omega
  · omega
  · omega
  · omega
  · have hl := (dropWhile_sublist (l := as) (sameKey cmp keyL x)).length_le
    have hr := (dropWhile_sublist (l := bs) (sameKey cmp keyR y)).length_le
    omega

/-- Missing keys come first. -/
def keyLe : Option κ → Option κ → Prop
  | none, _ => True
  | some _, none => False
  | some x, some y => (cmp x y).isLE

def Ascending (key : α → Option κ) (as : List α) : Prop := as.Pairwise fun a b => keyLe cmp (key a) (key b)

variable {cmp keyL keyR} [Std.TransCmp cmp] [Std.LawfulEqCmp cmp]

variable {a : α} {as : List α} {x : κ}

omit [Std.LawfulEqCmp cmp] in
/-- From a key on, every element has a key, and none is smaller. -/
theorem Ascending.after (h : Ascending cmp keyL (a :: as)) (hx : keyL a = some x) :
    ∀ a' ∈ a :: as, ∃ y, keyL a' = some y ∧ (cmp x y).isLE := by
  intro a' ha'
  rcases mem_cons.mp ha' with rfl | hlater
  · exact ⟨x, hx, Std.ReflCmp.isLE_rfl⟩
  · have hle := (pairwise_cons.mp h).1 a' hlater
    rw [hx] at hle
    cases hy : keyL a' with
    | none =>
      rw [hy] at hle
      exact hle.elim
    | some y =>
      rw [hy] at hle
      exact ⟨y, rfl, hle⟩

/-- After a key, the same key may follow, and then only greater ones. -/
theorem Ascending.run (h : Ascending cmp keyL (a :: as)) (hx : keyL a = some x) :
    (∀ a' ∈ a :: as.takeWhile (sameKey cmp keyL x), keyL a' = some x) ∧
      ∀ a' ∈ as.dropWhile (sameKey cmp keyL x), ∃ y, keyL a' = some y ∧ cmp x y = .lt := by
  have htail := (pairwise_cons.mp h).2
  have hafter : ∀ a' ∈ as, ∃ y, keyL a' = some y ∧ (cmp x y).isLE := fun a' ha' =>
    h.after hx a' (mem_cons_of_mem a ha')
  constructor
  · intro a' ha'
    rcases mem_cons.mp ha' with rfl | hrun
    · exact hx
    · have hsame := mem_takeWhile_imp hrun
      obtain ⟨y, hy, -⟩ := hafter a' ((takeWhile_sublist _).subset hrun)
      rw [sameKey, hy, Option.any_some, beq_iff_eq] at hsame
      rw [hy, Std.LawfulEqCmp.eq_of_compare hsame]
  · -- the first element after the run is greater, so all that follow are
    cases hrest : as.dropWhile (sameKey cmp keyL x) with
    | nil => exact fun _ ha' => by cases ha'
    | cons first rest =>
      have hmem : first ∈ as := (dropWhile_sublist _).subset (hrest ▸ mem_cons_self)
      obtain ⟨y, hy, hle⟩ := hafter first hmem
      have hstop : sameKey cmp keyL x first = false := by
        have hnot := head_dropWhile_not (sameKey cmp keyL x) (l := as) (by rw [hrest]; exact cons_ne_nil _ _)
        simpa only [hrest, head_cons] using hnot
      have hlt : cmp x y = .lt := by
        rcases Ordering.isLE_iff_eq_lt_or_eq_eq.mp hle with hlt | heq
        · exact hlt
        · rw [sameKey, hy, Option.any_some, Std.OrientedCmp.eq_comm.mp heq] at hstop
          cases hstop
      have hsorted : (first :: rest).Pairwise fun a b => keyLe cmp (keyL a) (keyL b) :=
        hrest ▸ htail.sublist (dropWhile_sublist _)
      intro a' ha'
      rcases mem_cons.mp ha' with rfl | hlater
      · exact ⟨y, hy, hlt⟩
      · have hle' := (pairwise_cons.mp hsorted).1 a' hlater
        obtain ⟨z, hz, -⟩ := hafter a' ((dropWhile_sublist _).subset (hrest ▸ ha'))
        rw [hy, hz] at hle'
        exact ⟨z, hz, Std.TransCmp.lt_of_lt_of_isLE hlt hle'⟩

omit [Std.TransCmp cmp] [Std.LawfulEqCmp cmp] in
theorem Ascending.tail (h : Ascending cmp keyL (a :: as)) : Ascending cmp keyL as := (pairwise_cons.mp h).2

/-- The same key on both sides. -/
def matching [DecidableEq κ] (keyL : α → Option κ) (keyR : β → Option κ) (a : α) (b : β) : Bool :=
  (keyL a).isSome && decide (keyL a = keyR b)

variable [DecidableEq κ]

variable {b : β} {y : κ} {bs bs' : List β}

theorem matching_iff : matching keyL keyR a b = true ↔ ∃ x, keyL a = some x ∧ keyR b = some x := by
  rw [matching, and_eq_true, decide_eq_true_iff, Option.isSome_iff_exists]
  constructor
  · rintro ⟨⟨x, hx⟩, heq⟩
    exact ⟨x, hx, heq ▸ hx⟩
  · rintro ⟨x, hx, hy⟩
    exact ⟨⟨x, hx⟩, hx.trans hy.symm⟩

theorem matching_swap (keyL : α → Option κ) (keyR : β → Option κ) :
    (fun b a => matching keyL keyR a b) = matching keyR keyL := by
  funext b a
  rw [Bool.eq_iff_iff, matching_iff, matching_iff]
  exact exists_congr fun _ => and_comm

theorem not_matching_of_ne (hx : keyL a = some x) (hy : keyR b = some y) (hne : x ≠ y) :
    matching keyL keyR a b = false := by
  rw [Bool.eq_false_iff, Ne, matching_iff, hx, hy]
  rintro ⟨z, hz, hz'⟩
  exact hne ((Option.some.inj hz).trans (Option.some.inj hz').symm)

omit [Std.LawfulEqCmp cmp] [DecidableEq κ] in
theorem ne_of_lt (h : cmp x y = .lt) : x ≠ y := by
  rintro rfl
  have hrefl : cmp x x = .eq := Std.ReflCmp.compare_self
  rw [hrefl] at h
  cases h

/-- An element that joins with none may be left out. -/
theorem nested_cons_of_not (h : ∀ b ∈ bs, matching keyL keyR a b = false) :
    nested (matching keyL keyR) f (a :: as) bs = nested (matching keyL keyR) f as bs := by
  rw [nested_cons, filter_eq_nil_iff.mpr, map_nil, List.nil_append]
  intro b hb
  rw [h b hb]
  exact false_ne_true

/-- Elements of the second list that join with none may be left out. -/
theorem nested_append_right (bs : List β) (h : ∀ a ∈ as, ∀ b ∈ bs, matching keyL keyR a b = false) :
    nested (matching keyL keyR) f as (bs ++ bs') = nested (matching keyL keyR) f as bs' := by
  unfold nested
  rw [flatMap_def, flatMap_def]
  congr 1
  apply map_congr_left
  intro a ha
  rw [filter_append, filter_eq_nil_iff.mpr, List.nil_append]
  intro b hb
  rw [h a ha b hb]
  exact false_ne_true

/-- Runs of one key are joined each with each. -/
theorem nested_run (has : ∀ a ∈ as, keyL a = some x) (hbs : ∀ b ∈ bs, keyR b = some x)
    (hbs' : ∀ b ∈ bs', ∃ y, keyR b = some y ∧ x ≠ y) :
    nested (matching keyL keyR) f as (bs ++ bs') = as.flatMap fun a => bs.map (f a) := by
  unfold nested
  rw [flatMap_def, flatMap_def]
  congr 1
  apply map_congr_left
  intro a ha
  have hrest : bs'.filter (matching keyL keyR a) = [] := by
    apply filter_eq_nil_iff.mpr
    intro b hb
    obtain ⟨y, hy, hne⟩ := hbs' b hb
    rw [not_matching_of_ne (has a ha) hy hne]
    exact false_ne_true
  have hrun : bs.filter (matching keyL keyR a) = bs :=
    filter_eq_self.mpr fun b hb => matching_iff.mpr ⟨x, has a ha, hbs b hb⟩
  rw [filter_append, hrun, hrest, append_nil]

/-- **A merge of ascending lists is the join by two loops**, in the same order. -/
theorem merge_eq_nested (as : List α) (bs : List β) (has : Ascending cmp keyL as)
    (hbs : Ascending cmp keyR bs) :
    merge cmp keyL keyR f as bs = nested (matching keyL keyR) f as bs := by
  induction as, bs using merge.induct cmp keyL keyR with
  | case1 a as b bs hnone ih =>
    rw [merge, hnone]
    dsimp only
    rw [ih has.tail hbs, nested_cons_of_not]
    intro b' _
    rw [matching, hnone]
    rfl
  | case2 a as b bs x hnone hx ih =>
    rw [merge, hx, hnone]
    dsimp only
    rw [ih has hbs.tail]
    refine (nested_append_right f [b] fun a' _ b' hb' => ?_).symm
    rw [mem_singleton.mp hb', Bool.eq_false_iff, Ne, matching_iff, hnone]
    rintro ⟨z, -, hz⟩
    cases hz
  | case3 a as b bs x y hy hx hlt ih =>
    rw [merge, hx, hy]
    dsimp only
    rw [hlt]
    dsimp only
    rw [ih has.tail hbs, nested_cons_of_not]
    intro b' hb'
    obtain ⟨z, hz, hle⟩ := hbs.after hy b' hb'
    exact not_matching_of_ne hx hz (ne_of_lt (Std.TransCmp.lt_of_lt_of_isLE hlt hle))
  | case4 a as b bs x y hy hx hgt ih =>
    rw [merge, hx, hy]
    dsimp only
    rw [hgt]
    dsimp only
    rw [ih has hbs.tail]
    refine (nested_append_right f [b] fun a' ha' b' hb' => ?_).symm
    obtain ⟨z, hz, hle⟩ := has.after hx a' ha'
    have hlt := Std.TransCmp.lt_of_lt_of_isLE (Std.OrientedCmp.gt_iff_lt.mp hgt) hle
    rw [mem_singleton.mp hb']
    exact not_matching_of_ne hz hy (ne_of_lt hlt).symm
  | case5 a as b bs x y hy hx heq ih =>
    rw [merge, hx, hy]
    dsimp only
    rw [heq]
    dsimp only
    obtain rfl := Std.LawfulEqCmp.eq_of_compare heq
    obtain ⟨hrunL, hrestL⟩ := has.run hx
    obtain ⟨hrunR, hrestR⟩ := hbs.run hy
    rw [ih]
    · conv_rhs => rw [← takeWhile_append_dropWhile (p := sameKey cmp keyL x) (l := as),
        ← takeWhile_append_dropWhile (p := sameKey cmp keyR x) (l := bs), ← cons_append,
        ← cons_append, nested_append]
      congr 1
      · exact (nested_run f hrunL hrunR fun b' hb' => (hrestR b' hb').imp fun _ h =>
          ⟨h.1, ne_of_lt h.2⟩).symm
      · refine (nested_append_right f _ fun a' ha' b' hb' => ?_).symm
        obtain ⟨z, hz, hlt⟩ := hrestL a' ha'
        exact not_matching_of_ne hz (hrunR b' hb') (ne_of_lt hlt).symm
    · exact has.tail.sublist (dropWhile_sublist _)
    · exact hbs.tail.sublist (dropWhile_sublist _)
  | case6 as bs hempty =>
    rw [merge]
    · cases as with
      | nil => rfl
      | cons a as => cases bs with
        | nil => simp [nested]
        | cons b bs => exact (hempty a as b bs rfl rfl).elim
    · exact hempty

end merge

end Joins
