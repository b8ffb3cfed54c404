import Mathlib.Tactic

/-! # Runs and windows

A run of a list is a longest stretch of symbols that a predicate allows.  Runs do not overlap
(`IsRun.stop_le`), and a scan from left to right meets them one after the other (`isRun_and_le_iff`).

Of all windows of one width, none has more points of a set than those that begin at such a point
(`ncard_window_le`). -/

namespace Windows

open List

variable {α : Type*}

/-- The symbols from `start` on and before `stop`. -/
def slice (text : List α) (start stop : ℕ) : List α := (text.drop start).take (stop - start)

variable {text : List α} {start stop : ℕ}

theorem length_slice (h : stop ≤ text.length) : (slice text start stop).length = stop - start := by
  rw [slice, length_take, length_drop]
  omega

theorem slice_append {mid : ℕ} (h : start ≤ mid) (h' : mid ≤ stop) :
    slice text start mid ++ slice text mid stop = slice text start stop := by
  have hdrop : text.drop mid = (text.drop start).drop (mid - start) := by
    rw [drop_drop, Nat.add_sub_cancel' h]
  have hlen : stop - start = (mid - start) + (stop - mid) := by omega
  rw [slice, slice, slice, hlen, take_add, hdrop]

theorem slice_succ {i : ℕ} {c : α} (h : text[i]? = some c) : slice text i (i + 1) = [c] := by
  obtain ⟨hlt, hc⟩ := List.getElem?_eq_some_iff.mp h
  rw [slice, Nat.add_sub_cancel_left, take_one_drop_eq_of_lt_length hlt]
  exact congrArg (fun c => [c]) hc

/-- The symbol at a place is there and allowed. -/
def At (p : α → Bool) (text : List α) (i : ℕ) : Prop := (text[i]?).any p = true

/-- A longest stretch of allowed symbols. -/
structure IsRun (p : α → Bool) (text : List α) (start stop : ℕ) : Prop where
  lt : start < stop
  inside : ∀ i, start ≤ i → i < stop → At p text i
  before : ∀ i, i + 1 = start → ¬At p text i
  after : ¬At p text stop

section runs

variable {p : α → Bool} {text : List α} {start stop start' stop' : ℕ}

theorem At.lt_length {i : ℕ} (h : At p text i) : i < text.length := by
  by_contra hle
  rw [At, getElem?_eq_none (Nat.not_lt.mp hle)] at h
  cases h

theorem IsRun.le_length (h : IsRun p text start stop) : stop ≤ text.length := by
  have hlast := (h.inside (stop - 1) (by have hlt := h.lt; omega) (by have hlt := h.lt; omega)).lt_length
  omega

/-- Runs do not overlap. -/
theorem IsRun.stop_le (h : IsRun p text start stop) (h' : IsRun p text start' stop') (hlt : start < start') :
    stop ≤ start' := by
  by_contra hover
  exact h'.before (start' - 1) (by omega) (h.inside (start' - 1) (by omega) (by omega))

theorem IsRun.stop_unique (h : IsRun p text start stop) (h' : IsRun p text start stop') : stop = stop' := by
  have hle : ∀ {s t}, IsRun p text start s → IsRun p text start t → s ≤ t := by
    intro s t hs ht
    by_contra hover
    exact ht.after (hs.inside t ht.lt.le (by omega))
  exact le_antisymm (hle h h') (hle h' h)

end runs

/-! ### Scanning -/

section scan

variable {p : α → Bool} {text rest : List α} {start stop i : ℕ}

theorem at_drop (k : ℕ) : At p (text.drop i) k ↔ At p text (i + k) := by rw [At, At, getElem?_drop]

theorem at_of_lt_takeWhile (h : i < (rest.takeWhile p).length) : At p rest i := by
  have hprefix : (rest.takeWhile p ++ rest.dropWhile p)[i]? = (rest.takeWhile p)[i]? := getElem?_append_left h
  rw [takeWhile_append_dropWhile] at hprefix
  have hall : p (rest.takeWhile p)[i] = true := all_eq_true.mp all_takeWhile _ (getElem_mem h)
  rw [At, hprefix, getElem?_eq_getElem h]
  exact hall

theorem not_at_length_takeWhile : ¬At p rest (rest.takeWhile p).length := by
  induction rest with
  | nil => exact fun h => by cases h
  | cons c rest ih =>
    cases hc : p c with
    | true =>
      rw [takeWhile_cons_of_pos hc, length_cons]
      exact ih
    | false =>
      rw [takeWhile_cons_of_neg (by simp [hc])]
      simp [At, hc]

/-- The run that begins where the scan is. -/
theorem isRun_takeWhile (hat : At p text i) (hbefore : ∀ j, j + 1 = i → ¬At p text j) :
    IsRun p text i (i + ((text.drop i).takeWhile p).length) where
  lt := by
    have hfirst : At p (text.drop i) 0 := at_drop 0 |>.mpr hat
    have hnot : ¬At p (text.drop i) ((text.drop i).takeWhile p).length := not_at_length_takeWhile
    have hpos : ((text.drop i).takeWhile p).length ≠ 0 := fun hzero => hnot (hzero ▸ hfirst)
    omega
  inside j hlow hhigh := by
    have hin : At p (text.drop i) (j - i) := at_of_lt_takeWhile (by omega)
    rwa [at_drop, Nat.add_sub_cancel' hlow] at hin
  before := hbefore
  after := fun hat => not_at_length_takeWhile ((at_drop _).mpr hat)

variable {s t : ℕ}

/-- The runs from a place on: the one that begins there, and those behind it. -/
theorem isRun_and_le_iff (h : IsRun p text i stop) :
    IsRun p text s t ∧ i ≤ s ↔ s = i ∧ t = stop ∨ IsRun p text s t ∧ stop ≤ s := by
  constructor
  · rintro ⟨hrun, hle⟩
    rcases hle.eq_or_lt with rfl | hlt
    · exact Or.inl ⟨rfl, hrun.stop_unique h⟩
    · exact Or.inr ⟨hrun, h.stop_le hrun hlt⟩
  · rintro (⟨rfl, rfl⟩ | ⟨hrun, hle⟩)
    · exact ⟨h, le_refl _⟩
    · exact ⟨hrun, h.lt.le.trans hle⟩

theorem isRun_and_le_succ_iff (h : ¬At p text i) : IsRun p text s t ∧ i ≤ s ↔ IsRun p text s t ∧ i + 1 ≤ s := by
  refine and_congr_right fun hrun => ⟨fun hle => ?_, fun hle => by omega⟩
  rcases hle.eq_or_lt with rfl | hlt
  · exact absurd (hrun.inside i (le_refl _) hrun.lt) h
  · exact hlt

end scan

/-! ### Windows -/

/-- **A window with the most points begins at one of them**: a window can be moved to the first point in it. -/
theorem ncard_window_le {S : Set ℕ} {width n : ℕ} (h : ∀ s ∈ S, (S ∩ Set.Ico s (s + width)).ncard ≤ n) (v : ℕ) :
    (S ∩ Set.Ico v (v + width)).ncard ≤ n := by
  rcases (S ∩ Set.Ico v (v + width)).eq_empty_or_nonempty with hempty | hne
  · simp [hempty]
  · obtain ⟨hS, hmem⟩ := Nat.sInf_mem hne
    have hsub : S ∩ Set.Ico v (v + width) ⊆ S ∩ Set.Ico (sInf (S ∩ Set.Ico v (v + width)))
        (sInf (S ∩ Set.Ico v (v + width)) + width) := by
      rintro x ⟨hxS, hx⟩
      have hlow := hmem.1
      have hhigh := hx.2
      exact ⟨hxS, Nat.sInf_le ⟨hxS, hx⟩, by omega⟩
    exact (Set.ncard_le_ncard hsub ((Set.finite_Ico _ _).inter_of_right S)).trans (h _ hS)

/-! ### The best of a list -/

/-- Keep the first candidate with the highest score so far. -/
def keepBest (score : α → ℕ) (best : α × ℕ) (x : α) : α × ℕ := if best.2 < score x then (x, score x) else best

theorem keepBest_spec (score : α → ℕ) (xs : List α) (best : α × ℕ) :
    best.2 ≤ (xs.foldl (keepBest score) best).2 ∧ (∀ x ∈ xs, score x ≤ (xs.foldl (keepBest score) best).2) ∧
      (xs.foldl (keepBest score) best = best ∨ ∃ x ∈ xs, xs.foldl (keepBest score) best = (x, score x)) := by
  induction xs generalizing best with
  | nil => exact ⟨le_refl _, by simp, Or.inl rfl⟩
  | cons x xs ih =>
    obtain ⟨hle, hall, hcase⟩ := ih (keepBest score best x)
    have hstep : best.2 ≤ (keepBest score best x).2 ∧ score x ≤ (keepBest score best x).2 := by
      rw [keepBest]
      split_ifs with hlt
      · omega
      · omega
    rw [foldl_cons]
    refine ⟨hstep.1.trans hle, ?_, ?_⟩
    · rw [forall_mem_cons]
      exact ⟨hstep.2.trans hle, hall⟩
    · rcases hcase with heq | ⟨y, hy, heq⟩
      · rw [heq, keepBest]
        split_ifs
        · simp
        · simp
      · exact Or.inr ⟨y, mem_cons_of_mem x hy, heq⟩

end Windows
