import CenDB.Lib.Table

/-! # The LRU-K replacer

The replacer keeps the last `k` access times of a frame and a list of frames that may be evicted.
`pickVictim` chooses among the listed frames that have a history, and drops its choice from both;
`pickVictim_some` and `pickVictim_none` say which frames it can choose. -/

namespace CenDB.Buffer

open List

/-- Index of a frame in the slab of the pool. -/
abbrev FrameId := UInt32

/-- `Vec::swap_remove`: the last element takes the place of the removed one. -/
def swapRemove {α : Type*} (l : List α) (pos : ℕ) : List α :=
  match l.getLast? with
  | none => l
  | some last => (l.set pos last).dropLast

variable {α : Type*} {l : List α} {pos : ℕ} {a : α}

theorem mem_of_mem_swapRemove (h : a ∈ swapRemove l pos) : a ∈ l := by
  rcases eq_nil_or_concat l with rfl | ⟨init, last, rfl⟩
  · exact h
  · unfold swapRemove at h
    rw [concat_eq_append, getLast?_concat] at h
    have hset := mem_of_mem_dropLast h
    rw [concat_eq_append]
    cases mem_or_eq_of_mem_set hset with
    | inl hmem => exact hmem
    | inr heq => exact mem_append_right _ (mem_singleton.mpr heq)

/-- Only the element at the position is removed. -/
theorem mem_swapRemove {b : α} (hpos : l[pos]? = some b) (hne : a ≠ b) (h : a ∈ l) : a ∈ swapRemove l pos := by
  rcases eq_nil_or_concat l with rfl | ⟨init, last, rfl⟩
  · exact h
  · unfold swapRemove
    rw [concat_eq_append] at h hpos ⊢
    rw [getLast?_concat]
    dsimp only
    by_cases hlast : pos < init.length
    · rw [set_append_left _ _ hlast, dropLast_concat]
      rw [getElem?_append_left hlast] at hpos
      have hkeep : a ∈ init → a ∈ init.set pos last := by
        intro ha
        obtain ⟨i, hi, rfl⟩ := mem_iff_getElem.mp ha
        have hother : pos ≠ i := by
          rintro rfl
          rw [getElem?_eq_getElem hi, Option.some.injEq] at hpos
          exact hne hpos
        refine mem_iff_getElem.mpr ⟨i, by rwa [length_set], ?_⟩
        exact getElem_set_ne hother _
      cases mem_append.mp h with
      | inl ha => exact hkeep ha
      | inr ha =>
        rw [mem_singleton.mp ha]
        exact mem_set hlast last
    · have hb : b ∈ [last] := by
        rw [getElem?_append_right (not_lt.mp hlast)] at hpos
        exact mem_of_getElem? hpos
      rw [set_append_right _ _ (not_lt.mp hlast)]
      cases mem_append.mp h with
      | inl ha =>
        obtain ⟨i, hi⟩ : ∃ i, pos - init.length = i := ⟨_, rfl⟩
        rw [hi]
        cases i with
        | zero =>
          rw [set_cons_zero, dropLast_concat]
          exact ha
        | succ i =>
          rw [set_cons_succ, set_nil, dropLast_concat]
          exact ha
      | inr ha =>
        rw [mem_singleton.mp ha, mem_singleton.mp hb] at hne
        exact absurd rfl hne

/-- Access times per frame, newest first, and the frames marked for eviction. -/
structure LruK where
  k : ℕ
  clock : UInt64
  history : Table FrameId (List UInt64)
  evictable : List FrameId

namespace LruK

/-- `LruK::new`: the policy with `k = 2`. -/
def new : LruK := ⟨2, 0, ∅, []⟩

/-- Record an access at the current logical time. -/
def recordAccess (r : LruK) (frame : FrameId) : LruK :=
  let clock := r.clock + 1
  let hist := clock :: (r.history.lookup frame).getD []
  { r with
    clock := clock
    history := AList.insert frame (if r.k < hist.length then hist.dropLast else hist) r.history }

def markEvictable (r : LruK) (frame : FrameId) : LruK :=
  { r with evictable := r.evictable ++ [frame] }

/-- Remove a frame from the policy. -/
def forget (r : LruK) (frame : FrameId) : LruK :=
  { r with
    history := AList.erase frame r.history
    evictable := r.evictable.filter fun f => f ≠ frame }

/-- The best frame so far and its oldest recorded access. -/
abbrev Best := Option (FrameId × UInt64)

def better (best : Best) (frame : FrameId) (oldest : UInt64) : Best :=
  match best with
  | none => some (frame, oldest)
  | some b => if oldest < b.2 then some (frame, oldest) else best

/-- One round of the search: the best frame with fewer than `k` accesses, and the best other one.
A history has at least one access. -/
def consider (r : LruK) (best : Best × Best) (frame : FrameId) : Best × Best :=
  match r.history.lookup frame with
  | none => best
  | some hist =>
    if hist.length < r.k then (better best.1 frame (hist.getLastD 0), best.2)
    else (best.1, better best.2 frame (hist.getLastD 0))

def bestFrames (r : LruK) : Best × Best := r.evictable.foldl r.consider (none, none)

/-- Pick a victim: a frame with fewer than `k` accesses if there is one. -/
def pickVictim (r : LruK) : Option FrameId × LruK :=
  match r.bestFrames.1.or r.bestFrames.2 with
  | none => (none, r)
  | some (frame, _) =>
    (some frame, { r with
      evictable := swapRemove r.evictable (r.evictable.idxOf frame)
      history := AList.erase frame r.history })

/-! ### Candidates -/

/-- The frame is marked and has a history: `pickVictim` can choose it. -/
def Known (r : LruK) (frame : FrameId) : Prop := frame ∈ r.evictable ∧ (r.history.lookup frame).isSome

variable {r r' : LruK} {f f' : FrameId}

theorem mem_better {best : Best} {oldest : UInt64} {x : FrameId × UInt64}
    (h : better best f oldest = some x) : x.1 = f ∨ best = some x := by
  cases best with
  | none =>
    cases h
    exact .inl rfl
  | some y =>
    unfold better at h
    dsimp only at h
    by_cases hlt : oldest < y.2
    · rw [if_pos hlt] at h
      cases h
      exact .inl rfl
    · rw [if_neg hlt] at h
      exact .inr h

theorem isSome_better (best : Best) (f : FrameId) (oldest : UInt64) : (better best f oldest).isSome := by
  cases best with
  | none => rfl
  | some y =>
    unfold better
    dsimp only
    by_cases hlt : oldest < y.2
    · simp [hlt]
    · simp [hlt]

/-- What the search has found after the frames `l`. -/
structure Searched (r : LruK) (l : List FrameId) (best : Best × Best) : Prop where
  first : ∀ x, best.1 = some x → x.1 ∈ l ∧ (r.history.lookup x.1).isSome
  second : ∀ x, best.2 = some x → x.1 ∈ l ∧ (r.history.lookup x.1).isSome
  found : ∀ f ∈ l, (r.history.lookup f).isSome → best.1.isSome ∨ best.2.isSome

theorem Searched.consider {l : List FrameId} {best : Best × Best} (h : Searched r l best)
    (f : FrameId) : Searched r (l ++ [f]) (r.consider best f) := by
  have hleft {x : FrameId × UInt64} (hx : x.1 ∈ l ∧ (r.history.lookup x.1).isSome) :
      x.1 ∈ l ++ [f] ∧ (r.history.lookup x.1).isSome := ⟨mem_append_left _ hx.1, hx.2⟩
  unfold LruK.consider
  cases hhist : r.history.lookup f with
  | none =>
    refine ⟨fun x hx => hleft (h.first x hx), fun x hx => hleft (h.second x hx), ?_⟩
    intro f' hf' hsome
    cases mem_append.mp hf' with
    | inl hmem => exact h.found f' hmem hsome
    | inr hmem =>
      rw [mem_singleton.mp hmem, hhist] at hsome
      cases hsome
  | some hist =>
    have hnew {best : Best} {oldest : UInt64} (hbest : ∀ x, best = some x → x.1 ∈ l ∧ (r.history.lookup x.1).isSome)
        (x : FrameId × UInt64) (hx : better best f oldest = some x) :
        x.1 ∈ l ++ [f] ∧ (r.history.lookup x.1).isSome := by
      cases mem_better hx with
      | inl heq =>
        rw [heq, hhist]
        exact ⟨mem_append_right _ mem_cons_self, rfl⟩
      | inr hold => exact hleft (hbest x hold)
    dsimp only
    by_cases hfew : hist.length < r.k
    · rw [if_pos hfew]
      exact ⟨hnew h.first, fun x hx => hleft (h.second x hx), fun _ _ _ => .inl (isSome_better _ _ _)⟩
    · rw [if_neg hfew]
      exact ⟨fun x hx => hleft (h.first x hx), hnew h.second, fun _ _ _ => .inr (isSome_better _ _ _)⟩

theorem searched_bestFrames (r : LruK) : Searched r r.evictable r.bestFrames := by
  unfold bestFrames
  induction r.evictable using List.reverseRecOn with
  | nil =>
    refine ⟨?_, ?_, ?_⟩
    · simp
    · simp
    · simp
  | append_singleton l f ih =>
    rw [foldl_append, foldl_cons, foldl_nil]
    exact ih.consider f

/-- The victim was a candidate, and the replacer drops it and no other frame. -/
theorem pickVictim_some (h : r.pickVictim = (some f, r')) : r.Known f ∧ r'.history = AList.erase f r.history ∧
      ∀ f', (f' ∈ r'.evictable → f' ∈ r.evictable) ∧ (f' ≠ f → f' ∈ r.evictable → f' ∈ r'.evictable) := by
  have hsearched := searched_bestFrames r
  unfold pickVictim at h
  cases hbest : r.bestFrames.1.or r.bestFrames.2 with
  | none =>
    rw [hbest] at h
    cases (Prod.mk.inj h).1
  | some x =>
    rw [hbest, Prod.mk.injEq] at h
    obtain ⟨hframe, hrest⟩ := h
    cases hframe
    have hx : x.1 ∈ r.evictable ∧ (r.history.lookup x.1).isSome := by
      cases Option.or_eq_some_iff.mp hbest with
      | inl hfirst => exact hsearched.first x hfirst
      | inr hsecond => exact hsearched.second x hsecond.2
    rw [← hrest]
    refine ⟨hx, rfl, fun f' => ⟨mem_of_mem_swapRemove, fun hne hmem => ?_⟩⟩
    exact mem_swapRemove (getElem?_idxOf hx.1) hne hmem

/-- Without a victim there was no candidate. -/
theorem pickVictim_none (h : r.pickVictim = (none, r')) : r' = r ∧ ∀ f, ¬ r.Known f := by
  unfold pickVictim at h
  cases hbest : r.bestFrames.1.or r.bestFrames.2 with
  | some x =>
    rw [hbest] at h
    cases (Prod.mk.inj h).1
  | none =>
    rw [hbest, Prod.mk.injEq] at h
    refine ⟨h.2.symm, ?_⟩
    rintro f ⟨hmem, hhist⟩
    obtain ⟨hfirst, hsecond⟩ := Option.or_eq_none_iff.mp hbest
    cases (searched_bestFrames r).found f hmem hhist with
    | inl hsome =>
      rw [hfirst] at hsome
      cases hsome
    | inr hsome =>
      rw [hsecond] at hsome
      cases hsome

/-! ### The other operations -/

theorem lookup_recordAccess :
    ((r.recordAccess f).history.lookup f').isSome ↔ f' = f ∨ (r.history.lookup f').isSome := by
  unfold recordAccess
  rw [Table.lookup_insert_if]
  by_cases h : f' = f <;> simp [h]

theorem mem_markEvictable : f' ∈ (r.markEvictable f).evictable ↔ f' ∈ r.evictable ∨ f' = f := by
  simp [markEvictable]

theorem Known.recordAccess (h : r.Known f') (f : FrameId) : (r.recordAccess f).Known f' :=
  ⟨h.1, lookup_recordAccess.mpr (.inr h.2)⟩

theorem Known.markEvictable (h : r.Known f') (f : FrameId) : (r.markEvictable f).Known f' :=
  ⟨mem_markEvictable.mpr (.inl h.1), h.2⟩

theorem Known.forget (h : r.Known f') (hne : f' ≠ f) : (r.forget f).Known f' := by
  refine ⟨mem_filter.mpr ⟨h.1, decide_eq_true hne⟩, ?_⟩
  unfold LruK.forget
  rw [AList.lookup_erase_ne hne]
  exact h.2

end LruK

end CenDB.Buffer
