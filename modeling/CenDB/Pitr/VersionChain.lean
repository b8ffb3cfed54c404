import CenDB.Lib.SortedMap

/-! # Version chains

A chain holds the committed versions of a key by the time they begin.  A commit closes the version
before it, and `gc` drops the versions closed by a given time.

`asOf` is what a chain is for: the commit with the greatest timestamp up to a given one.  A version
is only ever closed at the time of a later commit (`Closed`), so the version that a read needs is
still open at that read, and no collection up to then drops it (`readAt_exact`). -/

namespace CenDB.Pitr

open List Option

scoped instance linearOrderUInt64 : LinearOrder UInt64 where
  le_refl := UInt64.le_refl
  le_trans _ _ _ := UInt64.le_trans
  lt_iff_le_not_ge _ _ := Std.lt_iff_le_and_not_ge
  le_antisymm _ _ := UInt64.le_antisymm
  le_total := UInt64.le_total
  toDecidableLE := inferInstance
  toDecidableEq := inferInstance
  toDecidableLT := inferInstance
  min_def _ _ := rfl
  max_def _ _ := rfl

/-- `u64::MAX`, the end of a version that has not been superseded. -/
def maxTs : UInt64 := 0xffffffffffffffff

structure VersionedValue (V : Type) where
  beginTs : UInt64
  endTs : UInt64
  value : V

structure VersionChain (V : Type) where
  versions : SortedMap UInt64 (VersionedValue V)

namespace VersionChain

variable {V : Type}

def new : VersionChain V := ⟨.empty⟩

def commit (c : VersionChain V) (commitTs : UInt64) (value : V) : VersionChain V :=
  let closed := match (c.versions.below commitTs).getLast? with
    | some (prevTs, _) => c.versions.update prevTs fun prev => { prev with endTs := commitTs }
    | none => c.versions
  ⟨closed.insert commitTs ⟨commitTs, maxTs, value⟩⟩

def readAt (c : VersionChain V) (readTs : UInt64) : Option V :=
  ((c.versions.upTo readTs).reverse.find? fun e => e.2.beginTs ≤ readTs && readTs < e.2.endTs).map
    fun e => e.2.value

/-- The number of versions removed, and the chain without them. -/
def gc (c : VersionChain V) (minTs : UInt64) : ℕ × VersionChain V :=
  let toRemove := (c.versions.entries.filter fun e => e.2.endTs ≤ minTs).map Prod.fst
  (toRemove.length, ⟨toRemove.foldl SortedMap.erase c.versions⟩)

/-! ### Runs -/

inductive Op (V : Type) where
  | commit (ts : UInt64) (value : V)
  | gc (minTs : UInt64)

def apply (c : VersionChain V) : Op V → VersionChain V
  | .commit ts value => c.commit ts value
  | .gc minTs => (c.gc minTs).2

/-- The commits of a run, in order. -/
def commits (ops : List (Op V)) : List (UInt64 × V) :=
  ops.filterMap fun
    | .commit ts value => some (ts, value)
    | .gc _ => none

/-- The value of the last commit at the greatest timestamp up to `ts`. -/
def asOf (cs : List (UInt64 × V)) (ts : UInt64) : Option V :=
  ((cs.map Prod.fst).filter fun b => b ≤ ts).max?.bind fun b => Table.lastOf cs b

/-! ### What a commit and a collection leave -/

/-- A commit writes its own version and may close an earlier one. -/
theorem get?_commit (c : VersionChain V) (ts b : UInt64) (value : V) : (c.commit ts value).versions.get? b =
      if b = ts then some ⟨ts, maxTs, value⟩ else
        (c.versions.get? b).map fun v =>
          if (c.versions.below ts).getLast?.map Prod.fst = some b then { v with endTs := ts } else v := by
  unfold commit
  rw [SortedMap.get?_insert]
  by_cases heq : b = ts
  · simp [heq]
  · rw [if_neg heq, if_neg heq]
    cases hprev : (c.versions.below ts).getLast? with
    | none => simp
    | some e =>
      dsimp only
      rw [SortedMap.get?_update]
      simp [eq_comm]

theorem closed_lt {c : VersionChain V} {ts b : UInt64}
    (h : (c.versions.below ts).getLast?.map Prod.fst = some b) : b < ts := by
  obtain ⟨e, hlast, rfl⟩ := map_eq_some_iff.mp h
  have hmem := mem_of_getLast? hlast
  exact of_decide_eq_true (mem_filter.mp hmem).2

theorem get?_gc (c : VersionChain V) (minTs b : UInt64) :
    (c.gc minTs).2.versions.get? b = (c.versions.get? b).filter fun v => minTs < v.endTs := by
  unfold gc
  dsimp only
  rw [SortedMap.get?_foldl_erase]
  cases hget : c.versions.get? b with
  | none => simp
  | some v =>
    have hmem : b ∈ (c.versions.entries.filter fun e => e.2.endTs ≤ minTs).map Prod.fst ↔
        v.endTs ≤ minTs := by
      simp only [List.mem_map, mem_filter, decide_eq_true_eq]
      constructor
      · rintro ⟨e, ⟨hentry, hend⟩, rfl⟩
        rw [SortedMap.mem_entries.mp hentry, Option.some.injEq] at hget
        exact hget ▸ hend
      · intro hend
        exact ⟨(b, v), ⟨SortedMap.mem_entries.mpr hget, hend⟩, rfl⟩
    by_cases hend : v.endTs ≤ minTs
    · rw [if_pos (hmem.mpr hend), filter_some, if_neg (by simpa using hend)]
    · rw [if_neg (fun h => hend (hmem.mp h)), filter_some, if_pos (by simpa using hend)]

/-! ### The latest commit -/

theorem asOf_eq {cs : List (UInt64 × V)} {ts b : UInt64} (hmem : b ∈ cs.map Prod.fst) (hle : b ≤ ts)
    (hmax : ∀ b' ∈ cs.map Prod.fst, b' ≤ ts → b' ≤ b) : asOf cs ts = Table.lastOf cs b := by
  have hgreatest : ((cs.map Prod.fst).filter fun b => b ≤ ts).max? = some b := by
    refine max?_eq_some_iff.mpr ⟨mem_filter.mpr ⟨hmem, decide_eq_true hle⟩, ?_⟩
    intro b' hb'
    obtain ⟨hmem', hle'⟩ := mem_filter.mp hb'
    exact hmax b' hmem' (of_decide_eq_true hle')
  rw [asOf, hgreatest, bind_some]

theorem asOf_eq_none {cs : List (UInt64 × V)} {ts : UInt64}
    (hno : ∀ b ∈ cs.map Prod.fst, ¬ b ≤ ts) : asOf cs ts = none := by
  have hempty : ((cs.map Prod.fst).filter fun b => b ≤ ts) = [] :=
    filter_eq_nil_iff.mpr fun b hb => by simpa using hno b hb
  rw [asOf, hempty]
  rfl

/-- Either no commit is made up to a time, or one of them is the greatest. -/
theorem greatest_or_none (cs : List (UInt64 × V)) (ts : UInt64) : (∀ b ∈ cs.map Prod.fst, ¬ b ≤ ts) ∨
      ∃ b ∈ cs.map Prod.fst, b ≤ ts ∧ ∀ b' ∈ cs.map Prod.fst, b' ≤ ts → b' ≤ b := by
  cases hmax : ((cs.map Prod.fst).filter fun b => b ≤ ts).max? with
  | none =>
    left
    intro b hb hle
    have hempty := max?_eq_none_iff.mp hmax
    exact filter_eq_nil_iff.mp hempty b hb (decide_eq_true hle)
  | some b =>
    right
    obtain ⟨hmem, hgreatest⟩ := max?_eq_some_iff.mp hmax
    obtain ⟨hin, hle⟩ := mem_filter.mp hmem
    exact ⟨b, hin, of_decide_eq_true hle, fun b' hin' hle' =>
      hgreatest b' (mem_filter.mpr ⟨hin', decide_eq_true hle'⟩)⟩

/-! ### The invariant -/

/-- What holds of a chain after the commits `cs`, for a time that no collection has passed: a
version is closed at the time of a later commit only, and the one that a read needs is there. -/
structure Inv (ts : UInt64) (c : VersionChain V) (cs : List (UInt64 × V)) : Prop where
  begins : ∀ b v, c.versions.get? b = some v → v.beginTs = b
  committed : ∀ b v, c.versions.get? b = some v → b ∈ cs.map Prod.fst
  closed : ∀ b v, c.versions.get? b = some v → v.endTs = maxTs ∨ (v.endTs ∈ cs.map Prod.fst ∧ b < v.endTs)
  kept : ∀ b ∈ cs.map Prod.fst, b ≤ ts → (∀ b' ∈ cs.map Prod.fst, b' ≤ ts → b' ≤ b) →
    ∃ v, c.versions.get? b = some v ∧ Table.lastOf cs b = some v.value

variable {ts : UInt64} {c : VersionChain V} {cs : List (UInt64 × V)}

theorem inv_new : Inv ts (new : VersionChain V) [] := ⟨nofun, nofun, nofun, nofun⟩

/-- The version that a read at `ts` needs is open then. -/
theorem Inv.open_at (h : Inv ts c cs) (hts : ts < maxTs) {b : UInt64} {v : VersionedValue V}
    (hget : c.versions.get? b = some v)
    (hmax : ∀ b' ∈ cs.map Prod.fst, b' ≤ ts → b' ≤ b) : ts < v.endTs := by
  rcases h.closed b v hget with hopen | ⟨hlater, hlt⟩
  · exact hopen ▸ hts
  · by_contra hle
    exact absurd (hmax v.endTs hlater (not_lt.mp hle)) (not_le.mpr hlt)

theorem Inv.commit (h : Inv ts c cs) (t : UInt64) (value : V) :
    Inv ts (c.commit t value) (cs ++ [(t, value)]) := by
  have hold {b : UInt64} (hne : b ≠ t) {v : VersionedValue V}
      (hget : (c.commit t value).versions.get? b = some v) :
      ∃ w, c.versions.get? b = some w ∧ v.beginTs = w.beginTs ∧ v.value = w.value ∧
        (v.endTs = w.endTs ∨ (v.endTs = t ∧ b < t)) := by
    rw [get?_commit, if_neg hne] at hget
    obtain ⟨w, hw, rfl⟩ := map_eq_some_iff.mp hget
    refine ⟨w, hw, ?_⟩
    split
    · rename_i hclosed
      exact ⟨rfl, rfl, Or.inr ⟨rfl, closed_lt hclosed⟩⟩
    · simp
  have hnew {v : VersionedValue V} (hget : (c.commit t value).versions.get? t = some v) :
      v = ⟨t, maxTs, value⟩ := by
    rw [get?_commit, if_pos rfl, Option.some.injEq] at hget
    exact hget.symm
  have hkeys {b : UInt64} : b ∈ (cs ++ [(t, value)]).map Prod.fst ↔ b ∈ cs.map Prod.fst ∨ b = t := by simp
  refine ⟨?_, ?_, ?_, ?_⟩
  · intro b v hget
    by_cases heq : b = t
    · subst heq
      rw [hnew hget]
    · obtain ⟨w, hw, hbegin, -⟩ := hold heq hget
      exact hbegin.trans (h.begins b w hw)
  · intro b v hget
    rw [hkeys]
    by_cases heq : b = t
    · exact Or.inr heq
    · obtain ⟨w, hw, -⟩ := hold heq hget
      exact Or.inl (h.committed b w hw)
  · intro b v hget
    by_cases heq : b = t
    · subst heq
      exact Or.inl (by rw [hnew hget])
    · obtain ⟨w, hw, -, -, hend⟩ := hold heq hget
      rw [hkeys]
      rcases hend with hsame | ⟨hend, hlt⟩
      · rw [hsame]
        exact (h.closed b w hw).imp_right fun hlater => ⟨Or.inl hlater.1, hlater.2⟩
      · exact Or.inr ⟨Or.inr hend, hend ▸ hlt⟩
  · intro b hb hle hmax
    by_cases heq : b = t
    · subst heq
      refine ⟨⟨b, maxTs, value⟩, by rw [get?_commit, if_pos rfl], ?_⟩
      rw [Table.lastOf_append]
      simp [Table.lastOf]
    · have hin : b ∈ cs.map Prod.fst := (hkeys.mp hb).resolve_right heq
      obtain ⟨v, hv, hlast⟩ := h.kept b hin hle fun b' hb' => hmax b' (hkeys.mpr (Or.inl hb'))
      refine ⟨_, by rw [get?_commit, if_neg heq, hv]; rfl, ?_⟩
      rw [Table.lastOf_append]
      have hother : Table.lastOf [(t, value)] b = none := by simp [Table.lastOf, Ne.symm heq]
      rw [hother, none_or, hlast]
      split <;> rfl

theorem Inv.gc (h : Inv ts c cs) (hts : ts < maxTs) {minTs : UInt64} (hmin : minTs ≤ ts) :
    Inv ts (c.gc minTs).2 cs := by
  have hold {b : UInt64} {v : VersionedValue V} (hget : (c.gc minTs).2.versions.get? b = some v) :
      c.versions.get? b = some v := by
    rw [get?_gc] at hget
    exact (filter_eq_some_iff.mp hget).1
  refine ⟨fun b v hget => h.begins b v (hold hget), fun b v hget => h.committed b v (hold hget),
    fun b v hget => h.closed b v (hold hget), ?_⟩
  intro b hb hle hmax
  obtain ⟨v, hv, hlast⟩ := h.kept b hb hle hmax
  refine ⟨v, ?_, hlast⟩
  rw [get?_gc, hv, filter_some, if_pos]
  exact decide_eq_true (hmin.trans_lt (h.open_at hts hv hmax))

theorem Inv.readAt (h : Inv ts c cs) (hts : ts < maxTs) : c.readAt ts = asOf cs ts := by
  rcases greatest_or_none cs ts with hnone | ⟨b, hb, hle, hmax⟩
  · have hempty : c.versions.upTo ts = [] := by
      refine filter_eq_nil_iff.mpr fun e he hbound => ?_
      exact hnone e.1 (h.committed e.1 e.2 (SortedMap.mem_entries.mp he)) (of_decide_eq_true hbound)
    rw [asOf_eq_none hnone, VersionChain.readAt, hempty]
    rfl
  · obtain ⟨v, hv, hlast⟩ := h.kept b hb hle hmax
    have hfirst := SortedMap.getLast?_upTo hv hle fun b' v' hv' hle' => hmax b' (h.committed b' v' hv') hle'
    obtain ⟨front, hsplit⟩ := getLast?_eq_some_iff.mp hfirst
    have hopen : (v.beginTs ≤ ts && ts < v.endTs) = true := by
      rw [h.begins b v hv]
      simp [hle, h.open_at hts hv hmax]
    rw [asOf_eq hb hle hmax, hlast, VersionChain.readAt, hsplit, reverse_append,
      reverse_singleton, singleton_append, find?_cons, hopen]
    rfl

theorem inv_run (hts : ts < maxTs) (ops : List (Op V)) (hgc : ∀ minTs, .gc minTs ∈ ops → minTs ≤ ts) :
    Inv ts (ops.foldl apply new) (commits ops) := by
  induction ops using List.reverseRecOn with
  | nil => exact inv_new
  | append_singleton ops op ih =>
    have hrest := ih fun minTs hmem => hgc minTs (mem_append_left [op] hmem)
    rw [foldl_append]
    cases op with
    | commit t value =>
      rw [commits, filterMap_append]
      exact hrest.commit t value
    | gc minTs =>
      rw [commits, filterMap_append]
      simp only [filterMap_cons, filterMap_nil, append_nil]
      exact hrest.gc hts (hgc minTs (mem_append_right ops mem_cons_self))

/-- **Reads are exact**: a read at a time that no collection has passed sees the latest commit up
to it, in whichever order the commits were made. -/
theorem readAt_exact (ops : List (Op V)) (ts : UInt64) (hts : ts < maxTs)
    (hgc : ∀ minTs, .gc minTs ∈ ops → minTs ≤ ts) :
    (ops.foldl apply new).readAt ts = asOf (commits ops) ts :=
  (inv_run hts ops hgc).readAt hts

theorem readAt_exact_small :
    ([.commit 30 'c', .commit 10 'a', .commit 20 'b', .gc 15, .commit 12 'd'].foldl apply
      (new : VersionChain Char)).readAt 15 = some 'd' := by
  rw [readAt_exact _ 15 (by decide)]
  · decide
  · intro minTs hmem
    simp only [mem_cons, Op.gc.injEq, reduceCtorEq, not_mem_nil, or_false, false_or] at hmem
    exact hmem ▸ UInt64.le_refl 15

end VersionChain

end CenDB.Pitr
