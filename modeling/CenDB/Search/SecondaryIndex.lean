import CenDB.Lib.Chains
import CenDB.Lib.Transition

/-! # Secondary index

A value has a chain of entries, one for each version of a row that had the value.  An entry is live
until it is superseded; a lookup filters the chain by the begin and the end of its entries.

`supersede` finds an entry by its value and its begin, and ends every entry that it finds.  The run
keeps beside the index the versions that rows really have (`Version`): lookups stay exact if and only
if each call to `supersede` finds one entry, or others that end just then (`lookups_exact_iff`). -/

namespace CenDB.Search

open List Table

structure RowLocator where
  segment : UInt64
  block : UInt32
  slot : UInt32
  deriving DecidableEq

structure SecondaryIndexEntry where
  value : Int64
  rowLocator : RowLocator
  beginTs : UInt64
  endTs : UInt64
  txnId : UInt64

namespace SecondaryIndexEntry

/-- `u64::MAX`, the end of a live entry. -/
def liveEnd : UInt64 := 0xffffffffffffffff

def visible (e : SecondaryIndexEntry) (readTs : UInt64) : Bool := e.beginTs ≤ readTs && e.endTs > readTs

end SecondaryIndexEntry

open SecondaryIndexEntry (liveEnd)

structure SecondaryIndex where
  columnName : String
  entries : Table Int64 (List SecondaryIndexEntry)

namespace SecondaryIndex

def new (columnName : String) : SecondaryIndex := ⟨columnName, ∅⟩

def insert (ix : SecondaryIndex) (value : Int64) (locator : RowLocator) (beginTs txnId : UInt64) :
    SecondaryIndex :=
  { ix with entries := Table.push ix.entries value ⟨value, locator, beginTs, liveEnd, txnId⟩ }

def lookup (ix : SecondaryIndex) (value : Int64) (readTs : UInt64) : List RowLocator :=
  match ix.entries.lookup value with
  | none => []
  | some chain => (chain.filter fun e => e.visible readTs).map fun e => e.rowLocator

/-- The rows with a value from `lo` to `hi`. -/
def lookupRange (ix : SecondaryIndex) (lo hi : Int64) (readTs : UInt64) : List RowLocator :=
  (Table.items ix.entries).flatMap fun item =>
    if item.1 < lo || item.1 > hi then []
    else (item.2.filter fun e => e.visible readTs).map fun e => e.rowLocator

/-- End the entries with a begin. -/
def endAt (oldBeginTs newEndTs : UInt64) (chain : List SecondaryIndexEntry) : List SecondaryIndexEntry :=
  chain.map fun e => if e.beginTs = oldBeginTs then { e with endTs := newEndTs } else e

def supersede (ix : SecondaryIndex) (value : Int64) (oldBeginTs newEndTs : UInt64) : SecondaryIndex :=
  { ix with entries := Table.update value (endAt oldBeginTs newEndTs) ix.entries }

/-- Entries that a read from `minTs` on may see. -/
def retained (minTs : UInt64) (chain : List SecondaryIndexEntry) : List SecondaryIndexEntry :=
  chain.filter fun e => e.endTs ≥ minTs || e.endTs = liveEnd

/-- The number of entries removed, and the index without them. -/
def gc (ix : SecondaryIndex) (minTs : UInt64) : ℕ × SecondaryIndex :=
  let chains := Table.mapWithKey (fun _ => retained minTs) ix.entries
  (((Table.values ix.entries).map fun chain => chain.length - (retained minTs chain).length).sum,
    { ix with entries := Table.retain (fun _ chain => !chain.isEmpty) chains })

/-! ### Chains -/

variable (ix : SecondaryIndex)

/-- The entries of a value. -/
def chain (value : Int64) : List SecondaryIndexEntry := Table.chain ix.entries value

theorem chain_insert (value v : Int64) (locator : RowLocator) (beginTs txnId : UInt64) :
    (ix.insert value locator beginTs txnId).chain v =
      if v = value then ix.chain value ++ [⟨value, locator, beginTs, liveEnd, txnId⟩]
      else ix.chain v :=
  chain_push _ _ _ _

theorem chain_supersede (value v : Int64) (oldBeginTs newEndTs : UInt64) :
    (ix.supersede value oldBeginTs newEndTs).chain v =
      if v = value then endAt oldBeginTs newEndTs (ix.chain v) else ix.chain v :=
  chain_update rfl _ _ _

theorem chain_gc (minTs : UInt64) (v : Int64) : (ix.gc minTs).2.chain v = retained minTs (ix.chain v) := by
  unfold chain gc
  dsimp only
  rw [chain_retain_nonempty]
  exact chain_mapWithKey rfl _ _

theorem lookup_eq (value : Int64) (readTs : UInt64) : ix.lookup value readTs =
      ((ix.chain value).filter fun e => e.visible readTs).map fun e => e.rowLocator := by
  unfold lookup chain Table.chain
  cases ix.entries.lookup value with
  | none | some chain => rfl

/-! ### Counts

Two lookups are compared by counts: `seen` counts the visible entries of a value that pass a test on
their begin and their locator. -/

def seen (value : Int64) (readTs : UInt64) (p : UInt64 → RowLocator → Bool) : ℕ :=
  (ix.chain value).countP fun e => p e.beginTs e.rowLocator && e.visible readTs

theorem count_lookup (value : Int64) (readTs : UInt64) (l : RowLocator) :
    (ix.lookup value readTs).count l = ix.seen value readTs fun _ locator => locator = l := by
  rw [lookup_eq, List.count, countP_map, countP_filter]
  apply countP_congr
  intro e _
  simp

theorem length_lookup (value : Int64) (readTs : UInt64) :
    (ix.lookup value readTs).length = ix.seen value readTs fun _ _ => true := by
  rw [lookup_eq, length_map, ← countP_eq_length_filter]
  rfl

theorem count_lookupRange (lo hi : Int64) (readTs : UInt64) (l : RowLocator) :
    (ix.lookupRange lo hi readTs).count l = ((Table.items ix.entries).map fun e => e.2.countP fun en =>
        (decide (lo ≤ e.1) && decide (e.1 ≤ hi)) && (decide (en.rowLocator = l) && en.visible readTs)).sum := by
  rw [lookupRange, count_flatMap]
  congr 1
  apply map_congr_left
  intro e _
  rw [Function.comp_apply]
  by_cases hrange : lo ≤ e.1 ∧ e.1 ≤ hi
  · have hout : ¬ (decide (e.1 < lo) || decide (e.1 > hi)) = true := by
      simp [Int64.not_lt, hrange.1, hrange.2]
    rw [if_neg hout, List.count, countP_map, countP_filter]
    apply countP_congr
    intro en _
    simp [hrange.1, hrange.2]
  · have hout : (decide (e.1 < lo) || decide (e.1 > hi)) = true := by
      by_contra hin
      simp [Int64.not_lt] at hin
      exact hrange hin
    rw [if_pos hout, count_nil, eq_comm, countP_eq_zero]
    intro en _ htest
    simp only [Bool.and_eq_true, decide_eq_true_eq] at htest
    exact hrange htest.1

end SecondaryIndex

/-! ### Runs -/

/-- A version of a row.  It ends when it is superseded. -/
structure Version where
  value : Int64
  locator : RowLocator
  beginTs : UInt64
  endTs : Option UInt64

/-- A row is visible at a time from the begin of a version on and before its end. -/
def Version.visible (v : Version) (readTs : UInt64) : Bool :=
  v.beginTs ≤ readTs && v.endTs.all fun e => readTs < e

/-- The index, the versions that were inserted, and the times of the collections. -/
structure World where
  index : SecondaryIndex
  versions : List Version
  minTimes : List UInt64

namespace World

inductive Call where
  | insert (value : Int64) (locator : RowLocator) (beginTs txnId : UInt64)
  /-- Supersede the version inserted as number `i`. -/
  | supersede (i : ℕ) (newEndTs : UInt64)
  | gc (minTs : UInt64)

def new (columnName : String) : World := ⟨.new columnName, [], []⟩

/-- A live version is superseded after its begin. -/
def step (w : World) : Call → Option World
  | .insert value locator beginTs txnId =>
    some { w with
      index := w.index.insert value locator beginTs txnId
      versions := w.versions ++ [⟨value, locator, beginTs, none⟩] }
  | .supersede i newEndTs =>
    match w.versions[i]? with
    | some old =>
      if old.endTs = none ∧ old.beginTs < newEndTs then
        some { w with
          index := w.index.supersede old.value old.beginTs newEndTs
          versions := w.versions.set i { old with endTs := some newEndTs } }
      else none
    | none => none
  | .gc minTs => some { w with index := (w.index.gc minTs).2, minTimes := minTs :: w.minTimes }

/-- The locators of the rows that are visible with a value of the asked set. -/
def locators (w : World) (asked : Int64 → Bool) (readTs : UInt64) : List RowLocator :=
  (w.versions.filter fun v => asked v.value && v.visible readTs).map Version.locator

/-- Lookups return the visible rows with an asked value, each once. -/
structure ExactAt (w : World) (readTs : UInt64) : Prop where
  lookup : ∀ value, (w.index.lookup value readTs).Perm (w.locators (fun v => v = value) readTs)
  lookupRange : ∀ lo hi, (w.index.lookupRange lo hi readTs).Perm
    (w.locators (fun v => decide (lo ≤ v) && decide (v ≤ hi)) readTs)

/-- The times that no collection has passed. -/
def Readable (w : World) (readTs : UInt64) : Prop := ∀ minTs ∈ w.minTimes, minTs ≤ readTs

/-- Exact at every readable time before `u64::MAX`. -/
def Exact (w : World) : Prop := ∀ readTs, w.Readable readTs → readTs < liveEnd → w.ExactAt readTs

/-- The entries that `supersede` finds for a version. -/
def found (w : World) (old : Version) : List SecondaryIndexEntry :=
  (w.index.chain old.value).filter fun e => e.beginTs = old.beginTs

/-- Of the entries found all are open at a time before the new end, one from then on. -/
def EndsOneAt (w : World) (old : Version) (newEndTs readTs : UInt64) : Prop :=
  ((w.found old).filter fun e => e.endTs > readTs).length =
    if readTs < newEndTs then (w.found old).length else 1

/-- Ending the entries found ends no other row. -/
def EndsOne (w : World) (old : Version) (newEndTs : UInt64) : Prop :=
  ∀ readTs, w.Readable readTs → readTs < liveEnd → old.beginTs ≤ readTs → w.EndsOneAt old newEndTs readTs

/-- A call does not supersede a version whose entry is not told apart from another. -/
def Apart (w : World) : Call → Prop
  | .supersede i newEndTs => ∀ old, w.versions[i]? = some old → old.endTs = none →
    old.beginTs < newEndTs → w.EndsOne old newEndTs
  | _ => True

/-! ### Agreement -/

variable {w w' : World}

/-- The visible versions of a value that pass a test. -/
def shown (w : World) (value : Int64) (readTs : UInt64) (p : UInt64 → RowLocator → Bool) : ℕ :=
  w.versions.countP fun v => decide (v.value = value) && (p v.beginTs v.locator && v.visible readTs)

/-- The visible entries of a value are those of the visible versions. -/
def Agree (w : World) : Prop :=
  ∀ readTs, w.Readable readTs → readTs < liveEnd → ∀ value p,
    w.index.seen value readTs p = w.shown value readTs p

theorem count_locators (asked : Int64 → Bool) (readTs : UInt64) (l : RowLocator) :
    (w.locators asked readTs).count l =
      w.versions.countP fun v => asked v.value && (decide (v.locator = l) && v.visible readTs) := by
  rw [locators, List.count, countP_map, countP_filter]
  apply countP_congr
  intro v _
  simp only [Function.comp_apply, Bool.and_eq_true, decide_eq_true_eq, beq_iff_eq]
  tauto

theorem Agree.exact (h : w.Agree) : w.Exact := by
  intro readTs hread hlive
  refine ⟨fun value => ?_, fun lo hi => ?_⟩
  · rw [perm_iff_count]
    intro l
    rw [SecondaryIndex.count_lookup, h readTs hread hlive, count_locators]
    rfl
  · rw [perm_iff_count]
    intro l
    rw [SecondaryIndex.count_lookupRange, count_locators]
    refine sum_countP_items Version.value (q := fun k (en : SecondaryIndexEntry) =>
      (decide (lo ≤ k) && decide (k ≤ hi)) && (decide (en.rowLocator = l) && en.visible readTs))
      fun k => ?_
    by_cases hrange : lo ≤ k ∧ k ≤ hi
    · have hagree := h readTs hread hlive k fun _ locator => locator = l
      rw [SecondaryIndex.seen, shown] at hagree
      have hleft : (Table.chain w.index.entries k).countP (fun en =>
          (decide (lo ≤ k) && decide (k ≤ hi)) && (decide (en.rowLocator = l) && en.visible readTs)) =
          (w.index.chain k).countP fun en => decide (en.rowLocator = l) && en.visible readTs := by
        simp [hrange.1, hrange.2, SecondaryIndex.chain]
      rw [hleft, hagree]
      apply countP_congr
      intro v _
      by_cases hv : v.value = k
      · simp [hv, hrange.1, hrange.2]
      · simp [hv]
    · have hout : (decide (lo ≤ k) && decide (k ≤ hi)) = false := by
        rw [Bool.and_eq_false_iff, decide_eq_false_iff_not, decide_eq_false_iff_not]
        tauto
      rw [countP_eq_zero.mpr (by simp [hout]), eq_comm, countP_eq_zero]
      intro v _ htest
      by_cases hv : v.value = k
      · simp [hv, hout] at htest
      · simp [hv] at htest

theorem Agree.insert (h : w.Agree) {value : Int64} {locator : RowLocator} {beginTs txnId : UInt64}
    (hstep : w.step (.insert value locator beginTs txnId) = some w') : w'.Agree := by
  cases hstep
  intro readTs hread hlive v p
  have hold := h readTs hread hlive v p
  have hnew : SecondaryIndexEntry.visible ⟨value, locator, beginTs, liveEnd, txnId⟩ readTs =
      Version.visible ⟨value, locator, beginTs, none⟩ readTs := by
    simp [SecondaryIndexEntry.visible, Version.visible, hlive]
  unfold SecondaryIndex.seen shown at hold ⊢
  rw [SecondaryIndex.chain_insert, countP_append, countP_singleton]
  by_cases hv : v = value
  · subst hv
    rw [if_pos rfl, countP_append, countP_singleton, hold, hnew]
    simp
  · rw [if_neg hv, hold]
    simp [Ne.symm hv]

/-- A collection drops no entry that a readable time sees. -/
theorem Agree.gc (h : w.Agree) {minTs : UInt64} (hstep : w.step (.gc minTs) = some w') : w'.Agree := by
  cases hstep
  intro readTs hread hlive v p
  obtain ⟨hmin, hold⟩ := forall_mem_cons.mp hread
  refine Eq.trans ?_ (h readTs hold hlive v p)
  rw [SecondaryIndex.seen, SecondaryIndex.seen, SecondaryIndex.chain_gc, SecondaryIndex.retained, countP_filter]
  apply countP_congr
  intro e _
  simp only [SecondaryIndexEntry.visible, Bool.and_eq_true, decide_eq_true_eq, Bool.or_eq_true]
  refine ⟨And.left, fun hseen => ⟨hseen, Or.inl ?_⟩⟩
  exact UInt64.le_trans hmin (UInt64.le_of_lt hseen.2.2)

/-! ### Superseding a version -/

/-- The entries found get the new end, the others stay. -/
theorem seen_supersede (w : World) (old : Version) (newEndTs readTs : UInt64) (p : UInt64 → RowLocator → Bool) :
    (w.index.supersede old.value old.beginTs newEndTs).seen old.value readTs p =
      (if old.beginTs ≤ readTs ∧ readTs < newEndTs then
        (w.found old).countP fun e => p old.beginTs e.rowLocator else 0) +
        w.index.seen old.value readTs fun b l => !decide (b = old.beginTs) && p b l := by
  unfold SecondaryIndex.seen found
  rw [SecondaryIndex.chain_supersede, if_pos rfl, SecondaryIndex.endAt, countP_map,
    countP_eq_countP_filter_add _ _ fun e : SecondaryIndexEntry => decide (e.beginTs = old.beginTs),
    countP_filter, countP_filter]
  congr 1
  · by_cases hopen : old.beginTs ≤ readTs ∧ readTs < newEndTs
    · rw [if_pos hopen, countP_filter]
      apply countP_congr
      intro e _
      by_cases he : e.beginTs = old.beginTs
      · simp [he, SecondaryIndexEntry.visible, hopen.1, hopen.2]
      · simp [he]
    · rw [if_neg hopen, countP_eq_zero]
      intro e _ htest
      by_cases he : e.beginTs = old.beginTs
      · simp [he, SecondaryIndexEntry.visible] at htest
        exact hopen htest.2
      · simp [he] at htest
  · apply countP_congr
    intro e _
    by_cases he : e.beginTs = old.beginTs
    · simp [he]
    · simp [he]

/-- The visible entries of a value: those found for a version and the others. -/
theorem seen_split (w : World) (old : Version) (readTs : UInt64) (p : UInt64 → RowLocator → Bool) :
    w.index.seen old.value readTs p =
      (w.index.seen old.value readTs fun b l => decide (b = old.beginTs) && p b l) +
        w.index.seen old.value readTs fun b l => !decide (b = old.beginTs) && p b l := by
  unfold SecondaryIndex.seen
  rw [countP_eq_countP_filter_add _ _ fun e : SecondaryIndexEntry => decide (e.beginTs = old.beginTs),
    countP_filter, countP_filter]
  congr 1
  · apply countP_congr
    intro e _
    simp only [Bool.and_eq_true, decide_eq_true_eq]
    tauto
  · apply countP_congr
    intro e _
    simp only [Bool.and_eq_true, decide_eq_false_iff_not, Bool.not_eq_eq_eq_not, Bool.not_true]
    tauto

variable {i : ℕ} {old : Version} {newEndTs readTs : UInt64}

/-- A superseded version is no longer shown from its end on. -/
theorem shown_supersede (hget : w.versions[i]? = some old) (hopen : old.endTs = none) (value : Int64)
    (readTs : UInt64) (p : UInt64 → RowLocator → Bool) :
    w.shown value readTs p = (w.versions.set i { old with endTs := some newEndTs }).countP (fun v =>
        decide (v.value = value) && (p v.beginTs v.locator && v.visible readTs)) +
      if old.value = value ∧ p old.beginTs old.locator = true ∧ old.beginTs ≤ readTs ∧
        newEndTs ≤ readTs then 1 else 0 := by
  obtain ⟨hi, hold⟩ := List.getElem?_eq_some_iff.mp hget
  unfold shown
  generalize hP : (fun v : Version =>
    decide (v.value = value) && (p v.beginTs v.locator && v.visible readTs)) = P
  have hbefore : P old = true ↔
      old.value = value ∧ p old.beginTs old.locator = true ∧ old.beginTs ≤ readTs := by
    rw [← hP]
    simp [Version.visible, hopen]
  have hafter : P { old with endTs := some newEndTs } = true ↔
      (old.value = value ∧ p old.beginTs old.locator = true ∧ old.beginTs ≤ readTs) ∧ readTs < newEndTs := by
    rw [← hP]
    simp [Version.visible, and_assoc]
  have hpos := boole_getElem_le_countP (p := P) hi
  rw [countP_set hi]
  rw [hold] at hpos ⊢
  by_cases hshown : old.value = value ∧ p old.beginTs old.locator = true ∧ old.beginTs ≤ readTs
  · rw [if_pos (hbefore.mpr hshown)] at hpos ⊢
    by_cases hend : readTs < newEndTs
    · rw [if_pos (hafter.mpr ⟨hshown, hend⟩), if_neg fun h => UInt64.not_lt.mpr h.2.2.2 hend]
      omega
    · rw [if_neg fun h => hend (hafter.mp h).2,
        if_pos ⟨hshown.1, hshown.2.1, hshown.2.2, UInt64.not_lt.mp hend⟩]
      omega
  · rw [if_neg fun h => hshown (hbefore.mp h), if_neg fun h => hshown (hafter.mp h).1,
      if_neg fun h => hshown ⟨h.1, h.2.1, h.2.2.1⟩]
    rfl

theorem step_supersede (hstep : w.step (.supersede i newEndTs) = some w') :
    ∃ old, w.versions[i]? = some old ∧ old.endTs = none ∧ old.beginTs < newEndTs ∧ w' = { w with
        index := w.index.supersede old.value old.beginTs newEndTs
        versions := w.versions.set i { old with endTs := some newEndTs } } := by
  simp only [step] at hstep
  cases hget : w.versions[i]? with
  | none =>
    rw [hget] at hstep
    cases hstep
  | some old =>
    rw [hget] at hstep
    simp only [Option.ite_none_right_eq_some, Option.some.injEq] at hstep
    exact ⟨old, rfl, hstep.1.1, hstep.1.2, hstep.2.symm⟩

/-- From the begin of a version on, the entries found are visible before their end. -/
theorem seen_found (w : World) (old : Version) (hbegin : old.beginTs ≤ readTs) :
    (w.index.seen old.value readTs fun b _ => decide (b = old.beginTs) && true) =
      ((w.found old).filter fun e => e.endTs > readTs).length := by
  rw [SecondaryIndex.seen, found, filter_filter, ← countP_eq_length_filter]
  apply countP_congr
  intro e _
  by_cases he : e.beginTs = old.beginTs
  · simp [he, SecondaryIndexEntry.visible, hbegin]
  · simp [he]

/-- The version that is superseded is one of those found. -/
theorem Agree.seen_pos (h : w.Agree) (hget : w.versions[i]? = some old) (hopen : old.endTs = none)
    (hread : w.Readable readTs) (hlive : readTs < liveEnd) (hbegin : old.beginTs ≤ readTs)
    {p : UInt64 → RowLocator → Bool} (hp : p old.beginTs old.locator = true) :
    0 < w.index.seen old.value readTs p := by
  rw [h readTs hread hlive, shown, countP_pos_iff]
  refine ⟨old, mem_of_getElem? hget, ?_⟩
  simp [hp, Version.visible, hbegin, hopen]

/-- If all entries found are visible, then those that pass a test are. -/
theorem seen_of_all (hbegin : old.beginTs ≤ readTs) (hbefore : readTs < newEndTs)
    (hends : w.EndsOneAt old newEndTs readTs) (p : UInt64 → RowLocator → Bool) :
    (w.index.seen old.value readTs fun b l => decide (b = old.beginTs) && p b l) =
      (w.found old).countP fun e => p old.beginTs e.rowLocator := by
  unfold EndsOneAt at hends
  rw [if_pos hbefore, length_filter_eq_length_iff] at hends
  rw [SecondaryIndex.seen, found, countP_filter]
  apply countP_congr
  intro e he
  by_cases hfound : e.beginTs = old.beginTs
  · have hend := hends e (mem_filter.mpr ⟨he, decide_eq_true hfound⟩)
    simp only [decide_eq_true_eq] at hend
    simp [hfound, SecondaryIndexEntry.visible, hbegin, hend]
  · simp [hfound]

/-- If one entry found is visible, then it is that of the version. -/
theorem Agree.seen_of_one (h : w.Agree) (hget : w.versions[i]? = some old) (hopen : old.endTs = none)
    (hread : w.Readable readTs) (hlive : readTs < liveEnd) (hbegin : old.beginTs ≤ readTs)
    (hafter : ¬ readTs < newEndTs) (hends : w.EndsOneAt old newEndTs readTs) (p : UInt64 → RowLocator → Bool) :
    (w.index.seen old.value readTs fun b l => decide (b = old.beginTs) && p b l) =
      if p old.beginTs old.locator = true then 1 else 0 := by
  unfold EndsOneAt at hends
  rw [if_neg hafter, ← seen_found w old hbegin] at hends
  have hsplit : (w.index.seen old.value readTs fun b _ => decide (b = old.beginTs) && true) =
      (w.index.seen old.value readTs fun b l => decide (b = old.beginTs) && p b l) +
        w.index.seen old.value readTs fun b l => decide (b = old.beginTs) && !p b l := by
    unfold SecondaryIndex.seen
    rw [countP_eq_countP_filter_add _ _ fun e : SecondaryIndexEntry => p e.beginTs e.rowLocator,
      countP_filter, countP_filter]
    congr 1
    · apply countP_congr
      intro e _
      simp only [Bool.and_eq_true, decide_eq_true_eq]
      tauto
    · apply countP_congr
      intro e _
      simp only [Bool.and_eq_true, decide_eq_true_eq, Bool.not_eq_eq_eq_not, Bool.not_true]
      tauto
  rw [hends] at hsplit
  by_cases hp : p old.beginTs old.locator = true
  · have hpos := h.seen_pos hget hopen hread hlive hbegin
      (p := fun b l => decide (b = old.beginTs) && p b l) (by simp [hp])
    rw [if_pos hp]
    omega
  · have hpos := h.seen_pos hget hopen hread hlive hbegin
      (p := fun b l => decide (b = old.beginTs) && !p b l) (by simp [hp])
    rw [if_neg hp]
    omega

theorem Agree.supersede (h : w.Agree) (hok : w.Apart (.supersede i newEndTs))
    (hstep : w.step (.supersede i newEndTs) = some w') : w'.Agree := by
  obtain ⟨old, hget, hopen, hlater, rfl⟩ := step_supersede hstep
  have hends := hok old hget hopen hlater
  intro readTs hread hlive v p
  have hold := h readTs hread hlive v p
  rw [shown_supersede hget hopen] at hold
  by_cases hv : v = old.value
  · subst hv
    dsimp only
    rw [seen_split] at hold
    rw [seen_supersede, shown]
    dsimp only
    by_cases hbegin : old.beginTs ≤ readTs
    · have hat : w.EndsOneAt old newEndTs readTs := hends readTs hread hlive hbegin
      by_cases hbefore : readTs < newEndTs
      · rw [seen_of_all hbegin hbefore hat, if_neg fun hno => UInt64.not_lt.mpr hno.2.2.2 hbefore] at hold
        rw [if_pos ⟨hbegin, hbefore⟩]
        omega
      · rw [h.seen_of_one hget hopen hread hlive hbegin hbefore hat] at hold
        rw [if_neg fun hno => hbefore hno.2]
        by_cases hp : p old.beginTs old.locator = true
        · rw [if_pos hp, if_pos ⟨rfl, hp, hbegin, UInt64.not_lt.mp hbefore⟩] at hold
          omega
        · rw [if_neg hp, if_neg fun hno => hp hno.2.1] at hold
          omega
    · -- nothing that begins with the version is visible yet
      have hnone : (w.index.seen old.value readTs fun b l => decide (b = old.beginTs) && p b l) = 0 := by
        apply countP_eq_zero.mpr
        intro e _ htest
        simp only [SecondaryIndexEntry.visible, Bool.and_eq_true, decide_eq_true_eq] at htest
        exact hbegin (htest.1.1 ▸ htest.2.1)
      rw [hnone, if_neg fun hno => hbegin hno.2.2.1] at hold
      rw [if_neg fun hno => hbegin hno.1]
      exact hold
  · rw [if_neg fun hno => hv hno.1.symm, Nat.add_zero] at hold
    rw [shown, ← hold, SecondaryIndex.seen, SecondaryIndex.seen, SecondaryIndex.chain_supersede, if_neg hv]

/-- A supersede that ends several rows, or rows that end at another time, shows in a lookup. -/
theorem Agree.apart_of_exact (h : w.Agree) (hstep : w.step (.supersede i newEndTs) = some w')
    (hexact : w'.Exact) :
    w.Apart (.supersede i newEndTs) := by
  obtain ⟨old, hget, hopen, hlater, rfl⟩ := step_supersede hstep
  intro old' hget' _ _ readTs hread hlive hbegin
  obtain rfl : old = old' := Option.some.inj (hget.symm.trans hget')
  have hlength := ((hexact readTs hread hlive).lookup old.value).length_eq
  rw [SecondaryIndex.length_lookup, locators, length_map, ← countP_eq_length_filter] at hlength
  have hbefore := h readTs hread hlive old.value fun _ _ => true
  have hpos := h.seen_pos hget hopen hread hlive hbegin (p := fun b _ => decide (b = old.beginTs) && true)
    (by simp)
  have hall : (w.found old).countP (fun _ => true) = (w.found old).length := congrFun countP_true _
  rw [seen_split w old, shown_supersede hget hopen] at hbefore
  dsimp only at hlength
  rw [seen_supersede, hall] at hlength
  simp only [Bool.true_and] at hbefore hlength
  unfold EndsOneAt
  rw [← seen_found w old hbegin]
  by_cases hopenAt : readTs < newEndTs
  · rw [if_pos hopenAt]
    rw [if_pos ⟨hbegin, hopenAt⟩] at hlength
    rw [if_neg fun hno => UInt64.not_lt.mpr hno.2.2.2 hopenAt] at hbefore
    omega
  · rw [if_neg hopenAt]
    rw [if_neg fun hno => hopenAt hno.2] at hlength
    rw [if_pos ⟨trivial, trivial, hbegin, UInt64.not_lt.mp hopenAt⟩] at hbefore
    omega

theorem Agree.step (h : w.Agree) {call : Call} (hok : w.Apart call) (hstep : w.step call = some w') :
    w'.Agree := by
  cases call with
  | insert value locator beginTs txnId => exact h.insert hstep
  | supersede i newEndTs => exact h.supersede hok hstep
  | gc minTs => exact h.gc hstep

theorem agree_new (columnName : String) : (new columnName).Agree := fun _ _ _ _ _ => rfl

/-! ### Reads at `u64::MAX` -/

theorem le_liveEnd (ts : UInt64) : ts ≤ liveEnd := UInt64.le_iff_toNat_le.mpr (Nat.le_of_lt_succ ts.toNat_lt)

theorem entry_visible_liveEnd (e : SecondaryIndexEntry) : e.visible liveEnd = false := by
  simp [SecondaryIndexEntry.visible, le_liveEnd]

theorem version_visible_liveEnd (v : Version) : v.visible liveEnd = true ↔ v.endTs = none := by
  cases hend : v.endTs with
  | none | some e => simp [Version.visible, hend, le_liveEnd]

/-- A lookup at `u64::MAX` sees no entry, so it is right if no version is live. -/
theorem exactAt_liveEnd (w : World) : w.ExactAt liveEnd ↔ ∀ v ∈ w.versions, v.endTs ≠ none := by
  have hlookup (value : Int64) : w.index.lookup value liveEnd = [] := by
    rw [SecondaryIndex.lookup_eq, filter_eq_nil_iff.mpr (by simp [entry_visible_liveEnd])]
    rfl
  have hrange (lo hi : Int64) : w.index.lookupRange lo hi liveEnd = [] := by
    rw [SecondaryIndex.lookupRange, flatMap_eq_nil_iff]
    intro item _
    split
    · rfl
    · rw [filter_eq_nil_iff.mpr (by simp [entry_visible_liveEnd])]
      rfl
  constructor
  · intro hexact v hv hlive
    have hperm := hexact.lookup v.value
    rw [hlookup, nil_perm, locators, map_eq_nil_iff, filter_eq_nil_iff] at hperm
    exact hperm v hv (by simp [version_visible_liveEnd, hlive])
  · intro hended
    have hlocators (asked : Int64 → Bool) : w.locators asked liveEnd = [] := by
      rw [locators, filter_eq_nil_iff.mpr, map_nil]
      intro v hv
      simp [version_visible_liveEnd, hended v hv]
    exact ⟨fun value => by rw [hlookup, hlocators], fun lo hi => by rw [hrange, hlocators]⟩

/-- **Lookups before `u64::MAX` are exact in every state of a run if and only if each supersede ends
just the entry of its version.**  At `u64::MAX` they are exact if and only if no version is live. -/
theorem lookups_exact_iff (columnName : String) (calls : List Call) :
    (Transition.Throughout step Exact (new columnName) calls ↔
      Transition.Along step Apart (new columnName) calls) ∧
        ∀ w, Transition.run step (new columnName) calls = some w →
          (w.ExactAt liveEnd ↔ ∀ v ∈ w.versions, v.endTs ≠ none) := by
  refine ⟨Transition.throughout_iff_along_of_leaves (fun w h => Agree.exact h) ?_
    (fun w call w' h hok hstep => h.step hok hstep) ?_ (agree_new columnName) calls,
    fun w _ => exactAt_liveEnd w⟩
  · intro w call hstuck
    cases call with
    | insert value locator beginTs txnId => trivial
    | supersede i newEndTs =>
      intro old hget hopen hlater
      simp [step, hget, hopen, hlater] at hstuck
    | gc minTs => trivial
  · intro w call w' h hno hstep hexact
    cases call with
    | insert value locator beginTs txnId => exact hno trivial
    | supersede i newEndTs => exact hno (h.apart_of_exact hstep hexact)
    | gc minTs => exact hno trivial

/-- Two rows with one value, inserted by one transaction. -/
def sameCommit : List Call := [.insert 30 ⟨1, 0, 0⟩ 100 1, .insert 30 ⟨1, 0, 1⟩ 100 1, .supersede 0 200]

/-- **Superseding one row hides the other one.** -/
theorem supersede_hides_row : ((Transition.run step (new "age") sameCommit).map fun w =>
      (w.index.lookup 30 200, w.index.lookupRange 0 99 200, w.locators (fun v => v = 30) 200)) =
        some ([], [], [⟨1, 0, 1⟩]) ∧
      ¬ Transition.Throughout step Exact (new "age") sameCommit := by
  have hrun : ((Transition.run step (new "age") sameCommit).map fun w =>
      (w.index.lookup 30 200, w.index.lookupRange 0 99 200, w.locators (fun v => v = 30) 200)) =
        some ([], [], [⟨1, 0, 1⟩]) := by decide
  refine ⟨hrun, fun hexact => ?_⟩
  obtain ⟨w, hw, hseen⟩ := Option.map_eq_some_iff.mp hrun
  have hreadable : w.Readable 200 := by
    have hnone : (Transition.run step (new "age") sameCommit).map minTimes = some [] := by decide
    rw [hw, Option.map_some, Option.some.injEq] at hnone
    rw [Readable, hnone]
    exact fun _ h => by cases h
  have hperm := (hexact sameCommit w (prefix_refl _) hw 200 hreadable (by decide)).lookup 30
  obtain ⟨hlookup, hrest⟩ := Prod.mk.inj hseen
  rw [hlookup, (Prod.mk.inj hrest).2] at hperm
  exact absurd hperm.length_eq (by decide)

example : ((Transition.run step (new "val") [.insert 42 ⟨1, 0, 0⟩ 100 1, .supersede 0 200,
    .insert 42 ⟨1, 0, 1⟩ 200 2, .gc 250]).map fun w =>
      (w.index.lookup 42 250, (w.index.gc 250).1)) = some ([⟨1, 0, 1⟩], 0) := by rfl

end World

end CenDB.Search
