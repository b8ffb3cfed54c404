import CenDB.Projection.TimeSeries

/-! # Scans of a time series

`Stored s batches` says that every summary leads to the block of its batch and covers it.  A scan of
such a store finds the readings of the batches and the pending ones (`Stored.rangeScan_eq`), and a
flush only moves readings from one to the other, so that a scan after a run finds exactly what was
appended (`rangeScan_run`, `rangeScanForSeries_run`). -/

namespace CenDB.Projection

open CenDB.Storage List Transition

namespace TimeSeriesStore

variable {fmt : TextFormat} {s s' : TimeSeriesStore} {lo hi seriesId : Int64}

/-- A reading in a time range. -/
def inRange (lo hi : Int64) (e : Reading) : Bool := lo ≤ e.1 && e.1 ≤ hi

/-- A reading of a series in a time range. -/
def inSeries (seriesId lo hi : Int64) (e : Reading) : Bool := e.2.1 = seriesId && inRange lo hi e

/-- The readings of a series in a time range, without the series. -/
def ofSeries (seriesId lo hi : Int64) (es : List Reading) : List (Int64 × UInt64) :=
  (es.filter (inSeries seriesId lo hi)).map fun e => (e.1, e.2.2)

/-! ### Scanning a block -/

theorem outside_iff (e : Reading) : (e.1 < lo || hi < e.1) = !inRange lo hi e := by
  simp only [inRange, Bool.not_and, ← decide_not, Int64.not_le]

/-- The rows of a block from the end of `front` on. -/
theorem scanRows_eq (front es : List Reading) :
    scanRows lo hi ((front ++ es).map fun e => e.2.1) ((front ++ es).map fun e => e.2.2.toInt64)
      front.length (es.map fun e => e.1) = .ok (es.filter (inRange lo hi)) := by
  induction es generalizing front with
  | nil => rfl
  | cons e es ih =>
    have hrest := ih (front ++ [e])
    rw [append_assoc, singleton_append, length_append, length_singleton] at hrest
    rw [map_cons, scanRows, hrest, outside_iff, filter_cons]
    cases inRange lo hi e with
    | false => rfl
    | true =>
      have hat : (front ++ e :: es)[front.length]? = some e := by simp
      rw [getElem?_map, getElem?_map, hat]
      rfl

theorem ofSeries_cons (e : Reading) (es : List Reading) : ofSeries seriesId lo hi (e :: es) =
      if inSeries seriesId lo hi e then (e.1, e.2.2) :: ofSeries seriesId lo hi es
      else ofSeries seriesId lo hi es := by
  rw [ofSeries, filter_cons]
  split <;> rfl

theorem scanSeriesRows_eq (front es : List Reading) :
    scanSeriesRows seriesId lo hi ((front ++ es).map fun e => e.2.1)
      ((front ++ es).map fun e => e.2.2.toInt64) front.length (es.map fun e => e.1) =
        .ok (ofSeries seriesId lo hi es) := by
  induction es generalizing front with
  | nil => rfl
  | cons e es ih =>
    have hrest := ih (front ++ [e])
    have hat : (front ++ e :: es)[front.length]? = some e := by simp
    rw [append_assoc, singleton_append, length_append, length_singleton] at hrest
    rw [map_cons, scanSeriesRows, hrest, outside_iff, ofSeries_cons, inSeries, getElem?_map, getElem?_map, hat]
    by_cases hseries : e.2.1 = seriesId
    · cases inRange lo hi e with
      | false => simp [hseries]
      | true => simp [hseries, Except.map]
    · simp [hseries]

/-! ### What a store holds -/

/-- A summary that leads to the block of its readings and covers them. -/
structure Summarizes (s : TimeSeriesStore) (summary : TsBlockSummary) (es : List Reading) : Prop where
  block : ∃ block, s.blocks[summary.blockId.toNat]? = some block ∧ HoldsReadings block es
  covers : Covers summary es

structure Stored (s : TimeSeriesStore) (batches : List (List Reading)) : Prop where
  size : s.blockSize.toNat + minipageAlign ≤ 2 ^ 32
  column : ValueColumn s.schema
  summaries : List.Forall₂ (Summarizes s) s.summaries batches

variable {batches : List (List Reading)} {es : List Reading}

variable {α : Type} {skip : TsBlockSummary → Bool}
  {scan : List Int64 → List Int64 → List Int64 → Except Halt (List α)} {summary : TsBlockSummary}
  {chunk log : List Reading} {usable : ℕ} {e : Reading} {block : PaxBlock}

/-- A scan finds what it picks from the readings of each block, if it skips nothing of that. -/
theorem scanBlocks_eq {pick : List Reading → List α}
    (hskip : ∀ summary es, Covers summary es → skip summary = true → pick es = [])
    (hscan : ∀ es : List Reading, scan (es.map fun e => e.1) (es.map fun e => e.2.1) (es.map fun e => e.2.2.toInt64) = .ok (pick es))
    {summaries : List TsBlockSummary} (h : List.Forall₂ (Summarizes s) summaries batches) :
    ∃ touched, s.scanBlocks skip scan summaries = .ok (touched, (batches.map pick).flatten) := by
  induction h with
  | nil => exact ⟨0, rfl⟩
  | @cons summary es summaries batches hfirst _ ih =>
    obtain ⟨touched, hrest⟩ := ih
    rw [scanBlocks, map_cons, flatten_cons]
    cases hskipped : skip summary with
    | true =>
      rw [if_pos rfl, hskip summary es hfirst.covers hskipped]
      exact ⟨touched, hrest⟩
    | false =>
      obtain ⟨block, hblock, hholds⟩ := hfirst.block
      rw [if_neg Bool.false_ne_true, hblock]
      dsimp only
      rw [hholds.times, hholds.series, hholds.values]
      dsimp only
      rw [hscan, hrest]
      exact ⟨touched + 1, rfl⟩

theorem covers_skip (h : Covers summary es) (hskip : (summary.maxTs < lo || hi < summary.minTs) = true) :
    ∀ e ∈ es, inRange lo hi e = false := by
  intro e he
  obtain ⟨⟨hmin, hmax⟩, -⟩ := h e he
  have hout : (e.1 < lo || hi < e.1) = true := by
    simp only [Bool.or_eq_true, decide_eq_true_eq] at hskip ⊢
    cases hskip with
    | inl hlow => exact Or.inl (Int64.lt_of_le_of_lt hmax hlow)
    | inr hhigh => exact Or.inr (Int64.lt_of_lt_of_le hhigh hmin)
  rw [outside_iff] at hout
  simpa using hout

theorem Stored.rangeScan_eq (h : Stored s batches) (lo hi : Int64) : ∃ touched, s.rangeScan lo hi =
      .ok (touched, (batches.flatten ++ s.pending).filter (inRange lo hi)) := by
  have hskip (summary : TsBlockSummary) (es : List Reading) (hcovers : Covers summary es)
      (hskipped : (decide (summary.maxTs < lo) || decide (hi < summary.minTs)) = true) :
      es.filter (inRange lo hi) = [] := by
    refine filter_eq_nil_iff.mpr fun e he => ?_
    rw [covers_skip hcovers hskipped e he]
    exact Bool.false_ne_true
  have hfound : ∃ touched, s.scanBlocks (fun summary => summary.maxTs < lo || hi < summary.minTs)
      (fun tsVals seriesVals fBits => scanRows lo hi seriesVals fBits 0 tsVals) s.summaries =
        .ok (touched, (batches.map fun es => es.filter (inRange lo hi)).flatten) :=
    scanBlocks_eq hskip (fun es => scanRows_eq [] es) h.summaries
  obtain ⟨touched, hscan⟩ := hfound
  refine ⟨touched, ?_⟩
  rw [rangeScan, hscan, filter_append, filter_flatten]
  rfl

theorem Stored.rangeScanForSeries_eq (h : Stored s batches) (seriesId lo hi : Int64) :
    ∃ touched, s.rangeScanForSeries seriesId lo hi =
      .ok (touched, ofSeries seriesId lo hi (batches.flatten ++ s.pending)) := by
  have hskip (summary : TsBlockSummary) (es : List Reading) (hcovers : Covers summary es)
      (hskipped : ((decide (summary.maxTs < lo) || decide (hi < summary.minTs)) ||
        (decide (seriesId < summary.minSeries) || decide (summary.maxSeries < seriesId))) = true) :
      ofSeries seriesId lo hi es = [] := by
    rw [ofSeries, map_eq_nil_iff]
    refine filter_eq_nil_iff.mpr fun e he => ?_
    rw [inSeries]
    cases (Bool.or_eq_true _ _).mp hskipped with
    | inl htime =>
      rw [covers_skip hcovers htime e he, Bool.and_false]
      exact Bool.false_ne_true
    | inr hseries =>
      obtain ⟨-, hmin, hmax⟩ := hcovers e he
      have hne : e.2.1 ≠ seriesId := by
        rintro rfl
        simp only [Bool.or_eq_true, decide_eq_true_eq] at hseries
        cases hseries with
        | inl hlow => exact Int64.not_le.mpr hlow hmin
        | inr hhigh => exact Int64.not_le.mpr hhigh hmax
      rw [decide_eq_false hne, Bool.false_and]
      exact Bool.false_ne_true
  have hfound : ∃ touched, s.scanBlocks (fun summary => (summary.maxTs < lo || hi < summary.minTs) ||
        (seriesId < summary.minSeries || summary.maxSeries < seriesId))
      (fun tsVals seriesVals fBits => scanSeriesRows seriesId lo hi seriesVals fBits 0 tsVals)
      s.summaries = .ok (touched, (batches.map (ofSeries seriesId lo hi)).flatten) :=
    scanBlocks_eq hskip (fun es => scanSeriesRows_eq [] es) h.summaries
  obtain ⟨touched, hscan⟩ := hfound
  refine ⟨touched, ?_⟩
  have hsplit : ofSeries seriesId lo hi (batches.flatten ++ s.pending) =
      (batches.map (ofSeries seriesId lo hi)).flatten ++ ofSeries seriesId lo hi s.pending := by
    unfold ofSeries
    rw [filter_append, map_append, filter_flatten, map_flatten, map_map]
    rfl
  rw [rangeScanForSeries, hscan, hsplit]
  rfl

/-! ### Sealing -/

/-- More blocks do not change what the earlier summaries lead to. -/
theorem Summarizes.more (h : Summarizes s summary es) (hblocks : s.blocks <+: s'.blocks) :
    Summarizes s' summary es := by
  obtain ⟨block, hblock, hholds⟩ := h.block
  obtain ⟨more, hmore⟩ := hblocks
  refine ⟨⟨block, ?_, hholds⟩, h.covers⟩
  rw [← hmore, getElem?_append_left (List.getElem?_eq_some_iff.mp hblock).1, hblock]

theorem sealChunk_spec (h : Stored s batches) (hseal : sealChunk fmt s chunk = .ok s') (hne : chunk ≠ [])
    (hlen : chunk.length < 2 ^ 32) (hfew : s'.blocks.length ≤ 2 ^ 32) :
    Stored s' (batches ++ [chunk]) := by
  unfold sealChunk at hseal
  split at hseal
  · cases hseal
  · rename_i block hbuild
    cases hseal
    dsimp only at hfew
    rw [length_append, length_singleton] at hfew
    refine ⟨h.size, h.column, rel_append ?_ (.cons ⟨⟨block, ?_, ?_⟩, ?_⟩ .nil)⟩
    · exact h.summaries.imp fun _ _ hsum => hsum.more (prefix_append _ _)
    · rw [UInt32.toNat_ofNat', Nat.mod_eq_of_lt (by omega), getElem?_append_right (le_refl _), Nat.sub_self]
      rfl
    · exact holdsReadings_of_build h.column hbuild h.size hne hlen
    · exact covers_of_build hbuild h.size _ _

theorem blocks_sealChunk (h : sealChunk fmt s chunk = .ok s') :
    s'.blocks.length = s.blocks.length + 1 ∧ s'.pending = s.pending ∧
      s'.pendingCapacity = s.pendingCapacity := by
  unfold sealChunk at h
  split at h
  · cases h
  · cases h
    exact ⟨length_append.trans rfl, rfl, rfl⟩

theorem blocks_sealChunks (h : sealChunks fmt usable s es = .ok s') :
    s.blocks.length ≤ s'.blocks.length ∧ s'.pending = s.pending ∧ s'.pendingCapacity = s.pendingCapacity := by
  induction hn : es.length using Nat.strongRecOn generalizing es s with
  | ind n ih =>
    cases es with
    | nil =>
      rw [sealChunks] at h
      rw [Except.ok.inj h]
      exact ⟨le_rfl, rfl, rfl⟩
    | cons e es =>
      rw [sealChunks] at h
      split at h
      · cases h
      · rename_i mid hmid
        have hlen := congrArg List.length (takeChunk_append usable rowBytes es)
        rw [length_append] at hlen
        rw [length_cons] at hn
        obtain ⟨hcount, hpending, hcapacity⟩ := blocks_sealChunk hmid
        obtain ⟨hcount', hpending', hcapacity'⟩ := ih _ (by omega) h rfl
        exact ⟨by omega, hpending'.trans hpending, hcapacity'.trans hcapacity⟩

/-- **Sealing in chunks** adds batches that tile the readings. -/
theorem sealChunks_spec (husable : usable < 2 ^ 32) (hstored : Stored s batches)
    (h : sealChunks fmt usable s es = .ok s') (hfew : s'.blocks.length ≤ 2 ^ 32) :
    ∃ batches', Stored s' (batches ++ batches') ∧ batches'.flatten = es := by
  induction hn : es.length using Nat.strongRecOn generalizing es s batches with
  | ind n ih =>
    cases es with
    | nil =>
      rw [sealChunks] at h
      rw [← Except.ok.inj h]
      exact ⟨[], by rw [append_nil]; exact hstored, rfl⟩
    | cons e es =>
      rw [sealChunks] at h
      split at h
      · cases h
      · rename_i mid hmid
        have hsplit := takeChunk_append usable rowBytes es
        have hlen := congrArg List.length hsplit
        have hbound := length_takeChunk usable rowBytes es
        rw [length_append] at hlen
        rw [length_cons] at hn
        have hchunk : (e :: (takeChunk usable rowBytes es).1).length < 2 ^ 32 := by
          rw [length_cons]
          unfold rowBytes at hbound ⊢
          omega
        have hfirst := sealChunk_spec hstored hmid (cons_ne_nil _ _) hchunk ((blocks_sealChunks h).1.trans hfew)
        obtain ⟨batches', hrest, hflat⟩ := ih _ (by omega) hfirst h rfl
        refine ⟨(e :: (takeChunk usable rowBytes es).1) :: batches', ?_, ?_⟩
        · rw [append_cons]
          exact hrest
        · rw [flatten_cons, hflat, cons_append, hsplit]

/-! ### Runs -/

/-- The sealed and the pending readings of a store are those appended. -/
def Keeps (s : TimeSeriesStore) (log : List Reading) : Prop :=
  ∃ batches, Stored s batches ∧ (batches.flatten ++ s.pending).Perm log

theorem Keeps.flush (h : Keeps s log) (hflush : s.flushPending fmt = .ok s') (hfew : s'.blocks.length ≤ 2 ^ 32) :
    Keeps s' log := by
  obtain ⟨batches, hstored, hperm⟩ := h
  unfold flushPending at hflush
  split at hflush
  · cases hflush
    exact ⟨batches, hstored, hperm⟩
  · dsimp only at hflush
    split at hflush
    · cases hflush
    · rename_i full hseal
      cases hflush
      have husable : s.blockSize.toNat - (64 + 3 * 64 + 256) < 2 ^ 32 :=
        (Nat.sub_le _ _).trans_lt s.blockSize.toNat_lt
      obtain ⟨batches', hstored', hflat⟩ := sealChunks_spec husable hstored hseal hfew
      refine ⟨batches ++ batches', ⟨hstored'.size, hstored'.column, ?_⟩, ?_⟩
      · exact hstored'.summaries.imp fun _ _ hsum => hsum.more (prefix_refl _)
      · show ((batches ++ batches').flatten ++ []).Perm log
        rw [append_nil, flatten_append, hflat]
        exact ((mergeSort_perm s.pending readingLe).append_left _).trans hperm

theorem blocks_flush (h : s.flushPending fmt = .ok s') : s.blocks.length ≤ s'.blocks.length := by
  unfold flushPending at h
  split at h
  · rw [Except.ok.inj h]
  · dsimp only at h
    split at h
    · cases h
    · rename_i full hseal
      cases h
      exact (blocks_sealChunks hseal).1

inductive Op where
  | append (ts seriesId : Int64) (value : UInt64)
  | flush

def step (fmt : TextFormat) (s : TimeSeriesStore) : Op → Option TimeSeriesStore
  | .append ts seriesId value => (s.append fmt ts seriesId value).toOption
  | .flush => (s.flushPending fmt).toOption

/-- The readings appended. -/
def appended (ops : List Op) : List Reading :=
  ops.filterMap fun
    | .append ts seriesId value => some (ts, seriesId, value)
    | .flush => none

theorem toOption_eq_some {e : Except Halt α} {a : α} (h : e.toOption = some a) : e = .ok a := by
  cases e with
  | error e => cases h
  | ok b => exact congrArg Except.ok (Option.some.inj h)

variable {op : Op}

theorem Keeps.step (h : Keeps s log) (hstep : step fmt s op = some s') (hfew : s'.blocks.length ≤ 2 ^ 32) :
    Keeps s' (log ++ appended [op]) := by
  cases op with
  | flush =>
    have hkeeps := h.flush (toOption_eq_some hstep) hfew
    rwa [show appended [Op.flush] = [] from rfl, append_nil]
  | append ts seriesId value =>
    have happend := toOption_eq_some hstep
    obtain ⟨batches, hstored, hperm⟩ := h
    have hbuffered : Keeps { s with pending := s.pending ++ [(ts, seriesId, value)] }
        (log ++ [(ts, seriesId, value)]) := by
      refine ⟨batches, ⟨hstored.size, hstored.column, ?_⟩, ?_⟩
      · exact hstored.summaries.imp fun _ _ hsum => hsum.more (prefix_refl _)
      · rw [← append_assoc]
        exact hperm.append_right _
    unfold TimeSeriesStore.append at happend
    dsimp only at happend
    split at happend
    · exact hbuffered.flush happend hfew
    · exact Except.ok.inj happend ▸ hbuffered

theorem blocks_step (h : step fmt s op = some s') : s.blocks.length ≤ s'.blocks.length := by
  cases op with
  | flush => exact blocks_flush (toOption_eq_some h)
  | append ts seriesId value =>
    have happend := toOption_eq_some h
    unfold TimeSeriesStore.append at happend
    dsimp only at happend
    split at happend
    · exact blocks_flush (s := { s with pending := s.pending ++ [(ts, seriesId, value)] }) happend
    · rw [← Except.ok.inj happend]

theorem keeps_run {ops : List Op} (h : Keeps s log) (hrun : Transition.run (step fmt) s ops = some s')
    (hfew : s'.blocks.length ≤ 2 ^ 32) :
    Keeps s' (log ++ appended ops) := by
  induction ops generalizing s log with
  | nil =>
    rw [run_nil, Option.some.injEq] at hrun
    rw [← hrun, show appended [] = [] from rfl, append_nil]
    exact h
  | cons op ops ih =>
    obtain ⟨mid, hstep, hrest⟩ := run_cons_some.mp hrun
    have hblocks : mid.blocks.length ≤ s'.blocks.length :=
      run_preserves (I := fun t => mid.blocks.length ≤ t.blocks.length)
        (fun t a t' ht hstep => ht.trans (blocks_step hstep)) le_rfl hrest
    have hkeeps := ih (h.step hstep (hblocks.trans hfew)) hrest
    rwa [append_assoc, show appended [op] ++ appended ops = appended (op :: ops) by
      rw [appended, appended, ← filterMap_append]; rfl] at hkeeps

theorem keeps_new {schema : TimeSeriesSchema} {blockSize : UInt32} (hcolumn : ValueColumn schema)
    (hsize : blockSize.toNat + minipageAlign ≤ 2 ^ 32) (cap : ℕ) :
    Keeps ((new schema blockSize).withPendingCapacity cap) [] :=
  ⟨[], ⟨hsize, hcolumn, .nil⟩, .refl _⟩

/-- **Scans are complete**: after a run, a scan of a time range and a scan of a series find exactly
the readings appended, pending or sealed. -/
theorem scans_run {schema : TimeSeriesSchema} {blockSize : UInt32} (hcolumn : ValueColumn schema)
    (hsize : blockSize.toNat + minipageAlign ≤ 2 ^ 32) (cap : ℕ) (ops : List Op)
    (hrun : Transition.run (step fmt) ((new schema blockSize).withPendingCapacity cap) ops = some s)
    (hfew : s.blocks.length ≤ 2 ^ 32) (lo hi : Int64) :
    (∃ touched found, s.rangeScan lo hi = .ok (touched, found) ∧
        found.Perm ((appended ops).filter (inRange lo hi))) ∧
      ∀ seriesId, ∃ touched found, s.rangeScanForSeries seriesId lo hi = .ok (touched, found) ∧
        found.Perm (ofSeries seriesId lo hi (appended ops)) := by
  obtain ⟨batches, hstored, hperm⟩ := keeps_run (keeps_new hcolumn hsize cap) hrun hfew
  rw [List.nil_append] at hperm
  refine ⟨?_, fun seriesId => ?_⟩
  · obtain ⟨touched, hscan⟩ := hstored.rangeScan_eq lo hi
    exact ⟨touched, _, hscan, hperm.filter _⟩
  · obtain ⟨touched, hscan⟩ := hstored.rangeScanForSeries_eq seriesId lo hi
    exact ⟨touched, _, hscan, (hperm.filter _).map _⟩

/-! ### A column of another kind, and too many blocks -/

/-- Readings with a value column of a kind. -/
def schemaOf (kind : ValueKind) : TimeSeriesSchema := ⟨0, 1, [.new 2 kind]⟩

theorem valueColumn_f64 : ValueColumn (schemaOf .f64) := by
  refine ⟨.new 2 .f64, rfl, rfl, fun _ _ _ => ?_⟩
  trivial

theorem scans_run_single :
    ∃ s, Transition.run (step plainFormat) ((new (schemaOf .f64) 512).withPendingCapacity 8)
        [.append 5 1 7, .flush] = some s ∧
      ∃ touched found, s.rangeScan 0 9 = .ok (touched, found) ∧ found.Perm [(5, 1, 7)] := by
  have hruns : ((Transition.run (step plainFormat) ((new (schemaOf .f64) 512).withPendingCapacity 8)
      [.append 5 1 7, .flush]).map fun s => s.blocks.length) = some 1 := by
    decide +kernel
  obtain ⟨s, hrun, hlen⟩ := Option.map_eq_some_iff.mp hruns
  exact ⟨s, hrun, (scans_run valueColumn_f64 (by decide) 8 _ hrun (by rw [hlen]; decide) 0 9).1⟩

/-- In a bytes column the value is stored as text, and a scan reads the slot of the text. -/
theorem bytes_column_garbles : ∃ s, Transition.run (step ⟨fun _ => "0.1", fun _ => "", fun _ => ""⟩)
        ((new (schemaOf .bytes) 512).withPendingCapacity 8)
        [.append 5 1 0x3fb999999999999a, .flush] = some s ∧
      s.rangeScan 0 9 = .ok (1, [(5, 1, 0x300000000)]) := by
  have hruns : ((Transition.run (step ⟨fun _ => "0.1", fun _ => "", fun _ => ""⟩)
      ((new (schemaOf .bytes) 512).withPendingCapacity 8)
      [.append 5 1 0x3fb999999999999a, .flush]).map fun s => s.rangeScan 0 9) =
        some (.ok (1, [(5, 1, 0x300000000)])) := by
    decide +kernel
  obtain ⟨s, hrun, hscan⟩ := Option.map_eq_some_iff.mp hruns
  exact ⟨s, hrun, hscan⟩

theorem scanBlocks_skip {front : List TsBlockSummary} (h : ∀ summary ∈ front, skip summary = true)
    (rest : List TsBlockSummary) :
    s.scanBlocks skip scan (front ++ rest) = s.scanBlocks skip scan rest := by
  induction front with
  | nil => rfl
  | cons summary front ih =>
    rw [forall_mem_cons] at h
    rw [cons_append, scanBlocks, if_pos h.1]
    exact ih h.2

/-- An append that seals at once. -/
theorem append_seals (blocks : List PaxBlock) (summaries : List TsBlockSummary)
    (h : PaxBlockBuilder.build fmt 512 (schemaOf .f64).toSpecs [rowOf e] = .ok block) :
    step fmt ⟨schemaOf .f64, 512, blocks, summaries, [], 1⟩ (.append e.1 e.2.1 e.2.2) =
      some ⟨schemaOf .f64, 512, blocks ++ [block], summaries ++
        [⟨UInt32.ofNat blocks.length, block.header.minTs, block.header.maxTs, block.header.minPk,
          block.header.maxPk, block.header.rowCount⟩], [], 1⟩ := by
  have hchunk : sealChunk fmt ⟨schemaOf .f64, 512, blocks, summaries, [e], 1⟩ [e] = .ok
      ⟨schemaOf .f64, 512, blocks ++ [block], summaries ++
        [⟨UInt32.ofNat blocks.length, block.header.minTs, block.header.maxTs, block.header.minPk,
          block.header.maxPk, block.header.rowCount⟩], [e], 1⟩ := by
    unfold sealChunk
    rw [map_singleton, h]
  have hflush : flushPending fmt ⟨schemaOf .f64, 512, blocks, summaries, [e], 1⟩ = .ok
      ⟨schemaOf .f64, 512, blocks ++ [block], summaries ++
        [⟨UInt32.ofNat blocks.length, block.header.minTs, block.header.maxTs, block.header.minPk,
          block.header.maxPk, block.header.rowCount⟩], [], 1⟩ := by
    unfold flushPending
    rw [if_neg (by simp), mergeSort_singleton]
    dsimp only
    rw [sealChunks, takeChunk, hchunk]
    dsimp only
    rw [sealChunks]
  rw [step, TimeSeriesStore.append]
  dsimp only
  rw [if_pos (by simp)]
  exact congrArg Except.toOption hflush

theorem run_replicate (h : PaxBlockBuilder.build fmt 512 (schemaOf .f64).toSpecs [rowOf e] = .ok block) (n : ℕ) :
    ∃ summaries, Transition.run (step fmt) ((new (schemaOf .f64) 512).withPendingCapacity 1)
        (List.replicate n (.append e.1 e.2.1 e.2.2)) =
          some ⟨schemaOf .f64, 512, List.replicate n block, summaries, [], 1⟩ ∧
      ∀ summary ∈ summaries, summary.maxTs = block.header.maxTs := by
  induction n with
  | zero => exact ⟨[], rfl, nofun⟩
  | succ n ih =>
    obtain ⟨summaries, hrun, hall⟩ := ih
    refine ⟨summaries ++ [⟨UInt32.ofNat (List.replicate n block).length, block.header.minTs,
      block.header.maxTs, block.header.minPk, block.header.maxPk, block.header.rowCount⟩], ?_, ?_⟩
    · rw [replicate_succ', run_append_some hrun, run_cons,
        append_seals _ _ h, Option.bind_some, run_nil, replicate_succ']
    · rw [forall_mem_append, forall_mem_singleton]
      exact ⟨hall, rfl⟩

/-- **The block after `2 ^ 32` others takes the id of the first**, so a scan for its reading finds
nothing. -/
theorem block_id_wraps :
    ∃ s, Transition.run (step plainFormat) ((new (schemaOf .f64) 512).withPendingCapacity 1)
        (List.replicate (2 ^ 32) (.append 0 0 0) ++ [.append 5 0 0]) = some s ∧
      s.rangeScan 5 5 = .ok (1, []) := by
  have hfirst : (PaxBlockBuilder.build plainFormat 512 (schemaOf .f64).toSpecs
      [rowOf (0, 0, 0)]).toOption.map (fun block => (block.header.maxTs, block.decodeI64Column 0,
        block.decodeI64Column 1, block.decodeI64Column 2)) = some (0, .ok [0], .ok [0], .ok [0]) := by
    set_option maxRecDepth 8000 in decide
  have hlast : (PaxBlockBuilder.build plainFormat 512 (schemaOf .f64).toSpecs
      [rowOf (5, 0, 0)]).toOption.map (fun block => (block.header.minTs, block.header.maxTs)) =
        some (5, 5) := by
    set_option maxRecDepth 8000 in decide
  obtain ⟨block, hblock, hdecode⟩ := Option.map_eq_some_iff.mp hfirst
  obtain ⟨block', hblock', hzones⟩ := Option.map_eq_some_iff.mp hlast
  obtain ⟨hmax, htimes, hseries, hvalues⟩ : block.header.maxTs = 0 ∧
      block.decodeI64Column 0 = .ok [0] ∧ block.decodeI64Column 1 = .ok [0] ∧
        block.decodeI64Column 2 = .ok [0] := by
    simpa only [Prod.mk.injEq] using hdecode
  obtain ⟨hmin', hmax'⟩ := Prod.mk.inj hzones
  have hwrap : UInt32.ofNat (2 ^ 32) = 0 := by decide
  have hpos : 0 < 2 ^ 32 := by decide
  generalize 2 ^ 32 = n at hwrap hpos ⊢
  obtain ⟨summaries, hrun, hall⟩ := run_replicate (toOption_eq_some hblock) n
  rw [run_append_some hrun, run_cons]
  have hstep := append_seals (List.replicate n block) summaries (toOption_eq_some hblock')
  dsimp only at hstep
  rw [hstep, Option.bind_some, run_nil, length_replicate, hwrap]
  refine ⟨_, rfl, ?_⟩
  have hskip : ∀ summary ∈ summaries,
      (decide (summary.maxTs < 5) || decide ((5 : Int64) < summary.minTs)) = true := by
    intro summary hsummary
    rw [hall summary hsummary, hmax]
    rfl
  rw [rangeScan, scanBlocks_skip hskip, scanBlocks, hmin', hmax']
  dsimp only
  rw [UInt32.toNat_zero, getElem?_append_left (by simpa using hpos), getElem?_replicate, if_pos hpos]
  dsimp only
  rw [htimes, hseries, hvalues]
  rfl

/-- **Scans are not complete in general**: a value in a bytes column comes back as other bits, and
a reading after `2 ^ 32` blocks is not found. -/
theorem scans_incomplete : (∃ s, Transition.run (step ⟨fun _ => "0.1", fun _ => "", fun _ => ""⟩)
        ((new (schemaOf .bytes) 512).withPendingCapacity 8)
        [.append 5 1 0x3fb999999999999a, .flush] = some s ∧
      ¬ ∃ touched found, s.rangeScan 0 9 = .ok (touched, found) ∧ found.Perm [(5, 1, 0x3fb999999999999a)]) ∧
    ∃ s, Transition.run (step plainFormat) ((new (schemaOf .f64) 512).withPendingCapacity 1)
        (List.replicate (2 ^ 32) (.append 0 0 0) ++ [.append 5 0 0]) = some s ∧
      ¬ ∃ touched found, s.rangeScan 5 5 = .ok (touched, found) ∧ found.Perm [(5, 0, 0)] := by
  obtain ⟨s, hrun, hscan⟩ := bytes_column_garbles
  obtain ⟨s', hrun', hscan'⟩ := block_id_wraps
  refine ⟨⟨s, hrun, ?_⟩, s', hrun', ?_⟩
  · rintro ⟨touched, found, hfound, hperm⟩
    rw [hscan, Except.ok.injEq] at hfound
    obtain ⟨-, rfl⟩ := Prod.mk.inj hfound
    exact absurd (perm_singleton.mp hperm) (by decide)
  · rintro ⟨touched, found, hfound, hperm⟩
    rw [hscan', Except.ok.injEq] at hfound
    obtain ⟨-, rfl⟩ := Prod.mk.inj hfound
    exact absurd hperm.length_eq (by decide)

end TimeSeriesStore

end CenDB.Projection
