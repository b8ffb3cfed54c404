import CenDB.Storage.Segment

/-! # Zone maps

A block is pruned by the ranges in its header, in its column directory and in the block directory
of its segment.  None of them drops a block that holds a value of the query (`overlaps_of_mem`,
`Built.columnZone_keeps`).  The header keeps every block without a timestamp zone and the block directory
does not, so the two levels agree exactly on blocks that have one (`levelsAgree_iff`,
`zones_sound`). -/

namespace CenDB.Storage

open Words List Option

variable {fmt : TextFormat}

/-! ### Ranges -/

/-- A range that holds a value of the query overlaps it. -/
theorem overlaps_of_mem {lo hi min max x : Int64} (hlo : lo.toInt ≤ x.toInt)
    (hhi : x.toInt ≤ hi.toInt) (hmin : min.toInt ≤ x.toInt) (hmax : x.toInt ≤ max.toInt) :
    (!(decide (max < lo) || decide (hi < min))) = true := by
  have hleft : ¬ max < lo := fun h => by
    have := Int64.lt_iff_toInt_lt.mp h
    omega
  have hright : ¬ hi < min := fun h => by
    have := Int64.lt_iff_toInt_lt.mp h
    omega
  rw [decide_eq_false hleft, decide_eq_false hright]
  rfl

/-- The range of values holds each of them. -/
theorem range_spec {xs : List Int64} {x : Int64} (hx : x ∈ xs) :
    ((((xs.foldl extendRange none).map Prod.fst).getD Int64.maxValue).toInt ≤ x.toInt) ∧
      x.toInt ≤ (((xs.foldl extendRange none).map Prod.snd).getD Int64.minValue).toInt := by
  rw [foldl_extendRange]
  cases xs with
  | nil => cases hx
  | cons y ys => exact ⟨(minOf_spec y ys).2 x hx, (maxOf_spec y ys).2 x hx⟩

/-- Only the empty range has its ends the wrong way round. -/
theorem range_empty_iff (xs : List Int64) : ((xs.foldl extendRange none).map Prod.snd).getD Int64.minValue <
      ((xs.foldl extendRange none).map Prod.fst).getD Int64.maxValue ↔ xs = [] := by
  cases xs with
  | nil => exact iff_of_true (by decide) rfl
  | cons x xs =>
    refine iff_of_false ?_ (cons_ne_nil x xs)
    obtain ⟨hmin, hmax⟩ := range_spec (mem_cons_self : x ∈ x :: xs)
    intro hlt
    have hlt' := Int64.lt_iff_toInt_lt.mp hlt
    omega

/-! ### The header and the columns -/

section Levels

variable {specs : List ColumnSpec} {rows : List (List Value)} {block : PaxBlock}
  {varheap : List UInt8} {i : ℕ} {spec : ColumnSpec} {row : List Value} {v : Value} {x lo hi : Int64}

theorem mem_zoneValues {flag : ColumnSpec → UInt8} (hrow : row ∈ rows)
    (hspec : specs[i]? = some spec) (hv : row[i]? = some v) (hflag : flag spec ≠ 0)
    (hx : zoneWord v = some x) : x ∈ zoneValues flag specs rows := by
  refine mem_flatMap.mpr ⟨row, hrow, mem_filterMap.mpr ⟨_, cell_mem hspec hv, ?_⟩⟩
  rw [if_pos hflag]
  exact hx

theorem Built.zoneOverlapsPk (hb : Built fmt specs rows block varheap)
    (hx : x ∈ zoneValues ColumnSpec.isPk specs rows) (hlo : lo ≤ x) (hhi : x ≤ hi) :
    block.header.zoneOverlapsPk lo hi = true := by
  obtain ⟨hmin, hmax⟩ := range_spec hx
  rw [← hb.minPk] at hmin
  rw [← hb.maxPk] at hmax
  exact overlaps_of_mem (Int64.le_iff_toInt_le.mp hlo) (Int64.le_iff_toInt_le.mp hhi) hmin hmax

/-- A block without timestamps is never dropped by its header. -/
theorem Built.zoneOverlapsTs_eq (hb : Built fmt specs rows block varheap) (lo hi : Int64) :
    block.header.zoneOverlapsTs lo hi = (decide (zoneValues ColumnSpec.isTs specs rows = []) ||
        !(decide (block.header.maxTs < lo) || decide (hi < block.header.minTs))) := by
  have hiff := range_empty_iff (zoneValues ColumnSpec.isTs specs rows)
  rw [← hb.maxTs, ← hb.minTs] at hiff
  unfold BlockHeader.zoneOverlapsTs
  by_cases hempty : zoneValues ColumnSpec.isTs specs rows = []
  · rw [if_pos (hiff.mpr hempty), decide_eq_true hempty]
    rfl
  · rw [if_neg (fun h => hempty (hiff.mp h)), decide_eq_false hempty, Bool.false_or]

theorem Built.overlapsTs (hb : Built fmt specs rows block varheap)
    (hx : x ∈ zoneValues ColumnSpec.isTs specs rows) (hlo : lo ≤ x) (hhi : x ≤ hi) :
    (!(decide (block.header.maxTs < lo) || decide (hi < block.header.minTs))) = true := by
  obtain ⟨hmin, hmax⟩ := range_spec hx
  rw [← hb.minTs] at hmin
  rw [← hb.maxTs] at hmax
  exact overlaps_of_mem (Int64.le_iff_toInt_le.mp hlo) (Int64.le_iff_toInt_le.mp hhi) hmin hmax

/-- The stored word of an integer is its zone value. -/
theorem fixedWord_eq_zoneWord {kind : ValueKind} {w : Int64} (hw : fixedWord kind v = some w)
    (hx : zoneWord v = some x) : w = x := by
  cases kind <;> cases v <;> simp_all [fixedWord, zoneWord]

/-- The zone of a column holds every integer that is stored in it. -/
theorem Built.columnZone_keeps (hb : Built fmt specs rows block varheap) (hrow : row ∈ rows)
    (hspec : specs[i]? = some spec) (hv : row[i]? = some v) (hx : zoneWord v = some x)
    (hlo : lo ≤ x) (hhi : x ≤ hi) :
    ∃ dir, block.directory i = .ok dir ∧ dir.zoneOverlaps lo hi = true := by
  by_cases hwidth : spec.kind.fixedWidth = 0
  · obtain ⟨staging, dir, page, mp, zoneMin, zoneMax, enc, hpush, hhas⟩ := hb.column i spec hspec
    refine ⟨dir, hhas.directory, ?_⟩
    rw [Staging.start, if_pos hwidth, pushAll_var, Except.ok.injEq] at hpush
    have hencoded := hhas.encoded
    rw [← hpush, encodeColumn, Except.ok.injEq, Prod.mk.injEq, Prod.mk.injEq, Prod.mk.injEq] at hencoded
    have hmin := hhas.entry.2.2.2.2.1.trans hencoded.2.1.symm
    have hmax := hhas.entry.2.2.2.2.2.trans hencoded.2.2.1.symm
    rw [ColumnDirectory.zoneOverlaps, hmin, hmax]
    rfl
  · obtain ⟨hstorable, dir, page, hwords⟩ := hb.hasWords hspec hwidth
    refine ⟨dir, hwords.directory, ?_⟩
    obtain ⟨r, hr⟩ := mem_iff_getElem?.mp hrow
    have hcol := getElem?_columnOf (i := i) hr
    rw [getD_eq_getElem?_getD, hv, getD_some] at hcol
    have hmem := mem_of_getElem? hcol
    have hword : storedWord spec.kind v = x := by
      cases hstorable v hmem with
      | inl hnull =>
        rw [hnull] at hx
        cases hx
      | inr hsome =>
        obtain ⟨w, hw⟩ := isSome_iff_exists.mp hsome
        rw [storedWord, hw, getD_some, fixedWord_eq_zoneWord hw hx]
    have hstored : x ∈ (columnOf rows i).map (storedWord spec.kind) := List.mem_map.mpr ⟨v, hmem, hword⟩
    have hmin := hwords.zoneMin
    have hmax := hwords.zoneMax
    generalize (columnOf rows i).map (storedWord spec.kind) = vals at hstored hmin hmax
    cases vals with
    | nil => cases hstored
    | cons y ys =>
      have hle := (minOf_spec y (y :: ys)).2 x (mem_cons_of_mem y hstored)
      have hge := (maxOf_spec y (y :: ys)).2 x (mem_cons_of_mem y hstored)
      rw [ColumnDirectory.zoneOverlaps, hmin, hmax]
      split
      · rfl
      · exact overlaps_of_mem (Int64.le_iff_toInt_le.mp hlo) (Int64.le_iff_toInt_le.mp hhi) hle hge

end Levels

/-! ### The block directory -/

/-- The zones of an entry are those of a block's header. -/
def HasZonesOf (block : PaxBlock) (e : BlockDirEntry) : Prop :=
  e.minPk = block.header.minPk ∧ e.maxPk = block.header.maxPk ∧
    e.minTs = block.header.minTs ∧ e.maxTs = block.header.maxTs

/-- Every appended block gets an entry with its zones, after the older ones. -/
theorem appendBlocks_zones {w w' : SegmentWriter} {blocks : List PaxBlock}
    (h : w.appendBlocks blocks = .ok w') :
    ∃ es, w'.blockDir.entries = w.blockDir.entries ++ es ∧ List.Forall₂ HasZonesOf blocks es := by
  induction blocks generalizing w with
  | nil =>
    rw [← Except.ok.inj h]
    exact ⟨[], (append_nil _).symm, List.Forall₂.nil⟩
  | cons block blocks ih =>
    rw [SegmentWriter.appendBlocks] at h
    split at h
    · cases h
    · rename_i mid id hmid
      obtain ⟨es, hes, hzones⟩ := ih h
      unfold SegmentWriter.appendBlock at hmid
      split at hmid
      · cases hmid
      · rw [Except.ok.injEq, Prod.mk.injEq] at hmid
        rw [← hmid.1] at hes
        refine ⟨_ :: es, hes.trans (append_assoc ..), List.Forall₂.cons ?_ hzones⟩
        exact ⟨rfl, rfl, rfl, rfl⟩

section Pruning

variable {specs : List ColumnSpec} {rows : List (List Value)} {block : PaxBlock}
  {d : BlockDirectory} {e : BlockDirEntry} {lo hi : Int64}

/-- No level drops a block for a query that one of its keys or timestamps lies in. -/
def KeepsRows (specs : List ColumnSpec) (rows : List (List Value)) (block : PaxBlock)
    (d : BlockDirectory) (e : BlockDirEntry) (lo hi : Int64) : Prop :=
  ∀ row ∈ rows, ∀ (i : ℕ) spec v x, specs[i]? = some spec → row[i]? = some v →
    zoneWord v = some x → lo ≤ x → x ≤ hi →
      (spec.isPk ≠ 0 → block.header.zoneOverlapsPk lo hi = true ∧ e ∈ d.blocksOverlappingPk lo hi) ∧
      (spec.isTs ≠ 0 → block.header.zoneOverlapsTs lo hi = true ∧ e ∈ d.blocksOverlappingTs lo hi) ∧
      ∃ dir, block.directory i = .ok dir ∧ dir.zoneOverlaps lo hi = true

/-- The block directory keeps a block exactly when its header does. -/
def LevelsAgree (block : PaxBlock) (d : BlockDirectory) (e : BlockDirEntry) (lo hi : Int64) : Prop :=
  (e ∈ d.blocksOverlappingPk lo hi ↔ block.header.zoneOverlapsPk lo hi = true) ∧
    (e ∈ d.blocksOverlappingTs lo hi ↔ block.header.zoneOverlapsTs lo hi = true)

theorem mem_blocksOverlappingPk (he : e ∈ d.entries) (hzones : HasZonesOf block e) :
    e ∈ d.blocksOverlappingPk lo hi ↔ block.header.zoneOverlapsPk lo hi = true := by
  unfold BlockDirectory.blocksOverlappingPk
  rw [mem_filter, hzones.1, hzones.2.1]
  exact and_iff_right he

theorem mem_blocksOverlappingTs (he : e ∈ d.entries) (hzones : HasZonesOf block e) :
    e ∈ d.blocksOverlappingTs lo hi ↔
      (!(decide (block.header.maxTs < lo) || decide (hi < block.header.minTs))) = true := by
  unfold BlockDirectory.blocksOverlappingTs
  rw [mem_filter, hzones.2.2.1, hzones.2.2.2]
  exact and_iff_right he

/-- No level of a built block prunes wrongly, with or without a timestamp zone. -/
theorem keepsRows_of_built {varheap : List UInt8} (hb : Built fmt specs rows block varheap)
    (he : e ∈ d.entries) (hzones : HasZonesOf block e) : KeepsRows specs rows block d e lo hi := by
  intro row hrow i spec v x hspec hv hx hlo hhi
  refine ⟨fun hpk => ?_, fun hts => ?_, hb.columnZone_keeps hrow hspec hv hx hlo hhi⟩
  · have hkeep := hb.zoneOverlapsPk (mem_zoneValues hrow hspec hv hpk hx) hlo hhi
    exact ⟨hkeep, (mem_blocksOverlappingPk he hzones).mpr hkeep⟩
  · have hkeep := hb.overlapsTs (mem_zoneValues hrow hspec hv hts hx) hlo hhi
    exact ⟨by rw [hb.zoneOverlapsTs_eq, hkeep, Bool.or_true], (mem_blocksOverlappingTs he hzones).mpr hkeep⟩

/-- The two levels agree on every query exactly when the block has a timestamp zone. -/
theorem levelsAgree_iff {varheap : List UInt8} (hb : Built fmt specs rows block varheap)
    (he : e ∈ d.entries) (hzones : HasZonesOf block e) :
    (∀ lo hi, LevelsAgree block d e lo hi) ↔ zoneValues ColumnSpec.isTs specs rows ≠ [] := by
  constructor
  · intro hagree hempty
    -- a query that ends below the greatest timestamp
    have hts := (hagree 0 0).2
    rw [mem_blocksOverlappingTs he hzones, hb.zoneOverlapsTs_eq, decide_eq_true hempty,
      Bool.true_or, hb.maxTs, hb.minTs, hempty] at hts
    exact absurd (hts.mpr rfl) (by decide)
  · intro hne lo hi
    refine ⟨mem_blocksOverlappingPk he hzones, ?_⟩
    rw [mem_blocksOverlappingTs he hzones, hb.zoneOverlapsTs_eq, decide_eq_false hne, Bool.false_or]

/-- **Pruning is sound, and its two levels agree exactly on blocks with a timestamp zone.** -/
theorem zones_sound (blockSize : UInt32) (hbuild : PaxBlockBuilder.build fmt blockSize specs rows = .ok block)
    (hsize : blockSize.toNat + minipageAlign ≤ 2 ^ 32) (segmentId : UInt64)
    (pageSize segmentBlockSize : UInt32) (createdLsn : UInt64) (blocks : List PaxBlock)
    (w : SegmentWriter) (happend : (SegmentWriter.create segmentId pageSize segmentBlockSize
      createdLsn).appendBlocks blocks = .ok w) (k : ℕ) (hk : blocks[k]? = some block) :
    (∃ e, w.blockDir.entries[k]? = some e ∧
      ∀ lo hi, KeepsRows specs rows block w.blockDir e lo hi ∧ LevelsAgree block w.blockDir e lo hi) ↔
    zoneValues ColumnSpec.isTs specs rows ≠ [] := by
  obtain ⟨varheap, hb⟩ := build_spec hbuild hsize
  obtain ⟨es, hes, hzones⟩ := appendBlocks_zones happend
  have hentries : w.blockDir.entries = es := hes
  rw [forall₂_iff_get] at hzones
  obtain ⟨hlen, hzones⟩ := hzones
  obtain ⟨hlt, hblock⟩ := List.getElem?_eq_some_iff.mp hk
  have hlt' : k < es.length := by omega
  have hzone := hzones k hlt hlt'
  simp only [get_eq_getElem] at hzone
  rw [hblock] at hzone
  have hmem : es[k] ∈ w.blockDir.entries := by
    rw [hentries]
    exact getElem_mem hlt'
  have hget : w.blockDir.entries[k]? = some es[k] := by
    rw [hentries]
    exact getElem?_eq_getElem hlt'
  rw [← levelsAgree_iff hb hmem hzone]
  constructor
  · rintro ⟨e, he, hkeeps⟩ lo hi
    rw [hget, Option.some.injEq] at he
    rw [he]
    exact (hkeeps lo hi).2
  · intro hagree
    exact ⟨es[k], hget, fun lo hi => ⟨keepsRows_of_built hb hmem hzone, hagree lo hi⟩⟩

/-- The one block of a segment, and what the two levels keep for a range of timestamps. -/
def tsLevels (specs : List ColumnSpec) (rows : List (List Value)) (lo hi : Int64) :
    Option (Bool × List BlockDirEntry) :=
  (PaxBlockBuilder.build plainFormat 512 specs rows).toOption.bind fun block =>
    ((SegmentWriter.create 1 512 512 0).appendBlocks [block]).toOption.map fun w =>
      (block.header.zoneOverlapsTs lo hi, w.blockDir.blocksOverlappingTs lo hi)

theorem levels_disagree_of_run (h : tsLevels specs rows lo hi = some (true, [])) :
    ∃ block w, PaxBlockBuilder.build plainFormat 512 specs rows = .ok block ∧
      (SegmentWriter.create 1 512 512 0).appendBlocks [block] = .ok w ∧
      ¬ ∃ e, w.blockDir.entries[0]? = some e ∧ ∀ lo hi,
        KeepsRows specs rows block w.blockDir e lo hi ∧ LevelsAgree block w.blockDir e lo hi := by
  unfold tsLevels at h
  cases hbuild : PaxBlockBuilder.build plainFormat 512 specs rows with
  | error e =>
    rw [hbuild] at h
    cases h
  | ok block =>
    rw [hbuild, Except.toOption, bind_some] at h
    cases happend : (SegmentWriter.create 1 512 512 0).appendBlocks [block] with
    | error e =>
      rw [happend] at h
      cases h
    | ok w =>
      rw [happend, Except.toOption, map_some, Option.some.injEq, Prod.mk.injEq] at h
      refine ⟨block, w, rfl, happend, ?_⟩
      rintro ⟨e, -, hlevels⟩
      have hmem := (hlevels lo hi).2.2.mpr h.1
      rw [h.2] at hmem
      cases hmem

/-- The levels disagree on a block without rows, and on one without a timestamp column. -/
theorem ts_levels_disagree : (∃ block w, PaxBlockBuilder.build plainFormat 512
        [(ColumnSpec.new 0 .i64).pk, (ColumnSpec.new 1 .timestamp).ts] [] = .ok block ∧
      (SegmentWriter.create 1 512 512 0).appendBlocks [block] = .ok w ∧
      ¬ ∃ e, w.blockDir.entries[0]? = some e ∧ ∀ lo hi,
        KeepsRows [(ColumnSpec.new 0 .i64).pk, (ColumnSpec.new 1 .timestamp).ts] [] block
          w.blockDir e lo hi ∧ LevelsAgree block w.blockDir e lo hi) ∧
    ∃ block w, PaxBlockBuilder.build plainFormat 512 [(ColumnSpec.new 0 .i64).pk] [[.i64 5]] = .ok block ∧
      (SegmentWriter.create 1 512 512 0).appendBlocks [block] = .ok w ∧
      ¬ ∃ e, w.blockDir.entries[0]? = some e ∧ ∀ lo hi,
        KeepsRows [(ColumnSpec.new 0 .i64).pk] [[.i64 5]] block w.blockDir e lo hi ∧
          LevelsAgree block w.blockDir e lo hi := by
  have hempty : tsLevels [(ColumnSpec.new 0 .i64).pk, (ColumnSpec.new 1 .timestamp).ts] [] 0 10 =
      some (true, []) := by set_option maxRecDepth 8000 in decide
  have hpk : tsLevels [(ColumnSpec.new 0 .i64).pk] [[.i64 5]] 0 10 = some (true, []) := by
    set_option maxRecDepth 8000 in decide
  exact ⟨levels_disagree_of_run hempty, levels_disagree_of_run hpk⟩

/-- A block with a key and a timestamp. -/
theorem zones_sound_row : ∃ block w, PaxBlockBuilder.build plainFormat 512
        [(ColumnSpec.new 0 .i64).pk, (ColumnSpec.new 1 .timestamp).ts] [[.i64 5, .timestamp 7]] = .ok block ∧
      (SegmentWriter.create 1 512 512 0).appendBlocks [block] = .ok w ∧
      ∃ e, w.blockDir.entries[0]? = some e ∧ ∀ lo hi, LevelsAgree block w.blockDir e lo hi := by
  have hrun : tsLevels [(ColumnSpec.new 0 .i64).pk, (ColumnSpec.new 1 .timestamp).ts]
      [[.i64 5, .timestamp 7]] 8 9 = some (false, []) := by
    set_option maxRecDepth 8000 in decide
  unfold tsLevels at hrun
  cases hbuild : PaxBlockBuilder.build plainFormat 512
      [(ColumnSpec.new 0 .i64).pk, (ColumnSpec.new 1 .timestamp).ts] [[.i64 5, .timestamp 7]] with
  | error e =>
    rw [hbuild] at hrun
    cases hrun
  | ok block =>
    rw [hbuild, Except.toOption, Option.bind_some] at hrun
    cases happend : (SegmentWriter.create 1 512 512 0).appendBlocks [block] with
    | error e =>
      rw [happend] at hrun
      cases hrun
    | ok w =>
      obtain ⟨e, he, hlevels⟩ := (zones_sound 512 hbuild (by decide) 1 512 512 0 [block] w happend
        0 rfl).mpr (by decide)
      exact ⟨block, w, rfl, happend, e, he, fun lo hi => (hlevels lo hi).2⟩

end Pruning

end CenDB.Storage
