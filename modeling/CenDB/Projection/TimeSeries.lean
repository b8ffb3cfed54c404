import CenDB.Lib.Transition
import CenDB.Storage.ZoneMaps

/-! # Time series

Readings wait in a list and are sealed, sorted by series and time, into blocks; a summary of each
block has the ranges of its times and series, and a scan skips the blocks whose ranges miss it.  A
store is not used after a failed call.

A sealed block gives its readings back (`holdsReadings_of_build`), and the ranges of its header cover
them (`covers_of_build`). -/

namespace CenDB.Projection

open CenDB.Storage List

/-- Time, series, and the bits of the value. -/
abbrev Reading := Int64 × Int64 × UInt64

structure TimeSeriesSchema where
  tsColId : UInt32
  seriesColId : UInt32
  extraCols : List ColumnSpec

def TimeSeriesSchema.toSpecs (schema : TimeSeriesSchema) : List ColumnSpec :=
  [(ColumnSpec.new schema.tsColId .timestamp).ts, (ColumnSpec.new schema.seriesColId .i64).pk] ++
    schema.extraCols

structure TsBlockSummary where
  blockId : UInt32
  minTs : Int64
  maxTs : Int64
  minSeries : Int64
  maxSeries : Int64
  rowCount : UInt32

structure TimeSeriesStore where
  schema : TimeSeriesSchema
  blockSize : UInt32
  blocks : List PaxBlock
  summaries : List TsBlockSummary
  pending : List Reading
  pendingCapacity : ℕ

namespace TimeSeriesStore

def new (schema : TimeSeriesSchema) (blockSize : UInt32) : TimeSeriesStore :=
  ⟨schema, blockSize, [], [], [], 1024⟩

def withPendingCapacity (s : TimeSeriesStore) (cap : ℕ) : TimeSeriesStore :=
  { s with pendingCapacity := cap }

def rowOf (e : Reading) : List Value := [.timestamp e.1, .i64 e.2.1, .f64 e.2.2]

/-- The space that a reading is taken to need: three words. -/
def rowBytes : ℕ := 8 + 8 + 8

/-- The readings that still fit a block, and the rest. -/
def takeChunk (usable : ℕ) : ℕ → List Reading → List Reading × List Reading
  | _, [] => ([], [])
  | chunkBytes, e :: es =>
    if usable < chunkBytes + rowBytes then ([], e :: es)
    else
      let (chunk, rest) := takeChunk usable (chunkBytes + rowBytes) es
      (e :: chunk, rest)

theorem takeChunk_append (usable chunkBytes : ℕ) (es : List Reading) :
    (takeChunk usable chunkBytes es).1 ++ (takeChunk usable chunkBytes es).2 = es := by
  induction es generalizing chunkBytes with
  | nil => rfl
  | cons e es ih =>
    rw [takeChunk]
    split
    · rfl
    · exact congrArg (e :: ·) (ih _)

theorem length_takeChunk (usable chunkBytes : ℕ) (es : List Reading) :
    chunkBytes + rowBytes * (takeChunk usable chunkBytes es).1.length ≤ max usable chunkBytes := by
  induction es generalizing chunkBytes with
  | nil => exact le_max_right _ _
  | cons e es ih =>
    rw [takeChunk]
    split
    · simp
    · rename_i hfits
      have hrest := ih (chunkBytes + rowBytes)
      show chunkBytes + rowBytes * ((takeChunk usable (chunkBytes + rowBytes) es).1.length + 1) ≤ _
      rw [Nat.mul_succ]
      omega

/-- Seal a block of readings and keep its ranges. -/
def sealChunk (fmt : TextFormat) (s : TimeSeriesStore) (chunk : List Reading) : Except Halt TimeSeriesStore :=
  match PaxBlockBuilder.build fmt s.blockSize s.schema.toSpecs (chunk.map rowOf) with
  | .error err => .error err
  | .ok block =>
    let hdr := block.header
    let summary : TsBlockSummary :=
      ⟨UInt32.ofNat s.blocks.length, hdr.minTs, hdr.maxTs, hdr.minPk, hdr.maxPk, hdr.rowCount⟩
    .ok { s with summaries := s.summaries ++ [summary], blocks := s.blocks ++ [block] }

/-- Seal blocks until no reading is left; a block takes its first reading in any case. -/
def sealChunks (fmt : TextFormat) (usable : ℕ) (s : TimeSeriesStore) :
    List Reading → Except Halt TimeSeriesStore
  | [] => .ok s
  | e :: es =>
    match sealChunk fmt s (e :: (takeChunk usable rowBytes es).1) with
    | .error err => .error err
    | .ok s => sealChunks fmt usable s (takeChunk usable rowBytes es).2
  termination_by es => es.length
  decreasing_by
    have hlen := congrArg List.length (takeChunk_append usable rowBytes es)
    rw [List.length_append] at hlen
    rw [length_cons]
    omega

/-- The order of sealed readings: by series, then by time. -/
def readingLe (e e' : Reading) : Bool := e.2.1 < e'.2.1 || (e.2.1 = e'.2.1 && e.1 ≤ e'.1)

def flushPending (fmt : TextFormat) (s : TimeSeriesStore) : Except Halt TimeSeriesStore :=
  if s.pending.isEmpty then .ok s
  else
    let blockOverhead := 64 + 3 * 64 + 256
    let usable := s.blockSize.toNat - blockOverhead
    match sealChunks fmt usable s (s.pending.mergeSort readingLe) with
    | .error err => .error err
    | .ok s => .ok { s with pending := [] }

def append (fmt : TextFormat) (s : TimeSeriesStore) (ts seriesId : Int64) (value : UInt64) :
    Except Halt TimeSeriesStore :=
  let s := { s with pending := s.pending ++ [(ts, seriesId, value)] }
  if s.pendingCapacity ≤ s.pending.length then s.flushPending fmt else .ok s

/-! ### Scans -/

/-- The rows of a block in a time range, from the row `i` on. -/
def scanRows (lo hi : Int64) (seriesVals fBits : List Int64) : ℕ → List Int64 → Except Halt (List Reading)
  | _, [] => .ok []
  | i, ts :: rest =>
    if ts < lo || hi < ts then scanRows lo hi seriesVals fBits (i + 1) rest
    else
      match fBits[i]?, seriesVals[i]? with
      | some f, some series =>
        (scanRows lo hi seriesVals fBits (i + 1) rest).map ((ts, series, f.toUInt64) :: ·)
      | _, _ => .error .panic

/-- The rows of a series in a time range. -/
def scanSeriesRows (seriesId lo hi : Int64) (seriesVals fBits : List Int64) :
    ℕ → List Int64 → Except Halt (List (Int64 × UInt64))
  | _, [] => .ok []
  | i, ts :: rest =>
    match seriesVals[i]? with
    | none => .error .panic
    | some series =>
      if series ≠ seriesId then scanSeriesRows seriesId lo hi seriesVals fBits (i + 1) rest
      else if ts < lo || hi < ts then scanSeriesRows seriesId lo hi seriesVals fBits (i + 1) rest
      else
        match fBits[i]? with
        | some f =>
          (scanSeriesRows seriesId lo hi seriesVals fBits (i + 1) rest).map ((ts, f.toUInt64) :: ·)
        | none => .error .panic

/-- Scan the blocks whose summaries are not skipped; their number and the rows found. -/
def scanBlocks {α : Type} (s : TimeSeriesStore) (skip : TsBlockSummary → Bool)
    (scan : List Int64 → List Int64 → List Int64 → Except Halt (List α)) :
    List TsBlockSummary → Except Halt (ℕ × List α)
  | [] => .ok (0, [])
  | summary :: rest =>
    if skip summary then scanBlocks s skip scan rest
    else
      match s.blocks[summary.blockId.toNat]? with
      | none => .error .panic
      | some block =>
        match block.decodeI64Column 0, block.decodeI64Column 1, block.decodeI64Column 2 with
        | .ok tsVals, .ok seriesVals, .ok fBits =>
          match scan tsVals seriesVals fBits with
          | .error err => .error err
          | .ok found =>
            (scanBlocks s skip scan rest).map fun r => (r.1 + 1, found ++ r.2)
        | .error err, _, _ => .error err
        | _, .error err, _ => .error err
        | _, _, .error err => .error err

def rangeScan (s : TimeSeriesStore) (lo hi : Int64) : Except Halt (ℕ × List Reading) :=
  (s.scanBlocks (fun summary => summary.maxTs < lo || hi < summary.minTs)
    (fun tsVals seriesVals fBits => scanRows lo hi seriesVals fBits 0 tsVals) s.summaries).map fun r =>
      (r.1, r.2 ++ s.pending.filter fun e => lo ≤ e.1 && e.1 ≤ hi)

def rangeScanForSeries (s : TimeSeriesStore) (seriesId lo hi : Int64) :
    Except Halt (ℕ × List (Int64 × UInt64)) :=
  (s.scanBlocks (fun summary => (summary.maxTs < lo || hi < summary.minTs) ||
      (seriesId < summary.minSeries || summary.maxSeries < seriesId))
    (fun tsVals seriesVals fBits => scanSeriesRows seriesId lo hi seriesVals fBits 0 tsVals)
    s.summaries).map fun r =>
      (r.1, r.2 ++ (s.pending.filter fun e => e.2.1 = seriesId && (lo ≤ e.1 && e.1 ≤ hi)).map
        fun e => (e.1, e.2.2))

/-! ### A block gives its readings back -/

variable {fmt : TextFormat} {s s' : TimeSeriesStore} {lo hi : Int64}

/-- The one extra column has the values as they are: it is of kind `F64`, and its encoding loses no
word. -/
def ValueColumn (schema : TimeSeriesSchema) : Prop :=
  ∃ spec, schema.extraCols = [spec] ∧ spec.kind = .f64 ∧
    ∀ vals : List Int64, vals ≠ [] → vals.length < 2 ^ 32 → Fits spec.encoding vals

/-- A block that holds readings. -/
structure HoldsReadings (block : PaxBlock) (es : List Reading) : Prop where
  times : block.decodeI64Column 0 = .ok (es.map fun e => e.1)
  series : block.decodeI64Column 1 = .ok (es.map fun e => e.2.1)
  values : block.decodeI64Column 2 = .ok (es.map fun e => e.2.2.toInt64)

/-- A summary whose ranges cover readings. -/
def Covers (summary : TsBlockSummary) (es : List Reading) : Prop :=
  ∀ e ∈ es, (summary.minTs ≤ e.1 ∧ e.1 ≤ summary.maxTs) ∧
    (summary.minSeries ≤ e.2.1 ∧ e.2.1 ≤ summary.maxSeries)

variable {blockSize : UInt32} {schema : TimeSeriesSchema} {es : List Reading} {block : PaxBlock}

theorem holdsReadings_of_build (hcolumn : ValueColumn schema)
    (h : PaxBlockBuilder.build fmt blockSize schema.toSpecs (es.map rowOf) = .ok block)
    (hsize : blockSize.toNat + minipageAlign ≤ 2 ^ 32) (hne : es ≠ []) (hfew : es.length < 2 ^ 32) :
    HoldsReadings block es := by
  obtain ⟨spec, hspec, hkind, hfits⟩ := hcolumn
  obtain ⟨varheap, hb⟩ := build_spec h hsize
  have hlen : (es.map rowOf).length < 2 ^ 32 := by rwa [length_map]
  have hvalue : schema.toSpecs[2]? = some spec := by rw [TimeSeriesSchema.toSpecs, hspec]; rfl
  have hwords : (columnOf (es.map rowOf) 2).map (storedWord spec.kind) = es.map fun e => e.2.2.toInt64 := by
    rw [columnOf, map_map, map_map, hkind]
    rfl
  refine ⟨?_, ?_, ?_⟩
  · rw [hb.decodeI64Column_raw (i := 0) rfl rfl (Nat.succ_ne_zero 7) hlen, columnOf, map_map, map_map]
    rfl
  · rw [hb.decodeI64Column_raw (i := 1) rfl rfl (Nat.succ_ne_zero 7) hlen, columnOf, map_map, map_map]
    rfl
  · have hused (vals : List Int64) : usedEncoding spec vals = spec.encoding := by
      rw [usedEncoding, if_neg (by simp [hkind])]
    rw [← hwords]
    refine hb.decodeI64Column_words hvalue (by rw [hkind]; exact Nat.succ_ne_zero 7) ?_ hlen
    rw [hused, hwords]
    exact hfits _ (by simpa using hne) (by rwa [length_map])

/-- The ranges of a block's header cover its readings. -/
theorem covers_of_build (h : PaxBlockBuilder.build fmt blockSize schema.toSpecs (es.map rowOf) = .ok block)
    (hsize : blockSize.toNat + minipageAlign ≤ 2 ^ 32) (blockId rowCount : UInt32) :
    Covers ⟨blockId, block.header.minTs, block.header.maxTs, block.header.minPk, block.header.maxPk,
      rowCount⟩ es := by
  obtain ⟨varheap, hb⟩ := build_spec h hsize
  intro e he
  have hrow : rowOf e ∈ es.map rowOf := mem_map_of_mem he
  have hts : e.1 ∈ zoneValues ColumnSpec.isTs schema.toSpecs (es.map rowOf) :=
    mem_zoneValues (i := 0) hrow rfl rfl (show (1 : UInt8) ≠ 0 by decide) rfl
  have hpk : e.2.1 ∈ zoneValues ColumnSpec.isPk schema.toSpecs (es.map rowOf) :=
    mem_zoneValues (i := 1) hrow rfl rfl (show (1 : UInt8) ≠ 0 by decide) rfl
  obtain ⟨hminTs, hmaxTs⟩ := range_spec hts
  obtain ⟨hminPk, hmaxPk⟩ := range_spec hpk
  rw [← hb.minTs] at hminTs
  rw [← hb.maxTs] at hmaxTs
  rw [← hb.minPk] at hminPk
  rw [← hb.maxPk] at hmaxPk
  exact ⟨⟨Int64.le_iff_toInt_le.mpr hminTs, Int64.le_iff_toInt_le.mpr hmaxTs⟩,
    Int64.le_iff_toInt_le.mpr hminPk, Int64.le_iff_toInt_le.mpr hmaxPk⟩

end TimeSeriesStore

end CenDB.Projection
