import CenDB.Lib.Regions
import CenDB.Storage.Header
import CenDB.Storage.Minipage

/-! # PAX blocks

The builder collects rows in one staging area for each column, with the ranges of the key and the
timestamp; `finalize` encodes the columns and lays out header, column directory, minipages and
variable-length heap in one buffer.  The readers work on the bytes of a finished block.

An offset is a natural number where the source has a `usize`, and a `UInt32` where it has a
`u32`, so that narrowing an offset wraps.  A builder is used up by a failed call. -/

namespace CenDB.Storage

open Words

/-- The staging area of a column. -/
inductive Staging where
  | fixed (kind : ValueKind) (vals : List Int64)
  | var (slots : List (UInt32 × UInt32)) (heap : List UInt8)
deriving DecidableEq, Repr

structure PaxBlockBuilder where
  blockSize : UInt32
  specs : List ColumnSpec
  staging : List Staging
  rowCount : UInt32
  pkRange : Option (Int64 × Int64)
  tsRange : Option (Int64 × Int64)
deriving DecidableEq, Repr

/-- A finished block. -/
structure PaxBlock where
  buf : List UInt8
  blockSize : UInt32
deriving DecidableEq, Repr

/-- The length that marks a null slot. -/
def nullLen : UInt32 := 0xFFFFFFFF

/-! ### Staging rows -/

/-- The empty staging area of a column. -/
def Staging.start (kind : ValueKind) : Staging :=
  if kind.fixedWidth = 0 then .var [] [] else .fixed kind []

/-- A non-bytes value as a bytes column stores it. -/
def valueToString (fmt : TextFormat) : Value → String
  | .null => ""
  | .bool b => toString b
  | .i64 x => toString x
  | .u64 x => toString x
  | .f64 bits => fmt.displayF64 bits
  | .bytes b => fmt.fromUtf8Lossy b
  | .timestamp x => toString x

/-- The stored word of a value in a column of fixed width. -/
def fixedWord : ValueKind → Value → Option Int64
  | .bool, .bool b => some (if b then 1 else 0)
  | .i64, .i64 x => some x
  | .u64, .u64 x => some x.toInt64
  | .f64, .f64 bits => some bits.toInt64
  | .timestamp, .timestamp x => some x
  | .i64, .timestamp x => some x
  | _, _ => none

/-- The zone contribution of a value. -/
def zoneWord : Value → Option Int64
  | .i64 x => some x
  | .u64 x => some x.toInt64
  | .timestamp x => some x
  | _ => none

/-- Widen a range to hold a value. -/
def extendRange (range : Option (Int64 × Int64)) (v : Int64) : Option (Int64 × Int64) :=
  match range with
  | some (lo, hi) => some (if v < lo then v else lo, if hi < v then v else hi)
  | none => some (v, v)

/-- Append bytes to the heap, with their slot. -/
def pushBytes (slots : List (UInt32 × UInt32)) (heap b : List UInt8) : Staging :=
  .var (slots ++ [(UInt32.ofNat heap.length, UInt32.ofNat b.length)]) (heap ++ b)

/-- The staging half of `write_value`. -/
def Staging.push (fmt : TextFormat) (kind : ValueKind) (v : Value) : Staging → Except Halt Staging
  | .fixed stagKind vals =>
    if v = .null then .ok (.fixed stagKind (vals ++ [0]))
    else
      match fixedWord kind v with
      | some encoded => .ok (.fixed stagKind (vals ++ [encoded]))
      | none => .error (constraint
        s!"append_row: cannot store {v.debug fmt} in column of kind {kind.debug}")
  | .var slots heap =>
    match v with
    | .bytes b => .ok (pushBytes slots heap b)
    | .null => .ok (.var (slots ++ [(0, nullLen)]) heap)
    | v => .ok (pushBytes slots heap (valueToString fmt v).toUTF8.toList)

namespace PaxBlockBuilder

def new (blockSize : UInt32) (specs : List ColumnSpec) : Except Halt PaxBlockBuilder :=
  if specs.isEmpty then .error (constraint "PaxBlockBuilder: need >= 1 column")
  else if 1 < specs.countP fun s => s.isPk ≠ 0 then
    .error (constraint "PaxBlockBuilder: at most one pk column")
  else if 1 < specs.countP fun s => s.isTs ≠ 0 then
    .error (constraint "PaxBlockBuilder: at most one ts column")
  else
    .ok ⟨blockSize, specs, specs.map fun s => Staging.start s.kind, 0, none, none⟩

def writeValue (fmt : TextFormat) (b : PaxBlockBuilder) (colIdx : ℕ) (v : Value) :
    Except Halt PaxBlockBuilder :=
  match b.specs[colIdx]?, b.staging[colIdx]? with
  | some spec, some staging =>
    match staging.push fmt spec.kind v with
    | .error e => .error e
    | .ok staging =>
      .ok { b with
        staging := b.staging.set colIdx staging
        pkRange :=
          match zoneWord v with
          | some x => if spec.isPk ≠ 0 then extendRange b.pkRange x else b.pkRange
          | none => b.pkRange
        tsRange :=
          match zoneWord v with
          | some x => if spec.isTs ≠ 0 then extendRange b.tsRange x else b.tsRange
          | none => b.tsRange }
  | _, _ => .error .panic

/-- The loop of `append_row`, from a column on. -/
def writeValues (fmt : TextFormat) (b : PaxBlockBuilder) (colIdx : ℕ) : List Value → Except Halt PaxBlockBuilder
  | [] => .ok b
  | v :: values =>
    match b.writeValue fmt colIdx v with
    | .error e => .error e
    | .ok b => writeValues fmt b (colIdx + 1) values

def appendRow (fmt : TextFormat) (b : PaxBlockBuilder) (values : List Value) : Except Halt PaxBlockBuilder :=
  if values.length ≠ b.specs.length then
    .error (constraint s!"append_row: expected {b.specs.length} values, got {values.length}")
  else
    match b.writeValues fmt 0 values with
    | .error e => .error e
    | .ok b => .ok { b with rowCount := b.rowCount + 1 }

/-- Append rows one after the other. -/
def appendRows (fmt : TextFormat) (b : PaxBlockBuilder) : List (List Value) → Except Halt PaxBlockBuilder
  | [] => .ok b
  | row :: rows =>
    match b.appendRow fmt row with
    | .error e => .error e
    | .ok b => appendRows fmt b rows

end PaxBlockBuilder

/-! ### Laying out a block -/

/-- The bytes of a slot. -/
def slotBytes (slot : UInt32 × UInt32) : List UInt8 := leU32 slot.1 ++ leU32 slot.2

/-- The encoded minipage of a column, its zone and the encoding used. -/
def encodeColumn (spec : ColumnSpec) : Staging → Except Halt (List UInt8 × Int64 × Int64 × Encoding)
  | .fixed kind vals =>
    let enc :=
      if spec.encoding = .raw ∧ (kind = .i64 ∨ kind = .u64 ∨ kind = .timestamp) then
        autoSelectEncodingI64 vals
      else spec.encoding
    match encodeMinipage enc vals with
    | .error e => .error e
    | .ok body =>
      match vals with
      | [] => .ok (body, Int64.maxValue, Int64.minValue, enc)
      | v :: _ => .ok (body, minOf v vals, maxOf v vals, enc)
  | .var slots _ => .ok (slots.flatMap slotBytes, Int64.maxValue, Int64.minValue, .raw)

/-- The first loop of `finalize`: directory entries and minipages, and the cursor after them. -/
def layoutColumns (rowCount : UInt32) :
    ℕ → List (ColumnSpec × Staging) → Except Halt (List (ColumnDirectory × List UInt8) × ℕ)
  | cursor, [] => .ok ([], cursor)
  | cursor, (spec, staging) :: columns =>
    match encodeColumn spec staging with
    | .error e => .error e
    | .ok (bytes, zoneMin, zoneMax, enc) =>
      let cursor := alignUp cursor minipageAlign
      let dir := { ColumnDirectory.fromSpec spec rowCount (UInt32.ofNat cursor) with
        encoding := enc.discriminant
        minipageLen := UInt32.ofNat bytes.length
        compressedLen := UInt32.ofNat bytes.length
        valueCount := rowCount
        zoneMin := zoneMin
        zoneMax := zoneMax }
      match layoutColumns rowCount (cursor + bytes.length) columns with
      | .error e => .error e
      | .ok (laid, cursor) => .ok ((dir, bytes) :: laid, cursor)

/-- Move the offsets of a slot minipage by the base of its heap; null slots stay. -/
def rebase (base : UInt32) (mp : List UInt8) : List UInt8 :=
  if mp.length < 8 then mp
  else
    (if u32At mp 4 = nullLen then mp.take 8
      else leU32 (u32At mp 0 + base) ++ slice mp 4 8) ++ rebase base (mp.drop 8)
  termination_by mp.length
  decreasing_by
    rw [List.length_drop]
    omega

/-- The heaps of the variable-length columns joined after `varheap`, and the minipages with their
offsets moved. -/
def mergeHeaps : List UInt8 → List (ColumnSpec × Staging) → List (List UInt8) → List (List UInt8) × List UInt8
  | varheap, (spec, .var _ heap) :: columns, mp :: mps =>
    if 0 < spec.kind.fixedWidth then
      let (mps, all) := mergeHeaps varheap columns mps
      (mp :: mps, all)
    else
      let (mps, all) := mergeHeaps (varheap ++ heap) columns mps
      (rebase (UInt32.ofNat varheap.length) mp :: mps, all)
  | varheap, (_, .fixed _ _) :: columns, mp :: mps =>
    let (mps, all) := mergeHeaps varheap columns mps
    (mp :: mps, all)
  | varheap, _, mps => (mps, varheap)

/-- Zeroed memory; there is no block without bytes. -/
def allocAlignedBlock (size : ℕ) : Except Halt (List UInt8) :=
  if size = 0 then .error (constraint "AlignedBlock: size must be > 0")
  else .ok (List.replicate size 0)

namespace PaxBlockBuilder

def finalize (b : PaxBlockBuilder) : Except Halt PaxBlock :=
  let columns := b.specs.zip b.staging
  let minipagesOff := UInt32.ofNat (minipagesOffsetAfterDirectory b.specs.length)
  match layoutColumns b.rowCount minipagesOff.toNat columns with
  | .error e => .error e
  | .ok (laid, cursor) =>
    let varheapOff := UInt32.ofNat (alignUp cursor 8)
    let (minipages, varheap) := mergeHeaps [] columns (laid.map Prod.snd)
    let nullBitmapSize := b.specs.length * ((b.rowCount.toNat + 7) / 8)
    let tombstoneBitmapSize := (b.rowCount.toNat + 7) / 8
    let totalNeeded := varheapOff.toNat + varheap.length + nullBitmapSize + tombstoneBitmapSize
    if b.blockSize.toNat < totalNeeded then
      .error (constraint (s!"PaxBlockBuilder: block overflow — need {totalNeeded} bytes, " ++
        s!"block size is {b.blockSize}"))
    else
      match allocAlignedBlock b.blockSize.toNat with
      | .error e => .error e
      | .ok buf =>
        let tombOff := b.blockSize - UInt32.ofNat tombstoneBitmapSize
        let hdr : BlockHeader :=
          { minPk := (b.pkRange.map Prod.fst).getD Int64.maxValue
            maxPk := (b.pkRange.map Prod.snd).getD Int64.minValue
            minTs := (b.tsRange.map Prod.fst).getD Int64.maxValue
            maxTs := (b.tsRange.map Prod.snd).getD Int64.minValue
            tombstoneBitmapOff := tombOff
            nullBitmapOff := tombOff - UInt32.ofNat nullBitmapSize
            minipagesOff := minipagesOff
            varheapOff := varheapOff
            varheapLen := UInt32.ofNat varheap.length
            rowCount := b.rowCount
            columnCount := UInt32.ofNat b.specs.length
            flags := 0 }
        let dirs := laid.map Prod.fst
        let writes :=
          (0, hdr.bytes) :: ((dirs.zipIdx.map fun d =>
                (blockHeaderSize + d.2 * columnDirectorySize, d.1.bytes)) ++
              ((dirs.zip minipages).map (fun d => (d.1.minipageOff.toNat, d.2)) ++
                [(varheapOff.toNat, varheap)]))
        match writeAll buf writes with
        | none => .error .panic
        | some buf => .ok ⟨buf, b.blockSize⟩

end PaxBlockBuilder

/-! ### Reading a block -/

namespace PaxBlock

/-- Open a buffer; its memory is aligned by its type. -/
def fromOwned (buf : List UInt8) (blockSize : UInt32) : Except Halt PaxBlock :=
  if buf.length < blockHeaderSize then .error (corrupt "PaxBlock: buffer shorter than header")
  else .ok ⟨buf, blockSize⟩

def header (block : PaxBlock) : BlockHeader :=
  if block.buf.length < blockHeaderSize then .empty
  else .read (block.buf.take blockHeaderSize)

def directory (block : PaxBlock) (idx : ℕ) : Except Halt ColumnDirectory :=
  let off := blockHeaderSize + idx * columnDirectorySize
  if block.buf.length < off + columnDirectorySize then
    .error (corrupt s!"directory({idx}) out of bounds")
  else .ok (.read (slice block.buf off (off + columnDirectorySize)))

def minipageBytes (block : PaxBlock) (idx : ℕ) : Except Halt (List UInt8) :=
  match block.directory idx with
  | .error e => .error e
  | .ok dir =>
    let off := dir.minipageOff.toNat
    let stop := off + dir.compressedLen.toNat
    if block.buf.length < stop then
      .error (corrupt s!"minipage({idx}) out of bounds: {off}..{stop}")
    else .ok (slice block.buf off stop)

def decodeI64Column (block : PaxBlock) (idx : ℕ) : Except Halt (List Int64) :=
  match block.directory idx with
  | .error e => .error e
  | .ok dir =>
    match block.minipageBytes idx with
    | .error e => .error e
    | .ok bytes =>
      decodeMinipage (.fromDiscriminant dir.encoding) bytes dir.valueCount.toNat

/-- `column_view::<i64>` as a slice. -/
def columnView (block : PaxBlock) (idx : ℕ) : Except Halt (List Int64) :=
  match block.directory idx with
  | .error e => .error e
  | .ok dir =>
    match block.minipageBytes idx with
    | .error e => .error e
    | .ok bytes =>
      if dir.encoding ≠ Encoding.raw.discriminant ∧ ¬ bytes.isEmpty then
        .error (constraint (s!"column_view: column {idx} is encoded " ++
          s!"({(Encoding.fromDiscriminant dir.encoding).debug}); decode first"))
      else if bytes.length % 8 ≠ 0 then
        .error (corrupt (s!"ColumnView: slice len {bytes.length} " ++
          "not a multiple of size_of::<i64>() = 8"))
      else .ok ((List.range (bytes.length / 8)).map fun i => i64At bytes (i * 8))

/-- The bytes of a variable-length value, or `none` for a null. -/
def varValue (block : PaxBlock) (idx row : ℕ) : Except Halt (Option (List UInt8)) :=
  match block.directory idx with
  | .error e => .error e
  | .ok dir =>
    if dir.kind ≠ ValueKind.bytes.toU8 then
      .error (constraint s!"var_value: column {idx} is not Bytes")
    else
      match block.minipageBytes idx with
      | .error e => .error e
      | .ok mp =>
        let slotOff := row * 8
        if mp.length < slotOff + 8 then
          .error (corrupt s!"var_value: slot {row} out of bounds in column {idx}")
        else
          let off := (u32At mp slotOff).toNat
          let len := u32At mp (slotOff + 4)
          if len = nullLen then .ok none
          else
            let heapOff := block.header.varheapOff.toNat + off
            let heapEnd := heapOff + len.toNat
            if block.buf.length < heapEnd then
              .error (corrupt s!"var_value: heap slice {heapOff}..{heapEnd} out of bounds")
            else .ok (some (slice block.buf heapOff heapEnd))

/-- `vals[row]`. -/
def indexInto (vals : Except Halt (List Int64)) (row : ℕ) (f : Int64 → Value) : Except Halt Value :=
  match vals with
  | .error e => .error e
  | .ok vals =>
    match vals[row]? with
    | none => .error .panic
    | some v => .ok (f v)

/-- The value of a column in a row. -/
def materializeValue (block : PaxBlock) (row idx : ℕ) : Except Halt Value :=
  match block.directory idx with
  | .error e => .error e
  | .ok dir =>
    match ValueKind.fromU8 dir.kind with
    | .null => .ok .null
    | .bool => indexInto (block.columnView idx) row fun v => .bool (v != 0)
    | .i64 => indexInto (block.decodeI64Column idx) row .i64
    | .u64 => indexInto (block.decodeI64Column idx) row fun v => .u64 v.toUInt64
    | .f64 => indexInto (block.decodeI64Column idx) row fun v => .f64 v.toUInt64
    | .timestamp => indexInto (block.decodeI64Column idx) row .timestamp
    | .bytes =>
      match block.varValue idx row with
      | .error e => .error e
      | .ok (some b) => .ok (.bytes b)
      | .ok none => .ok .null

/-- The values of columns, in order. -/
def materializeValues (block : PaxBlock) (row : ℕ) : List ℕ → Except Halt (List Value)
  | [] => .ok []
  | i :: is =>
    match block.materializeValue row i with
    | .error e => .error e
    | .ok v =>
      match materializeValues block row is with
      | .error e => .error e
      | .ok vs => .ok (v :: vs)

def materializeRow (block : PaxBlock) (row : ℕ) : Except Halt (List Value) :=
  if block.header.rowCount ≤ UInt32.ofNat row then
    .error (constraint (s!"materialize_row: row {row} out of range " ++
      s!"(block has {block.header.rowCount} rows)"))
  else block.materializeValues row (List.range block.header.columnCount.toNat)

end PaxBlock

end CenDB.Storage
