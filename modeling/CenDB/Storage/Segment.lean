import CenDB.Storage.PaxRoundTrip

/-! # Segment files

A segment file is a header, the blocks, and a directory of the blocks that sealing writes at the
end.  A file is its bytes, and a write to it succeeds.

The blocks that were appended are at their offsets (`Appended`), so a sealed file opens with one
entry for each block, and every block is read back (`openFile_sealSegment`).  Nothing stops an
append to a sealed segment, which writes over the directory
(`append_after_seal_overwrites_directory`). -/

namespace CenDB.Storage

open Words List Nat

/-! ### Words -/

def leU64 (v : UInt64) : List UInt8 := toLE 8 v.toNat

def u64At (bytes : List UInt8) (cursor : ℕ) : UInt64 := UInt64.ofNat (fromLE (slice bytes cursor (cursor + 8)))

def leU16 (v : UInt16) : List UInt8 := toLE 2 v.toNat

def u16At (bytes : List UInt8) (cursor : ℕ) : UInt16 := UInt16.ofNat (fromLE (slice bytes cursor (cursor + 2)))

@[simp] theorem length_leU64 (v : UInt64) : (leU64 v).length = 8 := toLE_length 8 _

@[simp] theorem length_leU16 (v : UInt16) : (leU16 v).length = 2 := toLE_length 2 _

variable {a b : List UInt8} {n : ℕ}

theorem u64At_right (h : a.length ≤ n) :
    u64At (a ++ b) n = u64At b (n - a.length) := by
  have hend : n + 8 - a.length = n - a.length + 8 := by omega
  rw [u64At, slice_append_right h, hend]
  rfl

theorem u16At_right (h : a.length ≤ n) :
    u16At (a ++ b) n = u16At b (n - a.length) := by
  have hend : n + 2 - a.length = n - a.length + 2 := by omega
  rw [u16At, slice_append_right h, hend]
  rfl

@[simp] theorem u64At_head (v : UInt64) (rest : List UInt8) : u64At (leU64 v ++ rest) 0 = v := by
  rw [u64At, slice_zero, take_left' (length_leU64 v), leU64, ofNat_fromLE_toLE_64]

@[simp] theorem u16At_head (v : UInt16) (rest : List UInt8) : u16At (leU16 v ++ rest) 0 = v := by
  have hlt := v.toNat_lt
  rw [u16At, slice_zero, take_left' (length_leU16 v), leU16, fromLE_toLE, mod_eq_of_lt (by omega)]
  exact UInt16.ofNat_toNat

@[simp] theorem u16At_self (v : UInt16) : u16At (leU16 v) 0 = v := by
  have hself := u16At_head v []
  rwa [append_nil] at hself

/-! ### Records -/

def SEGMENT_MAGIC : List UInt8 := [67, 69, 78, 68, 66, 48, 48, 49]

def FORMAT_VERSION : UInt16 := 1

/-- Header of a segment file. -/
structure SegmentHeader where
  magic : List UInt8
  segmentId : UInt64
  createdLsn : UInt64
  sealedLsn : UInt64
  blockDirOff : UInt64
  checksum : UInt64
  pageSize : UInt32
  blockSize : UInt32
  blockCount : UInt32
  formatVer : UInt16
  flags : UInt16
deriving DecidableEq, Repr

def segmentHeaderSize : ℕ := 64

namespace SegmentHeader

def FLAG_SEALED : UInt16 := (1 : UInt16) <<< 0

def new (segmentId : UInt64) (pageSize blockSize : UInt32) (createdLsn : UInt64) : SegmentHeader :=
  ⟨SEGMENT_MAGIC, segmentId, createdLsn, 0, 0, 0, pageSize, blockSize, 0, FORMAT_VERSION, 0⟩

/-- `bytes_of`: the fields in order. -/
def bytes (h : SegmentHeader) : List UInt8 :=
  h.magic ++ (leU64 h.segmentId ++ (leU64 h.createdLsn ++ (leU64 h.sealedLsn ++
    (leU64 h.blockDirOff ++ (leU64 h.checksum ++ (leU32 h.pageSize ++ (leU32 h.blockSize ++
      (leU32 h.blockCount ++ (leU16 h.formatVer ++ leU16 h.flags)))))))))

/-- `pod_read_unaligned`: the fields at their offsets. -/
def read (bytes : List UInt8) : SegmentHeader where
  magic := bytes.take 8
  segmentId := u64At bytes 8
  createdLsn := u64At bytes 16
  sealedLsn := u64At bytes 24
  blockDirOff := u64At bytes 32
  checksum := u64At bytes 40
  pageSize := u32At bytes 48
  blockSize := u32At bytes 52
  blockCount := u32At bytes 56
  formatVer := u16At bytes 60
  flags := u16At bytes 62

variable {h : SegmentHeader}

/-- A header is read back from its image. -/
theorem read_bytes (hmagic : h.magic.length = 8) : read h.bytes = h := by
  obtain ⟨magic, _, _, _, _, _, _, _, _, _, _⟩ := h
  dsimp only at hmagic
  simp [read, bytes, u64At_right, u32At_right, u16At_right, hmagic]

theorem length_bytes (hmagic : h.magic.length = 8) :
    h.bytes.length = segmentHeaderSize := by
  simp [bytes, segmentHeaderSize, hmagic]

end SegmentHeader

/-- Entry of the block directory. -/
structure BlockDirEntry where
  byteOff : UInt64
  minPk : Int64
  maxPk : Int64
  minTs : Int64
  maxTs : Int64
  blockId : UInt32
  rowCount : UInt32
  reserved : UInt32
  pad : UInt32
deriving DecidableEq, Repr

def blockDirEntrySize : ℕ := 56

namespace BlockDirEntry

/-- `bytes_of`: the fields in order. -/
def bytes (e : BlockDirEntry) : List UInt8 :=
  leU64 e.byteOff ++ (leI64 e.minPk ++ (leI64 e.maxPk ++ (leI64 e.minTs ++ (leI64 e.maxTs ++
    (leU32 e.blockId ++ (leU32 e.rowCount ++ (leU32 e.reserved ++ leU32 e.pad)))))))

/-- `pod_read_unaligned`: the fields at their offsets. -/
def read (bytes : List UInt8) : BlockDirEntry where
  byteOff := u64At bytes 0
  minPk := i64At bytes 8
  maxPk := i64At bytes 16
  minTs := i64At bytes 24
  maxTs := i64At bytes 32
  blockId := u32At bytes 40
  rowCount := u32At bytes 44
  reserved := u32At bytes 48
  pad := u32At bytes 52

/-- An entry is read back from its image. -/
@[simp] theorem read_bytes (e : BlockDirEntry) : read e.bytes = e := by
  simp [read, bytes, i64At_right, u32At_right]

@[simp] theorem length_bytes (e : BlockDirEntry) : e.bytes.length = blockDirEntrySize := by rfl

end BlockDirEntry

/-! ### The block directory -/

structure BlockDirectory where
  entries : List BlockDirEntry
deriving DecidableEq, Repr

namespace BlockDirectory

def push (d : BlockDirectory) (e : BlockDirEntry) : BlockDirectory := ⟨d.entries ++ [e]⟩

/-- The blocks whose zone overlaps `[pkLo, pkHi]`. -/
def blocksOverlappingPk (d : BlockDirectory) (pkLo pkHi : Int64) : List BlockDirEntry :=
  d.entries.filter fun e => !(decide (e.maxPk < pkLo) || decide (pkHi < e.minPk))

/-- The blocks whose zone overlaps `[tsLo, tsHi]`. -/
def blocksOverlappingTs (d : BlockDirectory) (tsLo tsHi : Int64) : List BlockDirEntry :=
  d.entries.filter fun e => !(decide (e.maxTs < tsLo) || decide (tsHi < e.minTs))

/-- The entries after their count. -/
def toBytes (d : BlockDirectory) : List UInt8 :=
  leU32 (UInt32.ofNat d.entries.length) ++ d.entries.flatMap BlockDirEntry.bytes

def fromBytes (bytes : List UInt8) : Except Halt BlockDirectory :=
  if bytes.length < 4 then .error (corrupt "BlockDirectory: short header")
  else
    let count := (u32At bytes 0).toNat
    let body := bytes.drop 4
    if body.length < count * blockDirEntrySize then
      .error (corrupt (s!"BlockDirectory: expected {count} entries × {blockDirEntrySize} bytes, " ++
        s!"got {body.length}"))
    else
      .ok ⟨(List.range count).map fun i =>
        .read (slice body (i * blockDirEntrySize) (i * blockDirEntrySize + blockDirEntrySize))⟩

variable {d : BlockDirectory}

/-- **A directory of fewer than `2 ^ 32` entries is read back.** -/
theorem fromBytes_toBytes (h : d.entries.length < 2 ^ 32) :
    fromBytes d.toBytes = .ok d := by
  have hcount : (UInt32.ofNat d.entries.length).toNat = d.entries.length := by
    rw [UInt32.toNat_ofNat', mod_eq_of_lt h]
  have hbody : (d.entries.flatMap BlockDirEntry.bytes).length = d.entries.length * blockDirEntrySize :=
    length_flatMap fun e _ => BlockDirEntry.length_bytes e
  unfold fromBytes toBytes
  rw [if_neg (by simp), u32At_head, drop_left' (length_leU32 _), hcount]
  dsimp only
  rw [hbody, if_neg (by omega)]
  congr 2
  apply ext_getElem
  · simp
  · intro i _ hi
    rw [getElem_map, getElem_range,
      slice_flatMap (fun e _ => BlockDirEntry.length_bytes e) hi, BlockDirEntry.read_bytes]

/-- A directory of `2 ^ 32` entries is read as one of none. -/
theorem fromBytes_toBytes_wraps (h : UInt32.ofNat d.entries.length = 0) : fromBytes d.toBytes = .ok ⟨[]⟩ := by
  unfold fromBytes toBytes
  rw [if_neg (by simp), u32At_head, h]
  rfl

end BlockDirectory

/-! ### Writing -/

/-- Append-only writer of a segment file. -/
structure SegmentWriter where
  file : List UInt8
  header : SegmentHeader
  blockSize : UInt32
  nextBlockId : UInt32
  blockDir : BlockDirectory
  currentOffset : UInt64
deriving DecidableEq, Repr

namespace SegmentWriter

def writeHeader (w : SegmentWriter) : SegmentWriter :=
  { w with file := writeFrom w.file 0 w.header.bytes }

def create (segmentId : UInt64) (pageSize blockSize : UInt32) (createdLsn : UInt64) : SegmentWriter :=
  writeHeader
    { file := []
      header := .new segmentId pageSize blockSize createdLsn
      blockSize := blockSize
      nextBlockId := 0
      blockDir := ⟨[]⟩
      currentOffset := UInt64.ofNat segmentHeaderSize }

/-- Append a finished block, which gets the next block id. -/
def appendBlock (w : SegmentWriter) (block : PaxBlock) : Except Halt (SegmentWriter × UInt32) :=
  if block.buf.length ≠ w.blockSize.toNat then
    .error (constraint (s!"append_block: block is {block.buf.length} bytes, " ++
      s!"segment expects {w.blockSize}"))
  else
    let bh := block.header
    .ok (writeHeader
      { w with
        file := writeFrom w.file w.currentOffset.toNat block.buf
        currentOffset := w.currentOffset + UInt64.ofNat block.buf.length
        blockDir := w.blockDir.push
          ⟨w.currentOffset, bh.minPk, bh.maxPk, bh.minTs, bh.maxTs, w.nextBlockId, bh.rowCount, 0, 0⟩
        nextBlockId := w.nextBlockId + 1
        header := { w.header with blockCount := w.nextBlockId + 1 } }, w.nextBlockId)

/-- Write the directory and mark the header as sealed. -/
def sealSegment (w : SegmentWriter) (sealedLsn : UInt64) : SegmentWriter :=
  writeHeader
    { w with
      file := writeFrom w.file w.currentOffset.toNat w.blockDir.toBytes
      header := { w.header with
        sealedLsn := sealedLsn
        flags := w.header.flags ||| SegmentHeader.FLAG_SEALED
        blockDirOff := w.currentOffset } }

/-- Append blocks one after the other. -/
def appendBlocks (w : SegmentWriter) : List PaxBlock → Except Halt SegmentWriter
  | [] => .ok w
  | block :: blocks =>
    match w.appendBlock block with
    | .error e => .error e
    | .ok (w, _) => appendBlocks w blocks

/-- Try to append blocks; a refused one leaves the segment as it is. -/
def attemptBlocks (w : SegmentWriter) : List PaxBlock → SegmentWriter
  | [] => w
  | block :: blocks =>
    match w.appendBlock block with
    | .error _ => attemptBlocks w blocks
    | .ok (w, _) => attemptBlocks w blocks

end SegmentWriter

/-! ### Reading -/

structure SegmentFile where
  file : List UInt8
  header : SegmentHeader
  blockDir : BlockDirectory
  blockSize : UInt32
deriving DecidableEq, Repr

/-- The error of `read_exact` at the end of a file. -/
def unexpectedEof : Halt := .error ⟨.errIo, "failed to fill whole buffer"⟩

/-- Seek and read exactly as many bytes. -/
def readExact (file : List UInt8) (off len : ℕ) : Except Halt (List UInt8) :=
  if file.length < off + len then .error unexpectedEof else .ok (slice file off (off + len))

namespace SegmentFile

def openFile (file : List UInt8) : Except Halt SegmentFile :=
  match readExact file 0 segmentHeaderSize with
  | .error e => .error e
  | .ok hdrBytes =>
    let header := SegmentHeader.read hdrBytes
    if header.magic ≠ SEGMENT_MAGIC then .error (corrupt "segment magic mismatch")
    else if header.formatVer ≠ FORMAT_VERSION then
      .error (corrupt s!"unsupported format version {header.formatVer}")
    else if header.blockDirOff = 0 then .ok ⟨file, header, ⟨[]⟩, header.blockSize⟩
    else if file.length < header.blockDirOff.toNat then .error .panic
    else
      let dirLen := file.length - header.blockDirOff.toNat
      match readExact file header.blockDirOff.toNat dirLen with
      | .error e => .error e
      | .ok dirBytes =>
        match BlockDirectory.fromBytes dirBytes with
        | .error e => .error e
        | .ok dir => .ok ⟨file, header, dir, header.blockSize⟩

/-- Read a block into the front of a buffer. -/
def readBlock (f : SegmentFile) (blockId : UInt32) (buf : List UInt8) : Except Halt (List UInt8) :=
  match f.blockDir.entries.find? fun e => e.blockId == blockId with
  | none => .error (.error ⟨.errNotFound, s!"block {blockId} not in directory"⟩)
  | some entry =>
    if buf.length < f.blockSize.toNat then
      .error (constraint s!"read_block: buf is {buf.length} bytes, need {f.blockSize}")
    else
      match readExact f.file entry.byteOff.toNat f.blockSize.toNat with
      | .error e => .error e
      | .ok bytes => .ok (bytes ++ buf.drop f.blockSize.toNat)

def readBlockAlloc (f : SegmentFile) (blockId : UInt32) : Except Halt (List UInt8) :=
  f.readBlock blockId (List.replicate f.blockSize.toNat 0)

end SegmentFile

/-! ### Appended blocks -/

/-- The directory entry of the block at an index. -/
def entryOf (blockSize : UInt32) (i : ℕ) (block : PaxBlock) : BlockDirEntry where
  byteOff := UInt64.ofNat (segmentHeaderSize + i * blockSize.toNat)
  minPk := block.header.minPk
  maxPk := block.header.maxPk
  minTs := block.header.minTs
  maxTs := block.header.maxTs
  blockId := UInt32.ofNat i
  rowCount := block.header.rowCount
  reserved := 0
  pad := 0

def entriesOf (blockSize : UInt32) (blocks : List PaxBlock) : List BlockDirEntry :=
  blocks.zipIdx.map fun b => entryOf blockSize b.2 b.1

/-- The blocks of a segment that is not sealed. -/
structure Appended (w : SegmentWriter) (blocks : List PaxBlock) : Prop where
  magic : w.header.magic = SEGMENT_MAGIC
  formatVer : w.header.formatVer = FORMAT_VERSION
  headerBlockSize : w.header.blockSize = w.blockSize
  file : w.file = w.header.bytes ++ blocks.flatMap PaxBlock.buf
  sizes : ∀ b ∈ blocks, b.buf.length = w.blockSize.toNat
  entries : w.blockDir.entries = entriesOf w.blockSize blocks
  nextBlockId : w.nextBlockId = UInt32.ofNat blocks.length
  currentOffset : w.currentOffset = UInt64.ofNat (segmentHeaderSize + blocks.length * w.blockSize.toNat)

theorem length_entriesOf (blockSize : UInt32) (blocks : List PaxBlock) :
    (entriesOf blockSize blocks).length = blocks.length := by simp [entriesOf]

theorem getElem?_entriesOf (blockSize : UInt32) (blocks : List PaxBlock) (i : ℕ) :
    (entriesOf blockSize blocks)[i]? = blocks[i]?.map (entryOf blockSize i) := by
  rw [entriesOf, getElem?_map, getElem?_zipIdx, Nat.zero_add]
  cases blocks[i]? <;> rfl

/-- The offset after at most `2 ^ 32` blocks does not wrap. -/
theorem toNat_offset (hn : n ≤ 2 ^ 32) (blockSize : UInt32) :
    (UInt64.ofNat (segmentHeaderSize + n * blockSize.toNat)).toNat =
      segmentHeaderSize + n * blockSize.toNat := by
  have hprod := Nat.mul_le_mul hn (Nat.le_sub_one_of_lt blockSize.toNat_lt)
  rw [UInt64.toNat_ofNat', mod_eq_of_lt]
  rw [segmentHeaderSize]
  omega

theorem appended_create (segmentId : UInt64) (pageSize blockSize : UInt32) (createdLsn : UInt64) :
    Appended (SegmentWriter.create segmentId pageSize blockSize createdLsn) [] where
  magic := rfl
  formatVer := rfl
  headerBlockSize := rfl
  file := writeFrom_length [] _
  sizes := by simp
  entries := rfl
  nextBlockId := rfl
  currentOffset := by
    rw [length_nil, Nat.zero_mul]
    rfl

section Append

variable {w w' : SegmentWriter} {blocks later : List PaxBlock} {block : PaxBlock} {id : UInt32}

theorem Appended.length_file (hw : Appended w blocks) :
    w.file.length = segmentHeaderSize + blocks.length * w.blockSize.toNat := by
  rw [hw.file, length_append, SegmentHeader.length_bytes (by rw [hw.magic]; rfl), length_flatMap hw.sizes]

/-- A write at the current offset appends. -/
theorem Appended.writeFrom_currentOffset (hw : Appended w blocks) (hfew : blocks.length ≤ 2 ^ 32)
    (bytes : List UInt8) : writeFrom w.file w.currentOffset.toNat bytes = w.file ++ bytes := by
  rw [hw.currentOffset, toNat_offset hfew, ← hw.length_file, writeFrom_length]

/-- A new header takes the place of the old one. -/
theorem Appended.writeHeader_file (hw : Appended w blocks) (hdr : SegmentHeader)
    (hmagic : hdr.magic = SEGMENT_MAGIC) (rest : List UInt8) :
    writeFrom (w.file ++ rest) 0 hdr.bytes = hdr.bytes ++ (blocks.flatMap PaxBlock.buf ++ rest) := by
  rw [hw.file, append_assoc]
  apply writeFrom_zero
  rw [SegmentHeader.length_bytes (by rw [hmagic]; rfl), SegmentHeader.length_bytes (by rw [hw.magic]; rfl)]

/-- **Appending a block.** -/
theorem appendBlock_spec (hw : Appended w blocks) (hfew : blocks.length ≤ 2 ^ 32)
    (h : w.appendBlock block = .ok (w', id)) :
    Appended w' (blocks ++ [block]) ∧ w'.blockSize = w.blockSize := by
  unfold SegmentWriter.appendBlock at h
  split at h
  · cases h
  · rename_i hsize
    rw [not_not] at hsize
    dsimp only at h
    rw [hw.writeFrom_currentOffset hfew, Except.ok.injEq, Prod.mk.injEq] at h
    rw [← h.1]
    have hflat : (blocks ++ [block]).flatMap PaxBlock.buf = blocks.flatMap PaxBlock.buf ++ block.buf := by simp
    refine ⟨⟨hw.magic, hw.formatVer, hw.headerBlockSize, ?_, ?_, ?_, ?_, ?_⟩, rfl⟩
    · rw [hflat]
      exact hw.writeHeader_file { w.header with blockCount := w.nextBlockId + 1 } hw.magic block.buf
    · intro b hb
      rw [mem_append, mem_singleton] at hb
      cases hb with
      | inl hold => exact hw.sizes b hold
      | inr hnew => rw [hnew]; exact hsize
    · show w.blockDir.entries ++ [_] = entriesOf w.blockSize (blocks ++ [block])
      rw [hw.entries, entriesOf, entriesOf, zipIdx_append, map_append, hw.currentOffset,
        hw.nextBlockId, Nat.zero_add]
      rfl
    · show w.nextBlockId + 1 = _
      rw [hw.nextBlockId, length_append, length_singleton, UInt32.ofNat_add]
      rfl
    · show w.currentOffset + UInt64.ofNat block.buf.length = _
      rw [hw.currentOffset, hsize, ← UInt64.ofNat_add, length_append, length_singleton,
        succ_mul, Nat.add_assoc]
      rfl

/-- **Appending blocks.** -/
theorem appendBlocks_spec (hw : Appended w blocks)
    (hfew : blocks.length + later.length ≤ 2 ^ 32) (h : w.appendBlocks later = .ok w') :
    Appended w' (blocks ++ later) ∧ w'.blockSize = w.blockSize := by
  induction later generalizing w blocks with
  | nil =>
    rw [← Except.ok.inj h, append_nil]
    exact ⟨hw, rfl⟩
  | cons block later ih =>
    rw [SegmentWriter.appendBlocks] at h
    split at h
    · cases h
    · rename_i mid id hmid
      rw [length_cons] at hfew
      obtain ⟨hw', hsize'⟩ := appendBlock_spec hw (by omega) hmid
      have hrest := ih hw' (by rw [length_append, length_singleton]; omega) h
      rw [append_assoc, singleton_append, hsize'] at hrest
      exact hrest

/-- Blocks of the right size are never refused. -/
theorem appendBlocks_ok (h : ∀ b ∈ later, b.buf.length = w.blockSize.toNat) :
    ∃ w', w.appendBlocks later = .ok w' := by
  induction later generalizing w with
  | nil => exact ⟨w, rfl⟩
  | cons block later ih =>
    obtain ⟨hblock, hlater⟩ := forall_mem_cons.mp h
    rw [SegmentWriter.appendBlocks, SegmentWriter.appendBlock, if_neg (not_not.mpr hblock)]
    exact ih hlater

/-- Blocks of another size change nothing. -/
theorem attemptBlocks_refused (h : ∀ b ∈ later, b.buf.length ≠ w.blockSize.toNat) :
    w.attemptBlocks later = w := by
  induction later with
  | nil => rfl
  | cons block later ih =>
    obtain ⟨hblock, hlater⟩ := forall_mem_cons.mp h
    rw [SegmentWriter.attemptBlocks, SegmentWriter.appendBlock, if_pos hblock]
    exact ih hlater

/-- **A sealed segment opens with what is read of its directory.** -/
theorem openFile_of_appended (hw : Appended w blocks) (hfew : blocks.length ≤ 2 ^ 32)
    (sealedLsn : UInt64) {dir : BlockDirectory}
    (hread : BlockDirectory.fromBytes w.blockDir.toBytes = .ok dir) :
    ∃ f hdr, SegmentFile.openFile (w.sealSegment sealedLsn).file = .ok f ∧
      f.blockDir = dir ∧ f.blockSize = w.blockSize ∧ f.file =
        SegmentHeader.bytes hdr ++ (blocks.flatMap PaxBlock.buf ++ w.blockDir.toBytes) ∧
      hdr.bytes.length = segmentHeaderSize := by
  have hoff : w.currentOffset.toNat = segmentHeaderSize + blocks.length * w.blockSize.toNat := by
    rw [hw.currentOffset, toNat_offset hfew]
  generalize hhdr : ({ w.header with
    sealedLsn := sealedLsn
    flags := w.header.flags ||| SegmentHeader.FLAG_SEALED
    blockDirOff := w.currentOffset } : SegmentHeader) = hdr
  have hmagic : hdr.magic = SEGMENT_MAGIC := by
    rw [← hhdr]
    exact hw.magic
  have hformat : hdr.formatVer = FORMAT_VERSION := by
    rw [← hhdr]
    exact hw.formatVer
  have hdirOff : hdr.blockDirOff = w.currentOffset := by rw [← hhdr]
  have hblockSize : hdr.blockSize = w.blockSize := by
    rw [← hhdr]
    exact hw.headerBlockSize
  have hfile : (w.sealSegment sealedLsn).file =
      hdr.bytes ++ (blocks.flatMap PaxBlock.buf ++ w.blockDir.toBytes) := by
    rw [← hw.writeHeader_file hdr hmagic, ← hw.writeFrom_currentOffset hfew, ← hhdr]
    rfl
  have hhdrLen : hdr.bytes.length = segmentHeaderSize := SegmentHeader.length_bytes (by rw [hmagic]; rfl)
  have hflat : (blocks.flatMap PaxBlock.buf).length = blocks.length * w.blockSize.toNat :=
    length_flatMap hw.sizes
  have hlen : (w.sealSegment sealedLsn).file.length = w.currentOffset.toNat + w.blockDir.toBytes.length := by
    rw [hfile, length_append, length_append, hhdrLen, hflat, hoff, Nat.add_assoc]
  have hhdrRead : slice (w.sealSegment sealedLsn).file 0 segmentHeaderSize = hdr.bytes := by
    rw [hfile, slice_zero, take_left' hhdrLen]
  have hdir : slice (w.sealSegment sealedLsn).file w.currentOffset.toNat
      (w.currentOffset.toNat + w.blockDir.toBytes.length) = w.blockDir.toBytes := by
    have hmiddle := slice_middle (a := hdr.bytes ++ blocks.flatMap PaxBlock.buf)
      (m := w.blockDir.toBytes) (c := []) (i := w.currentOffset.toNat)
      (by rw [length_append, hhdrLen, hflat, hoff]) rfl
    rwa [append_nil, append_assoc, ← hfile] at hmiddle
  have hsealed : w.currentOffset ≠ 0 := by
    intro hzero
    rw [hzero, UInt64.toNat_zero, segmentHeaderSize] at hoff
    omega
  refine ⟨⟨(w.sealSegment sealedLsn).file, hdr, dir, hdr.blockSize⟩, hdr, ?_, rfl, hblockSize, hfile, hhdrLen⟩
  unfold SegmentFile.openFile readExact
  rw [if_neg (by rw [hlen, hoff, Nat.zero_add]; omega), Nat.zero_add, hhdrRead]
  dsimp only
  rw [SegmentHeader.read_bytes (by rw [hmagic]; rfl), if_neg (not_not.mpr hmagic),
    if_neg (not_not.mpr hformat), hdirOff, if_neg hsealed, if_neg (by omega), hlen,
    Nat.add_sub_cancel_left, if_neg (by omega), hdir]
  dsimp only
  rw [hread]

/-- **A block is read back through its entry.** -/
theorem readBlockAlloc_of_appended {f : SegmentFile} {front rest : List UInt8}
    (hfile : f.file = front ++ (blocks.flatMap PaxBlock.buf ++ rest))
    (hfront : front.length = segmentHeaderSize)
    (hsizes : ∀ b ∈ blocks, b.buf.length = f.blockSize.toNat)
    (hentries : f.blockDir.entries = entriesOf f.blockSize blocks) (hfew : blocks.length < 2 ^ 32)
    {i : ℕ} (hi : blocks[i]? = some block) :
    f.readBlockAlloc (UInt32.ofNat i) = .ok block.buf := by
  obtain ⟨hlt, hblock⟩ := List.getElem?_eq_some_iff.mp hi
  have hflat : (blocks.flatMap PaxBlock.buf).length = blocks.length * f.blockSize.toNat := length_flatMap hsizes
  have hid {j : ℕ} (hj : j < blocks.length) : (UInt32.ofNat j).toNat = j := by
    rw [UInt32.toNat_ofNat', mod_eq_of_lt (by omega)]
  have hfind : f.blockDir.entries.find? (fun e => e.blockId == UInt32.ofNat i) =
      some (entryOf f.blockSize i block) := by
    rw [hentries, find?_eq_some_iff_getElem]
    have hget := getElem?_entriesOf f.blockSize blocks i
    rw [hi] at hget
    obtain ⟨hlt', hentry⟩ := List.getElem?_eq_some_iff.mp hget
    refine ⟨beq_self_eq_true _, i, hlt', hentry, ?_⟩
    intro j hj
    have hj' : j < blocks.length := by omega
    have hgetj := getElem?_entriesOf f.blockSize blocks j
    rw [getElem?_eq_getElem hj'] at hgetj
    obtain ⟨hltj, hentryj⟩ := List.getElem?_eq_some_iff.mp hgetj
    rw [hentryj]
    show (!(UInt32.ofNat j == UInt32.ofNat i)) = true
    rw [Bool.not_eq_true', beq_eq_false_iff_ne]
    intro heq
    have hsame := congrArg UInt32.toNat heq
    rw [hid hj', hid hlt] at hsame
    omega
  have hend : i * f.blockSize.toNat + f.blockSize.toNat ≤ blocks.length * f.blockSize.toNat := by
    rw [← succ_mul]
    exact Nat.mul_le_mul_right _ hlt
  have hslice : slice f.file (segmentHeaderSize + i * f.blockSize.toNat)
      (segmentHeaderSize + i * f.blockSize.toNat + f.blockSize.toNat) = block.buf := by
    rw [hfile, slice_append_right (by omega), hfront, Nat.add_sub_cancel_left, Nat.add_assoc,
      Nat.add_sub_cancel_left, slice_append_left (by omega), slice_flatMap hsizes hlt, hblock]
  have hlen : f.file.length = segmentHeaderSize + (blocks.length * f.blockSize.toNat + rest.length) := by
    rw [hfile, length_append, length_append, hfront, hflat]
  unfold SegmentFile.readBlockAlloc SegmentFile.readBlock readExact
  rw [hfind]
  dsimp only
  have hoff : (entryOf f.blockSize i block).byteOff.toNat =
      segmentHeaderSize + i * f.blockSize.toNat := toNat_offset (by omega) f.blockSize
  rw [length_replicate, if_neg (lt_irrefl _), hoff, if_neg (by omega), hslice]
  dsimp only
  rw [drop_of_length_le (by simp), append_nil]

end Append

/-- **A sealed segment gives its blocks back, whatever blocks of another size are tried on it.** -/
theorem openFile_sealSegment (segmentId : UInt64) (pageSize blockSize : UInt32)
    (createdLsn sealedLsn : UInt64) (blocks later : List PaxBlock) (w : SegmentWriter)
    (h : (SegmentWriter.create segmentId pageSize blockSize createdLsn).appendBlocks blocks = .ok w)
    (hfew : blocks.length < 2 ^ 32) (hlater : ∀ b ∈ later, b.buf.length ≠ blockSize.toNat) :
    ∃ f, SegmentFile.openFile ((w.sealSegment sealedLsn).attemptBlocks later).file = .ok f ∧
      f.blockDir.entries.length = blocks.length ∧
      ∀ (i : ℕ) block, blocks[i]? = some block → f.readBlockAlloc (UInt32.ofNat i) = .ok block.buf ∧
        ∃ e, f.blockDir.entries[i]? = some e ∧ e.blockId = UInt32.ofNat i ∧ e.rowCount = block.header.rowCount ∧
          e.minPk = block.header.minPk ∧ e.maxPk = block.header.maxPk ∧
          e.minTs = block.header.minTs ∧ e.maxTs = block.header.maxTs := by
  obtain ⟨hw, hsize⟩ := appendBlocks_spec (appended_create segmentId pageSize blockSize createdLsn)
    (by rw [length_nil]; omega) h
  rw [List.nil_append] at hw
  have hsize' : (w.sealSegment sealedLsn).blockSize = blockSize := hsize
  have hcount : w.blockDir.entries.length < 2 ^ 32 := by
    rw [hw.entries, length_entriesOf]
    exact hfew
  obtain ⟨f, hdr, hopen, hdir, hblockSize, hfile, hhdr⟩ := openFile_of_appended hw hfew.le sealedLsn
    (BlockDirectory.fromBytes_toBytes hcount)
  have hentries := hw.entries
  rw [← hdir, ← hblockSize] at hentries
  refine ⟨f, ?_, ?_, ?_⟩
  · rw [attemptBlocks_refused (by rw [hsize']; exact hlater), hopen]
  · rw [hentries, length_entriesOf]
  · intro i block hi
    refine ⟨readBlockAlloc_of_appended hfile hhdr (by rw [hblockSize]; exact hw.sizes) hentries hfew
      hi, entryOf f.blockSize i block, ?_, rfl, rfl, rfl, rfl, rfl, rfl⟩
    rw [hentries, getElem?_entriesOf, hi]
    rfl

theorem openFile_sealSegment_single :
    ∃ w, (SegmentWriter.create 1 64 64 0).appendBlocks [⟨List.replicate 64 0, 64⟩] = .ok w ∧
      ∃ f, SegmentFile.openFile ((w.sealSegment 7).attemptBlocks [⟨[], 0⟩]).file = .ok f ∧
        f.readBlockAlloc 0 = .ok (List.replicate 64 0) := by
  have happend : ∃ w, (SegmentWriter.create 1 64 64 0).appendBlocks [⟨List.replicate 64 0, 64⟩] =
      .ok w := ⟨_, rfl⟩
  obtain ⟨w, hw⟩ := happend
  obtain ⟨f, hopen, -, hread⟩ := openFile_sealSegment 1 64 64 0 7 [⟨List.replicate 64 0, 64⟩]
    [⟨[], 0⟩] w hw (by decide) (by decide)
  exact ⟨w, hw, f, hopen, (hread 0 _ rfl).1⟩

/-- An append to a sealed segment writes its block over the directory. -/
theorem append_after_seal_overwrites_directory :
    ∃ block w, PaxBlockBuilder.build plainFormat 256 [.new 0 .i64] [[.i64 5]] = .ok block ∧
      (SegmentWriter.create 1 256 256 0).appendBlocks [block] = .ok w ∧
      ∀ f, SegmentFile.openFile ((w.sealSegment 7).attemptBlocks [block]).file ≠ .ok f := by
  have hrun : ((PaxBlockBuilder.build plainFormat 256 [.new 0 .i64] [[.i64 5]]).toOption.bind
      fun block => ((SegmentWriter.create 1 256 256 0).appendBlocks [block]).toOption.map
        fun w => (SegmentFile.openFile
          ((w.sealSegment 7).attemptBlocks [block]).file).toOption.isSome) = some false := by
    set_option maxRecDepth 8000 in decide
  cases hbuild : PaxBlockBuilder.build plainFormat 256 [.new 0 .i64] [[.i64 5]] with
  | error e =>
    rw [hbuild] at hrun
    cases hrun
  | ok block =>
    rw [hbuild, Except.toOption, Option.bind_some] at hrun
    cases happend : (SegmentWriter.create 1 256 256 0).appendBlocks [block] with
    | error e =>
      rw [happend] at hrun
      cases hrun
    | ok w =>
      refine ⟨block, w, rfl, happend, fun f hopen => ?_⟩
      rw [happend, Except.toOption, Option.map_some, hopen] at hrun
      cases hrun

end CenDB.Storage
