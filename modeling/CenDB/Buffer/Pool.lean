import CenDB.Buffer.Lru
import CenDB.Storage.Encoding

/-! # The buffer pool

A pool owns a slab of frames, a table from pages to frames, a list of free frames, a replacer and a
page source.  A call returns its result together with the pool it leaves, also when it fails.  The
page source is a parameter (`PageSource`); `InMemoryPageSource` is the one of the crate. -/

namespace CenDB.Buffer

open CenDB.Storage

abbrev Bytes := List UInt8

abbrev PageId := UInt64

def constraint (message : String) : CenError := ⟨.errConstraint, message⟩

def internal (message : String) : CenError := ⟨.errInternal, message⟩

/-! ### Frames -/

/-- The raw page id of a frame without a page. -/
def invalidPageId : UInt64 := 0xFFFFFFFFFFFFFFFF

structure Frame where
  data : Bytes
  rawPageId : UInt64
  pinCount : UInt32
  dirty : Bool
  pageLsn : UInt64
deriving DecidableEq

namespace Frame

/-- A frame without a page, with a zeroed buffer. -/
def new (pageSize : ℕ) : Frame := ⟨List.replicate pageSize 0, invalidPageId, 0, false, 0⟩

/-- The page cached in the frame. -/
def pageId (f : Frame) : Option PageId :=
  if f.rawPageId = invalidPageId then none else some f.rawPageId

def setPageId (f : Frame) (pageId : PageId) : Frame := { f with rawPageId := pageId }

def clearPageId (f : Frame) : Frame := { f with rawPageId := invalidPageId }

def pin (f : Frame) : Frame := { f with pinCount := f.pinCount + 1 }

def unpin (f : Frame) : Frame := { f with pinCount := f.pinCount - 1 }

def isPinned (f : Frame) : Bool := 0 < f.pinCount

def markDirty (f : Frame) (pageLsn : UInt64) : Frame :=
  { f with dirty := true, pageLsn := if f.pageLsn < pageLsn then pageLsn else f.pageLsn }

def clearDirty (f : Frame) : Frame := { f with dirty := false }

end Frame

/-! ### Page sources -/

/-- A backend: a read leaves its result in the buffer. -/
structure PageSource (σ : Type) where
  readPage : σ → PageId → Bytes → Except CenError Unit × Bytes × σ
  writePage : σ → PageId → Bytes → Except CenError Unit × σ
  pageSize : σ → ℕ

/-- Pages of one size in memory. -/
structure InMemoryPageSource (size : ℕ) where
  pages : Table PageId Bytes
  length_pages : ∀ id bytes, pages.lookup id = some bytes → bytes.length = size

namespace InMemoryPageSource

variable {size : ℕ}

def new : InMemoryPageSource size := ⟨∅, fun id bytes h => by cases h⟩

/-- Store a page. -/
def insert (s : InMemoryPageSource size) (id : PageId) (bytes : Bytes) (h : bytes.length = size) :
    InMemoryPageSource size where
  pages := AList.insert id bytes s.pages
  length_pages := by
    intro id' bytes' hlook
    rw [Table.lookup_insert_if] at hlook
    by_cases hid : id' = id
    · rw [if_pos hid] at hlook
      exact Option.some.inj hlook ▸ h
    · rw [if_neg hid] at hlook
      exact s.length_pages id' bytes' hlook

/-- The methods of the source.  The pool passes buffers of the page size. -/
def source : PageSource (InMemoryPageSource size) where
  readPage s id buf :=
    match s.pages.lookup id with
    | some src => (.ok (), src, s)
    | none => (.ok (), List.replicate buf.length 0, s)
  writePage s id buf :=
    if h : buf.length = size then (.ok (), s.insert id buf h)
    else (.error (internal "buffer of another size"), s)
  pageSize _ := size

/-- A page in memory is always readable. -/
theorem readPage_source (s : InMemoryPageSource size) (id : PageId) (buf : Bytes) :
    (source.readPage s id buf).1 = .ok () := by
  simp only [source]
  cases s.pages.lookup id with
  | none | some bytes => rfl

end InMemoryPageSource

/-! ### The pool -/

/-- How the caller intends to use a page. -/
inductive ReadHint where
  | point
  | scan
deriving DecidableEq

structure PoolStats where
  hits : UInt64
  misses : UInt64
  evictions : UInt64
  flushes : UInt64
  totalFrames : UInt32
deriving DecidableEq

structure BufferPool (σ : Type) where
  frames : List Frame
  pageTable : Table PageId FrameId
  freeList : List FrameId
  replacer : LruK
  source : σ
  pageSize : ℕ
  stats : PoolStats

namespace BufferPool

variable {σ : Type} (src : PageSource σ)

/-- A pool of `frameCount` frames of `pageSize` bytes. -/
def new (source : σ) (frameCount pageSize : ℕ) : Except CenError (BufferPool σ) :=
  if frameCount = 0 then .error (constraint "BufferPool: frame_count must be > 0")
  else if pageSize = 0 ∨ pageSize % 64 ≠ 0 then
    .error (constraint "BufferPool: page_size must be a positive multiple of 64")
  else if src.pageSize source ≠ pageSize then
    .error (constraint ("BufferPool: page_size mismatch: pool=" ++ toString pageSize ++
      ", source=" ++ toString (src.pageSize source)))
  else
    .ok {
      frames := List.replicate frameCount (Frame.new pageSize)
      pageTable := ∅
      freeList := (List.range frameCount).map UInt32.ofNat
      replacer := .new
      source := source
      pageSize := pageSize
      stats := ⟨0, 0, 0, 0, UInt32.ofNat frameCount⟩ }

/-- The frame at an index. -/
def frame (s : BufferPool σ) (f : FrameId) : Frame := s.frames.getD f.toNat (Frame.new s.pageSize)

def setFrame (s : BufferPool σ) (f : FrameId) (fr : Frame) : BufferPool σ :=
  { s with frames := s.frames.set f.toNat fr }

def countMiss (s : BufferPool σ) : BufferPool σ :=
  { s with stats := { s.stats with misses := s.stats.misses + 1 } }

def countFlush (s : BufferPool σ) : BufferPool σ :=
  { s with stats := { s.stats with flushes := s.stats.flushes + 1 } }

/-- The end of an eviction: unmap the page and clear the frame. -/
def clearVictim (s : BufferPool σ) (victim : FrameId) (oldPageId : PageId) : BufferPool σ :=
  let cleared := s.setFrame victim (s.frame victim).clearDirty.clearPageId
  { cleared with
    pageTable := AList.erase oldPageId s.pageTable
    replacer := s.replacer.forget victim
    stats := { s.stats with evictions := s.stats.evictions + 1 } }

/-- Evict the victim that the replacer picked. -/
def evict (s : BufferPool σ) (victim : FrameId) : Except CenError FrameId × BufferPool σ :=
  if (s.frame victim).isPinned then
    (.error (internal ("BufferPool: victim frame FrameId(" ++ toString victim ++ ") is pinned")), s)
  else
    match (s.frame victim).pageId with
    | none => (.error (internal "evict_or_take_free: victim has no page_id"), s)
    | some oldPageId =>
      if (s.frame victim).dirty then
        match src.writePage s.source oldPageId (s.frame victim).data with
        | (.error e, source) => (.error e, { s with source := source })
        | (.ok (), source) =>
          (.ok victim, (countFlush { s with source := source }).clearVictim victim oldPageId)
      else (.ok victim, s.clearVictim victim oldPageId)

/-- Take a frame from the end of the free list, or evict one. -/
def evictOrTakeFree (s : BufferPool σ) : Except CenError FrameId × BufferPool σ :=
  match s.freeList.getLast? with
  | some f => (.ok f, { s with freeList := s.freeList.dropLast })
  | none =>
    match s.replacer.pickVictim with
    | (none, replacer) =>
      (.error (internal "BufferPool: no evictable frames (all pinned?)"),
        { s with replacer := replacer })
    | (some victim, replacer) => evict src { s with replacer := replacer } victim

/-- Pin a page that is in the pool. -/
def hit (s : BufferPool σ) (f : FrameId) (hint : ReadHint) : BufferPool σ :=
  let pinned := s.setFrame f (s.frame f).pin
  { pinned with
    stats := { s.stats with hits := s.stats.hits + 1 }
    replacer := if hint = .point then s.replacer.recordAccess f else s.replacer }

/-- The end of a miss: the frame gets the page and its first pin. -/
def mapPage (s : BufferPool σ) (f : FrameId) (fr : Frame) (pageId : PageId) : BufferPool σ :=
  let mapped := s.setFrame f (fr.setPageId pageId).pin
  { mapped with
    pageTable := AList.insert pageId f s.pageTable
    replacer := s.replacer.recordAccess f }

/-- The end of `pin_page` after a miss.  A scanned page is marked although it is pinned. -/
def load (s : BufferPool σ) (f : FrameId) (fr : Frame) (pageId : PageId) (hint : ReadHint) : BufferPool σ :=
  let loaded := s.mapPage f fr pageId
  match hint with
  | .point => loaded
  | .scan => { loaded with replacer := loaded.replacer.markEvictable f }

/-- `pin_page`: the frame that the guard holds. -/
def pinPage (s : BufferPool σ) (pageId : PageId) (hint : ReadHint) : Except CenError FrameId × BufferPool σ :=
  match s.pageTable.lookup pageId with
  | some f => (.ok f, s.hit f hint)
  | none =>
    match evictOrTakeFree src s.countMiss with
    | (.error e, s) => (.error e, s)
    | (.ok f, s) =>
      match src.readPage s.source pageId (s.frame f).data with
      | (.error e, buf, source) =>
        (.error e, { s.setFrame f { s.frame f with data := buf } with source := source })
      | (.ok (), buf, source) =>
        (.ok f, load { s with source := source } f
          { s.frame f with data := buf, dirty := false } pageId hint)

/-- `new_page`: the frame that the guard holds. -/
def newPage (s : BufferPool σ) (pageId : PageId) : Except CenError FrameId × BufferPool σ :=
  if (s.pageTable.lookup pageId).isSome then
    (.error (constraint ("new_page: page PageId(" ++ toString pageId ++ ") already exists")), s)
  else
    match evictOrTakeFree src s.countMiss with
    | (.error e, s) => (.error e, s)
    | (.ok f, s) =>
      let fr := s.frame f
      (.ok f, s.mapPage f ({ fr with data := List.replicate fr.data.length 0 }.markDirty 0) pageId)

/-- Write a dirty page back. -/
def flushPage (s : BufferPool σ) (pageId : PageId) : Except CenError Unit × BufferPool σ :=
  match s.pageTable.lookup pageId with
  | none => (.ok (), s)
  | some f =>
    if (s.frame f).dirty then
      match src.writePage s.source pageId (s.frame f).data with
      | (.error e, source) => (.error e, { s with source := source })
      | (.ok (), source) =>
        (.ok (), countFlush ({ s with source := source }.setFrame f (s.frame f).clearDirty))
    else (.ok (), s)

/-- The loop of `flush_all` over the pages of the table, in the order of its iterator. -/
def flushPages (s : BufferPool σ) : List PageId → Except CenError Unit × BufferPool σ
  | [] => (.ok (), s)
  | pageId :: rest =>
    match flushPage src s pageId with
    | (.error e, s) => (.error e, s)
    | (.ok (), s) => flushPages s rest

/-- Drop a guard. -/
def releasePin (s : BufferPool σ) (f : FrameId) : BufferPool σ :=
  let released := s.setFrame f (s.frame f).unpin
  if (s.frame f).unpin.isPinned then released
  else { released with replacer := s.replacer.markEvictable f }

/-- Mark the page of a guard dirty. -/
def markDirty (s : BufferPool σ) (f : FrameId) (pageLsn : UInt64) : BufferPool σ :=
  s.setFrame f ((s.frame f).markDirty pageLsn)

/-- Overwrite the bytes of a frame and mark it dirty. -/
def write (s : BufferPool σ) (f : FrameId) (bytes : Bytes) (pageLsn : UInt64) : BufferPool σ :=
  s.setFrame f ({ s.frame f with data := bytes }.markDirty pageLsn)

end BufferPool

end CenDB.Buffer
