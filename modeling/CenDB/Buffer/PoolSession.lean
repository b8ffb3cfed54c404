import CenDB.Buffer.PoolFrames

/-! # Calls of a buffer pool

A session is a pool together with the guards that are held, the bytes that were last written to
every page, and whether a call failed that should have returned a guard.  A guard is the frame it
holds and the page it was made for.

`Inv` is the part of the invariant that does not speak of contents; the lemmas say what every call
makes of it. -/

namespace CenDB.Buffer

open CenDB.Storage

/-- A call of the pool or of a guard.  `flushAll` takes the pages in the order of the table's
iterator. -/
inductive Op where
  | pinPage (id : PageId) (hint : ReadHint)
  | newPage (id : PageId)
  | write (f : FrameId) (id : PageId) (bytes : Bytes) (lsn : UInt64)
  | markDirty (f : FrameId) (id : PageId) (lsn : UInt64)
  | unpin (f : FrameId) (id : PageId)
  | flushPage (id : PageId)
  | flushAll (order : List PageId)

structure Session (σ : Type) where
  pool : BufferPool σ
  guards : List (FrameId × PageId)
  view : PageId → Bytes
  failed : Bool

namespace Session

open BufferPool

variable {σ : Type}

/-- A pool without guards, whose pages have the bytes of the source. -/
def init (pool : BufferPool σ) (view : PageId → Bytes) : Session σ := ⟨pool, [], view, false⟩

/-- One call.  The calls of a guard need the guard; a write keeps the page size. -/
def step (src : PageSource σ) (s : Session σ) : Op → Option (Session σ)
  | .pinPage id hint =>
    match s.pool.pinPage src id hint with
    | (.ok f, pool) => some { s with pool := pool, guards := (f, id) :: s.guards }
    | (.error _, pool) => some { s with pool := pool, failed := true }
  | .newPage id =>
    match s.pool.newPage src id with
    | (.ok f, pool) =>
      some { s with
        pool := pool
        guards := (f, id) :: s.guards
        view := Function.update s.view id (List.replicate s.pool.pageSize 0) }
    -- a page of the pool is not new: the call fails as it should
    | (.error _, pool) =>
      some { s with
        pool := pool
        failed := s.failed || (s.pool.pageTable.lookup id).isNone }
  | .write f id bytes lsn =>
    if (f, id) ∈ s.guards ∧ bytes.length = s.pool.pageSize then
      some { s with pool := s.pool.write f bytes lsn, view := Function.update s.view id bytes }
    else none
  | .markDirty f id lsn =>
    if (f, id) ∈ s.guards then some { s with pool := s.pool.markDirty f lsn } else none
  | .unpin f id =>
    if (f, id) ∈ s.guards then
      some { s with pool := s.pool.releasePin f, guards := s.guards.erase (f, id) }
    else none
  | .flushPage id => some { s with pool := (s.pool.flushPage src id).2 }
  | .flushAll order =>
    if order.Perm s.pool.pageTable.keys then
      some { s with pool := (s.pool.flushPages src order).2 }
    else none

end Session

namespace BufferPool

variable {σ : Type} {src : PageSource σ} {s s' : BufferPool σ} {f g : FrameId} {id : PageId} {w : Frame}

/-! ### Calls that take no frame -/

/-- A call on one mapped frame that keeps its page. -/
theorem Partition.setFrame {vacant : Option FrameId} (h : Partition s vacant)
    (hid : s.pageTable.lookup id = some f) (hpage : w.rawPageId = (s.frame f).rawPageId) :
    Partition (s.setFrame f w) vacant := by
  have hframe := frame_setFrame (w := w) (h.mapped id f hid).1
  refine h.congr rfl rfl length_setFrame ?_ ?_ fun _ hg => .inl hg
  · intro g
    rw [hframe]
    by_cases hg : g = f
    · rw [if_pos hg, hg, hpage]
    · rw [if_neg hg]
  · intro g
    by_cases hg : g = f
    · exact .inr ⟨id, hg ▸ hid⟩
    · rw [hframe, if_neg hg]
      exact .inl rfl

theorem Partition.hit (h : Partition s none) (hid : s.pageTable.lookup id = some f)
    (hint : ReadHint) : Partition (s.hit f hint) none := by
  refine (h.setFrame (w := (s.frame f).pin) hid rfl).congr rfl rfl rfl (fun _ => rfl) (fun _ => .inl rfl) ?_
  intro g hg
  unfold BufferPool.hit at hg
  cases hint with
  | scan => exact .inl hg
  | point =>
    cases LruK.lookup_recordAccess.mp hg with
    | inl heq => exact .inr ⟨id, heq ▸ hid⟩
    | inr hold => exact .inl hold

theorem Partition.releasePin (h : Partition s none) (hid : s.pageTable.lookup id = some f) :
    Partition (s.releasePin f) none := by
  have hunpin := h.setFrame (w := (s.frame f).unpin) hid rfl
  unfold BufferPool.releasePin
  by_cases hpin : (s.frame f).unpin.isPinned = true
  · dsimp only
    rw [if_pos hpin]
    exact hunpin
  · dsimp only
    rw [if_neg hpin]
    exact hunpin.congr rfl rfl rfl (fun _ => rfl) (fun _ => .inl rfl) fun _ hg => .inl hg

/-- The ways in which a flush of one page ends. -/
inductive Flushed (src : PageSource σ) (s : BufferPool σ) (id : PageId) :
    Except CenError Unit × BufferPool σ → Prop
  | absent (hid : s.pageTable.lookup id = none) : Flushed src s id (.ok (), s)
  | clean {f : FrameId} (hid : s.pageTable.lookup id = some f)
    (hclean : (s.frame f).dirty = false) : Flushed src s id (.ok (), s)
  | failed {f : FrameId} {e : CenError} {source : σ} (hid : s.pageTable.lookup id = some f)
    (hwrite : src.writePage s.source id (s.frame f).data = (.error e, source)) :
    Flushed src s id (.error e, { s with source := source })
  | written {f : FrameId} {source : σ} (hid : s.pageTable.lookup id = some f)
    (hwrite : src.writePage s.source id (s.frame f).data = (.ok (), source)) :
    Flushed src s id (.ok (), countFlush (({ s with source := source } : BufferPool σ).setFrame f
        (s.frame f).clearDirty))

theorem flushed (src : PageSource σ) (s : BufferPool σ) (id : PageId) : Flushed src s id (flushPage src s id) := by
  unfold flushPage
  cases hid : s.pageTable.lookup id with
  | none => exact .absent hid
  | some f =>
    dsimp only
    cases hdirty : (s.frame f).dirty with
    | false => exact .clean hid hdirty
    | true =>
      rw [if_pos rfl]
      cases hwrite : src.writePage s.source id (s.frame f).data with
      | mk result source =>
        cases result with
        | error e => exact .failed hid hwrite
        | ok => exact .written hid hwrite

/-- A flush of one page that keeps `P`, and the flush of them all. -/
theorem flushPages_keeps {P : BufferPool σ → Prop} (order : List PageId)
    (hone : ∀ s id, P s → P (flushPage src s id).2) (h : P s) : P (flushPages src s order).2 := by
  induction order generalizing s with
  | nil => exact h
  | cons id order ih =>
    unfold flushPages
    have hnext := hone s id h
    cases hflush : flushPage src s id with
    | mk result t =>
      rw [hflush] at hnext
      cases result with
      | error e => exact hnext
      | ok => exact ih hnext

theorem Partition.flushed {result : Except CenError Unit} (h : Partition s none)
    (hflush : Flushed src s id (result, s')) : Partition s' none := by
  cases hflush with
  | absent hid | clean hid hclean => exact h
  | failed hid hwrite =>
    exact h.congr rfl rfl rfl (fun _ => rfl) (fun _ => .inl rfl) fun _ hg => .inl hg
  | written hid hwrite =>
    rename_i f source
    exact (h.setFrame (w := (s.frame f).clearDirty) hid rfl).congr rfl rfl rfl (fun _ => rfl)
      (fun _ => .inl rfl) fun _ hg => .inl hg

/-! ### Calls that take a frame -/

section miss

/-- The ways in which `pin_page` ends. -/
inductive Pinned (src : PageSource σ) (s : BufferPool σ) (id : PageId) (hint : ReadHint) :
    Except CenError FrameId × BufferPool σ → Prop
  | hit {f : FrameId} (hid : s.pageTable.lookup id = some f) :
    Pinned src s id hint (.ok f, s.hit f hint)
  | failed {t : BufferPool σ} {e : CenError} (hid : s.pageTable.lookup id = none)
    (hev : evictOrTakeFree src s.countMiss = (.error e, t)) : Pinned src s id hint (.error e, t)
  | unread {t : BufferPool σ} {f : FrameId} {e : CenError} {buf : Bytes} {source : σ}
    (hid : s.pageTable.lookup id = none) (hev : evictOrTakeFree src s.countMiss = (.ok f, t))
    (hread : src.readPage t.source id (t.frame f).data = (.error e, buf, source)) :
    Pinned src s id hint (.error e, { t.setFrame f { t.frame f with data := buf } with source := source })
  | read {t : BufferPool σ} {f : FrameId} {buf : Bytes} {source : σ}
    (hid : s.pageTable.lookup id = none) (hev : evictOrTakeFree src s.countMiss = (.ok f, t))
    (hread : src.readPage t.source id (t.frame f).data = (.ok (), buf, source)) :
    Pinned src s id hint (.ok f, load { t with source := source } f
      { t.frame f with data := buf, dirty := false } id hint)

theorem pinned (src : PageSource σ) (s : BufferPool σ) (id : PageId) (hint : ReadHint) :
    Pinned src s id hint (pinPage src s id hint) := by
  unfold pinPage
  cases hid : s.pageTable.lookup id with
  | some f => exact .hit hid
  | none =>
    dsimp only
    cases hev : evictOrTakeFree src s.countMiss with
    | mk result t =>
      cases result with
      | error e => exact .failed hid hev
      | ok f =>
        dsimp only
        cases hread : src.readPage t.source id (t.frame f).data with
        | mk result rest =>
          obtain ⟨buf, source⟩ := rest
          cases result with
          | error e => exact .unread hid hev hread
          | ok => exact .read hid hev hread

/-- The frame of a new page. -/
def zeroed (w : Frame) : Frame := Frame.markDirty { w with data := List.replicate w.data.length 0 } 0

/-- The ways in which `new_page` ends. -/
inductive Created (src : PageSource σ) (s : BufferPool σ) (id : PageId) :
    Except CenError FrameId × BufferPool σ → Prop
  | resident {f : FrameId} {e : CenError} (hid : s.pageTable.lookup id = some f) :
    Created src s id (.error e, s)
  | failed {t : BufferPool σ} {e : CenError} (hid : s.pageTable.lookup id = none)
    (hev : evictOrTakeFree src s.countMiss = (.error e, t)) : Created src s id (.error e, t)
  | mapped {t : BufferPool σ} {f : FrameId} (hid : s.pageTable.lookup id = none)
    (hev : evictOrTakeFree src s.countMiss = (.ok f, t)) :
    Created src s id (.ok f, t.mapPage f (zeroed (t.frame f)) id)

theorem created (src : PageSource σ) (s : BufferPool σ) (id : PageId) : Created src s id (newPage src s id) := by
  unfold newPage
  cases hid : s.pageTable.lookup id with
  | some f => exact .resident hid
  | none =>
    rw [Option.isSome_none, if_neg Bool.false_ne_true]
    cases hev : evictOrTakeFree src s.countMiss with
    | mk result t =>
      cases result with
      | error e => exact .failed hid hev
      | ok f => exact .mapped hid hev

theorem Partition.load {t : BufferPool σ} (ht : Partition t (some f)) (hid : t.pageTable.lookup id = none)
    (hint : ReadHint) : Partition (t.load f w id hint) none := by
  have hmapped := ht.mapPage (w := w) hid
  cases hint with
  | point => exact hmapped
  | scan =>
    exact hmapped.congr rfl rfl rfl (fun _ => rfl) (fun _ => .inl rfl) fun _ hg => .inl hg

end miss

end BufferPool

namespace Session

variable {σ : Type} {src : PageSource σ} {s : Session σ} {p : BufferPool σ} {f : FrameId} {id : PageId} {e : CenError}

theorem step_pinPage_ok {hint : ReadHint} (hres : s.pool.pinPage src id hint = (.ok f, p)) :
    s.step src (.pinPage id hint) = some { s with pool := p, guards := (f, id) :: s.guards } := by
  rw [Session.step, hres]

theorem step_pinPage_error {hint : ReadHint} (hres : s.pool.pinPage src id hint = (.error e, p)) :
    s.step src (.pinPage id hint) = some { s with pool := p, failed := true } := by
  rw [Session.step, hres]

theorem step_newPage_ok (hres : s.pool.newPage src id = (.ok f, p)) : s.step src (.newPage id) = some { s with
      pool := p
      guards := (f, id) :: s.guards
      view := Function.update s.view id (List.replicate s.pool.pageSize 0) } := by
  rw [Session.step, hres]

theorem step_newPage_error (hres : s.pool.newPage src id = (.error e, p)) : s.step src (.newPage id) = some { s with
      pool := p
      failed := s.failed || (s.pool.pageTable.lookup id).isNone } := by
  rw [Session.step, hres]

end Session

end CenDB.Buffer
