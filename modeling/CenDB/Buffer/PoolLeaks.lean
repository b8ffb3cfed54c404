import CenDB.Buffer.PoolSession

/-! # Frames do not leak

`NoLeaks` says that every frame is free or mapped by exactly one page, which is its own, and that
the replacer can choose every mapped frame that is not pinned.  `noLeaks_iff` says exactly which
calls keep that: a failed read of a page loses the frame it was meant for, and a failed write-back
loses the victim for the replacer. -/

namespace CenDB.Buffer

open CenDB.Storage BufferPool Session List Table UInt32

variable {σ : Type} {src : PageSource σ}

/-! ### The property -/

/-- Free, or mapped by exactly one page, which is the frame's own. -/
def BufferPool.Placed (s : BufferPool σ) (f : FrameId) : Prop :=
  (f ∈ s.freeList ∧ ∀ id, s.pageTable.lookup id ≠ some f) ∨
    (f ∉ s.freeList ∧ ∃ id, s.pageTable.lookup id = some f ∧ (s.frame f).pageId = some id ∧
      ∀ id', s.pageTable.lookup id' = some f → id' = id)

/-- The replacer can choose every mapped frame that is not pinned. -/
def BufferPool.AllKnown (s : BufferPool σ) : Prop :=
  ∀ id f, s.pageTable.lookup id = some f → (s.frame f).isPinned = false → s.replacer.Known f

structure NoLeaks (s : Session σ) : Prop where
  placed : ∀ f : FrameId, f.toNat < s.pool.frames.length → s.pool.Placed f
  known : s.pool.AllKnown

/-- A dirty victim can be written back. -/
def WritesBack (src : PageSource σ) (s : BufferPool σ) : Prop :=
  ∀ v r id, s.freeList = [] → s.replacer.pickVictim = (some v, r) → (s.frame v).isPinned = false →
    (s.frame v).pageId = some id → (s.frame v).dirty = true →
    (src.writePage s.source id (s.frame v).data).1 = .ok ()

/-- The call loses no frame: page reads and write-backs succeed and the page id is not the one of
an empty frame; a last guard is dropped from a frame that the replacer has a history of, and a pin
that wraps the pin count to zero leaves a frame that it can choose. -/
def Sound (src : PageSource σ) (s : Session σ) : Op → Prop
  | .pinPage id hint =>
    match s.pool.pageTable.lookup id with
    | some f => (s.pool.frame f).pin.isPinned = false → (s.pool.hit f hint).replacer.Known f
    | none => WritesBack src s.pool ∧
      ∀ f t, evictOrTakeFree src s.pool.countMiss = (.ok f, t) →
        id ≠ invalidPageId ∧ (src.readPage t.source id (t.frame f).data).1 = .ok ()
  | .newPage id => s.pool.pageTable.lookup id = none → WritesBack src s.pool ∧
    ∀ f t, evictOrTakeFree src s.pool.countMiss = (.ok f, t) → id ≠ invalidPageId
  | .unpin f id => (f, id) ∈ s.guards → (s.pool.frame f).unpin.isPinned = false →
    (s.pool.replacer.history.lookup f).isSome
  | _ => True

/-! ### The invariant -/

structure Inv (s : Session σ) : Prop where
  partition : Partition s.pool none
  valid : ∀ id f, s.pool.pageTable.lookup id = some f → id ≠ invalidPageId
  known : s.pool.AllKnown
  guards : ∀ g ∈ s.guards, g.1.toNat < s.pool.frames.length ∧ g.1 ∉ s.pool.freeList

variable {s : Session σ}

theorem Inv.noLeaks (h : Inv s) : NoLeaks s := by
  refine ⟨?_, h.known⟩
  intro f hf
  rcases h.partition.covered f hf with hfree | ⟨id, hid⟩ | hnone
  · exact .inl ⟨hfree, fun id hid => (h.partition.mapped id f hid).2.1 hfree⟩
  · obtain ⟨-, hfree, hpage, -⟩ := h.partition.mapped id f hid
    refine .inr ⟨hfree, id, hid, ?_, fun id' hid' => h.partition.page_unique hid hid'⟩
    rw [pageId_of_ne (by rw [hpage]; exact h.valid id f hid), hpage]
  · cases hnone

/-- A guarded frame is mapped. -/
theorem Inv.guard_mapped (h : Inv s) {f : FrameId} {id : PageId} (hg : (f, id) ∈ s.guards) :
    ∃ id', s.pool.pageTable.lookup id' = some f := by
  obtain ⟨hlt, hfree⟩ := h.guards _ hg
  rcases h.partition.covered f hlt with hmem | hmapped | hnone
  · exact absurd hmem hfree
  · exact hmapped
  · cases hnone

/-! ### A miss -/

section miss

variable {s t : BufferPool σ} {f : FrameId} {id : PageId} {w : Frame}

theorem AllKnown.taken (h : s.AllKnown) (ht : Taken s t f) : t.AllKnown := by
  intro id g hid hpin
  have hne : g ≠ f := fun heq => (ht.partition.mapped id g hid).2.2.2 (congrArg some heq.symm)
  rw [ht.frames g hne] at hpin
  exact ht.known g hne (h id g (ht.lookup id g hid) hpin)

theorem isPinned_pin (h : w.pinCount = 0) : w.pin.isPinned = true := by
  rw [isPinned_iff, Frame.pin, h]
  exact (by decide : (0 : UInt32) + 1 ≠ 0)

theorem AllKnown.mapPage (h : t.AllKnown) (ht : Partition t (some f)) (hw : w.pinCount = 0) :
    (t.mapPage f w id).AllKnown := by
  intro id' g hid hpin
  have hframe : (t.mapPage f w id).frame g = if g = f then (w.setPageId id).pin else t.frame g :=
    frame_setFrame (ht.vacant f rfl).1 g
  have hlookup : (if id' = id then some f else t.pageTable.lookup id') = some g := by
    rw [← lookup_insert_if]
    exact hid
  rw [hframe] at hpin
  by_cases hg : g = f
  · rw [if_pos hg, isPinned_pin (show (w.setPageId id).pinCount = 0 from hw)] at hpin
    cases hpin
  · rw [if_neg hg] at hpin
    by_cases heq : id' = id
    · rw [if_pos heq, Option.some.injEq] at hlookup
      exact absurd hlookup.symm hg
    · rw [if_neg heq] at hlookup
      exact (h id' g hlookup hpin).recordAccess f

theorem AllKnown.load (h : t.AllKnown) (ht : Partition t (some f)) (hw : w.pinCount = 0)
    (hint : ReadHint) : (t.load f w id hint).AllKnown := by
  have hmapped : (t.mapPage f w id).AllKnown := AllKnown.mapPage h ht hw
  cases hint with
  | point => exact hmapped
  | scan =>
    intro id' g hid hpin
    exact (hmapped id' g hid hpin).markEvictable f

/-- A frame that cannot be taken, while write-backs succeed, changes no page. -/
theorem evicted_error {e : CenError} (h : Partition s none)
    (hvalid : ∀ id f, s.pageTable.lookup id = some f → id ≠ invalidPageId) (hknown : s.AllKnown)
    (hwrites : WritesBack src s) (hev : Evicted src s (.error e, t)) :
    Partition t none ∧ t.AllKnown ∧ t.pageTable = s.pageTable ∧ t.freeList = s.freeList ∧ t.frames = s.frames := by
  cases hev with
  | empty hfree hpick =>
    refine ⟨h.pick hpick, ?_, rfl, rfl, rfl⟩
    rw [(LruK.pickVictim_none hpick).1]
    exact hknown
  | pinned hfree hpick hpin =>
    refine ⟨h.pick hpick, ?_, rfl, rfl, rfl⟩
    intro id g hid hunpinned
    refine known_of_pick hpick ?_ (hknown id g hid hunpinned)
    rintro rfl
    rw [show (s.frame g).isPinned = false from hunpinned] at hpin
    cases hpin
  | noPage hfree hpick hpin hpage =>
    obtain ⟨id, hid, hraw⟩ := h.victim_mapped hpick
    rw [pageId_of_ne (by rw [hraw]; exact hvalid id _ hid)] at hpage
    cases hpage
  | failed hfree hpick hpin hpage hdirty hwrite =>
    have hok := hwrites _ _ _ hfree hpick hpin hpage hdirty
    rw [hwrite] at hok
    cases hok

end miss

/-! ### One call -/

section step

variable {s s' : Session σ} {f : FrameId} {id : PageId}

variable {t : BufferPool σ}

variable {w : Frame} {hint : ReadHint} {failed : Bool} {e : CenError} {op : Op}

theorem lookup_load {id' : PageId} : (t.load f w id hint).pageTable.lookup id' =
      if id' = id then some f else t.pageTable.lookup id' := by
  cases hint with
  | point | scan => exact lookup_insert_if _ _ _ _

section

variable (h : Inv s)
include h

/-- The invariant after a miss that maps the taken frame. -/
theorem Inv.mapped {p : BufferPool σ} {guards : List (FrameId × PageId)} {view : PageId → Bytes}
    (ht : Taken s.pool t f) (hid : id ≠ invalidPageId) (hpartition : Partition p none) (hknown : p.AllKnown)
    (hlookup : ∀ id', p.pageTable.lookup id' = if id' = id then some f else t.pageTable.lookup id')
    (hfree : p.freeList = t.freeList) (hlength : p.frames.length = t.frames.length)
    (hguards : ∀ g ∈ guards, g = (f, id) ∨ g ∈ s.guards) : Inv ⟨p, guards, view, failed⟩ := by
  refine ⟨hpartition, ?_, hknown, ?_⟩
  · intro id' g hid'
    rw [hlookup] at hid'
    by_cases heq : id' = id
    · rw [heq]
      exact hid
    · rw [if_neg heq] at hid'
      exact h.valid id' g (ht.lookup id' g hid')
  · intro g hg
    rw [hfree, hlength, ht.length]
    cases hguards g hg with
    | inl heq =>
      rw [heq, ← ht.length]
      exact ⟨(ht.partition.vacant f rfl).1, fun hmem => (ht.partition.free f hmem).2.1 rfl⟩
    | inr hold => exact ⟨(h.guards g hold).1, fun hmem => (h.guards g hold).2 (ht.free _ hmem)⟩

theorem Inv.countMiss : Partition s.pool.countMiss none ∧ s.pool.countMiss.AllKnown :=
  ⟨⟨h.partition.mapped, h.partition.covered, h.partition.free, h.partition.nodup,
    h.partition.history, h.partition.vacant⟩, h.known⟩

/-- The invariant after a miss that finds no frame. -/
theorem Inv.unmapped (hwrites : WritesBack src s.pool) (hres : evictOrTakeFree src s.pool.countMiss = (.error e, t)) :
    Inv ⟨t, s.guards, s.view, failed⟩ := by
  obtain ⟨hpartition, hknown⟩ := h.countMiss
  have hev := evicted src s.pool.countMiss
  rw [hres] at hev
  obtain ⟨hpartition', hknown', htable, hfree, hframes⟩ := evicted_error hpartition h.valid hknown hwrites hev
  refine ⟨hpartition', ?_, hknown', ?_⟩
  · intro id' g hid'
    rw [htable] at hid'
    exact h.valid id' g hid'
  · intro g hg
    rw [hfree, hframes]
    exact h.guards g hg

/-- The frame a miss takes, and the page is still not mapped. -/
theorem Inv.taken (hid : s.pool.pageTable.lookup id = none)
    (hres : evictOrTakeFree src s.pool.countMiss = (.ok f, t)) :
    Taken s.pool t f ∧ t.AllKnown ∧ t.pageTable.lookup id = none := by
  obtain ⟨hpartition, hknown⟩ := h.countMiss
  have hev := evicted src s.pool.countMiss
  rw [hres] at hev
  have ht := hpartition.taken hev
  refine ⟨⟨ht.partition, ht.frames, ht.length, ht.lookup, ht.free, ht.known, ht.kept, ht.tracked⟩,
    AllKnown.taken hknown ht, ?_⟩
  cases hlook : t.pageTable.lookup id with
  | none => rfl
  | some g =>
    have hold : s.pool.pageTable.lookup id = some g := ht.lookup id g hlook
    rw [hold] at hid
    cases hid

theorem Inv.pinPage (hsound : Sound src s (.pinPage id hint))
    (hstep : s.step src (.pinPage id hint) = some s') : Inv s' := by
  unfold Sound at hsound
  dsimp only at hsound
  have hpin := pinned src s.pool id hint
  cases hres : s.pool.pinPage src id hint with
  | mk result p =>
    rw [hres] at hpin
    cases hpin with
    | hit hid =>
      rename_i f
      rw [hid] at hsound
      rw [step_pinPage_ok hres] at hstep
      cases hstep
      obtain ⟨hlt, hfree, -, -⟩ := h.partition.mapped id f hid
      refine ⟨h.partition.hit hid hint, h.valid, ?_, ?_⟩
      · intro id' g hid' hpin
        have hframe : (s.pool.hit f hint).frame g =
            if g = f then (s.pool.frame f).pin else s.pool.frame g := frame_setFrame hlt g
        rw [hframe] at hpin
        by_cases hg : g = f
        · rw [if_pos hg] at hpin
          exact hg ▸ hsound hpin
        · rw [if_neg hg] at hpin
          have hknown := h.known id' g hid' hpin
          unfold BufferPool.hit
          cases hint with
          | point => exact hknown.recordAccess f
          | scan => exact hknown
      · intro g hg
        rw [show (s.pool.hit f hint).frames.length = s.pool.frames.length from length_setFrame]
        cases mem_cons.mp hg with
        | inl heq =>
          rw [heq]
          exact ⟨hlt, hfree⟩
        | inr hold => exact h.guards g hold
    | failed hid hev =>
      rw [hid] at hsound
      rw [step_pinPage_error hres] at hstep
      cases hstep
      exact h.unmapped hsound.1 hev
    | unread hid hev hread =>
      rw [hid] at hsound
      have hok := (hsound.2 _ _ hev).2
      rw [hread] at hok
      cases hok
    | read hid hev hread =>
      rename_i t f buf source
      rw [hid] at hsound
      rw [step_pinPage_ok hres] at hstep
      cases hstep
      obtain ⟨ht, hknown, hnone⟩ := h.taken hid hev
      have hsource : Partition { t with source := source } (some f) :=
        ⟨ht.partition.mapped, ht.partition.covered, ht.partition.free, ht.partition.nodup,
          ht.partition.history, ht.partition.vacant⟩
      refine h.mapped ht (hsound.2 _ _ hev).1 (hsource.load hnone hint) ?_ (fun _ => lookup_load)
        ?_ ?_ (fun g hg => mem_cons.mp hg)
      · have hknown' : AllKnown { t with source := source } := hknown
        have hzero := (ht.partition.vacant f rfl).2
        refine AllKnown.load hknown' hsource ?_ hint
        exact hzero
      · cases hint <;> rfl
      · cases hint <;> exact length_setFrame

theorem Inv.newPage (hsound : Sound src s (.newPage id)) (hstep : s.step src (.newPage id) = some s') : Inv s' := by
  have hnew := created src s.pool id
  cases hres : s.pool.newPage src id with
  | mk result p =>
    rw [hres] at hnew
    cases hnew with
    | resident hid =>
      rw [step_newPage_error hres] at hstep
      cases hstep
      exact ⟨h.partition, h.valid, h.known, h.guards⟩
    | failed hid hev =>
      rw [step_newPage_error hres] at hstep
      cases hstep
      exact h.unmapped (hsound hid).1 hev
    | mapped hid hev =>
      rename_i t f
      rw [step_newPage_ok hres] at hstep
      cases hstep
      obtain ⟨ht, hknown, hnone⟩ := h.taken hid hev
      refine h.mapped ht ((hsound hid).2 _ _ hev) (ht.partition.mapPage hnone) ?_
        (fun _ => lookup_insert_if _ _ _ _) rfl length_setFrame
        (fun g hg => mem_cons.mp hg)
      exact AllKnown.mapPage hknown ht.partition (ht.partition.vacant f rfl).2

/-- A call on a guarded frame that keeps its page, its pins and the replacer. -/
theorem Inv.setFrame (hg : (f, id) ∈ s.guards) (hpage : w.rawPageId = (s.pool.frame f).rawPageId)
    (hpin : w.pinCount = (s.pool.frame f).pinCount) (view : PageId → Bytes) :
    Inv ⟨s.pool.setFrame f w, s.guards, view, s.failed⟩ := by
  obtain ⟨id', hid'⟩ := h.guard_mapped hg
  refine ⟨h.partition.setFrame hid' hpage, h.valid, ?_, ?_⟩
  · intro id'' g hid'' hunpinned
    refine h.known id'' g hid'' ?_
    rw [frame_setFrame (h.partition.mapped id' f hid').1] at hunpinned
    by_cases heq : g = f
    · rw [if_pos heq, Frame.isPinned, hpin] at hunpinned
      rw [heq]
      exact hunpinned
    · rwa [if_neg heq] at hunpinned
  · intro g hg
    rw [length_setFrame]
    exact h.guards g hg

/-- Dropping a guard. -/
theorem Inv.unpin (hg : (f, id) ∈ s.guards) (hhistory : (s.pool.frame f).unpin.isPinned = false →
      (s.pool.replacer.history.lookup f).isSome) :
    Inv ⟨s.pool.releasePin f, s.guards.erase (f, id), s.view, s.failed⟩ := by
  obtain ⟨id', hid'⟩ := h.guard_mapped hg
  have hlt := (h.partition.mapped id' f hid').1
  have hrest (g : FrameId) : (s.pool.releasePin f).frame g =
      if g = f then (s.pool.frame f).unpin else s.pool.frame g := by
    rw [← frame_setFrame hlt]
    unfold BufferPool.releasePin
    dsimp only
    split <;> rfl
  have htable : (s.pool.releasePin f).pageTable = s.pool.pageTable := by
    unfold BufferPool.releasePin
    dsimp only
    split <;> rfl
  have hfree : (s.pool.releasePin f).freeList = s.pool.freeList := by
    unfold BufferPool.releasePin
    dsimp only
    split <;> rfl
  have hlength : (s.pool.releasePin f).frames.length = s.pool.frames.length := by
    unfold BufferPool.releasePin
    dsimp only
    split <;> exact length_setFrame
  have hreplacer (g : FrameId) (hknown : s.pool.replacer.Known g) : (s.pool.releasePin f).replacer.Known g := by
    unfold BufferPool.releasePin
    dsimp only
    split
    · exact hknown
    · exact hknown.markEvictable f
  refine ⟨h.partition.releasePin hid', ?_, ?_, ?_⟩
  · intro id'' g hid''
    rw [htable] at hid''
    exact h.valid id'' g hid''
  · intro id'' g hid'' hunpinned
    rw [htable] at hid''
    rw [hrest] at hunpinned
    by_cases heq : g = f
    · rw [if_pos heq] at hunpinned
      rw [heq]
      unfold BufferPool.releasePin
      dsimp only
      rw [if_neg (by rw [hunpinned]; exact Bool.false_ne_true)]
      exact ⟨LruK.mem_markEvictable.mpr (.inr rfl), hhistory hunpinned⟩
    · rw [if_neg heq] at hunpinned
      exact hreplacer g (h.known id'' g hid'' hunpinned)
  · intro g hmem
    rw [hlength, hfree]
    exact h.guards g (mem_of_mem_erase hmem)

/-- Flushing one page. -/
theorem Inv.flushed (id : PageId) : Inv ⟨(flushPage src s.pool id).2, s.guards, s.view, s.failed⟩ := by
  have hflush := BufferPool.flushed src s.pool id
  cases hres : flushPage src s.pool id with
  | mk result p =>
    rw [hres] at hflush
    have hpartition := h.partition.flushed hflush
    cases hflush with
    | absent hid | clean hid hclean => exact ⟨h.partition, h.valid, h.known, h.guards⟩
    | failed hid hwrite => exact ⟨hpartition, h.valid, h.known, h.guards⟩
    | written hid hwrite =>
      rename_i f source
      refine ⟨hpartition, h.valid, ?_, ?_⟩
      · intro id' g hid' hunpinned
        refine h.known id' g hid' ?_
        have hframe := frame_setFrame (w := (s.pool.frame f).clearDirty) (h.partition.mapped id f hid).1 g
        have hpin : ((s.pool.setFrame f (s.pool.frame f).clearDirty).frame g).isPinned = false := hunpinned
        rw [hframe] at hpin
        by_cases heq : g = f
        · rw [if_pos heq] at hpin
          rw [heq]
          exact hpin
        · rwa [if_neg heq] at hpin
      · intro g hg
        rw [show (countFlush (BufferPool.setFrame { s.pool with source := source } f
          (s.pool.frame f).clearDirty)).frames.length = s.pool.frames.length from length_setFrame]
        exact h.guards g hg

/-- **One call** that loses no frame. -/
theorem Inv.step (hsound : Sound src s op) (hstep : s.step src op = some s') : Inv s' := by
  cases op with
  | pinPage id hint => exact h.pinPage hsound hstep
  | newPage id => exact h.newPage hsound hstep
  | write f id bytes lsn =>
    unfold Session.step at hstep
    dsimp only at hstep
    split at hstep
    · rename_i hg
      cases hstep
      exact h.setFrame (w := { s.pool.frame f with data := bytes }.markDirty lsn) hg.1 rfl rfl _
    · cases hstep
  | markDirty f id lsn =>
    unfold Session.step at hstep
    dsimp only at hstep
    split at hstep
    · rename_i hg
      cases hstep
      exact h.setFrame (w := (s.pool.frame f).markDirty lsn) hg rfl rfl _
    · cases hstep
  | unpin f id =>
    unfold Session.step at hstep
    dsimp only at hstep
    split at hstep
    · rename_i hg
      cases hstep
      exact h.unpin hg (hsound hg)
    · cases hstep
  | flushPage id =>
    cases hstep
    exact h.flushed id
  | flushAll order =>
    unfold Session.step at hstep
    dsimp only at hstep
    split at hstep
    · cases hstep
      exact flushPages_keeps (P := fun p => Inv ⟨p, s.guards, s.view, s.failed⟩) order
        (fun p id hp => hp.flushed id) h
    · cases hstep

end

/-! ### What is lost otherwise -/

/-- A taken frame that is not mapped is neither free nor mapped. -/
theorem not_placed_vacant (ht : Partition t (some f)) : ¬ t.Placed f := by
  rintro (⟨hfree, -⟩ | ⟨-, id, hid, -⟩)
  · exact (ht.free f hfree).2.1 rfl
  · exact (ht.mapped id f hid).2.2.2 rfl

/-- A failed write-back makes the replacer forget a page that stays in the pool. -/
theorem Inv.lost_victim (h : Inv s) (hno : ¬ WritesBack src s.pool)
    (hres : evictOrTakeFree src s.pool.countMiss = (.error e, t)) : ¬ t.AllKnown := by
  intro hknown
  unfold WritesBack at hno
  push Not at hno
  obtain ⟨v, r, id, hfree, hpick, hpin, hpage, hdirty, hwrite⟩ := hno
  have hev := evicted src s.pool.countMiss
  rw [hres] at hev
  obtain ⟨id', hid', -⟩ := h.partition.victim_mapped hpick
  have hlost : r.history.lookup v = none := by
    rw [(LruK.pickVictim_some hpick).2.1, AList.lookup_erase]
  have hsame {v' : Option FrameId} {r' : LruK}
      (hpick' : s.pool.countMiss.replacer.pickVictim = (v', r')) : v' = some v ∧ r' = r := by
    have heq := hpick'.symm.trans hpick
    exact ⟨(Prod.mk.inj heq).1, (Prod.mk.inj heq).2⟩
  cases hev with
  | empty hfree' hpick' => cases (hsame hpick').1
  | pinned hfree' hpick' hpin' =>
    rw [Option.some.inj (hsame hpick').1, show (s.pool.countMiss.frame v).isPinned = false from hpin] at hpin'
    cases hpin'
  | noPage hfree' hpick' hpin' hpage' =>
    rw [Option.some.inj (hsame hpick').1, show (s.pool.countMiss.frame v).pageId = some id from hpage] at hpage'
    cases hpage'
  | failed hfree' hpick' hpin' hpage' hdirty' hwrite' =>
    have hcandidate := (hknown id' v hid' hpin).2
    rw [(hsame hpick').2, hlost] at hcandidate
    cases hcandidate

/-- Where write-backs fail, no frame is taken. -/
theorem exists_error_of_not_writesBack (hno : ¬ WritesBack src s.pool) :
    ∃ e t, evictOrTakeFree src s.pool.countMiss = (.error e, t) := by
  unfold WritesBack at hno
  push Not at hno
  obtain ⟨v, r, id, hfree, hpick, hpin, hpage, hdirty, hwrite⟩ := hno
  have hev := evicted src s.pool.countMiss
  cases hres : evictOrTakeFree src s.pool.countMiss with
  | mk result t =>
    cases result with
    | error e => exact ⟨e, t, rfl⟩
    | ok f =>
      rw [hres] at hev
      have hsame {v' : Option FrameId} {r' : LruK}
          (hpick' : s.pool.countMiss.replacer.pickVictim = (v', r')) : v' = some v :=
        (Prod.mk.inj (hpick'.symm.trans hpick)).1
      cases hev with
      | free hlast =>
        rw [show s.pool.countMiss.freeList = [] from hfree] at hlast
        cases hlast
      | clean hfree' hpick' hpin' hpage' hclean' =>
        rw [Option.some.inj (hsame hpick'), show (s.pool.countMiss.frame v).dirty = true from hdirty] at hclean'
        cases hclean'
      | written hfree' hpick' hpin' hpage' hdirty' hwrite' =>
        obtain rfl := Option.some.inj (hsame hpick')
        rw [show (s.pool.countMiss.frame _).pageId = some id from hpage, Option.some.injEq] at hpage'
        subst hpage'
        exact absurd (congrArg Prod.fst hwrite') hwrite

/-- A page with the id of an empty frame is in a frame that has no page. -/
theorem not_placed_invalid (ht : Partition t none) (hid : t.pageTable.lookup invalidPageId = some f) :
    ¬ t.Placed f := by
  obtain ⟨-, hfree, hpage, -⟩ := ht.mapped _ f hid
  have hnone : (t.frame f).pageId = none := by
    unfold Frame.pageId
    rw [if_pos hpage]
  rintro (⟨hmem, -⟩ | ⟨-, id, -, hown, -⟩)
  · exact hfree hmem
  · rw [hnone] at hown
    cases hown

/-- **A call that is not sound loses a frame.** -/
theorem Inv.leaks (h : Inv s) (hno : ¬ Sound src s op) (hstep : s.step src op = some s') : ¬ NoLeaks s' := by
  intro hkeep
  cases op with
  | write f id bytes lsn | markDirty f id lsn | flushPage id | flushAll order => exact hno trivial
  | unpin f id =>
    unfold Sound at hno
    push Not at hno
    obtain ⟨hg, hunpinned, hhistory⟩ := hno
    obtain ⟨id', hid'⟩ := h.guard_mapped hg
    unfold Session.step at hstep
    dsimp only at hstep
    rw [if_pos hg] at hstep
    cases hstep
    have hrelease : s.pool.releasePin f = { s.pool.setFrame f (s.pool.frame f).unpin with
        replacer := s.pool.replacer.markEvictable f } := by
      unfold BufferPool.releasePin
      dsimp only
      rw [if_neg (by rw [hunpinned]; exact Bool.false_ne_true)]
    have hknown := hkeep.known
    rw [hrelease] at hknown
    have hcandidate := hknown id' f hid' (by
      show ((s.pool.setFrame f (s.pool.frame f).unpin).frame f).isPinned = false
      rw [frame_setFrame_self (h.partition.mapped id' f hid').1, hunpinned])
    exact hhistory hcandidate.2
  | pinPage id hint =>
    have hpin := pinned src s.pool id hint
    unfold Sound at hno
    dsimp only at hno
    cases hres : s.pool.pinPage src id hint with
    | mk result p =>
      rw [hres] at hpin
      cases hpin with
      | hit hid =>
        rename_i f
        rw [hid] at hno
        push Not at hno
        rw [step_pinPage_ok hres] at hstep
        cases hstep
        refine hno.2 (hkeep.known id f hid ?_)
        rw [show (s.pool.hit f hint).frame f = (s.pool.frame f).pin from
          frame_setFrame_self (h.partition.mapped id f hid).1]
        exact hno.1
      | failed hid hev =>
        rw [hid] at hno
        rw [step_pinPage_error hres] at hstep
        cases hstep
        refine h.lost_victim ?_ hev hkeep.known
        intro hwrites
        refine hno ⟨hwrites, fun f t hok => ?_⟩
        rw [hev] at hok
        cases hok
      | unread hid hev hread =>
        rename_i t f e buf source
        rw [step_pinPage_error hres] at hstep
        cases hstep
        obtain ⟨ht, -, -⟩ := h.taken hid hev
        have hplaced := hkeep.placed f (by
          show f.toNat < (t.setFrame f _).frames.length
          rw [length_setFrame]
          exact (ht.partition.vacant f rfl).1)
        refine not_placed_vacant ht.partition ?_
        rcases hplaced with hfree | ⟨-, id', hid', -⟩
        · exact .inl hfree
        · exact absurd rfl (ht.partition.mapped id' f hid').2.2.2
      | read hid hev hread =>
        rename_i t f buf source
        rw [hid] at hno
        rw [step_pinPage_ok hres] at hstep
        cases hstep
        obtain ⟨ht, -, hnone⟩ := h.taken hid hev
        have hwrites : WritesBack src s.pool := by
          by_contra hno
          obtain ⟨e, t', herror⟩ := exists_error_of_not_writesBack hno
          rw [herror] at hev
          cases hev
        have hinvalid : id = invalidPageId := by
          by_contra hne
          refine hno ⟨hwrites, fun f' t' hok => ?_⟩
          rw [hev, Prod.mk.injEq, Except.ok.injEq] at hok
          obtain ⟨rfl, rfl⟩ := hok
          rw [hread]
          exact ⟨hne, rfl⟩
        subst hinvalid
        have hsource : Partition { t with source := source } (some f) :=
          ⟨ht.partition.mapped, ht.partition.covered, ht.partition.free, ht.partition.nodup,
            ht.partition.history, ht.partition.vacant⟩
        have hloaded := hsource.load (w := { t.frame f with data := buf, dirty := false }) hnone hint
        have hlookup : (load { t with source := source } f
            { t.frame f with data := buf, dirty := false } invalidPageId hint).pageTable.lookup
              invalidPageId = some f := by simp [lookup_load]
        exact not_placed_invalid hloaded hlookup (hkeep.placed f (hloaded.mapped _ f hlookup).1)
  | newPage id =>
    have hnew := created src s.pool id
    unfold Sound at hno
    push Not at hno
    obtain ⟨hid, hno⟩ := hno
    cases hres : s.pool.newPage src id with
    | mk result p =>
      rw [hres] at hnew
      cases hnew with
      | resident hid' =>
        rw [hid] at hid'
        cases hid'
      | failed hid' hev =>
        rw [step_newPage_error hres] at hstep
        cases hstep
        refine h.lost_victim ?_ hev hkeep.known
        intro hwrites
        obtain ⟨f, t, hok, -⟩ := hno hwrites
        rw [hev] at hok
        cases hok
      | mapped hid' hev =>
        rename_i t f
        rw [step_newPage_ok hres] at hstep
        cases hstep
        obtain ⟨ht, -, hnone⟩ := h.taken hid hev
        have hwrites : WritesBack src s.pool := by
          by_contra hno
          obtain ⟨e, t', herror⟩ := exists_error_of_not_writesBack hno
          rw [herror] at hev
          cases hev
        obtain ⟨-, -, -, hinvalid⟩ := hno hwrites
        subst hinvalid
        have hmapped := ht.partition.mapPage (w := zeroed (t.frame f)) hnone
        have hlookup : (t.mapPage f (zeroed (t.frame f)) invalidPageId).pageTable.lookup
            invalidPageId = some f := AList.lookup_insert _
        exact not_placed_invalid hmapped hlookup (hkeep.placed f (hmapped.mapped _ f hlookup).1)

end step

/-! ### Runs -/

section runs

variable {frameCount pageSize : ℕ} {source : σ} {pool : BufferPool σ}

theorem new_eq (hnew : BufferPool.new src source frameCount pageSize = .ok pool) : pool = {
      frames := List.replicate frameCount (Frame.new pageSize)
      pageTable := ∅
      freeList := (List.range frameCount).map UInt32.ofNat
      replacer := .new
      source := source
      pageSize := pageSize
      stats := ⟨0, 0, 0, 0, UInt32.ofNat frameCount⟩ } := by
  unfold BufferPool.new at hnew
  split_ifs at hnew
  exact (Except.ok.inj hnew).symm

theorem frame_new (hnew : BufferPool.new src source frameCount pageSize = .ok pool) (f : FrameId) :
    pool.frame f = Frame.new pageSize := by
  rw [new_eq hnew, frame]
  dsimp only
  rw [getD_eq_getElem?_getD, getElem?_replicate]
  split <;> rfl

/-- A new pool has all its frames free. -/
theorem partition_new (hfew : frameCount ≤ 2 ^ 32)
    (hnew : BufferPool.new src source frameCount pageSize = .ok pool) : Partition pool none := by
  have hframe := frame_new hnew
  have heq := new_eq hnew
  have hfree (f : FrameId) : f ∈ pool.freeList ↔ f.toNat < frameCount := by
    rw [heq, List.mem_map]
    constructor
    · rintro ⟨i, hi, rfl⟩
      rw [mem_range] at hi
      rw [UInt32.toNat_ofNat_of_lt' (by unfold UInt32.size; omega)]
      exact hi
    · intro hf
      exact ⟨f.toNat, mem_range.mpr hf, UInt32.ofNat_toNat⟩
  have hlength : pool.frames.length = frameCount := by simp [heq]
  have htable (id : PageId) : pool.pageTable.lookup id = none := by
    rw [heq]
    rfl
  refine ⟨?_, ?_, ?_, ?_, ?_, ?_⟩
  · simp [htable]
  · intro f hf
    rw [hlength] at hf
    exact .inl ((hfree f).mpr hf)
  · intro f hf
    rw [hlength, hframe]
    exact ⟨(hfree f).mp hf, nofun, rfl⟩
  · rw [heq]
    refine List.Nodup.map_on ?_ nodup_range
    intro i hi j hj hij
    rw [mem_range] at hi hj
    have htoNat := congrArg UInt32.toNat hij
    rwa [UInt32.toNat_ofNat_of_lt' (by unfold UInt32.size; omega),
      UInt32.toNat_ofNat_of_lt' (by unfold UInt32.size; omega)] at htoNat
  · intro f hf
    rw [heq] at hf
    cases hf
  · simp

/-- **Frames do not leak exactly as long as** every call is sound: no page read and no write-back
fails, no page has the id of an empty frame, the replacer has a history of a frame whose last guard
is dropped, and no pin count wraps around on a frame it cannot choose. -/
theorem noLeaks_iff (source : σ) (frameCount pageSize : ℕ) (hfew : frameCount ≤ 2 ^ 32)
    (pool : BufferPool σ) (hnew : BufferPool.new src source frameCount pageSize = .ok pool)
    (view : PageId → Bytes) (ops : List Op) :
    Transition.Throughout (Session.step src) NoLeaks (Session.init pool view) ops ↔
      Transition.Along (Session.step src) (Sound src) (Session.init pool view) ops := by
  have hstart : Inv (Session.init pool view) := by
    refine ⟨partition_new hfew hnew, ?_, ?_, fun g hg => absurd hg not_mem_nil⟩
    · intro id f hid
      rw [show (Session.init pool view).pool = pool from rfl, new_eq hnew] at hid
      cases hid
    · intro id f hid
      rw [show (Session.init pool view).pool = pool from rfl, new_eq hnew] at hid
      cases hid
  refine Transition.throughout_iff_along_of_leaves (I := Inv) (P := NoLeaks)
    (fun s h => h.noLeaks) ?_ ?_ ?_ hstart ops
  · intro s op hstuck
    cases op with
    | write f id bytes lsn => trivial
    | markDirty f id lsn => trivial
    | flushPage id => trivial
    | flushAll order => trivial
    | unpin f id =>
      intro hg
      unfold Session.step at hstuck
      dsimp only at hstuck
      rw [if_pos hg] at hstuck
      cases hstuck
    | pinPage id hint =>
      cases hres : s.pool.pinPage src id hint with
      | mk result p =>
        cases result with
        | ok f =>
          rw [step_pinPage_ok hres] at hstuck
          cases hstuck
        | error e =>
          rw [step_pinPage_error hres] at hstuck
          cases hstuck
    | newPage id =>
      cases hres : s.pool.newPage src id with
      | mk result p =>
        cases result with
        | ok f =>
          rw [step_newPage_ok hres] at hstuck
          cases hstuck
        | error e =>
          rw [step_newPage_error hres] at hstuck
          cases hstuck
  · intro s op s' h hsound hstep
    exact h.step hsound hstep
  · intro s op s' h hno hstep
    exact h.leaks hno hstep

end runs

/-! ### A read that fails -/

/-- A pool of one frame over pages in memory. -/
def smallPool : BufferPool (InMemoryPageSource 64) := ⟨[Frame.new 64], ∅, [0], .new, .new, 64, ⟨0, 0, 0, 0, 1⟩⟩

theorem noLeaks_iff_small : Transition.Throughout (Session.step InMemoryPageSource.source) NoLeaks
      (Session.init smallPool fun _ => List.replicate 64 0) [.pinPage 7 .point] := by
  refine (noLeaks_iff InMemoryPageSource.new 1 64 (by decide) smallPool rfl _ _).mpr ?_
  refine Transition.along_single.mpr ⟨?_, ?_⟩
  · intro v r id hfree
    cases hfree
  · intro f t hres
    exact ⟨by decide, InMemoryPageSource.readPage_source t.source 7 _⟩

/-- A source none of whose pages can be read. -/
def brokenSource : PageSource Unit where
  readPage s _ buf := (.error (internal "page out of range"), buf, s)
  writePage s _ _ := (.ok (), s)
  pageSize _ := 64

/-- **A failed read loses the frame**: the only frame of the pool is neither free nor mapped. -/
theorem failed_read_leaks : ∃ pool, BufferPool.new brokenSource () 1 64 = .ok pool ∧
      ¬ Transition.Throughout (Session.step brokenSource) NoLeaks
        (Session.init pool fun _ => []) [.pinPage 7 .point] := by
  refine ⟨_, rfl, ?_⟩
  intro hkeep
  obtain ⟨hplaced, -⟩ := hkeep [.pinPage 7 .point] _ (prefix_refl _) rfl
  rcases hplaced 0 (by decide) with ⟨hfree, -⟩ | ⟨-, id, hid, -⟩
  · cases hfree
  · cases hid

end CenDB.Buffer
