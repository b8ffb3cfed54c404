import CenDB.Buffer.Pool
import CenDB.Lib.Transition

/-! # The frames of a buffer pool

`Partition s vacant` says that every frame of the pool is free, mapped by one page, or the vacant
one that a miss has just taken.  `Evicted` lists what taking a frame can do; each way it ends keeps
the frames apart (`Partition.evicted`), and mapping the vacant frame closes the partition again
(`Partition.mapPage`). -/

namespace CenDB.Buffer

open CenDB.Storage List Table

namespace BufferPool

variable {σ : Type} {src : PageSource σ} {s s' : BufferPool σ} {f g : FrameId} {id : PageId} {w : Frame}

/-! ### Frames -/

theorem toNat_ne (h : g ≠ f) : f.toNat ≠ g.toNat := fun heq => h (UInt32.toNat_inj.mp heq).symm

theorem frame_setFrame_self (hf : f.toNat < s.frames.length) : (s.setFrame f w).frame f = w := by
  unfold frame setFrame
  rw [getD_eq_getElem _ _ (by rwa [length_set]), getElem_set_self]

theorem frame_setFrame_of_ne (hne : g ≠ f) : (s.setFrame f w).frame g = s.frame g := by
  unfold frame setFrame
  rw [getD_eq_getElem?_getD, getD_eq_getElem?_getD, getElem?_set_ne (toNat_ne hne)]

@[simp] theorem length_setFrame : (s.setFrame f w).frames.length = s.frames.length :=
  length_set

/-- The frame of a changed slab is the changed one or an old one. -/
theorem frame_setFrame (hf : f.toNat < s.frames.length) (g : FrameId) :
    (s.setFrame f w).frame g = if g = f then w else s.frame g := by
  by_cases hg : g = f
  · rw [if_pos hg, hg, frame_setFrame_self hf]
  · rw [if_neg hg, frame_setFrame_of_ne hg]

theorem isPinned_iff : w.isPinned = true ↔ w.pinCount ≠ 0 := by
  unfold Frame.isPinned
  rw [decide_eq_true_iff, UInt32.pos_iff_ne_zero]

/-! ### The partition -/

/-- Every frame is free, mapped by the page it holds, or the vacant one. -/
structure Partition (s : BufferPool σ) (vacant : Option FrameId) : Prop where
  mapped : ∀ id f, s.pageTable.lookup id = some f → f.toNat < s.frames.length ∧
    f ∉ s.freeList ∧ (s.frame f).rawPageId = id ∧ vacant ≠ some f
  covered : ∀ f : FrameId, f.toNat < s.frames.length →
    f ∈ s.freeList ∨ (∃ id, s.pageTable.lookup id = some f) ∨ vacant = some f
  free : ∀ f ∈ s.freeList, f.toNat < s.frames.length ∧ vacant ≠ some f ∧ (s.frame f).pinCount = 0
  nodup : s.freeList.Nodup
  history : ∀ f, (s.replacer.history.lookup f).isSome → ∃ id, s.pageTable.lookup id = some f
  vacant : ∀ f, vacant = some f → f.toNat < s.frames.length ∧ (s.frame f).pinCount = 0

variable {vacant : Option FrameId} {r : LruK}

/-- Changes to the frames, the source and the replacer that leave pages, free frames and mapped
histories as they are. -/
theorem Partition.congr (h : Partition s vacant) (htable : s'.pageTable = s.pageTable)
    (hfree : s'.freeList = s.freeList) (hlength : s'.frames.length = s.frames.length)
    (hpage : ∀ f, (s'.frame f).rawPageId = (s.frame f).rawPageId)
    (hpin : ∀ f, (s'.frame f).pinCount = (s.frame f).pinCount ∨ ∃ id, s.pageTable.lookup id = some f)
    (hhistory : ∀ f, (s'.replacer.history.lookup f).isSome → (s.replacer.history.lookup f).isSome ∨ ∃ id, s.pageTable.lookup id = some f) :
    Partition s' vacant := by
  have hidle {f : FrameId} (hno : ∀ id, s.pageTable.lookup id ≠ some f) :
      (s'.frame f).pinCount = (s.frame f).pinCount := by
    cases hpin f with
    | inl heq => exact heq
    | inr hmapped =>
      obtain ⟨id, hid⟩ := hmapped
      exact absurd hid (hno id)
  refine ⟨?_, ?_, ?_, by rw [hfree]; exact h.nodup, ?_, ?_⟩
  · intro id f hid
    rw [htable] at hid
    rw [hlength, hfree, hpage]
    exact h.mapped id f hid
  · intro f hf
    rw [hlength] at hf
    rw [hfree, htable]
    exact h.covered f hf
  · intro f hf
    rw [hfree] at hf
    obtain ⟨hlt, hvacant, hzero⟩ := h.free f hf
    rw [hlength, hidle fun id hid => (h.mapped id f hid).2.1 hf]
    exact ⟨hlt, hvacant, hzero⟩
  · intro f hf
    rw [htable]
    cases hhistory f hf with
    | inl hold => exact h.history f hold
    | inr hmapped => exact hmapped
  · intro f hf
    rw [hlength, hidle fun id hid => (h.mapped id f hid).2.2.2 hf]
    exact h.vacant f hf

/-- No two pages share a frame. -/
theorem Partition.page_unique (h : Partition s vacant) {id' : PageId} (hid : s.pageTable.lookup id = some f)
    (hid' : s.pageTable.lookup id' = some f) : id' = id := by
  rw [← (h.mapped id f hid).2.2.1, (h.mapped id' f hid').2.2.1]

theorem Partition.takeFree (h : Partition s none) (hlast : s.freeList.getLast? = some f) :
    Partition { s with freeList := s.freeList.dropLast } (some f) := by
  have hsplit : s.freeList = s.freeList.dropLast ++ [f] := (dropLast_append_getLast? f hlast).symm
  have hmem : f ∈ s.freeList := mem_of_getLast? hlast
  have hnodup := h.nodup
  rw [hsplit, nodup_append] at hnodup
  have hnot : ∀ g ∈ s.freeList.dropLast, g ≠ f := fun g hg =>
    hnodup.2.2 g hg f mem_cons_self
  refine ⟨?_, ?_, ?_, hnodup.1, h.history, ?_⟩
  · intro id g hid
    obtain ⟨hlt, hfree, hpage, -⟩ := h.mapped id g hid
    refine ⟨hlt, fun hg => hfree (mem_of_mem_dropLast hg), hpage, ?_⟩
    intro heq
    exact hfree (Option.some.inj heq ▸ hmem)
  · intro g hg
    rcases h.covered g hg with hfree | hmapped | hnone
    · rw [hsplit, mem_append, mem_singleton] at hfree
      cases hfree with
      | inl hfree => exact .inl hfree
      | inr heq => exact .inr (.inr (congrArg some heq.symm))
    · exact .inr (.inl hmapped)
    · cases hnone
  · intro g hg
    obtain ⟨hlt, -, hzero⟩ := h.free g (mem_of_mem_dropLast hg)
    exact ⟨hlt, fun heq => hnot g hg (Option.some.inj heq).symm, hzero⟩
  · intro g hg
    cases hg
    exact ⟨(h.free f hmem).1, (h.free f hmem).2.2⟩

/-- An evicted frame is vacant. -/
theorem Partition.clearVictim (h : Partition s none) (hid : s.pageTable.lookup id = some f)
    (hpin : (s.frame f).pinCount = 0) : Partition (s.clearVictim f id) (some f) := by
  obtain ⟨hlt, hnotFree, -, -⟩ := h.mapped id f hid
  have hframe (g : FrameId) : (s.clearVictim f id).frame g =
      if g = f then (s.frame f).clearDirty.clearPageId else s.frame g := frame_setFrame hlt g
  have hlength : (s.clearVictim f id).frames.length = s.frames.length := length_setFrame
  have hlookup (id' : PageId) : (s.clearVictim f id).pageTable.lookup id' =
      if id' = id then none else s.pageTable.lookup id' := lookup_erase_if _ _ _
  have hother {id' : PageId} {g : FrameId} (hid' : (s.clearVictim f id).pageTable.lookup id' = some g) :
      s.pageTable.lookup id' = some g ∧ g ≠ f := by
    rw [hlookup] at hid'
    by_cases heq : id' = id
    · rw [if_pos heq] at hid'
      cases hid'
    · rw [if_neg heq] at hid'
      refine ⟨hid', ?_⟩
      rintro rfl
      exact heq (h.page_unique hid hid')
  have hkept {g : FrameId} (hne : g ≠ f) {id' : PageId} (hid' : s.pageTable.lookup id' = some g) :
      (s.clearVictim f id).pageTable.lookup id' = some g := by
    rw [hlookup, if_neg, hid']
    rintro rfl
    rw [hid, Option.some.injEq] at hid'
    exact hne hid'.symm
  refine ⟨?_, ?_, ?_, h.nodup, ?_, ?_⟩
  · intro id' g hid'
    obtain ⟨hold, hne⟩ := hother hid'
    obtain ⟨hlt', hfree', hpage', -⟩ := h.mapped id' g hold
    rw [hlength, hframe, if_neg hne]
    exact ⟨hlt', hfree', hpage', fun heq => hne (Option.some.inj heq).symm⟩
  · intro g hg
    rw [hlength] at hg
    by_cases hne : g = f
    · exact .inr (.inr (congrArg some hne.symm))
    · rcases h.covered g hg with hfree | ⟨id', hid'⟩ | hnone
      · exact .inl hfree
      · exact .inr (.inl ⟨id', hkept hne hid'⟩)
      · cases hnone
  · intro g hg
    obtain ⟨hlt', -, hzero⟩ := h.free g hg
    have hne : g ≠ f := fun heq => hnotFree (heq ▸ hg)
    rw [hlength, hframe, if_neg hne]
    exact ⟨hlt', fun heq => hne (Option.some.inj heq).symm, hzero⟩
  · intro g hg
    have hg' : ((AList.erase f s.replacer.history).lookup g).isSome := hg
    rw [lookup_erase_if] at hg'
    by_cases hne : g = f
    · rw [if_pos hne] at hg'
      cases hg'
    · rw [if_neg hne] at hg'
      obtain ⟨id', hid'⟩ := h.history g hg'
      exact ⟨id', hkept hne hid'⟩
  · intro g hg
    cases hg
    rw [hlength, hframe, if_pos rfl]
    exact ⟨hlt, hpin⟩

/-- Mapping the vacant frame. -/
theorem Partition.mapPage (h : Partition s (some f)) (hid : s.pageTable.lookup id = none) :
    Partition (s.mapPage f w id) none := by
  obtain ⟨hlt, -⟩ := h.vacant f rfl
  have hframe (g : FrameId) : (s.mapPage f w id).frame g =
      if g = f then (w.setPageId id).pin else s.frame g := frame_setFrame hlt g
  have hlength : (s.mapPage f w id).frames.length = s.frames.length := length_setFrame
  have hlookup (id' : PageId) : (s.mapPage f w id).pageTable.lookup id' =
      if id' = id then some f else s.pageTable.lookup id' := lookup_insert_if _ _ _ _
  have hnotFree : f ∉ s.freeList := fun hf => (h.free f hf).2.1 rfl
  have hkept {id' : PageId} {g : FrameId} (hid' : s.pageTable.lookup id' = some g) :
      (s.mapPage f w id).pageTable.lookup id' = some g := by
    rw [hlookup, if_neg, hid']
    rintro rfl
    rw [hid] at hid'
    cases hid'
  refine ⟨?_, ?_, ?_, h.nodup, ?_, ?_⟩
  · intro id' g hid'
    rw [hlookup] at hid'
    rw [hlength, hframe]
    by_cases heq : id' = id
    · rw [if_pos heq, Option.some.injEq] at hid'
      rw [if_pos hid'.symm, ← hid', heq]
      exact ⟨hlt, hnotFree, rfl, nofun⟩
    · rw [if_neg heq] at hid'
      obtain ⟨hlt', hfree', hpage', hvacant⟩ := h.mapped id' g hid'
      rw [if_neg fun heq => hvacant (congrArg some heq.symm)]
      exact ⟨hlt', hfree', hpage', nofun⟩
  · intro g hg
    rw [hlength] at hg
    rcases h.covered g hg with hfree | ⟨id', hid'⟩ | hvacant
    · exact .inl hfree
    · exact .inr (.inl ⟨id', hkept hid'⟩)
    · refine .inr (.inl ⟨id, ?_⟩)
      rw [hlookup, if_pos rfl, hvacant]
  · intro g hg
    obtain ⟨hlt', hvacant, hzero⟩ := h.free g hg
    rw [hlength, hframe, if_neg fun heq => hvacant (congrArg some heq.symm)]
    exact ⟨hlt', nofun, hzero⟩
  · intro g hg
    cases LruK.lookup_recordAccess.mp hg with
    | inl heq => exact ⟨id, by rw [hlookup, if_pos rfl, heq]⟩
    | inr hold =>
      obtain ⟨id', hid'⟩ := h.history g hold
      exact ⟨id', hkept hid'⟩
  · simp

/-! ### Taking a frame -/

/-- The ways in which taking a frame ends. -/
inductive Evicted (src : PageSource σ) (s : BufferPool σ) :
    Except CenError FrameId × BufferPool σ → Prop
  | free {f : FrameId} (hlast : s.freeList.getLast? = some f) :
    Evicted src s (.ok f, { s with freeList := s.freeList.dropLast })
  | empty {r : LruK} {e : CenError} (hfree : s.freeList = [])
    (hpick : s.replacer.pickVictim = (none, r)) : Evicted src s (.error e, { s with replacer := r })
  | pinned {v : FrameId} {r : LruK} {e : CenError} (hfree : s.freeList = [])
    (hpick : s.replacer.pickVictim = (some v, r)) (hpin : (s.frame v).isPinned = true) :
    Evicted src s (.error e, { s with replacer := r })
  | noPage {v : FrameId} {r : LruK} {e : CenError} (hfree : s.freeList = [])
    (hpick : s.replacer.pickVictim = (some v, r)) (hpin : (s.frame v).isPinned = false)
    (hpage : (s.frame v).pageId = none) : Evicted src s (.error e, { s with replacer := r })
  | failed {v : FrameId} {r : LruK} {e : CenError} {id : PageId} {source : σ}
    (hfree : s.freeList = []) (hpick : s.replacer.pickVictim = (some v, r))
    (hpin : (s.frame v).isPinned = false) (hpage : (s.frame v).pageId = some id)
    (hdirty : (s.frame v).dirty = true)
    (hwrite : src.writePage s.source id (s.frame v).data = (.error e, source)) :
    Evicted src s (.error e, { s with replacer := r, source := source })
  | clean {v : FrameId} {r : LruK} {id : PageId} (hfree : s.freeList = [])
    (hpick : s.replacer.pickVictim = (some v, r)) (hpin : (s.frame v).isPinned = false)
    (hpage : (s.frame v).pageId = some id) (hclean : (s.frame v).dirty = false) :
    Evicted src s (.ok v, clearVictim { s with replacer := r } v id)
  | written {v : FrameId} {r : LruK} {id : PageId} {source : σ} (hfree : s.freeList = [])
    (hpick : s.replacer.pickVictim = (some v, r)) (hpin : (s.frame v).isPinned = false)
    (hpage : (s.frame v).pageId = some id) (hdirty : (s.frame v).dirty = true)
    (hwrite : src.writePage s.source id (s.frame v).data = (.ok (), source)) :
    Evicted src s (.ok v, clearVictim (countFlush { s with replacer := r, source := source }) v id)

theorem evicted (src : PageSource σ) (s : BufferPool σ) : Evicted src s (evictOrTakeFree src s) := by
  unfold evictOrTakeFree
  cases hlast : s.freeList.getLast? with
  | some f => exact .free hlast
  | none =>
    have hfree : s.freeList = [] := getLast?_eq_none_iff.mp hlast
    cases hpick : s.replacer.pickVictim with
    | mk choice r =>
      cases choice with
      | none => exact .empty hfree hpick
      | some v =>
        have hframe : ({ s with replacer := r } : BufferPool σ).frame v = s.frame v := rfl
        dsimp only
        unfold evict
        rw [hframe]
        cases hpin : (s.frame v).isPinned with
        | true => exact .pinned hfree hpick hpin
        | false =>
          rw [if_neg Bool.false_ne_true]
          dsimp only
          cases hpage : (s.frame v).pageId with
          | none => exact .noPage hfree hpick hpin hpage
          | some id =>
            dsimp only
            cases hdirty : (s.frame v).dirty with
            | false => exact .clean hfree hpick hpin hpage hdirty
            | true =>
              rw [if_pos rfl]
              cases hwrite : src.writePage s.source id (s.frame v).data with
              | mk result source =>
                cases result with
                | error e => exact .failed hfree hpick hpin hpage hdirty hwrite
                | ok => exact .written hfree hpick hpin hpage hdirty hwrite

theorem pageId_eq_some (h : w.pageId = some id) : w.rawPageId = id := by
  unfold Frame.pageId at h
  by_cases hinvalid : w.rawPageId = invalidPageId
  · rw [if_pos hinvalid] at h
    cases h
  · rw [if_neg hinvalid] at h
    exact Option.some.inj h

theorem pageId_of_ne (h : w.rawPageId ≠ invalidPageId) : w.pageId = some w.rawPageId := if_neg h

theorem pinCount_of_not_pinned (h : w.isPinned = false) : w.pinCount = 0 := by
  by_contra hne
  rw [isPinned_iff.mpr hne] at h
  cases h

/-- The victim of a partitioned pool is mapped. -/
theorem Partition.victim_mapped (h : Partition s vacant) (hpick : s.replacer.pickVictim = (some f, r)) :
    ∃ id, s.pageTable.lookup id = some f ∧ (s.frame f).rawPageId = id := by
  obtain ⟨id, hid⟩ := h.history f (LruK.pickVictim_some hpick).1.2
  exact ⟨id, hid, (h.mapped id f hid).2.2.1⟩

/-- The replacer drops its victim. -/
theorem Partition.pick (h : Partition s vacant) {choice : Option FrameId}
    (hpick : s.replacer.pickVictim = (choice, r)) :
    Partition { s with replacer := r } vacant := by
  refine h.congr rfl rfl rfl (fun _ => rfl) (fun _ => .inl rfl) fun g hg => .inl ?_
  cases choice with
  | none =>
    have hr : r = s.replacer := (LruK.pickVictim_none hpick).1
    rwa [← hr]
  | some v =>
    have hg' : (r.history.lookup g).isSome := hg
    rw [(LruK.pickVictim_some hpick).2.1, lookup_erase_if] at hg'
    by_cases hne : g = v
    · rw [if_pos hne] at hg'
      cases hg'
    · rwa [if_neg hne] at hg'

/-- What taking the frame `f` leaves of the pool. -/
structure Taken (s s' : BufferPool σ) (f : FrameId) : Prop where
  partition : Partition s' (some f)
  frames : ∀ g, g ≠ f → s'.frame g = s.frame g
  length : s'.frames.length = s.frames.length
  lookup : ∀ id g, s'.pageTable.lookup id = some g → s.pageTable.lookup id = some g
  free : ∀ g ∈ s'.freeList, g ∈ s.freeList
  known : ∀ g, g ≠ f → s.replacer.Known g → s'.replacer.Known g
  kept : ∀ id g, g ≠ f → s.pageTable.lookup id = some g → s'.pageTable.lookup id = some g
  tracked : ∀ g, g ≠ f → (s.replacer.history.lookup g).isSome → (s'.replacer.history.lookup g).isSome

/-- The replacer keeps the other candidates. -/
theorem known_of_pick {v : FrameId} (hpick : s.replacer.pickVictim = (some v, r)) (hne : g ≠ v)
    (h : s.replacer.Known g) : r.Known g := by
  obtain ⟨-, hhistory, hevictable⟩ := LruK.pickVictim_some hpick
  refine ⟨(hevictable g).2 hne h.1, ?_⟩
  rw [hhistory, AList.lookup_erase_ne hne]
  exact h.2

theorem taken_clearVictim {v : FrameId} {t : BufferPool σ} (h : Partition s none)
    (hpick : s.replacer.pickVictim = (some v, r)) (hpin : (s.frame v).isPinned = false)
    (hpage : (s.frame v).pageId = some id) (ht : Partition t none) (htable : t.pageTable = s.pageTable)
    (hframes : t.frames = s.frames) (hsize : t.pageSize = s.pageSize) (hfree : t.freeList = s.freeList)
    (hreplacer : t.replacer = r) : Taken s (t.clearVictim v id) v := by
  obtain ⟨id', hid', hraw⟩ := h.victim_mapped hpick
  have hid : s.pageTable.lookup id = some v := by
    rw [← pageId_eq_some hpage, hraw, hid']
  have hframe (g : FrameId) : t.frame g = s.frame g := by
    unfold frame
    rw [hframes, hsize]
  refine ⟨ht.clearVictim (htable ▸ hid) ?_, ?_, ?_, ?_, ?_, ?_, ?_, ?_⟩
  · rw [hframe]
    exact pinCount_of_not_pinned hpin
  · intro g hne
    exact (frame_setFrame_of_ne hne).trans (hframe g)
  · exact length_setFrame.trans (congrArg List.length hframes)
  · intro id'' g hg
    have hg' : (AList.erase id t.pageTable).lookup id'' = some g := hg
    rw [lookup_erase_if, htable] at hg'
    by_cases heq : id'' = id
    · rw [if_pos heq] at hg'
      cases hg'
    · rwa [if_neg heq] at hg'
  · intro g hg
    exact hfree ▸ hg
  · intro g hne hg
    have hknown := (known_of_pick hpick hne hg).forget hne
    rw [← hreplacer] at hknown
    exact hknown
  · intro id' g hne hg
    show (AList.erase id t.pageTable).lookup id' = some g
    rw [lookup_erase_if, htable, if_neg, hg]
    rintro rfl
    rw [hid, Option.some.injEq] at hg
    exact hne hg.symm
  · intro g hne hg
    show ((AList.erase v t.replacer.history).lookup g).isSome
    rw [AList.lookup_erase_ne hne, hreplacer, (LruK.pickVictim_some hpick).2.1, AList.lookup_erase_ne hne]
    exact hg

/-- **Taking a frame** leaves the others as they were. -/
theorem Partition.taken (h : Partition s none) (hev : Evicted src s (.ok f, s')) : Taken s s' f := by
  cases hev with
  | free hlast =>
    exact ⟨h.takeFree hlast, fun _ _ => rfl, rfl, fun _ _ hid => hid,
      fun g hg => mem_of_mem_dropLast hg, fun _ _ hg => hg, fun _ _ _ hid => hid,
      fun _ _ hg => hg⟩
  | clean hfree hpick hpin hpage hclean =>
    exact taken_clearVictim h hpick hpin hpage (h.pick hpick) rfl rfl rfl rfl rfl
  | written hfree hpick hpin hpage hdirty hwrite =>
    refine taken_clearVictim h hpick hpin hpage ?_ rfl rfl rfl rfl rfl
    have hpicked := h.pick hpick
    exact ⟨hpicked.mapped, hpicked.covered, hpicked.free, hpicked.nodup, hpicked.history, hpicked.vacant⟩

end BufferPool

end CenDB.Buffer
