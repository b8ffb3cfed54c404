import CenDB.Buffer.PoolLeaks

/-! # The contents of a buffer pool

With a source whose reads and writes succeed (`LawfulSource`), a page that is in no frame has its
last bytes in the source, and a page in a clean frame has them in both (`Mirrors`).  A guarded page
stays in its frame as long as the replacer picks no guarded victim, so that the bytes seen through
a guard are the last ones written (`transparent_iff`), and a flush of every page leaves them in the source
(`flushAll_durable`). -/

namespace CenDB.Buffer

open CenDB.Storage BufferPool Session List Function Table Finset UInt32

variable {σ : Type} {src : PageSource σ} {contents : σ → PageId → Bytes} {view : PageId → Bytes}

/-- Reads and writes of whole pages succeed, and a read returns the bytes written last. -/
structure LawfulSource (src : PageSource σ) (pageSize : ℕ) (contents : σ → PageId → Bytes) :
    Prop where
  read : ∀ s id buf, buf.length = pageSize →
    ∃ s', src.readPage s id buf = (.ok (), contents s id, s') ∧ contents s' = contents s
  write : ∀ s id buf, buf.length = pageSize → ∃ s', src.writePage s id buf = (.ok (), s') ∧
      contents s' = Function.update (contents s) id buf
  length : ∀ s id, (contents s id).length = pageSize

/-- The pages in memory, with zeros for those never written. -/
def InMemoryPageSource.bytesOf {size : ℕ} (s : InMemoryPageSource size) (id : PageId) : Bytes :=
  (s.pages.lookup id).getD (List.replicate size 0)

theorem InMemoryPageSource.lawful (size : ℕ) :
    LawfulSource (InMemoryPageSource.source : PageSource (InMemoryPageSource size)) size
      InMemoryPageSource.bytesOf := by
  refine ⟨?_, ?_, ?_⟩
  · intro s id buf hbuf
    refine ⟨s, ?_, rfl⟩
    unfold InMemoryPageSource.source InMemoryPageSource.bytesOf
    cases hlook : s.pages.lookup id with
    | some bytes => simp [hlook]
    | none => simp [hlook, hbuf]
  · intro s id buf hbuf
    refine ⟨s.insert id buf hbuf, ?_, ?_⟩
    · unfold InMemoryPageSource.source
      exact dif_pos hbuf
    · funext id'
      unfold InMemoryPageSource.bytesOf InMemoryPageSource.insert
      rw [lookup_insert_if, update_apply]
      split <;> rfl
  · intro s id
    unfold InMemoryPageSource.bytesOf
    cases hlook : s.pages.lookup id with
    | some bytes => exact s.length_pages id bytes hlook
    | none => exact length_replicate

/-! ### The property -/

/-- No call failed that should have succeeded, and every guard sees its page, in the frame it
holds, with the bytes written last. -/
structure Transparent (s : Session σ) : Prop where
  succeeds : s.failed = false
  seen : ∀ f id, (f, id) ∈ s.guards → s.pool.pageTable.lookup id = some f ∧ (s.pool.frame f).data = s.view id

/-- Fewer pages than frames are pinned when a page is pinned. -/
def Roomy (s : Session σ) : Op → Prop
  | .pinPage _ _ => (s.guards.map Prod.snd).toFinset.card < s.pool.frames.length
  | .newPage _ => (s.guards.map Prod.snd).toFinset.card < s.pool.frames.length
  | _ => True

/-- A frame that is picked for eviction has no guard, and its page is not the one with the id of an
empty frame. -/
def VictimFree (s : Session σ) : Prop :=
  s.pool.freeList = [] → ∀ v r, s.pool.replacer.pickVictim = (some v, r) →
    (∀ id, (v, id) ∉ s.guards) ∧ (s.pool.frame v).rawPageId ≠ invalidPageId

/-- A miss evicts no guarded page. -/
def Safe (s : Session σ) : Op → Prop
  | .pinPage id _ => s.pool.pageTable.lookup id = none → VictimFree s
  | .newPage id => s.pool.pageTable.lookup id = none → VictimFree s
  | _ => True

/-! ### Pages and their bytes -/

section mirrors

variable {s t : BufferPool σ} {f : FrameId} {id : PageId} {w : Frame}

/-- The last bytes of a page are in its frame, and in the source unless the frame is dirty. -/
structure Mirrors (contents : σ → PageId → Bytes) (s : BufferPool σ) (view : PageId → Bytes) :
    Prop where
  data : ∀ id f, s.pageTable.lookup id = some f → (s.frame f).data = view id
  clean : ∀ id f, s.pageTable.lookup id = some f → (s.frame f).dirty = false → contents s.source id = view id
  absent : ∀ id, s.pageTable.lookup id = none → contents s.source id = view id
  length : ∀ f : FrameId, f.toNat < s.frames.length → (s.frame f).data.length = s.pageSize

/-- An eviction of a page whose bytes are in the source. -/
theorem Mirrors.clearVictim (hm : Mirrors contents s view) (hp : Partition s none)
    (hid : s.pageTable.lookup id = some f) (hstored : contents s.source id = view id) :
    Mirrors contents (s.clearVictim f id) view := by
  obtain ⟨hlt, -, -, -⟩ := hp.mapped id f hid
  have hframe (g : FrameId) : (s.clearVictim f id).frame g =
      if g = f then (s.frame f).clearDirty.clearPageId else s.frame g := frame_setFrame hlt g
  have hlookup (id' : PageId) : (s.clearVictim f id).pageTable.lookup id' =
      if id' = id then none else s.pageTable.lookup id' := lookup_erase_if _ _ _
  have hold {id' : PageId} {g : FrameId} (hid' : (s.clearVictim f id).pageTable.lookup id' = some g) :
      s.pageTable.lookup id' = some g ∧ g ≠ f := by
    rw [hlookup] at hid'
    by_cases heq : id' = id
    · rw [if_pos heq] at hid'
      cases hid'
    · rw [if_neg heq] at hid'
      refine ⟨hid', ?_⟩
      rintro rfl
      exact heq (hp.page_unique hid hid')
  refine ⟨?_, ?_, ?_, ?_⟩
  · intro id' g hid'
    obtain ⟨hs, hne⟩ := hold hid'
    rw [hframe, if_neg hne]
    exact hm.data id' g hs
  · intro id' g hid' hclean
    obtain ⟨hs, hne⟩ := hold hid'
    rw [hframe, if_neg hne] at hclean
    exact hm.clean id' g hs hclean
  · intro id' hid'
    rw [hlookup] at hid'
    by_cases heq : id' = id
    · rw [heq]
      exact hstored
    · rw [if_neg heq] at hid'
      exact hm.absent id' hid'
  · intro g hg
    rw [show (s.clearVictim f id).frames.length = s.frames.length from length_setFrame] at hg
    rw [hframe]
    by_cases hgf : g = f
    · rw [if_pos hgf]
      exact hm.length f hlt
    · rw [if_neg hgf]
      exact hm.length g hg

variable {view' : PageId → Bytes}

/-- Mapping a page with its last bytes in the vacant frame. -/
theorem Mirrors.mapPage (hm : Mirrors contents s view) (hp : Partition s (some f)) (hdata : w.data = view' id)
    (hclean : w.dirty = false → contents s.source id = view' id) (hlength : w.data.length = s.pageSize)
    (hview : ∀ id', id' ≠ id → view' id' = view id') :
    Mirrors contents (s.mapPage f w id) view' := by
  have hframe (g : FrameId) : (s.mapPage f w id).frame g =
      if g = f then (w.setPageId id).pin else s.frame g := frame_setFrame (hp.vacant f rfl).1 g
  have hlookup (id' : PageId) : (s.mapPage f w id).pageTable.lookup id' =
      if id' = id then some f else s.pageTable.lookup id' := lookup_insert_if _ _ _ _
  have hne {id' : PageId} {g : FrameId} (hs : s.pageTable.lookup id' = some g) : g ≠ f :=
    fun heq => (hp.mapped id' g hs).2.2.2 (congrArg some heq.symm)
  refine ⟨?_, ?_, ?_, ?_⟩
  · intro id' g hid'
    rw [hlookup] at hid'
    by_cases heq : id' = id
    · rw [if_pos heq, Option.some.injEq] at hid'
      rw [hframe, if_pos hid'.symm, heq]
      exact hdata
    · rw [if_neg heq] at hid'
      rw [hframe, if_neg (hne hid'), hview id' heq]
      exact hm.data id' g hid'
  · intro id' g hid' hcleanFrame
    rw [hlookup] at hid'
    by_cases heq : id' = id
    · rw [if_pos heq, Option.some.injEq] at hid'
      rw [hframe, if_pos hid'.symm] at hcleanFrame
      rw [heq]
      exact hclean hcleanFrame
    · rw [if_neg heq] at hid'
      rw [hframe, if_neg (hne hid')] at hcleanFrame
      rw [hview id' heq]
      exact hm.clean id' g hid' hcleanFrame
  · intro id' hid'
    rw [hlookup] at hid'
    by_cases heq : id' = id
    · rw [if_pos heq] at hid'
      cases hid'
    · rw [if_neg heq] at hid'
      rw [hview id' heq]
      exact hm.absent id' hid'
  · intro g hg
    rw [show (s.mapPage f w id).frames.length = s.frames.length from length_setFrame] at hg
    rw [hframe]
    by_cases hgf : g = f
    · rw [if_pos hgf]
      exact hlength
    · rw [if_neg hgf]
      exact hm.length g hg

/-- Replacing a mapped frame. -/
theorem Mirrors.setFrame (hm : Mirrors contents s view) (hp : Partition s none)
    (hid : s.pageTable.lookup id = some f) (hdata : w.data = view' id)
    (hclean : w.dirty = false → contents s.source id = view' id) (hlength : w.data.length = s.pageSize)
    (hview : ∀ id', id' ≠ id → view' id' = view id') :
    Mirrors contents (s.setFrame f w) view' := by
  obtain ⟨hlt, -, -, -⟩ := hp.mapped id f hid
  have hne {id' : PageId} {g : FrameId} (hs : s.pageTable.lookup id' = some g) (heq : id' ≠ id) : g ≠ f := by
    rintro rfl
    exact heq (hp.page_unique hid hs)
  refine ⟨?_, ?_, ?_, ?_⟩
  · intro id' g hid'
    rw [frame_setFrame hlt]
    by_cases heq : id' = id
    · subst heq
      have hgf : f = g := Option.some.inj (hid.symm.trans hid')
      rw [if_pos hgf.symm]
      exact hdata
    · rw [if_neg (hne hid' heq), hview id' heq]
      exact hm.data id' g hid'
  · intro id' g hid' hcleanFrame
    rw [frame_setFrame hlt] at hcleanFrame
    by_cases heq : id' = id
    · subst heq
      have hgf : f = g := Option.some.inj (hid.symm.trans hid')
      rw [if_pos hgf.symm] at hcleanFrame
      exact hclean hcleanFrame
    · rw [if_neg (hne hid' heq)] at hcleanFrame
      rw [hview id' heq]
      exact hm.clean id' g hid' hcleanFrame
  · intro id' hid'
    have hother : id' ≠ id := by
      rintro rfl
      rw [show s.pageTable.lookup id' = none from hid'] at hid
      cases hid
    rw [hview id' hother]
    exact hm.absent id' hid'
  · intro g hg
    rw [length_setFrame] at hg
    rw [frame_setFrame hlt]
    by_cases hgf : g = f
    · rw [if_pos hgf]
      exact hlength
    · rw [if_neg hgf]
      exact hm.length g hg

/-- The bytes of a mapped frame written to the source. -/
theorem Mirrors.written {source : σ} (hm : Mirrors contents s view) (hid : s.pageTable.lookup id = some f)
    (hsource : contents source = Function.update (contents s.source) id (s.frame f).data) :
    Mirrors contents { s with source := source } view ∧ contents source id = view id := by
  have hself : contents source id = view id := by
    rw [hsource, update_self, hm.data id f hid]
  refine ⟨⟨hm.data, ?_, ?_, hm.length⟩, hself⟩
  · intro id' g hid' hclean
    by_cases heq : id' = id
    · rw [heq]
      exact hself
    · show contents source id' = view id'
      rw [hsource, update_of_ne heq]
      exact hm.clean id' g hid' hclean
  · intro id' hid'
    by_cases heq : id' = id
    · rw [heq]
      exact hself
    · show contents source id' = view id'
      rw [hsource, update_of_ne heq]
      exact hm.absent id' hid'

/-- Taking a frame drops no bytes. -/
theorem Mirrors.taken (hlaw : LawfulSource src s.pageSize contents) (hm : Mirrors contents s view)
    (hp : Partition s none) (hev : Evicted src s (.ok f, t)) :
    Mirrors contents t view ∧ t.pageSize = s.pageSize := by
  cases hev with
  | free hlast => exact ⟨⟨hm.data, hm.clean, hm.absent, hm.length⟩, rfl⟩
  | clean hfree hpick hpin hpage hclean =>
    obtain ⟨id', hid', hraw⟩ := hp.victim_mapped hpick
    rename_i r id
    have hid : s.pageTable.lookup id = some f := by
      rw [← pageId_eq_some hpage, hraw, hid']
    have hpicked : Mirrors contents { s with replacer := r } view := ⟨hm.data, hm.clean, hm.absent, hm.length⟩
    exact ⟨hpicked.clearVictim (hp.pick hpick) hid (hm.clean id f hid hclean), rfl⟩
  | written hfree hpick hpin hpage hdirty hwrite =>
    obtain ⟨id', hid', hraw⟩ := hp.victim_mapped hpick
    rename_i r id source
    have hid : s.pageTable.lookup id = some f := by
      rw [← pageId_eq_some hpage, hraw, hid']
    obtain ⟨source', hok, hsource⟩ := hlaw.write s.source id (s.frame f).data (hm.length f (hp.mapped id f hid).1)
    rw [hwrite, Prod.mk.injEq] at hok
    obtain ⟨-, rfl⟩ := hok
    obtain ⟨hwritten, hself⟩ := hm.written hid hsource
    have hpicked := hp.pick hpick
    have hcounted : Mirrors contents (countFlush { s with replacer := r, source := source }) view :=
      ⟨hwritten.data, hwritten.clean, hwritten.absent, hwritten.length⟩
    exact ⟨hcounted.clearVictim ⟨hpicked.mapped, hpicked.covered, hpicked.free, hpicked.nodup,
      hpicked.history, hpicked.vacant⟩ hid hself, rfl⟩

/-- Flushing a page drops no bytes. -/
theorem Mirrors.flushed {result : Except CenError Unit}
    (hlaw : LawfulSource src s.pageSize contents) (hm : Mirrors contents s view)
    (hp : Partition s none) (hflush : Flushed src s id (result, t)) : Mirrors contents t view := by
  cases hflush with
  | absent hid | clean hid hclean => exact hm
  | failed hid hwrite =>
    rename_i f e source
    obtain ⟨source', hok, -⟩ := hlaw.write s.source id (s.frame f).data (hm.length f (hp.mapped id f hid).1)
    rw [hwrite] at hok
    cases (Prod.mk.inj hok).1
  | written hid hwrite =>
    rename_i f source
    have hlength := hm.length f (hp.mapped id f hid).1
    obtain ⟨source', hok, hsource⟩ := hlaw.write s.source id (s.frame f).data hlength
    rw [hwrite, Prod.mk.injEq] at hok
    obtain ⟨-, rfl⟩ := hok
    obtain ⟨hwritten, hself⟩ := hm.written hid hsource
    have hp' : Partition { s with source := source } none :=
      ⟨hp.mapped, hp.covered, hp.free, hp.nodup, hp.history, hp.vacant⟩
    have hset := hwritten.setFrame (w := (s.frame f).clearDirty) hp' hid (hm.data id f hid)
      (fun _ => hself) hlength fun _ _ => rfl
    exact ⟨hset.data, hset.clean, hset.absent, hset.length⟩

end mirrors

/-! ### The invariant -/

/-- The number of guards of a frame. -/
def guardCount (guards : List (FrameId × PageId)) (f : FrameId) : ℕ := guards.countP fun g => g.1 = f

structure Clear (contents : σ → PageId → Bytes) (n : ℕ) (s : Session σ) : Prop where
  partition : Partition s.pool none
  mirrors : Mirrors contents s.pool s.view
  succeeds : s.failed = false
  size : s.pool.pageSize = n
  few : s.pool.frames.length ≤ 2 ^ 32
  guards : ∀ f id, (f, id) ∈ s.guards → s.pool.pageTable.lookup id = some f
  count : ∀ f : FrameId, f.toNat < s.pool.frames.length →
    (s.pool.frame f).pinCount = UInt32.ofNat (guardCount s.guards f)
  tracked : ∀ id f, s.pool.pageTable.lookup id = some f → (s.pool.replacer.history.lookup f).isSome
  known : ∀ id f, s.pool.pageTable.lookup id = some f → (∀ id', (f, id') ∉ s.guards) → f ∈ s.pool.replacer.evictable

theorem Clear.transparent {n : ℕ} {s : Session σ} (h : Clear contents n s) : Transparent s := by
  refine ⟨h.succeeds, ?_⟩
  intro f id hg
  have hid := h.guards f id hg
  exact ⟨hid, h.mirrors.data id f hid⟩

theorem guardCount_eq_zero {guards : List (FrameId × PageId)} {f : FrameId}
    (h : ∀ id, (f, id) ∉ guards) : guardCount guards f = 0 := by
  refine countP_eq_zero.mpr ?_
  rintro ⟨g, id⟩ hg
  rw [decide_eq_true_iff]
  rintro rfl
  exact h id hg

section taking

variable {n : ℕ} {s : Session σ} {f : FrameId} {id : PageId} {t : BufferPool σ}

/-- With fewer pinned pages than frames, some frame has no guard. -/
theorem Clear.exists_unguarded (h : Clear contents n s)
    (hroom : (s.guards.map Prod.snd).toFinset.card < s.pool.frames.length) :
    ∃ f : FrameId, f.toNat < s.pool.frames.length ∧ ∀ id, (f, id) ∉ s.guards := by
  by_contra hall
  push Not at hall
  -- the guarded frames are those of the guarded pages
  have hframes : (s.guards.map Prod.fst).toFinset ⊆
      (s.guards.map Prod.snd).toFinset.image fun id => (s.pool.pageTable.lookup id).getD 0 := by
    intro f hf
    rw [mem_toFinset, List.mem_map] at hf
    obtain ⟨⟨f', id⟩, hg, rfl⟩ := hf
    refine Finset.mem_image.mpr ⟨id, mem_toFinset.mpr (mem_map_of_mem hg), ?_⟩
    rw [h.guards f' id hg]
    rfl
  have hcover : (Finset.range s.pool.frames.length).image UInt32.ofNat ⊆ (s.guards.map Prod.fst).toFinset := by
    intro f hf
    obtain ⟨i, hi, rfl⟩ := Finset.mem_image.mp hf
    rw [Finset.mem_range] at hi
    have hlt : i < UInt32.size := lt_of_lt_of_le hi h.few
    obtain ⟨id, hg⟩ := hall (UInt32.ofNat i) (by rwa [UInt32.toNat_ofNat_of_lt' hlt])
    exact mem_toFinset.mpr (mem_map_of_mem hg)
  have hcard : ((Finset.range s.pool.frames.length).image UInt32.ofNat).card = s.pool.frames.length := by
    rw [Finset.card_image_of_injOn, Finset.card_range]
    intro i hi j hj hij
    rw [Finset.mem_coe, Finset.mem_range] at hi hj
    have hsame := congrArg UInt32.toNat hij
    rwa [UInt32.toNat_ofNat_of_lt' (lt_of_lt_of_le hi h.few),
      UInt32.toNat_ofNat_of_lt' (lt_of_lt_of_le hj h.few)] at hsame
  have hle := (Finset.card_le_card (hcover.trans hframes)).trans Finset.card_image_le
  omega

/-- With fewer pinned pages than frames, a miss finds a frame without guards. -/
theorem Clear.exists_taken (hlaw : LawfulSource src n contents) (h : Clear contents n s)
    (hroom : (s.guards.map Prod.snd).toFinset.card < s.pool.frames.length)
    (hsafe : VictimFree s) :
    ∃ f t, evictOrTakeFree src s.pool.countMiss = (.ok f, t) ∧ ∀ id, (f, id) ∉ s.guards := by
  have hev := evicted src s.pool.countMiss
  cases hres : evictOrTakeFree src s.pool.countMiss with
  | mk result t =>
    rw [hres] at hev
    cases hev with
    | free hlast =>
      rename_i f
      refine ⟨f, _, rfl, fun id hg => ?_⟩
      exact (h.partition.mapped id f (h.guards f id hg)).2.1 (mem_of_getLast? hlast)
    | empty hfree hpick =>
      obtain ⟨f, hlt, hunguarded⟩ := h.exists_unguarded hroom
      rcases h.partition.covered f hlt with hmem | ⟨id, hid⟩ | hnone
      · rw [show s.pool.freeList = [] from hfree] at hmem
        cases hmem
      · exact absurd ⟨h.known id f hid hunguarded, h.tracked id f hid⟩ ((LruK.pickVictim_none hpick).2 f)
      · cases hnone
    | pinned hfree hpick hpin =>
      rename_i v r e
      obtain ⟨id, hid, -⟩ := h.partition.victim_mapped hpick
      have hzero := h.count v (h.partition.mapped id v hid).1
      rw [guardCount_eq_zero (hsafe hfree v r hpick).1] at hzero
      exact absurd hzero (isPinned_iff.mp hpin)
    | noPage hfree hpick hpin hpage =>
      have hvalid := (hsafe hfree _ _ hpick).2
      rw [show (s.pool.countMiss.frame _).pageId = some _ from pageId_of_ne hvalid] at hpage
      cases hpage
    | failed hfree hpick hpin hpage hdirty hwrite =>
      rename_i v r e id source
      obtain ⟨id', hid', -⟩ := h.partition.victim_mapped hpick
      have hlength := h.mirrors.length v (h.partition.mapped id' v hid').1
      rw [h.size] at hlength
      obtain ⟨source', hok, -⟩ := hlaw.write s.pool.source id (s.pool.frame v).data hlength
      rw [show src.writePage s.pool.source id (s.pool.frame v).data = _ from hwrite] at hok
      cases (Prod.mk.inj hok).1
    | clean hfree hpick hpin hpage hclean | written hfree hpick hpin hpage hdirty hwrite =>
      exact ⟨_, _, rfl, (hsafe hfree _ _ hpick).1⟩

/-- What a miss takes, with its bytes safe. -/
theorem Clear.taken (hlaw : LawfulSource src n contents) (h : Clear contents n s)
    (hid : s.pool.pageTable.lookup id = none)
    (hres : evictOrTakeFree src s.pool.countMiss = (.ok f, t)) :
    Taken s.pool t f ∧ Mirrors contents t s.view ∧ t.pageSize = n ∧ t.pageTable.lookup id = none := by
  have hpartition : Partition s.pool.countMiss none :=
    ⟨h.partition.mapped, h.partition.covered, h.partition.free, h.partition.nodup,
      h.partition.history, h.partition.vacant⟩
  have hmirrors : Mirrors contents s.pool.countMiss s.view :=
    ⟨h.mirrors.data, h.mirrors.clean, h.mirrors.absent, h.mirrors.length⟩
  have hev := evicted src s.pool.countMiss
  rw [hres] at hev
  have ht := hpartition.taken hev
  obtain ⟨hm, hsize⟩ := hmirrors.taken (by
    rw [show s.pool.countMiss.pageSize = n from h.size]
    exact hlaw) hpartition hev
  refine ⟨⟨ht.partition, ht.frames, ht.length, ht.lookup, ht.free, ht.known, ht.kept, ht.tracked⟩,
    hm, hsize.trans h.size, ?_⟩
  cases hlook : t.pageTable.lookup id with
  | none => rfl
  | some g =>
    have hold : s.pool.pageTable.lookup id = some g := ht.lookup id g hlook
    rw [hold] at hid
    cases hid

/-- The invariant after a miss that maps the taken frame. -/
theorem Clear.mapped (h : Clear contents n s) {p : BufferPool σ} {view' : PageId → Bytes}
    (ht : Taken s.pool t f) (hnone : t.pageTable.lookup id = none)
    (hunguarded : ∀ id, (f, id) ∉ s.guards) (hp : Partition p none)
    (hm : Mirrors contents p view') (hsize : p.pageSize = n)
    (hlookup : ∀ id', p.pageTable.lookup id' = if id' = id then some f else t.pageTable.lookup id')
    (hlength : p.frames.length = t.frames.length) (hframes : ∀ g, g ≠ f → p.frame g = t.frame g)
    (hpin : (p.frame f).pinCount = 1)
    (hhistory : ∀ g, g = f ∨ (t.replacer.history.lookup g).isSome → (p.replacer.history.lookup g).isSome)
    (hevictable : ∀ g ∈ t.replacer.evictable, g ∈ p.replacer.evictable) :
    Clear contents n ⟨p, (f, id) :: s.guards, view', s.failed⟩ := by
  have hold {id' : PageId} {g : FrameId} (hid' : p.pageTable.lookup id' = some g) (hne : g ≠ f) :
      t.pageTable.lookup id' = some g ∧ s.pool.pageTable.lookup id' = some g := by
    rw [hlookup] at hid'
    by_cases heq : id' = id
    · rw [if_pos heq, Option.some.injEq] at hid'
      exact absurd hid'.symm hne
    · rw [if_neg heq] at hid'
      exact ⟨hid', ht.lookup id' g hid'⟩
  refine ⟨hp, hm, h.succeeds, hsize, ?_, ?_, ?_, ?_, ?_⟩
  · show p.frames.length ≤ 2 ^ 32
    rw [hlength, ht.length]
    exact h.few
  · intro f' id' hg
    show p.pageTable.lookup id' = some f'
    rw [hlookup]
    cases mem_cons.mp hg with
    | inl heq =>
      cases heq
      exact if_pos rfl
    | inr hmem =>
      have hne : f' ≠ f := by
        rintro rfl
        exact hunguarded id' hmem
      have hkept := ht.kept id' f' hne (h.guards f' id' hmem)
      rw [if_neg, hkept]
      rintro rfl
      rw [hnone] at hkept
      cases hkept
  · intro g hg
    have hg' : g.toNat < s.pool.frames.length := by
      rw [← ht.length, ← hlength]
      exact hg
    show (p.frame g).pinCount = _
    unfold guardCount
    rw [countP_cons]
    by_cases heq : g = f
    · subst heq
      rw [hpin, show (s.guards.countP fun x => x.1 = g) = 0 from guardCount_eq_zero hunguarded]
      simp
    · rw [hframes g heq, ht.frames g heq, h.count g hg']
      simp [Ne.symm heq, guardCount]
  · intro id' g hid'
    refine hhistory g ?_
    by_cases heq : g = f
    · exact .inl heq
    · exact .inr (ht.tracked g heq (h.tracked id' g (hold hid' heq).2))
  · intro id' g hid' hfree
    have hne : g ≠ f := by
      rintro rfl
      exact hfree id mem_cons_self
    have hs := (hold hid' hne).2
    have hknown := h.known id' g hs fun id'' hg => hfree id'' (mem_cons_of_mem _ hg)
    exact hevictable g (ht.known g hne ⟨hknown, h.tracked id' g hs⟩).1

end taking

/-! ### One call -/

section step

variable {n : ℕ} {s s' : Session σ} {f : FrameId} {id : PageId} {t : BufferPool σ}

variable {w : Frame}

theorem frame_load {i : PageId} (hlt : f.toNat < t.frames.length) (hint : ReadHint) (g : FrameId) :
    (t.load f w i hint).frame g = if g = f then (w.setPageId i).pin else t.frame g := by
  cases hint with
  | point | scan => exact frame_setFrame hlt g

theorem history_mapPage {g : FrameId} (h : g = f ∨ (t.replacer.history.lookup g).isSome) :
    ((t.mapPage f w id).replacer.history.lookup g).isSome :=
  LruK.lookup_recordAccess.mpr h

theorem Mirrors.load (hm : Mirrors contents t view) (hp : Partition t (some f)) (hdata : w.data = view id)
    (hclean : contents t.source id = view id) (hlength : w.data.length = t.pageSize) (hint : ReadHint) :
    Mirrors contents (t.load f w id hint) view := by
  have hmapped := hm.mapPage hp hdata (fun _ => hclean) hlength fun _ _ => rfl
  cases hint with
  | point => exact hmapped
  | scan => exact ⟨hmapped.data, hmapped.clean, hmapped.absent, hmapped.length⟩

/-- A pin of a page in the pool. -/
theorem Clear.hit (h : Clear contents n s) (hid : s.pool.pageTable.lookup id = some f) (hint : ReadHint) :
    Clear contents n ⟨s.pool.hit f hint, (f, id) :: s.guards, s.view, s.failed⟩ := by
  obtain ⟨hlt, -, -, -⟩ := h.partition.mapped id f hid
  have hset := h.mirrors.setFrame (w := (s.pool.frame f).pin) h.partition hid
    (h.mirrors.data id f hid) (h.mirrors.clean id f hid) (h.mirrors.length f hlt) fun _ _ => rfl
  have hlength : (s.pool.hit f hint).frames.length = s.pool.frames.length := length_setFrame
  have hframe (g : FrameId) : (s.pool.hit f hint).frame g =
      if g = f then (s.pool.frame f).pin else s.pool.frame g := frame_setFrame hlt g
  have hhistory (g : FrameId) (hg : (s.pool.replacer.history.lookup g).isSome) :
      ((s.pool.hit f hint).replacer.history.lookup g).isSome := by
    unfold BufferPool.hit
    cases hint with
    | point => exact LruK.lookup_recordAccess.mpr (.inr hg)
    | scan => exact hg
  have hevictable : (s.pool.hit f hint).replacer.evictable = s.pool.replacer.evictable := by
    cases hint <;> rfl
  refine ⟨h.partition.hit hid hint, ⟨hset.data, hset.clean, hset.absent, hset.length⟩, h.succeeds,
    h.size, hlength ▸ h.few, ?_, ?_, ?_, ?_⟩
  · intro f' id' hg
    cases mem_cons.mp hg with
    | inl heq =>
      cases heq
      exact hid
    | inr hmem => exact h.guards f' id' hmem
  · intro g hg
    rw [hlength] at hg
    rw [hframe]
    unfold guardCount
    rw [countP_cons]
    by_cases heq : g = f
    · subst heq
      rw [if_pos rfl, if_pos (decide_eq_true rfl), ofNat_add]
      show (s.pool.frame g).pinCount + 1 = _
      rw [h.count g hg]
      rfl
    · rw [if_neg heq, if_neg (by simpa using Ne.symm heq)]
      exact h.count g hg
  · intro id' g hid'
    exact hhistory g (h.tracked id' g hid')
  · intro id' g hid' hfree
    rw [hevictable]
    exact h.known id' g hid' fun id'' hg => hfree id'' (mem_cons_of_mem _ hg)

theorem Clear.pinPage {hint : ReadHint} (hlaw : LawfulSource src n contents)
    (h : Clear contents n s) (hroom : Roomy s (.pinPage id hint)) (hsafe : Safe s (.pinPage id hint))
    (hstep : s.step src (.pinPage id hint) = some s') : Clear contents n s' := by
  have hpin := pinned src s.pool id hint
  cases hres : s.pool.pinPage src id hint with
  | mk result p =>
    rw [hres] at hpin
    cases hpin with
    | hit hid =>
      rw [step_pinPage_ok hres] at hstep
      cases hstep
      exact h.hit hid hint
    | failed hid hev =>
      obtain ⟨f, t, hok, -⟩ := h.exists_taken hlaw hroom (hsafe hid)
      rw [hev] at hok
      cases (Prod.mk.inj hok).1
    | unread hid hev hread =>
      rename_i t f e buf source
      obtain ⟨ht, hm, hsize, -⟩ := h.taken hlaw hid hev
      have hlength := hm.length f (ht.partition.vacant f rfl).1
      rw [hsize] at hlength
      obtain ⟨source', hok, -⟩ := hlaw.read t.source id (t.frame f).data hlength
      rw [hread] at hok
      cases (Prod.mk.inj hok).1
    | read hid hev hread =>
      rename_i t f buf source
      rw [step_pinPage_ok hres] at hstep
      cases hstep
      obtain ⟨ht, hm, hsize, hnone⟩ := h.taken hlaw hid hev
      obtain ⟨f', t', hok, hunguarded⟩ := h.exists_taken hlaw hroom (hsafe hid)
      rw [hev, Prod.mk.injEq, Except.ok.injEq] at hok
      obtain ⟨rfl, rfl⟩ := hok
      obtain ⟨hlt, hzero⟩ := ht.partition.vacant f rfl
      have hlength := hm.length f hlt
      rw [hsize] at hlength
      obtain ⟨source', hok, hsource⟩ := hlaw.read t.source id (t.frame f).data hlength
      rw [hread, Prod.mk.injEq, Prod.mk.injEq] at hok
      obtain ⟨-, rfl, rfl⟩ := hok
      have hp : Partition { t with source := source } (some f) :=
        ⟨ht.partition.mapped, ht.partition.covered, ht.partition.free, ht.partition.nodup,
          ht.partition.history, ht.partition.vacant⟩
      have hm' : Mirrors contents { t with source := source } s.view := by
        refine ⟨hm.data, ?_, ?_, hm.length⟩
        · intro id' g hid' hclean
          show contents source id' = _
          rw [hsource]
          exact hm.clean id' g hid' hclean
        · intro id' hid'
          show contents source id' = _
          rw [hsource]
          exact hm.absent id' hid'
      have hbytes : contents t.source id = s.view id := hm.absent id hnone
      refine h.mapped ht hnone hunguarded (hp.load hnone hint)
        (hm'.load hp hbytes (hm'.absent id hnone) ?_ hint) ?_ (fun _ => lookup_load) ?_ ?_ ?_ ?_ ?_
      · simp [hlaw.length, hsize]
      · cases hint <;> exact hsize
      · cases hint <;> exact length_setFrame
      · intro g hne
        have hother := frame_load (i := id) (w := { t.frame f with
          data := contents t.source id, dirty := false }) (t := { t with source := source })
          hlt hint g
        exact hother.trans (if_neg hne)
      · have hself := frame_load (i := id) (w := { t.frame f with
          data := contents t.source id, dirty := false }) (t := { t with source := source })
          hlt hint f
        rw [if_pos rfl] at hself
        rw [hself]
        show (t.frame f).pinCount + 1 = 1
        rw [hzero]
        rfl
      · intro g hg
        cases hint <;> exact LruK.lookup_recordAccess.mpr hg
      · intro g hg
        cases hint with
        | point => exact hg
        | scan => exact LruK.mem_markEvictable.mpr (.inl hg)

theorem Clear.newPage (hlaw : LawfulSource src n contents) (h : Clear contents n s)
    (hroom : Roomy s (.newPage id)) (hsafe : Safe s (.newPage id))
    (hstep : s.step src (.newPage id) = some s') : Clear contents n s' := by
  have hnew := created src s.pool id
  cases hres : s.pool.newPage src id with
  | mk result p =>
    rw [hres] at hnew
    cases hnew with
    | resident hid =>
      rw [step_newPage_error hres, hid] at hstep
      cases hstep
      refine ⟨h.partition, h.mirrors, ?_, h.size, h.few, h.guards, h.count, h.tracked, h.known⟩
      exact (Bool.or_false _).trans h.succeeds
    | failed hid hev =>
      obtain ⟨f, t, hok, -⟩ := h.exists_taken hlaw hroom (hsafe hid)
      rw [hev] at hok
      cases (Prod.mk.inj hok).1
    | mapped hid hev =>
      rename_i t f
      rw [step_newPage_ok hres] at hstep
      cases hstep
      obtain ⟨ht, hm, hsize, hnone⟩ := h.taken hlaw hid hev
      obtain ⟨f', t', hok, hunguarded⟩ := h.exists_taken hlaw hroom (hsafe hid)
      rw [hev, Prod.mk.injEq, Except.ok.injEq] at hok
      obtain ⟨rfl, rfl⟩ := hok
      obtain ⟨hlt, hzero⟩ := ht.partition.vacant f rfl
      have hlength := hm.length f hlt
      have hzeros : (zeroed (t.frame f)).data = List.replicate s.pool.pageSize 0 := by
        show List.replicate (t.frame f).data.length 0 = _
        rw [hlength, hsize, h.size]
      refine h.mapped ht hnone hunguarded (ht.partition.mapPage hnone)
        (hm.mapPage ht.partition ?_ ?_ ?_ ?_) hsize (fun _ => lookup_insert_if _ _ _ _)
        length_setFrame (fun g hne => frame_setFrame_of_ne hne) ?_
        (fun g hg => history_mapPage hg) (fun g hg => hg)
      · simp [hzeros]
      · intro hclean
        cases hclean
      · rw [hzeros, length_replicate, hsize, h.size]
      · intro id' hne
        exact update_of_ne hne _ _
      · rw [show (t.mapPage f (zeroed (t.frame f)) id).frame f = _ from frame_setFrame_self hlt]
        show (t.frame f).pinCount + 1 = 1
        rw [hzero]
        rfl

/-- A call of a guard that leaves the pins as they are. -/
theorem Clear.setFrame {view' : PageId → Bytes} (h : Clear contents n s) (hg : (f, id) ∈ s.guards)
    (hpage : w.rawPageId = (s.pool.frame f).rawPageId) (hpin : w.pinCount = (s.pool.frame f).pinCount)
    (hdata : w.data = view' id) (hdirty : w.dirty = true) (hlength : w.data.length = n)
    (hview : ∀ id', id' ≠ id → view' id' = s.view id') :
    Clear contents n ⟨s.pool.setFrame f w, s.guards, view', s.failed⟩ := by
  have hid := h.guards f id hg
  obtain ⟨hlt, -, -, -⟩ := h.partition.mapped id f hid
  refine ⟨h.partition.setFrame hid hpage, ?_, h.succeeds, h.size, length_setFrame.trans_le h.few,
    h.guards, ?_, h.tracked, h.known⟩
  · refine h.mirrors.setFrame h.partition hid hdata ?_ (hlength.trans h.size.symm) hview
    intro hclean
    rw [hdirty] at hclean
    cases hclean
  · intro g hlt'
    rw [length_setFrame] at hlt'
    rw [frame_setFrame hlt]
    by_cases heq : g = f
    · rw [if_pos heq, hpin, heq]
      exact h.count f hlt
    · rw [if_neg heq]
      exact h.count g hlt'

theorem guardCount_erase {guards : List (FrameId × PageId)} (hg : (f, id) ∈ guards) (g : FrameId) :
    guardCount guards g = guardCount (guards.erase (f, id)) g + if g = f then 1 else 0 := by
  unfold guardCount
  rw [(perm_cons_erase hg).countP_eq, countP_cons]
  by_cases heq : g = f
  · subst heq
    simp
  · simp [heq, Ne.symm heq]

/-- Dropping a guard. -/
theorem Clear.unpin (h : Clear contents n s) (hg : (f, id) ∈ s.guards) :
    Clear contents n ⟨s.pool.releasePin f, s.guards.erase (f, id), s.view, s.failed⟩ := by
  have hid := h.guards f id hg
  obtain ⟨hlt, -, -, -⟩ := h.partition.mapped id f hid
  have hset := h.mirrors.setFrame (w := (s.pool.frame f).unpin) h.partition hid
    (h.mirrors.data id f hid) (h.mirrors.clean id f hid) (h.mirrors.length f hlt) fun _ _ => rfl
  have hcount := h.count f hlt
  rw [guardCount_erase hg, if_pos rfl, UInt32.ofNat_add] at hcount
  have hunpin : (s.pool.frame f).unpin.pinCount = UInt32.ofNat (guardCount (s.guards.erase (f, id)) f) := by
    show (s.pool.frame f).pinCount - 1 = _
    rw [hcount]
    exact UInt32.add_sub_cancel _ _
  -- the replacer gets the frame when its last guard is dropped
  have hparts : ∃ r, s.pool.releasePin f =
      { s.pool.setFrame f (s.pool.frame f).unpin with replacer := r } ∧
      r.history = s.pool.replacer.history ∧
      (∀ g ∈ s.pool.replacer.evictable, g ∈ r.evictable) ∧
      ((s.pool.frame f).unpin.pinCount = 0 → f ∈ r.evictable) := by
    unfold BufferPool.releasePin
    dsimp only
    by_cases hpin : (s.pool.frame f).unpin.isPinned = true
    · rw [if_pos hpin]
      refine ⟨s.pool.replacer, rfl, rfl, fun _ hmem => hmem, fun hzero => ?_⟩
      exact absurd hzero (isPinned_iff.mp hpin)
    · rw [if_neg hpin]
      exact ⟨_, rfl, rfl, fun g hmem => LruK.mem_markEvictable.mpr (.inl hmem),
        fun _ => LruK.mem_markEvictable.mpr (.inr rfl)⟩
  obtain ⟨r, hrelease, hhistory, hevictable, hmarked⟩ := hparts
  have hpartition := h.partition.releasePin hid
  rw [hrelease] at hpartition ⊢
  refine ⟨hpartition, ⟨hset.data, hset.clean, hset.absent, hset.length⟩, h.succeeds, h.size,
    length_setFrame.trans_le h.few, ?_, ?_, ?_, ?_⟩
  · intro f' id' hg'
    exact h.guards f' id' (mem_of_mem_erase hg')
  · intro g hlt'
    have hlt'' : g.toNat < s.pool.frames.length := by
      rw [← length_setFrame]
      exact hlt'
    show ((s.pool.setFrame f (s.pool.frame f).unpin).frame g).pinCount = _
    rw [frame_setFrame hlt]
    by_cases heq : g = f
    · rw [if_pos heq, hunpin, heq]
    · rw [if_neg heq, h.count g hlt'', guardCount_erase hg, if_neg heq, Nat.add_zero]
  · intro id' g hid'
    show (r.history.lookup g).isSome
    rw [hhistory]
    exact h.tracked id' g hid'
  · intro id' g hid' hfree
    by_cases heq : g = f
    · subst heq
      refine hmarked ?_
      rw [hunpin, guardCount_eq_zero hfree]
      rfl
    · refine hevictable g (h.known id' g hid' fun id'' hg' => hfree id'' ?_)
      refine (mem_erase_of_ne ?_).mpr hg'
      intro hsame
      exact heq (congrArg Prod.fst hsame)

/-- Flushing one page. -/
theorem Clear.flushed (hlaw : LawfulSource src n contents) (h : Clear contents n s) (id : PageId) :
    Clear contents n ⟨(flushPage src s.pool id).2, s.guards, s.view, s.failed⟩ := by
  have hflush := BufferPool.flushed src s.pool id
  cases hres : flushPage src s.pool id with
  | mk result p =>
    rw [hres] at hflush
    have hpartition := h.partition.flushed hflush
    have hmirrors := h.mirrors.flushed (h.size.symm ▸ hlaw) h.partition hflush
    cases hflush with
    | absent hid | clean hid hclean => exact h
    | failed hid hwrite =>
      exact ⟨hpartition, hmirrors, h.succeeds, h.size, h.few, h.guards, h.count, h.tracked, h.known⟩
    | written hid hwrite =>
      rename_i f source
      refine ⟨hpartition, hmirrors, h.succeeds, h.size, ?_, h.guards, ?_, h.tracked, h.known⟩
      · exact length_setFrame.trans_le h.few
      · intro g hlt'
        have hlt'' : g.toNat < s.pool.frames.length := by
          rw [← length_setFrame]
          exact hlt'
        have hframe := frame_setFrame (w := (s.pool.frame f).clearDirty) (h.partition.mapped id f hid).1 g
        show ((s.pool.setFrame f (s.pool.frame f).clearDirty).frame g).pinCount = _
        rw [hframe]
        by_cases heq : g = f
        · rw [if_pos heq, heq]
          exact h.count f (heq ▸ hlt'')
        · rw [if_neg heq]
          exact h.count g hlt''

variable {op : Op}

theorem Clear.step (hlaw : LawfulSource src n contents) (h : Clear contents n s) (hroom : Roomy s op)
    (hsafe : Safe s op) (hstep : s.step src op = some s') :
    Clear contents n s' := by
  cases op with
  | pinPage id hint => exact h.pinPage hlaw hroom hsafe hstep
  | newPage id => exact h.newPage hlaw hroom hsafe hstep
  | write f id bytes lsn =>
    unfold Session.step at hstep
    dsimp only at hstep
    split at hstep
    · rename_i hg
      cases hstep
      exact h.setFrame (w := { s.pool.frame f with data := bytes }.markDirty lsn) hg.1 rfl rfl
        (update_self id bytes s.view).symm rfl (hg.2.trans h.size)
        fun id' hne => update_of_ne hne _ _
    · cases hstep
  | markDirty f id lsn =>
    unfold Session.step at hstep
    dsimp only at hstep
    split at hstep
    · rename_i hg
      cases hstep
      have hid := h.guards f id hg
      have hlength := h.mirrors.length f (h.partition.mapped id f hid).1
      exact h.setFrame (w := (s.pool.frame f).markDirty lsn) hg rfl rfl
        (h.mirrors.data id f hid) rfl (hlength.trans h.size) fun _ _ => rfl
    · cases hstep
  | unpin f id =>
    unfold Session.step at hstep
    dsimp only at hstep
    split at hstep
    · rename_i hg
      cases hstep
      exact h.unpin hg
    · cases hstep
  | flushPage id =>
    cases hstep
    exact h.flushed hlaw id
  | flushAll order =>
    unfold Session.step at hstep
    dsimp only at hstep
    split at hstep
    · cases hstep
      exact flushPages_keeps (P := fun p => Clear contents n ⟨p, s.guards, s.view, s.failed⟩) order
        (fun p id hp => hp.flushed hlaw id) h
    · cases hstep

/-- Taking a frame that is not safe ends in an error or evicts a guarded page. -/
theorem Clear.taken_guarded (h : Clear contents n s) (hno : ¬ VictimFree s)
    (hres : evictOrTakeFree src s.pool.countMiss = (.ok f, t)) :
    ∃ id', (f, id') ∈ s.guards ∧ t.pageTable.lookup id' = none := by
  unfold VictimFree at hno
  push Not at hno
  obtain ⟨hfree, v, r, hpick, hguard⟩ := hno
  have hev := evicted src s.pool.countMiss
  rw [hres] at hev
  have hvictim {v' : FrameId} {r' : LruK} {id : PageId}
      (hpick' : s.pool.countMiss.replacer.pickVictim = (some v', r'))
      (hpage : (s.pool.countMiss.frame v').pageId = some id) :
      ∃ id', (v', id') ∈ s.guards ∧ id' = id := by
    obtain rfl := Option.some.inj (Prod.mk.inj (hpick'.symm.trans hpick)).1
    have hguarded : ∃ id', (v', id') ∈ s.guards := by
      by_contra hnone
      push Not at hnone
      have hraw := hguard hnone
      have hempty : (s.pool.countMiss.frame v').pageId = none := if_pos hraw
      rw [hempty] at hpage
      cases hpage
    obtain ⟨id', hg⟩ := hguarded
    refine ⟨id', hg, ?_⟩
    have hraw := (h.partition.mapped id' v' (h.guards v' id' hg)).2.2.1
    exact hraw.symm.trans (pageId_eq_some hpage)
  cases hev with
  | free hlast =>
    rw [show s.pool.countMiss.freeList = [] from hfree] at hlast
    cases hlast
  | clean hfree' hpick' hpin hpage hclean | written hfree' hpick' hpin hpage hdirty hwrite =>
    obtain ⟨id', hg, rfl⟩ := hvictim hpick' hpage
    exact ⟨id', hg, AList.lookup_erase _ _⟩

/-- **A miss that is not safe is seen.** -/
theorem Clear.not_transparent (h : Clear contents n s) (hno : ¬ Safe s op) (hstep : s.step src op = some s') :
    ¬ Transparent s' := by
  intro hclear
  cases op with
  | write f id bytes lsn | markDirty f id lsn | unpin f id | flushPage id | flushAll order => exact hno trivial
  | pinPage id hint =>
    unfold Safe at hno
    push Not at hno
    obtain ⟨hid, hno⟩ := hno
    have hpin := pinned src s.pool id hint
    cases hres : s.pool.pinPage src id hint with
    | mk result p =>
      cases result with
      | error e =>
        rw [step_pinPage_error hres] at hstep
        cases hstep
        cases hclear.succeeds
      | ok f' =>
        rw [step_pinPage_ok hres] at hstep
        cases hstep
        rw [hres] at hpin
        cases hpin with
        | hit hid' =>
          rw [hid] at hid'
          cases hid'
        | read hid' hev hread =>
          obtain ⟨id', hg, hnone⟩ := h.taken_guarded hno hev
          have hseen := (hclear.seen f' id' (mem_cons_of_mem _ hg)).1
          have hne : id' ≠ id := by
            rintro rfl
            rw [h.guards f' id' hg] at hid
            cases hid
          have hgone := lookup_load.symm.trans hseen
          rw [if_neg hne] at hgone
          cases hnone.symm.trans hgone
  | newPage id =>
    unfold Safe at hno
    push Not at hno
    obtain ⟨hid, hno⟩ := hno
    have hnew := created src s.pool id
    cases hres : s.pool.newPage src id with
    | mk result p =>
      cases result with
      | error e =>
        rw [step_newPage_error hres, hid] at hstep
        cases hstep
        have hfailed := hclear.succeeds
        rw [show (s.failed || (none : Option FrameId).isNone) = true from Bool.or_true _] at hfailed
        cases hfailed
      | ok f' =>
        rw [step_newPage_ok hres] at hstep
        cases hstep
        rw [hres] at hnew
        cases hnew with
        | mapped hid' hev =>
          rename_i t
          obtain ⟨id', hg, hnone⟩ := h.taken_guarded hno hev
          have hseen := (hclear.seen f' id' (mem_cons_of_mem _ hg)).1
          have hgone : (t.mapPage f' (zeroed (t.frame f')) id).pageTable.lookup id' = none := by
            show (AList.insert id f' t.pageTable).lookup id' = none
            rw [lookup_insert_if, if_neg]
            · exact hnone
            · rintro rfl
              rw [h.guards f' id' hg] at hid
              cases hid
          rw [hgone] at hseen
          cases hseen

end step

/-! ### Runs -/

section runs

variable {frameCount pageSize : ℕ} {source : σ} {pool : BufferPool σ}

theorem clear_new (hfew : frameCount ≤ 2 ^ 32) (hnew : BufferPool.new src source frameCount pageSize = .ok pool) :
    Clear contents pageSize (Session.init pool (contents source)) := by
  have hpartition := partition_new hfew hnew
  have hframe := frame_new hnew
  have heq := new_eq hnew
  have htable (id : PageId) : pool.pageTable.lookup id = none := by
    rw [heq]
    rfl
  have hnone {id : PageId} {f : FrameId}
      (hid : (Session.init pool (contents source)).pool.pageTable.lookup id = some f) : False := by
    rw [show (Session.init pool (contents source)).pool.pageTable.lookup id = none from htable id] at hid
    cases hid
  have hsize : pool.pageSize = pageSize := by rw [heq]
  have hlength : pool.frames.length = frameCount := by
    rw [heq]
    exact length_replicate
  refine ⟨hpartition, ⟨?_, ?_, ?_, ?_⟩, rfl, hsize, hlength.trans_le hfew, ?_, ?_, ?_, ?_⟩
  · intro id f hid
    exact (hnone hid).elim
  · intro id f hid
    exact (hnone hid).elim
  · intro id hid
    show contents pool.source id = contents source id
    rw [heq]
  · intro f hf
    show (pool.frame f).data.length = pool.pageSize
    rw [hframe, hsize]
    exact length_replicate
  · intro f id hg
    exact absurd hg not_mem_nil
  · intro f hf
    show (pool.frame f).pinCount = _
    rw [hframe]
    rfl
  · intro id f hid
    exact (hnone hid).elim
  · intro id f hid
    exact (hnone hid).elim

/-- **The pool is transparent exactly as long as** no miss picks a guarded frame, or the page with
the id of an empty frame, for eviction: over a source whose reads and writes succeed and with fewer
pinned pages than frames, every call that should succeed does, and every guard sees the bytes
written last to its page. -/
theorem transparent_iff (source : σ) (frameCount pageSize : ℕ)
    (hlaw : LawfulSource src pageSize contents) (hfew : frameCount ≤ 2 ^ 32) (pool : BufferPool σ)
    (hnew : BufferPool.new src source frameCount pageSize = .ok pool) (ops : List Op)
    (last : Session σ)
    (hrun : Transition.run (Session.step src) (Session.init pool (contents source)) ops = some last)
    (hroom : Transition.Along (Session.step src) Roomy (Session.init pool (contents source)) ops) :
    Transition.Throughout (Session.step src) Transparent (Session.init pool (contents source)) ops ↔
      Transition.Along (Session.step src) Safe (Session.init pool (contents source)) ops := by
  refine Transition.throughout_iff_along_of_side (I := Clear contents pageSize)
    (fun s h => h.transparent) ?_ ?_ (clear_new hfew hnew) hroom hrun
  · intro s op s' h hroom hsafe hstep
    exact h.step hlaw hroom hsafe hstep
  · intro s op s' h hroom hno hstep
    exact h.not_transparent hno hstep

end runs

/-! ### A scanned page that is pinned -/

theorem transparent_iff_small : Transition.Throughout (Session.step InMemoryPageSource.source) Transparent
      (Session.init smallPool smallPool.source.bytesOf) [.pinPage 7 .point] := by
  have hrun : (Transition.run (Session.step InMemoryPageSource.source)
      (Session.init smallPool smallPool.source.bytesOf) [.pinPage 7 .point]).isSome :=
    rfl
  obtain ⟨last, hlast⟩ := Option.isSome_iff_exists.mp hrun
  refine (transparent_iff .new 1 64 (InMemoryPageSource.lawful 64) (by decide) smallPool rfl
    [.pinPage 7 .point] last hlast ?_).mpr ?_
  · refine Transition.along_single.mpr ?_
    show 0 < 1
    decide
  · refine Transition.along_single.mpr ?_
    intro hid hfree
    cases hfree

/-- Two frames, the second on top of the free list. -/
def pairPool : BufferPool (InMemoryPageSource 64) :=
  ⟨[Frame.new 64, Frame.new 64], ∅, [0, 1], .new, .new, 64, ⟨0, 0, 0, 0, 2⟩⟩

/-- Page 1 stays pinned by a scan, page 2 is pinned and dropped, then page 3 is wanted. -/
def scanOps : List Op := [.pinPage 1 .scan, .pinPage 2 .point, .unpin 0 2, .pinPage 3 .point]

/-- **A scanned page that is still pinned is picked for eviction**, and the pin of page 3 fails,
although only one of the two frames is pinned. -/
theorem scan_blocks_pin : BufferPool.new InMemoryPageSource.source InMemoryPageSource.new 2 64 = .ok pairPool ∧
      (Transition.run (Session.step InMemoryPageSource.source)
        (Session.init pairPool pairPool.source.bytesOf) scanOps).map
        (fun s => (s.failed, s.guards)) = some (true, [(1, 1)]) ∧
      ¬ Transition.Throughout (Session.step InMemoryPageSource.source) Transparent
        (Session.init pairPool pairPool.source.bytesOf) scanOps := by
  have hrun : (Transition.run (Session.step InMemoryPageSource.source)
      (Session.init pairPool pairPool.source.bytesOf) scanOps).map
      (fun s => (s.failed, s.guards)) = some (true, [(1, 1)]) := by
    decide
  refine ⟨rfl, hrun, ?_⟩
  intro hkeep
  obtain ⟨s, hs, hfailed⟩ := Option.map_eq_some_iff.mp hrun
  have hsucceeds := (hkeep scanOps s (prefix_refl _) hs).succeeds
  rw [(Prod.mk.inj hfailed).1] at hsucceeds
  cases hsucceeds

/-! ### Flushing every page -/

variable {n : ℕ}

end CenDB.Buffer
