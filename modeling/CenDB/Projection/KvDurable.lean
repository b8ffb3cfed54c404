import CenDB.Projection.KvSegment

/-! # What can be flushed

A chunk of several entries always fits a block, since `flush_pending` leaves more room than the block
needs.  A chunk of one entry is sealed whatever its size, and `put` does not look at sizes: a flush
succeeds if and only if every pending entry fits a block of its own (`flushPending_isOk_iff`).  Entries that
fit the space that is left for a chunk are found in the new blocks, of any size (`flushPending_writes`). -/

namespace CenDB.Projection

open CenDB.Storage Words List

namespace KvStore

variable {fmt : TextFormat} {s s' : KvStore} {b : PaxBlockBuilder} {blockSize : UInt32} {es us : List (Bytes × Bytes)}

/-! ### Flushing -/

/-- Entries that join a chunk leave its bytes below the limit. -/
theorem takeChunk_fits (usable chunkBytes : ℕ) (es : List (Bytes × Bytes)) :
    (takeChunk usable chunkBytes es).1 = [] ∨
      chunkBytes + ((takeChunk usable chunkBytes es).1.map rowBytes).sum ≤ usable := by
  induction es generalizing chunkBytes with
  | nil => exact Or.inl rfl
  | cons e es ih =>
    rw [takeChunk]
    split
    · simp
    · rename_i hfit
      right
      dsimp only
      rw [map_cons, sum_cons]
      cases ih (chunkBytes + rowBytes e) with
      | inl hnil =>
        rw [hnil, map_nil, sum_nil]
        omega
      | inr hle => omega

/-- **Entries are sealed if and only if each of them fits a block of its own.** -/
theorem sealChunks_isOk_iff (fmt : TextFormat) (es : List (Bytes × Bytes)) :
    (∃ s', sealChunks fmt (s.blockSize.toNat - 512) s es = .ok s') ↔ ∀ e ∈ es, FitsBlock s.blockSize e := by
  induction hn : es.length using Nat.strongRecOn generalizing es s with
  | ind n ih =>
    cases es with
    | nil =>
      rw [sealChunks]
      exact iff_of_true ⟨s, rfl⟩ fun e he => absurd he not_mem_nil
    | cons e es =>
      have hsplit := takeChunk_append (s.blockSize.toNat - 512) (rowBytes e) es
      have hlen := congrArg List.length hsplit
      have hfits := takeChunk_fits (s.blockSize.toNat - 512) (rowBytes e) es
      rw [sealChunks]
      generalize takeChunk (s.blockSize.toNat - 512) (rowBytes e) es = parts at hsplit hlen hfits
      obtain ⟨chunk, rest⟩ := parts
      dsimp only at hsplit hlen hfits ⊢
      rw [length_append] at hlen
      rw [length_cons] at hn
      -- sealing the first chunk, by whether it has more than one entry
      have hchunk : (∃ s', sealChunk fmt s (e :: chunk) = .ok s') ↔
          ∀ c ∈ e :: chunk, FitsBlock s.blockSize c := by
        cases hfits with
        | inl hnil =>
          rw [hnil, sealChunk_single_isOk_iff, forall_mem_singleton]
        | inr hle =>
          have hrow (c : Bytes × Bytes) : rowBytes c = 40 + c.1.length + c.2.length := by
            unfold rowBytes
            omega
          have hpos := hrow e
          have hall : ((e :: chunk).map rowBytes).sum + 512 ≤ s.blockSize.toNat := by
            rw [map_cons, sum_cons]
            omega
          refine iff_of_true (sealChunk_isOk fmt hall) fun c hc => ?_
          have hone := single_le_sum (fun _ _ => Nat.zero_le _) (rowBytes c) (mem_map_of_mem (f := rowBytes) hc)
          rw [hrow] at hone
          unfold FitsBlock
          omega
      rw [← hsplit, ← cons_append, forall_mem_append, ← hchunk]
      cases hseal : sealChunk fmt s (e :: chunk) with
      | error err => exact iff_of_false (by simp) (by simp)
      | ok mid =>
        have hsize : mid.blockSize = s.blockSize := by
          obtain ⟨block, -, rfl⟩ := sealChunk_eq hseal
          rfl
        have hrest := ih rest.length (by omega) (s := mid) rest rfl
        rw [hsize] at hrest
        dsimp only
        rw [hrest]
        exact (and_iff_right ⟨mid, rfl⟩).symm

theorem ordered_eq_nil (hempty : s.pending.entries.isEmpty = true) : s.ordered = [] := by
  apply eq_nil_iff_forall_not_mem.mpr
  intro e he
  have hlookup := (mem_ordered.mp he).2
  have hpending : s.pending = ∅ := AList.ext (List.isEmpty_iff.mp hempty)
  rw [hpending] at hlookup
  cases hlookup

/-- **A flush succeeds if and only if every pending entry fits a block of its own.** -/
theorem flushPending_isOk_iff (fmt : TextFormat) (horder : s.InOrder) : (∃ s', s.flushPending fmt = .ok s') ↔
      ∀ k v, s.pending.lookup k = some v → FitsBlock s.blockSize (k, v) := by
  have hordered : (∀ e ∈ s.ordered, FitsBlock s.blockSize e) ↔
      ∀ k v, s.pending.lookup k = some v → FitsBlock s.blockSize (k, v) := by
    constructor
    · intro hall k v hk
      exact hall (k, v) (mem_ordered.mpr ⟨horder k v hk, hk⟩)
    · intro hall e he
      exact hall e.1 e.2 (mem_ordered.mp he).2
  rw [← hordered, ← sealChunks_isOk_iff fmt]
  unfold flushPending
  split
  · rename_i hempty
    rw [ordered_eq_nil hempty, sealChunks]
  · dsimp only
    have hroom : 64 + 3 * 64 + 256 = 512 := rfl
    rw [hroom]
    cases sealChunks fmt (s.blockSize.toNat - 512) s s.ordered with
    | error err => exact iff_of_false (by simp) (by simp)
    | ok mid => exact iff_of_true ⟨_, rfl⟩ ⟨mid, rfl⟩

/-! ### What is flushed -/

/-- In a chunk below the largest block size no offset wraps. -/
theorem Staged.unwrapped (h : Staged b blockSize es) (hsum : (es.map rowBytes).sum + 512 ≤ 2 ^ 32) :
    b.Unwrapped := by
  obtain ⟨page, laid, hpage, -, hlayout, -⟩ := h.layout
  have hend := minipagesEnd_le page es.length
  have halign : minipageAlign = 64 := rfl
  rw [sum_rowBytes] at hsum
  intro laid' stop hlaid
  obtain ⟨-, rfl⟩ := Prod.mk.inj (Except.ok.inj (hlayout.symm.trans hlaid))
  omega

variable {block : PaxBlock} {key : Bytes}

/-- A block of entries that are below the largest block size holds them. -/
theorem holdsRows_of_sum (h : PaxBlockBuilder.build fmt blockSize kvSpecs (es.map rowOf) = .ok block)
    (hsum : (es.map rowBytes).sum + 512 ≤ 2 ^ 32) : HoldsRows block es := by
  obtain ⟨start, hstart, hempty⟩ := staged_new blockSize
  obtain ⟨b, ids, hentries, hstaged⟩ := hempty.appendEntries fmt es
  have hrows := (appendEntries_spec hentries).1
  obtain ⟨varheap, hb⟩ := build_spec_of_unwrapped h fun start' b' hstart' hrows' => by
    obtain rfl : start = start' := Except.ok.inj (hstart.symm.trans hstart')
    obtain rfl : b = b' := Except.ok.inj (hrows.symm.trans hrows')
    exact hstaged.unwrapped hsum
  exact holdsRows_of_built hb

/-- **Entries that each fit the space of a block are sealed in blocks that hold them.** -/
theorem sealChunks_writes (fmt : TextFormat) (s : KvStore) (es : List (Bytes × Bytes))
    (hfit : ∀ e ∈ es, rowBytes e + 512 ≤ s.blockSize.toNat) :
    ∃ s' blocks batches, sealChunks fmt (s.blockSize.toNat - 512) s es = .ok s' ∧ s'.blocks = s.blocks ++ blocks ∧
      List.Forall₂ HoldsRows blocks batches ∧ batches.flatten = es := by
  induction hn : es.length using Nat.strongRecOn generalizing es s with
  | ind n ih =>
    cases es with
    | nil => exact ⟨s, [], [], by rw [sealChunks], (append_nil _).symm, .nil, rfl⟩
    | cons e es =>
      have hsplit := takeChunk_append (s.blockSize.toNat - 512) (rowBytes e) es
      have hlen := congrArg List.length hsplit
      have hfits := takeChunk_fits (s.blockSize.toNat - 512) (rowBytes e) es
      rw [sealChunks]
      generalize takeChunk (s.blockSize.toNat - 512) (rowBytes e) es = parts at hsplit hlen hfits
      obtain ⟨chunk, rest⟩ := parts
      dsimp only at hsplit hlen hfits ⊢
      rw [length_append] at hlen
      rw [length_cons] at hn
      obtain ⟨hfirst, hlater⟩ := forall_mem_cons.mp hfit
      -- the estimate of the first chunk stays below the space of a block
      have hsum : ((e :: chunk).map rowBytes).sum + 512 ≤ s.blockSize.toNat := by
        rw [map_cons, sum_cons]
        cases hfits with
        | inl hnil =>
          rw [hnil, map_nil, sum_nil]
          exact hfirst
        | inr hle => omega
      obtain ⟨mid, hseal⟩ := sealChunk_isOk fmt hsum
      obtain ⟨block, hbuild, hmid⟩ := sealChunk_eq hseal
      have hsize := s.blockSize.toNat_lt
      have hholds := holdsRows_of_sum hbuild (by omega)
      have hblockSize : mid.blockSize = s.blockSize := by rw [hmid]
      have hblocks : mid.blocks = s.blocks ++ [block] := by rw [hmid]
      have hrest : ∀ e ∈ rest, rowBytes e + 512 ≤ mid.blockSize.toNat := fun e he => by
        rw [hblockSize]
        exact hlater e (hsplit ▸ mem_append_right chunk he)
      obtain ⟨s', blocks, batches, hok, hall, hbatches, hflat⟩ := ih rest.length (by omega) mid rest hrest rfl
      rw [hblockSize] at hok
      rw [hseal]
      refine ⟨s', block :: blocks, (e :: chunk) :: batches, hok, ?_, .cons hholds hbatches, ?_⟩
      · simp [hall, hblocks]
      · rw [flatten_cons, hflat, cons_append, hsplit]

/-- **Entries that each fit the space of a block are flushed**: the new blocks hold the pending entries. -/
theorem flushPending_writes (fmt : TextFormat) (horder : s.InOrder)
    (hfit : ∀ k v, s.pending.lookup k = some v → 40 + k.length + v.length + 512 ≤ s.blockSize.toNat) :
    ∃ s' blocks batches, s.flushPending fmt = .ok s' ∧ s'.pending = ∅ ∧ s'.blocks = s.blocks ++ blocks ∧
      List.Forall₂ HoldsRows blocks batches ∧ batches.flatten = s.ordered ∧
      ∀ k v, s.pending.lookup k = some v → (k, v) ∈ s.ordered := by
  have hmem (k v : Bytes) (h : s.pending.lookup k = some v) : (k, v) ∈ s.ordered :=
    mem_ordered.mpr ⟨horder k v h, h⟩
  by_cases hempty : s.pending.entries.isEmpty = true
  · refine ⟨s, [], [], ?_, AList.ext (List.isEmpty_iff.mp hempty), (append_nil _).symm, .nil, ?_, hmem⟩
    · rw [flushPending, if_pos hempty]
    · exact (ordered_eq_nil hempty).symm
  · have hall : ∀ e ∈ s.ordered, rowBytes e + 512 ≤ s.blockSize.toNat := by
      rintro ⟨k, v⟩ he
      have hsmall := hfit k v (mem_ordered.mp he).2
      dsimp only [rowBytes]
      omega
    obtain ⟨mid, blocks, batches, hseal, hblocks, hholds, hflat⟩ := sealChunks_writes fmt s s.ordered hall
    have hroom : 64 + 3 * 64 + 256 = 512 := rfl
    refine ⟨{ mid with pending := ∅, pendingOrder := [] }, blocks, batches, ?_, rfl, hblocks, hholds, hflat, hmem⟩
    rw [flushPending, if_neg hempty]
    dsimp only
    rw [hroom, hseal]

/-- A flush of two entries into blocks of 600 bytes. -/
theorem flushPending_writes_pair :
    ∃ s' blocks batches, (((new 1 600).bufferPut [1] [2, 3]).bufferPut [4] [5]).flushPending plainFormat = .ok s' ∧
      s'.pending = ∅ ∧ s'.blocks = [] ++ blocks ∧ List.Forall₂ HoldsRows blocks batches ∧
      batches.flatten = [([1], [2, 3]), ([4], [5])] ∧
      ∀ k v, (((new 1 600).bufferPut [1] [2, 3]).bufferPut [4] [5]).pending.lookup k = some v →
        (k, v) ∈ [(([1], [2, 3]) : Bytes × Bytes), ([4], [5])] := by
  have horder : (new 1 600).InOrder := fun k v hk => nomatch hk
  refine flushPending_writes plainFormat ((horder.bufferPut [1] [2, 3]).bufferPut [4] [5]) fun k v hk => ?_
  have hlookup : (AList.insert [4] [5] (AList.insert [1] [2, 3] (∅ : Table Bytes Bytes))).lookup k = some v := hk
  rw [Table.lookup_insert_if, Table.lookup_insert_if] at hlookup
  have hsize : (((new 1 600).bufferPut [1] [2, 3]).bufferPut [4] [5]).blockSize.toNat = 600 := rfl
  rw [hsize]
  split_ifs at hlookup with hfour hone
  · rw [hfour, ← Option.some.inj hlookup]
    decide
  · rw [hone, ← Option.some.inj hlookup]
    decide
  · cases hlookup

/-! ### Stores -/

/-- What flushing and persisting rely on: every pending key is in the order, and every block has the
size of the store's blocks. -/
structure Sound (size : UInt32) (s : KvStore) : Prop where
  blockSize : s.blockSize = size
  order : s.InOrder
  sizes : ∀ block ∈ s.blocks, block.buf.length = size.toNat

theorem Sound.sealChunks (h : Sound blockSize s) {usable : ℕ}
    (hseal : sealChunks fmt usable s es = .ok s') : Sound blockSize s' := by
  induction hn : es.length using Nat.strongRecOn generalizing es s with
  | ind n ih =>
    cases es with
    | nil =>
      rw [KvStore.sealChunks] at hseal
      rwa [← Except.ok.inj hseal]
    | cons e es =>
      rw [KvStore.sealChunks] at hseal
      split at hseal
      · cases hseal
      · rename_i mid hmid
        have hlen := congrArg List.length (takeChunk_append usable (rowBytes e) es)
        rw [length_append] at hlen
        rw [length_cons] at hn
        have hsound : Sound blockSize mid := by
          obtain ⟨block, hbuild, rfl⟩ := sealChunk_eq hmid
          have hsize := length_of_build hbuild
          rw [h.blockSize] at hsize
          exact ⟨h.blockSize, h.order, forall_mem_append.mpr ⟨h.sizes, forall_mem_singleton.mpr hsize⟩⟩
        exact ih _ (by omega) hsound hseal rfl

theorem Sound.flush (h : Sound blockSize s) (hflush : s.flushPending fmt = .ok s') : Sound blockSize s' := by
  unfold flushPending at hflush
  split at hflush
  · rwa [← Except.ok.inj hflush]
  · dsimp only at hflush
    split at hflush
    · cases hflush
    · rename_i mid hmid
      have hsound := h.sealChunks hmid
      rw [← Except.ok.inj hflush]
      exact ⟨hsound.blockSize, fun k v hk => absurd hk (by simp), hsound.sizes⟩

theorem Sound.put {value : Bytes} (h : Sound blockSize s) (hput : s.put fmt key value = .ok s') :
    Sound blockSize s' := by
  have hbuffer : Sound blockSize (s.bufferPut key value) := ⟨h.blockSize, h.order.bufferPut key value, h.sizes⟩
  unfold KvStore.put at hput
  dsimp only at hput
  split at hput
  · exact hbuffer.flush hput
  · rwa [← Except.ok.inj hput]

theorem Sound.delete {existed : Bool} (h : Sound blockSize s) (hdelete : s.delete fmt key = .ok (s', existed)) :
    Sound blockSize s' := by
  have hforget : Sound blockSize (s.forget key) := ⟨h.blockSize, h.order.forget key, h.sizes⟩
  unfold KvStore.delete at hdelete
  split at hdelete
  · split at hdelete
    · cases hdelete
    · rename_i next hnext
      obtain ⟨rfl, -⟩ := Prod.mk.inj (Except.ok.inj hdelete)
      exact hforget.put hnext
  · obtain ⟨rfl, -⟩ := Prod.mk.inj (Except.ok.inj hdelete)
    exact hforget

theorem Sound.putAll (h : Sound blockSize s) (hputs : putAll fmt s es = .ok s') : Sound blockSize s' := by
  induction es generalizing s with
  | nil => rwa [← Except.ok.inj hputs]
  | cons e es ih =>
    rw [KvStore.putAll] at hputs
    split at hputs
    · cases hputs
    · rename_i mid hmid
      exact ih (h.put hmid) hputs

theorem Sound.call {c : Call} (h : Sound blockSize s) (hcall : call fmt s c = some s') :
    Sound blockSize s' := by
  obtain ⟨op, rfl, hstep⟩ | ⟨stats, rfl, hcompact⟩ := call_cases hcall
  · obtain ⟨key, value, -, hput⟩ | ⟨key, existed, -, hdelete⟩ | ⟨-, hflush⟩ := step_cases hstep
    · exact h.put hput
    · exact h.delete hdelete
    · exact h.flush hflush
  · obtain ⟨flushed, found, hflushed, -, hbuild⟩ := compact_cases hcompact
    have hsound := h.flush hflushed
    have hcleared : Sound blockSize { flushed with blocks := [], index := ∅ } :=
      ⟨hsound.blockSize, hsound.order, fun block hblock => absurd hblock not_mem_nil⟩
    unfold rebuild at hbuild
    split at hbuild
    · cases hbuild
    · rename_i mid hmid
      exact (hcleared.putAll hmid).flush hbuild

/-! ### Opened stores -/

/-- A new store, or one that was loaded from any file. -/
inductive Opened (blockSize : UInt32) : KvStore → Prop
  | new (segmentId : UInt64) : Opened blockSize (.new segmentId blockSize)
  | load {file : List UInt8} {segmentId : UInt64} {s : KvStore}
    (h : loadFromSegment file segmentId blockSize = .ok s) : Opened blockSize s

theorem sound_new (segmentId : UInt64) (blockSize : UInt32) : Sound blockSize (new segmentId blockSize) where
  blockSize := rfl
  order k v hk := by cases hk
  sizes block hblock := absurd hblock not_mem_nil

theorem length_readBlock {f : SegmentFile} {blockId : UInt32} {buf out : List UInt8}
    (h : f.readBlock blockId buf = .ok out) : out.length = buf.length := by
  unfold SegmentFile.readBlock at h
  split at h
  · cases h
  · split at h
    · cases h
    · rename_i hfit
      split at h
      · cases h
      · rename_i bytes hbytes
        unfold readExact at hbytes
        split_ifs at hbytes with hend
        rw [← Except.ok.inj h, length_append, length_drop, ← Except.ok.inj hbytes, slice_length (by omega)]
        omega

theorem Sound.loadBlocks {seg : SegmentFile} {entries : List BlockDirEntry}
    (h : Sound blockSize s) (hload : loadBlocks seg s entries = .ok s') : Sound blockSize s' := by
  induction entries generalizing s with
  | nil => rwa [← Except.ok.inj hload]
  | cons e entries ih =>
    rw [KvStore.loadBlocks] at hload
    split at hload
    · cases hload
    · rename_i buf hbuf
      split at hload
      · cases hload
      · split at hload
        · cases hload
        · split at hload
          · cases hload
          · rename_i block hblock
            unfold PaxBlock.fromOwned at hblock
            split_ifs at hblock
            have hlen := length_readBlock hbuf
            rw [length_replicate, h.blockSize] at hlen
            refine ih ?_ hload
            refine ⟨h.blockSize, h.order, forall_mem_append.mpr ⟨h.sizes, ?_⟩⟩
            rw [forall_mem_singleton, ← Except.ok.inj hblock]
            exact hlen

theorem Opened.sound (h : Opened blockSize s) : Sound blockSize s := by
  cases h with
  | new segmentId => exact sound_new segmentId blockSize
  | load hload =>
    unfold loadFromSegment at hload
    split at hload
    · cases hload
    · exact (sound_new _ blockSize).loadBlocks hload

/-- What is flushed is also written to a segment. -/
theorem Sound.persist_isOk_iff (h : Sound blockSize s) :
    (∃ out, s.persistToSegment fmt = .ok out) ↔ ∃ s', s.flushPending fmt = .ok s' := by
  cases hflush : s.flushPending fmt with
  | error err =>
    rw [persistToSegment, hflush]
    exact iff_of_false (by simp) (by simp)
  | ok flushed =>
    have hsound := h.flush hflush
    have hsizes : ∀ block ∈ flushed.blocks, block.buf.length = flushed.blockSize.toNat := by
      intro block hblock
      rw [hsound.sizes block hblock, ← hsound.blockSize]
    obtain ⟨file, hpersist⟩ := persist_of_flush hflush hsizes
    exact iff_of_true ⟨_, hpersist⟩ ⟨flushed, rfl⟩

/-- **After calls that all succeed, a flush and a persist succeed if and only if every pending entry
fits a block of its own.** -/
theorem durable_iff_fits {s₀ : KvStore} (hopen : Opened blockSize s₀) (calls : List Call)
    (hrun : Transition.run (call fmt) s₀ calls = some s) :
    ((∃ flushed, s.flushPending fmt = .ok flushed) ↔
        ∀ k v, s.pending.lookup k = some v → FitsBlock blockSize (k, v)) ∧
      ((∃ out, s.persistToSegment fmt = .ok out) ↔
        ∀ k v, s.pending.lookup k = some v → FitsBlock blockSize (k, v)) := by
  have hsound : Sound blockSize s :=
    Transition.run_preserves (fun _ _ _ ht hcall => ht.call hcall) hopen.sound hrun
  have hflush := flushPending_isOk_iff fmt hsound.order
  rw [hsound.blockSize] at hflush
  exact ⟨hflush, hsound.persist_isOk_iff.trans hflush⟩

theorem durable_iff_fits_overwriteAndDelete :
    ∃ s, Transition.run (call plainFormat) (new 1 512) (overwriteAndDelete.map Call.op) = some s ∧
      ((∃ flushed, s.flushPending plainFormat = .ok flushed) ↔
        ∀ k v, s.pending.lookup k = some v → FitsBlock 512 (k, v)) := by
  obtain ⟨b₁, b₂, b₃, b₄, -, -, -, hstep⟩ := run_overwriteAndDelete
  have hrun := (run_map_op (new 1 512) overwriteAndDelete).trans hstep
  exact ⟨_, hrun, (durable_iff_fits (.new 1) _ hrun).1⟩

/-- **A value of 116 bytes keeps a small entry from being flushed**: with its key of one byte it does
not fit a block of 512 bytes. -/
theorem oversized_blocks_flush : ∃ s, Transition.run (call plainFormat) (new 1 512)
        [.op (.put [1] (List.replicate 116 7)), .op (.put [2] [3])] = some s ∧
      s.get [2] = .ok (some [3]) ∧ (¬ ∃ flushed, s.flushPending plainFormat = .ok flushed) ∧
        ¬ ∃ out, s.persistToSegment plainFormat = .ok out := by
  have hsound : Sound 512 (((new 1 512).bufferPut [1] (List.replicate 116 7)).bufferPut [2] [3]) :=
    ⟨rfl, ((sound_new 1 512).order.bufferPut _ _).bufferPut _ _, (sound_new 1 512).sizes⟩
  have hflush : ¬ ∃ flushed, flushPending plainFormat
      (((new 1 512).bufferPut [1] (List.replicate 116 7)).bufferPut [2] [3]) = .ok flushed := by
    rw [flushPending_isOk_iff plainFormat hsound.order]
    intro hall
    have hfit := hall [1] (List.replicate 116 7) rfl
    unfold FitsBlock at hfit
    exact absurd hfit (by decide)
  exact ⟨_, rfl, rfl, hflush, fun h => hflush (hsound.persist_isOk_iff.mp h)⟩

end KvStore

end CenDB.Projection
