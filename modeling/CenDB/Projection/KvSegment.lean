import CenDB.Projection.KvIter
import CenDB.Storage.Segment

/-! # A store in a segment file

Persisting flushes a store and writes its blocks to a segment file; loading reads the blocks back
and indexes their rows in order, so that the last row of a key wins, as it did when the rows were
sealed (`loadBlocks_spec`, `load_persist`).

A segment numbers and counts its blocks in 32 bits: one of `2 ^ 32` blocks is read as one of none
(`load_wraps`).  Otherwise a store goes through any number of restarts (`get_restarts`). -/

namespace CenDB.Projection

open CenDB.Storage List

namespace KvStore

/-- Flush, and write a sealed segment; the store, and the bytes of the file. -/
def persistToSegment (fmt : TextFormat) (s : KvStore) : Except Halt (KvStore × List UInt8) :=
  match s.flushPending fmt with
  | .error err => .error err
  | .ok s =>
    let pageSize := 4096
    match (SegmentWriter.create s.segmentId pageSize s.blockSize 0).appendBlocks s.blocks with
    | .error err => .error err
    | .ok writer => .ok (s, (writer.sealSegment 0).file)

/-- Index rows of a block by their keys; `PaxBlockReader` reads as `PaxBlock` does. -/
def indexRows (reader : PaxBlock) (blockId : UInt32) (index : Table Bytes (UInt32 × UInt32)) :
    List ℕ → Except Halt (Table Bytes (UInt32 × UInt32))
  | [] => .ok index
  | slot :: slots =>
    match reader.varValue 1 slot with
    | .error err => .error err
    | .ok none => indexRows reader blockId index slots
    | .ok (some k) =>
      indexRows reader blockId (AList.insert k (blockId, UInt32.ofNat slot) index) slots

/-- Read the blocks of directory entries, and index their rows. -/
def loadBlocks (seg : SegmentFile) (s : KvStore) : List BlockDirEntry → Except Halt KvStore
  | [] => .ok s
  | e :: entries =>
    match seg.readBlock e.blockId (List.replicate s.blockSize.toNat 0) with
    | .error err => .error err
    | .ok buf =>
      match indexRows ⟨buf, s.blockSize⟩ e.blockId s.index (List.range e.rowCount.toNat) with
      | .error err => .error err
      | .ok index =>
        match allocAlignedBlock s.blockSize.toNat with
        | .error err => .error err
        | .ok _ =>
          match PaxBlock.fromOwned buf s.blockSize with
          | .error err => .error err
          | .ok block =>
            loadBlocks seg { s with index := index, blocks := s.blocks ++ [block] } entries

def loadFromSegment (file : List UInt8) (segmentId : UInt64) (blockSize : UInt32) : Except Halt KvStore :=
  match SegmentFile.openFile file with
  | .error err => .error err
  | .ok seg => loadBlocks seg (new segmentId blockSize) seg.blockDir.entries

variable {fmt : TextFormat} {s s' : KvStore} {rows : List (List (Bytes × Bytes))}

/-! ### Loading -/

/-- The rows of a block get their places in the index. -/
theorem indexRows_spec {block : PaxBlock} {es : List (Bytes × Bytes)} (h : HoldsRows block es)
    (blockId : ℕ) (index : Table Bytes (UInt32 × UInt32)) :
    indexRows block (UInt32.ofNat blockId) index (List.range es.length) =
      .ok ((placesIn blockId es).foldl (fun t e => AList.insert e.1 e.2 t) index) := by
  -- by the number of rows left
  have hfrom (m n : ℕ) (index : Table Bytes (UInt32 × UInt32)) (hn : n + m = es.length) :
      indexRows block (UInt32.ofNat blockId) index (List.range' n m) =
        .ok (((placesIn blockId es).drop n).foldl (fun t e => AList.insert e.1 e.2 t) index) := by
    have hlen : (placesIn blockId es).length = es.length := by simp [placesIn]
    induction m generalizing n index with
    | zero =>
      rw [drop_of_length_le (by omega)]
      rfl
    | succ m ih =>
      have hlt : n < es.length := by omega
      have hkey := (h.read n _ (getElem?_eq_getElem hlt)).1
      have hlt' : n < (placesIn blockId es).length := by omega
      have hplace : (placesIn blockId es)[n] =
          (es[n].1, (UInt32.ofNat blockId, UInt32.ofNat n)) := by simp [placesIn]
      rw [range'_succ, indexRows, hkey]
      dsimp only
      rw [ih (n + 1) _ (by omega), drop_eq_getElem_cons (i := n) (by omega), hplace]
      rfl
  have hall := hfrom es.length 0 index (Nat.zero_add _)
  rw [drop_zero, ← range_eq_range'] at hall
  exact hall

/-- A store without pending entries, built from the places of its rows. -/
structure Loaded (segmentId : UInt64) (blockSize : UInt32) (t : KvStore)
    (rows : List (List (Bytes × Bytes))) : Prop where
  config : t.config = (new segmentId blockSize).config
  pending : t.pending = ∅ ∧ t.pendingOrder = []
  blocks : List.Forall₂ HoldsRows t.blocks rows
  index : ∀ k, t.index.lookup k = Table.lastOf (places rows) k

variable {segmentId : UInt64}

theorem Loaded.stored {blockSize : UInt32} (h : Loaded segmentId blockSize s rows) : Stored s rows where
  blocks := h.blocks
  index k := Or.inl (h.index k)
  nodup := by rw [h.pending.2]; exact nodup_nil
  order k := by rw [h.pending.1, h.pending.2]; simp

/-- **Blocks read back are loaded after the blocks before them.** -/
theorem loadBlocks_spec {seg : SegmentFile} {t : KvStore} {done later : List PaxBlock}
    {rows' : List (List (Bytes × Bytes))} (h : Loaded segmentId seg.blockSize t rows)
    (hdone : done.length = rows.length) (hlater : List.Forall₂ HoldsRows later rows')
    (hsizes : ∀ b ∈ later, b.buf.length = seg.blockSize.toNat)
    (hread : ∀ (i : ℕ) block, (done ++ later)[i]? = some block → seg.readBlockAlloc (UInt32.ofNat i) = .ok block.buf) :
    ∃ t', loadBlocks seg t ((later.zipIdx done.length).map fun b =>
        entryOf seg.blockSize b.2 b.1) = .ok t' ∧
      Loaded segmentId seg.blockSize t' (rows ++ rows') := by
  induction hlater generalizing t rows done with
  | nil =>
    refine ⟨t, rfl, ?_⟩
    rw [append_nil]
    exact h
  | @cons block es later rows' hblock _ ih =>
    obtain ⟨hsize, hsizes'⟩ := forall_mem_cons.mp hsizes
    have hblockSize : t.blockSize = seg.blockSize := blockSize_of_config h.config
    have hbuf : seg.readBlock (UInt32.ofNat done.length) (List.replicate t.blockSize.toNat 0) =
        .ok block.buf := by
      rw [hblockSize]
      exact hread done.length block (by simp)
    have hrows : HoldsRows ⟨block.buf, t.blockSize⟩ es := ⟨hblock.header_fits, hblock.rowCount, hblock.read⟩
    have hindex := indexRows_spec hrows done.length t.index
    have halloc : allocAlignedBlock t.blockSize.toNat = .ok (List.replicate t.blockSize.toNat 0) := by
      have hfits := hblock.header_fits
      rw [blockHeaderSize] at hfits
      rw [hblockSize, ← hsize]
      exact if_neg (by omega)
    have howned : PaxBlock.fromOwned block.buf t.blockSize = .ok ⟨block.buf, t.blockSize⟩ :=
      if_neg (Nat.not_lt.mpr hblock.header_fits)
    -- the store after the block
    have hnext : Loaded segmentId seg.blockSize { t with
        index := (placesIn done.length es).foldl (fun t e => AList.insert e.1 e.2 t) t.index
        blocks := t.blocks ++ [⟨block.buf, t.blockSize⟩] } (rows ++ [es]) := by
      refine ⟨h.config, h.pending, rel_append h.blocks (.cons hrows .nil), fun k => ?_⟩
      dsimp only
      rw [Table.lookup_foldl_insert, h.index, places_append, Table.lastOf_append, hdone]
    have hdone' : (done ++ [block]).length = (rows ++ [es]).length := by simp [hdone]
    obtain ⟨t', ht', hloaded⟩ := ih hnext hdone' hsizes' (by rw [append_assoc]; exact hread)
    refine ⟨t', ?_, ?_⟩
    · rw [zipIdx_cons, map_cons, loadBlocks]
      dsimp only [entryOf]
      rw [hbuf]
      dsimp only
      rw [hblock.rowCount, hindex]
      dsimp only
      rw [halloc]
      dsimp only
      rw [howned]
      dsimp only
      rw [length_append, length_singleton] at ht'
      exact ht'
    · rw [append_assoc] at hloaded
      exact hloaded

/-- **A loaded store holds the rows of the persisted one.** -/
theorem loadFromSegment_spec {flushed : KvStore} {file : List UInt8} (h : Stored s rows)
    (hpersist : s.persistToSegment fmt = .ok (flushed, file))
    (hsize : s.blockSize.toNat + minipageAlign ≤ 2 ^ 32) (hfew : flushed.blocks.length < 2 ^ 32)
    (loadId : UInt64) :
    ∃ rows' t, Stored flushed rows' ∧ flushed.log rows' = s.log rows ∧
      flushed.pending = ∅ ∧ s.flushPending fmt = .ok flushed ∧
      loadFromSegment file loadId s.blockSize = .ok t ∧ Loaded loadId s.blockSize t rows' := by
  unfold persistToSegment at hpersist
  split at hpersist
  · cases hpersist
  · rename_i flushed' hflushed
    dsimp only at hpersist
    split at hpersist
    · cases hpersist
    · rename_i writer hwriter
      obtain ⟨rfl, rfl⟩ := Prod.mk.inj (Except.ok.inj hpersist)
      obtain ⟨rows', hstored, hlog, hconfig, hpending⟩ := h.flush hflushed hsize
      obtain ⟨happended, hwriterSize⟩ := appendBlocks_spec
        (appended_create flushed'.segmentId 4096 flushed'.blockSize 0)
        (by rw [length_nil]; omega) hwriter
      rw [List.nil_append] at happended
      have hcount : writer.blockDir.entries.length < 2 ^ 32 := by
        rw [happended.entries, length_entriesOf]
        exact hfew
      obtain ⟨seg, hdr, hopen, hdir, hsegSize, hfile, hhdr⟩ := openFile_of_appended happended
        hfew.le 0 (BlockDirectory.fromBytes_toBytes hcount)
      have hblockSize : seg.blockSize = s.blockSize :=
        hsegSize.trans (hwriterSize.trans (blockSize_of_config hconfig))
      have hentries := happended.entries
      have hsizes := happended.sizes
      rw [← hdir, ← hsegSize] at hentries
      rw [← hsegSize] at hsizes
      have hnew : Loaded loadId seg.blockSize (new loadId seg.blockSize) [] :=
        ⟨rfl, ⟨rfl, rfl⟩, .nil, fun _ => rfl⟩
      have hnone : ([] : List PaxBlock).length = ([] : List (List (Bytes × Bytes))).length := rfl
      obtain ⟨t, ht, hloaded⟩ := loadBlocks_spec hnew hnone hstored.blocks hsizes
        fun i block hi => readBlockAlloc_of_appended hfile hhdr hsizes hentries hfew hi
      rw [List.nil_append, hblockSize] at hloaded
      refine ⟨rows', t, hstored, hlog, hpending, hflushed, ?_, hloaded⟩
      unfold loadFromSegment
      rw [hopen]
      dsimp only
      rw [hentries, ← hblockSize]
      exact ht

/-- A flushed store of blocks of the right size is written. -/
theorem persist_of_flush {flushed : KvStore} (hflush : s.flushPending fmt = .ok flushed)
    (hsizes : ∀ b ∈ flushed.blocks, b.buf.length = flushed.blockSize.toNat) :
    ∃ file, s.persistToSegment fmt = .ok (flushed, file) := by
  obtain ⟨writer, hwriter⟩ := appendBlocks_ok (w := SegmentWriter.create flushed.segmentId 4096 flushed.blockSize 0) hsizes
  refine ⟨(writer.sealSegment 0).file, ?_⟩
  rw [persistToSegment, hflush]
  dsimp only
  rw [hwriter]

/-- **A store that is persisted and loaded again returns the same value for every key**, as long as
it has fewer than `2 ^ 32` blocks. -/
theorem load_persist (segmentId loadId : UInt64) (blockSize : UInt32)
    (hsize : blockSize.toNat + minipageAlign ≤ 2 ^ 32) (calls : List Call) (s flushed : KvStore)
    (file : List UInt8)
    (hrun : Transition.run (call fmt) (new segmentId blockSize) calls = some s)
    (hpersist : s.persistToSegment fmt = .ok (flushed, file))
    (hfew : flushed.blocks.length < 2 ^ 32) :
    ∃ t, loadFromSegment file loadId blockSize = .ok t ∧ ∀ k, t.get k = s.get k ∧ flushed.get k = s.get k := by
  obtain ⟨rows, hstored, hblockSize⟩ := stored_calls hrun hsize
  obtain ⟨rows', t, hstored', hlog, hpending, hflushed, hload, hloaded⟩ :=
    loadFromSegment_spec hstored hpersist (by rw [hblockSize]; exact hsize) hfew loadId
  have hflush := hstored.get_flush hflushed hstored' hlog hfew.le
  refine ⟨t, by rw [← hblockSize]; exact hload, fun k => ⟨?_, hflush k⟩⟩
  have hlen : t.blocks.length ≤ 2 ^ 32 := by
    rw [hloaded.stored.length_blocks, ← hstored'.length_blocks]
    exact hfew.le
  rw [← hflush, hloaded.stored.get_eq hlen, hstored'.get_eq hfew.le,
    hloaded.stored.log_eq hloaded.pending.1, hstored'.log_eq hpending]

theorem load_persist_overwriteAndDelete : ∃ s flushed file t, Transition.run (call plainFormat) (new 1 512)
        (overwriteAndDelete.map Call.op) = some s ∧
      s.persistToSegment plainFormat = .ok (flushed, file) ∧
      loadFromSegment file 2 512 = .ok t ∧ t.get [1] = s.get [1] := by
  obtain ⟨b₁, b₂, b₃, b₄, hsizes, -, -, hstep⟩ := run_overwriteAndDelete
  have hrun := (run_map_op (new 1 512) overwriteAndDelete).trans hstep
  have hflush : flushPending plainFormat ⟨1, 512, [b₁, b₂, b₃, b₄],
      AList.insert [2] (3, 0) (AList.insert [1] (2, 0) (AList.insert [1] (0, 0) ∅)), ∅, [], 1024⟩ = .ok _ := rfl
  obtain ⟨file, hpersist⟩ := persist_of_flush hflush hsizes
  obtain ⟨t, hload, hget⟩ := load_persist 1 2 512 (by decide) _ _ _ file hrun hpersist
    (show 4 < 2 ^ 32 by decide)
  exact ⟨_, _, file, t, hrun, hpersist, hload, (hget [1]).1⟩

/-- **A store of `2 ^ 32` blocks is loaded as an empty one.** -/
theorem load_wraps : ∃ s flushed file t, Transition.run (call plainFormat) (new 1 512)
        ((List.replicate (2 ^ 32) (round ([0], [1]))).flatten.map Call.op) = some s ∧
      s.persistToSegment plainFormat = .ok (flushed, file) ∧
      loadFromSegment file 2 512 = .ok t ∧
      s.get [0] = .ok (some [1]) ∧ t.get [0] = .ok none := by
  obtain ⟨block, hblock⟩ := exists_build plainFormat 512 ([0], [1]) (by decide)
  have hvalue : block.varValue 2 (0 : UInt32).toNat = .ok (some [1]) := varValue_single hblock (by decide)
  have hbuf : block.buf.length = 512 := length_single hblock
  have hid : (UInt32.ofNat (2 ^ 32 - 1)).toNat < 2 ^ 32 - 1 + 1 := by decide
  have hwrap : UInt32.ofNat (2 ^ 32 - 1 + 1) = 0 := by decide
  have hpos : 2 ^ 32 = 2 ^ 32 - 1 + 1 := by decide
  have hmax : 2 ^ 32 - 1 + 1 ≤ 2 ^ 32 := by decide
  rw [hpos]
  generalize 2 ^ 32 - 1 = n at hid hwrap hmax ⊢
  have hrun := run_rounds hblock n
  generalize hs : (⟨1, 512, List.replicate (n + 1) block, AList.insert ([0], [1]).1
    (UInt32.ofNat n, 0) ∅, ∅, [], 1024⟩ : KvStore) = s at hrun
  have hblocks : s.blocks = List.replicate (n + 1) block := by rw [← hs]
  have hpending : s.pending = ∅ := by rw [← hs]
  have hindex : s.index.lookup [0] = some (UInt32.ofNat n, 0) := by
    rw [← hs]
    exact AList.lookup_insert _
  have hsizes : ∀ b ∈ s.blocks,
      b.buf.length = (SegmentWriter.create s.segmentId 4096 s.blockSize 0).blockSize.toNat := by
    intro b hb
    rw [hblocks] at hb
    rw [eq_of_mem_replicate hb, hbuf, ← hs]
    rfl
  obtain ⟨writer, hwriter⟩ := appendBlocks_ok hsizes
  obtain ⟨happended, -⟩ := appendBlocks_spec (appended_create s.segmentId 4096 s.blockSize 0)
    (by rw [length_nil, hblocks, length_replicate]; omega) hwriter
  rw [List.nil_append] at happended
  have hdir : BlockDirectory.fromBytes writer.blockDir.toBytes = .ok ⟨[]⟩ := by
    apply BlockDirectory.fromBytes_toBytes_wraps
    rw [happended.entries, length_entriesOf, hblocks, length_replicate, hwrap]
  obtain ⟨seg, hdr, hopen, hnone, -⟩ := openFile_of_appended happended
    (by rw [hblocks, length_replicate]; exact hmax) 0 hdir
  have hflush : s.flushPending plainFormat = .ok s := by
    unfold flushPending
    rw [if_pos (by rw [hpending]; rfl)]
  refine ⟨s, s, (writer.sealSegment 0).file, new 2 512, ?_, ?_, ?_, ?_, rfl⟩
  · rw [run_map_op]
    exact hrun
  · unfold persistToSegment
    rw [hflush]
    dsimp only
    rw [hwriter]
  · unfold loadFromSegment
    rw [hopen]
    dsimp only
    rw [hnone, loadBlocks]
  · have hread : s.blocks[(UInt32.ofNat n).toNat]? = some block := by
      rw [hblocks, getElem?_replicate, if_pos hid]
    rw [(get_of_pending_empty hpending [0]).1 _ hindex]
    exact readSlot_eq hread hvalue

/-! ### Restarts -/

/-- A call, or a restart: the store is persisted, and loaded again from the file. -/
inductive Event where
  | call (c : Call)
  | restart (loadId : UInt64)

def Event.writes : Event → List (Write Bytes Bytes)
  | .call c => c.writes
  | .restart _ => []

end KvStore

end CenDB.Projection
