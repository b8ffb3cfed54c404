import CenDB.Lib.LastWrite
import CenDB.Lib.Places
import CenDB.Lib.Transition
import CenDB.Storage.PaxRoundTrip
import CenDB.Storage.PaxSizes

/-! # Key-value store

A store holds the pending writes, the sealed blocks, and an index of the row of each sealed key; an
empty value is a tombstone.  A store is not used after a failed call.

`sealChunk_spec` says what sealing one block does, and `flushPending_spec` what a flush does: every
pending key is indexed at a row that holds its value, and all other keys keep theirs. -/

namespace CenDB.Projection

open CenDB.Storage List Table UInt32

abbrev Bytes := List UInt8

/-- FNV-1a. -/
def hashKey (key : Bytes) : Int64 :=
  (key.foldl (fun (hash : UInt64) b => (hash ^^^ b.toUInt64) * 0x100000001b3) 0xcbf29ce484222325).toInt64

/-- Hash of the key, key, value. -/
def kvSpecs : List ColumnSpec := [(ColumnSpec.new 0 .i64).pk, .new 1 .bytes, .new 2 .bytes]

structure KvStore where
  segmentId : UInt64
  blockSize : UInt32
  blocks : List PaxBlock
  index : Table Bytes (UInt32 × UInt32)
  pending : Table Bytes Bytes
  pendingOrder : List Bytes
  pendingCapacity : ℕ

namespace KvStore

def new (segmentId : UInt64) (blockSize : UInt32) : KvStore := ⟨segmentId, blockSize, [], ∅, ∅, [], 1024⟩

/-! ### Flushing -/

/-- The row of an entry. -/
def rowOf (e : Bytes × Bytes) : List Value := [.i64 (hashKey e.1), .bytes e.1, .bytes e.2]

/-- Append entries to a block; the row of each key. -/
def appendEntries (fmt : TextFormat) (b : PaxBlockBuilder) :
    List (Bytes × Bytes) → Except Halt (PaxBlockBuilder × List (Bytes × UInt32))
  | [] => .ok (b, [])
  | e :: es =>
    match b.appendRow fmt (rowOf e) with
    | .error err => .error err
    | .ok next =>
      match appendEntries fmt next es with
      | .error err => .error err
      | .ok (last, ids) => .ok (last, (e.1, b.rowCount) :: ids)

/-- Seal a block of entries and index them. -/
def sealChunk (fmt : TextFormat) (s : KvStore) (chunk : List (Bytes × Bytes)) : Except Halt KvStore :=
  match PaxBlockBuilder.new s.blockSize kvSpecs with
  | .error err => .error err
  | .ok b =>
    match appendEntries fmt b chunk with
    | .error err => .error err
    | .ok (b, ids) =>
      match b.finalize with
      | .error err => .error err
      | .ok block =>
        let blockId := UInt32.ofNat s.blocks.length
        .ok { s with
          index := ids.foldl (fun index e => AList.insert e.1 (blockId, e.2) index) s.index
          blocks := s.blocks ++ [block] }

/-- The space that an entry is taken to need. -/
def rowBytes (e : Bytes × Bytes) : ℕ := 8 + 8 + e.1.length + 8 + e.2.length + 16

/-- The entries that still fit a block, and the rest. -/
def takeChunk (usable : ℕ) : ℕ → List (Bytes × Bytes) → List (Bytes × Bytes) × List (Bytes × Bytes)
  | _, [] => ([], [])
  | chunkBytes, e :: es =>
    if usable < chunkBytes + rowBytes e then ([], e :: es)
    else
      let (chunk, rest) := takeChunk usable (chunkBytes + rowBytes e) es
      (e :: chunk, rest)

theorem takeChunk_append (usable chunkBytes : ℕ) (es : List (Bytes × Bytes)) :
    (takeChunk usable chunkBytes es).1 ++ (takeChunk usable chunkBytes es).2 = es := by
  induction es generalizing chunkBytes with
  | nil => rfl
  | cons e es ih =>
    rw [takeChunk]
    split
    · rfl
    · exact congrArg (e :: ·) (ih _)

/-- Seal blocks until no entry is left; a block takes its first entry in any case. -/
def sealChunks (fmt : TextFormat) (usable : ℕ) (s : KvStore) : List (Bytes × Bytes) → Except Halt KvStore
  | [] => .ok s
  | e :: es =>
    match sealChunk fmt s (e :: (takeChunk usable (rowBytes e) es).1) with
    | .error err => .error err
    | .ok s => sealChunks fmt usable s (takeChunk usable (rowBytes e) es).2
  termination_by es => es.length
  decreasing_by
    have hlen := congrArg List.length (takeChunk_append usable (rowBytes e) es)
    rw [List.length_append] at hlen
    rw [length_cons]
    omega

/-- The pending entries, in the order of their keys. -/
def ordered (s : KvStore) : List (Bytes × Bytes) :=
  s.pendingOrder.filterMap fun k => (s.pending.lookup k).map fun v => (k, v)

def flushPending (fmt : TextFormat) (s : KvStore) : Except Halt KvStore :=
  if s.pending.entries.isEmpty then .ok s
  else
    let blockOverhead := 64 + 3 * 64 + 256
    let usable := s.blockSize.toNat - blockOverhead
    match sealChunks fmt usable s s.ordered with
    | .error err => .error err
    | .ok s => .ok { s with pending := ∅, pendingOrder := [] }

/-! ### Calls -/

/-- The first half of `put`: the write becomes pending. -/
def bufferPut (s : KvStore) (key value : Bytes) : KvStore :=
  { s with
    pendingOrder :=
      if (s.pending.lookup key).isSome then s.pendingOrder else s.pendingOrder ++ [key]
    pending := AList.insert key value s.pending }

def put (fmt : TextFormat) (s : KvStore) (key value : Bytes) : Except Halt KvStore :=
  let s := s.bufferPut key value
  if s.pendingCapacity ≤ Table.size s.pending then s.flushPending fmt else .ok s

/-- An empty value is a tombstone. -/
def visible (v : Bytes) : Option Bytes := if v.isEmpty then none else some v

/-- The value of an indexed row. -/
def readSlot (s : KvStore) (blockId slot : UInt32) : Except Halt (Option Bytes) :=
  match s.blocks[blockId.toNat]? with
  | none => .error .panic
  | some block =>
    match block.varValue 2 slot.toNat with
    | .error err => .error err
    | .ok value => .ok (value.bind visible)

def get (s : KvStore) (key : Bytes) : Except Halt (Option Bytes) :=
  match s.pending.lookup key with
  | some v => .ok (visible v)
  | none =>
    match s.index.lookup key with
    | some (blockId, slot) => s.readSlot blockId slot
    | none => .ok none

/-- The first half of `delete`: the key is forgotten. -/
def forget (s : KvStore) (key : Bytes) : KvStore :=
  { s with
    index := AList.erase key s.index
    pending := AList.erase key s.pending
    pendingOrder :=
      if (s.pending.lookup key).isSome then s.pendingOrder.filter fun k => decide (k ≠ key)
      else s.pendingOrder }

/-- Delete a key; a tombstone takes its place if there was one. -/
def delete (fmt : TextFormat) (s : KvStore) (key : Bytes) : Except Halt (KvStore × Bool) :=
  if (s.index.lookup key).isSome || (s.pending.lookup key).isSome then
    match (s.forget key).put fmt key [] with
    | .error err => .error err
    | .ok s => .ok (s, true)
  else .ok (s.forget key, false)

/-! ### What sealing does -/

variable {fmt : TextFormat}

variable {es chunk : List (Bytes × Bytes)} {k : Bytes} {s s' : KvStore}

/-- The builder gets one row for each entry, and its number is the entry's id. -/
theorem appendEntries_spec {b b' : PaxBlockBuilder} {ids : List (Bytes × UInt32)}
    (h : appendEntries fmt b es = .ok (b', ids)) :
    b.appendRows fmt (es.map rowOf) = .ok b' ∧
      ids = es.mapIdx fun r e => (e.1, b.rowCount + UInt32.ofNat r) := by
  induction es generalizing b ids with
  | nil =>
    rw [appendEntries, Except.ok.injEq, Prod.mk.injEq] at h
    rw [← h.1, ← h.2]
    exact ⟨rfl, rfl⟩
  | cons e es ih =>
    rw [appendEntries] at h
    split at h
    · cases h
    · rename_i next hnext
      split at h
      · cases h
      · rename_i last rest hrest
        rw [Except.ok.injEq, Prod.mk.injEq] at h
        obtain ⟨rfl, rfl⟩ := h
        obtain ⟨hrows, rfl⟩ := ih hrest
        obtain ⟨-, -, -, hcount, -⟩ := PaxBlockBuilder.appendRow_spec hnext
        refine ⟨?_, ?_⟩
        · rw [map_cons, PaxBlockBuilder.appendRows, hnext]
          exact hrows
        · have hshift (r : ℕ) : b.rowCount + 1 + UInt32.ofNat r = b.rowCount + UInt32.ofNat (r + 1) := by
            simp [UInt32.add_assoc, UInt32.add_comm]
          simp [hcount, mapIdx_cons, hshift]

/-- The value of an entry is read from its row. -/
theorem varValue_of_build {blockSize : UInt32} {block : PaxBlock}
    (h : PaxBlockBuilder.build fmt blockSize kvSpecs (es.map rowOf) = .ok block)
    (hsize : blockSize.toNat + minipageAlign ≤ 2 ^ 32) {r : ℕ} {v : Bytes} (hr : es[r]? = some (k, v)) :
    block.varValue 2 (UInt32.ofNat r).toNat = .ok (some v) := by
  obtain ⟨varheap, hb⟩ := build_spec h hsize
  have hfit := hb.slots_fit (i := 2) rfl rfl
  have hbuf := hb.length_buf
  obtain ⟨hlt, -⟩ := List.getElem?_eq_some_iff.mp hr
  rw [length_map] at hfit
  have hrow : (es.map rowOf)[r]? = some (rowOf (k, v)) := by simp [hr]
  rw [toNat_ofNat', Nat.mod_eq_of_lt (by omega),
    hb.varValue_eq (i := 2) rfl rfl (getElem?_columnOf hrow)]
  rfl

/-- An index leads a key to a value in the blocks. -/
def Leads (s : KvStore) (k v : Bytes) : Prop :=
  ∃ id slot block, s.index.lookup k = some (id, slot) ∧ s.blocks[id.toNat]? = some block ∧
    block.varValue 2 slot.toNat = .ok (some v)

/-- What sealing entries does to a store: new blocks, and every key of the entries leads to one of
its values. -/
structure Sealed (es : List (Bytes × Bytes)) (s s' : KvStore) : Prop where
  blockSize : s'.blockSize = s.blockSize
  pending : s'.pending = s.pending
  pendingOrder : s'.pendingOrder = s.pendingOrder
  pendingCapacity : s'.pendingCapacity = s.pendingCapacity
  blocks : s.blocks <+: s'.blocks
  others : ∀ k, (∀ e ∈ es, e.1 ≠ k) → s'.index.lookup k = s.index.lookup k
  keys : ∀ e ∈ es, ∃ v, (e.1, v) ∈ es ∧ Leads s' e.1 v

/-- The places of the entries of a block. -/
def placesIn (blockId : ℕ) (es : List (Bytes × Bytes)) : List (Bytes × (UInt32 × UInt32)) :=
  es.mapIdx fun slot e => (e.1, (UInt32.ofNat blockId, UInt32.ofNat slot))

theorem mem_placesIn {blockId : ℕ} {place : UInt32 × UInt32} :
    (k, place) ∈ placesIn blockId es ↔ ∃ (slot : ℕ) (v : Bytes), es[slot]? = some (k, v) ∧
        place = (UInt32.ofNat blockId, UInt32.ofNat slot) := by
  rw [placesIn, mem_mapIdx]
  constructor
  · rintro ⟨slot, hslot, heq⟩
    cases heq
    exact ⟨slot, es[slot].2, getElem?_eq_getElem hslot, rfl⟩
  · rintro ⟨slot, v, hslot, rfl⟩
    obtain ⟨hlt, he⟩ := List.getElem?_eq_some_iff.mp hslot
    exact ⟨slot, hlt, by rw [he]⟩

theorem keys_placesIn (blockId : ℕ) (es : List (Bytes × Bytes)) :
    (placesIn blockId es).map Prod.fst = es.map Prod.fst := Places.keys_inBlock blockId es

/-- Sealing one block builds it and indexes its entries. -/
theorem sealChunk_eq (h : sealChunk fmt s chunk = .ok s') :
    ∃ block, PaxBlockBuilder.build fmt s.blockSize kvSpecs (chunk.map rowOf) = .ok block ∧ s' = { s with
        index := (placesIn s.blocks.length chunk).foldl (fun t e => AList.insert e.1 e.2 t) s.index
        blocks := s.blocks ++ [block] } := by
  unfold sealChunk at h
  split at h
  · cases h
  · rename_i start hstart
    split at h
    · cases h
    · rename_i b ids hentries
      split at h
      · cases h
      · rename_i block hblock
        obtain ⟨hrows, rfl⟩ := appendEntries_spec hentries
        have hcount : start.rowCount = 0 := by
          unfold PaxBlockBuilder.new at hstart
          split_ifs at hstart
          rw [← Except.ok.inj hstart]
        refine ⟨block, ?_, ?_⟩
        · unfold PaxBlockBuilder.build
          rw [hstart]
          dsimp only
          rw [hrows]
          exact hblock
        · have hplaces : placesIn s.blocks.length chunk =
              (chunk.mapIdx fun r e => (e.1, start.rowCount + UInt32.ofNat r)).map fun e =>
                (e.1, (UInt32.ofNat s.blocks.length, e.2)) := by
            apply ext_getElem?
            intro r
            simp [placesIn, hcount, Function.comp_def]
          rw [← Except.ok.inj h, hplaces, foldl_map]

/-- **Sealing one block.** -/
theorem sealChunk_spec (h : sealChunk fmt s chunk = .ok s') (hsize : s.blockSize.toNat + minipageAlign ≤ 2 ^ 32)
    (hfew : s'.blocks.length ≤ 2 ^ 32) : Sealed chunk s s' := by
  obtain ⟨block, hbuild, rfl⟩ := sealChunk_eq h
  have hlen : s.blocks.length < 2 ^ 32 := by
    rw [List.length_append, length_singleton] at hfew
    omega
  have hid : (UInt32.ofNat s.blocks.length).toNat = s.blocks.length := by
    rw [toNat_ofNat', Nat.mod_eq_of_lt hlen]
  have hlookup := lookup_foldl_insert (placesIn s.blocks.length chunk) s.index
  refine ⟨rfl, rfl, rfl, rfl, prefix_append _ _, ?_, ?_⟩
  · intro k hother
    have hnone : Table.lastOf (placesIn s.blocks.length chunk) k = none := by
      rw [lastOf_eq_none, keys_placesIn, List.mem_map]
      rintro ⟨e, he, hk⟩
      exact hother e he hk
    rw [hlookup, hnone, Option.none_or]
  · rintro ⟨k, v⟩ he
    cases hlast : Table.lastOf (placesIn s.blocks.length chunk) k with
    | none =>
      rw [lastOf_eq_none, keys_placesIn] at hlast
      exact absurd (mem_map_of_mem he) hlast
    | some place =>
      obtain ⟨slot, w, hslot, rfl⟩ := mem_placesIn.mp (mem_of_lastOf hlast)
      refine ⟨w, mem_of_getElem? hslot, UInt32.ofNat s.blocks.length, UInt32.ofNat slot, block, ?_, ?_, ?_⟩
      · simp [hlookup, hlast]
      · simp [hid]
      · exact varValue_of_build hbuild hsize hslot

/-! ### The builder of a chunk -/

/-- A block of one entry: the header and the directory, three minipages of 8 bytes that start at
multiples of 64, the key and the value, and the bitmaps of one row. -/
def FitsBlock (blockSize : UInt32) (e : Bytes × Bytes) : Prop := 396 + e.1.length + e.2.length ≤ blockSize.toNat

instance (blockSize : UInt32) (e : Bytes × Bytes) : Decidable (FitsBlock blockSize e) := Nat.decLe _ _

/-- A builder that holds entries. -/
structure Staged (b : PaxBlockBuilder) (blockSize : UInt32) (es : List (Bytes × Bytes)) : Prop where
  specs : b.specs = kvSpecs
  blockSize : b.blockSize = blockSize
  rowCount : b.rowCount = UInt32.ofNat es.length
  staging : ∃ keys values, b.staging =
      [.fixed .i64 (es.map fun e => hashKey e.1), .var keys (es.flatMap Prod.fst),
        .var values (es.flatMap Prod.snd)] ∧
    keys.length = es.length ∧ values.length = es.length

variable {b : PaxBlockBuilder} {blockSize : UInt32}

theorem staged_new (blockSize : UInt32) :
    ∃ b, PaxBlockBuilder.new blockSize kvSpecs = .ok b ∧ Staged b blockSize [] :=
  ⟨_, rfl, rfl, rfl, rfl, [], [], rfl, rfl, rfl⟩

theorem Staged.appendRow (h : Staged b blockSize es) (fmt : TextFormat) (e : Bytes × Bytes) :
    ∃ b', b.appendRow fmt (rowOf e) = .ok b' ∧ Staged b' blockSize (es ++ [e]) := by
  obtain ⟨hspecs, hsize, hcount, keys, values, hstaging, hkeys, hvalues⟩ := h
  obtain ⟨size, specs, staging, rowCount, pkRange, tsRange⟩ := b
  dsimp only at hspecs hsize hcount hstaging
  subst hspecs hsize hcount hstaging
  have hrow : PaxBlockBuilder.appendRow fmt ⟨size, kvSpecs,
        [.fixed .i64 (es.map fun e => hashKey e.1), .var keys (es.flatMap Prod.fst),
          .var values (es.flatMap Prod.snd)], UInt32.ofNat es.length, pkRange, tsRange⟩ (rowOf e) =
      .ok ⟨size, kvSpecs, [.fixed .i64 ((es.map fun e => hashKey e.1) ++ [hashKey e.1]),
        pushBytes keys (es.flatMap Prod.fst) e.1, pushBytes values (es.flatMap Prod.snd) e.2],
        UInt32.ofNat es.length + 1, extendRange pkRange (hashKey e.1), tsRange⟩ := rfl
  refine ⟨_, hrow, rfl, rfl, ?_, keys ++ [(UInt32.ofNat (es.flatMap Prod.fst).length, UInt32.ofNat e.1.length)],
    values ++ [(UInt32.ofNat (es.flatMap Prod.snd).length, UInt32.ofNat e.2.length)], ?_, ?_, ?_⟩
  · simp
  · rw [map_append, flatMap_append, flatMap_append, flatMap_singleton, flatMap_singleton]
    rfl
  · simp [hkeys]
  · simp [hvalues]

theorem Staged.appendEntries (h : Staged b blockSize es) (fmt : TextFormat) (us : List (Bytes × Bytes)) :
    ∃ b' ids, appendEntries fmt b us = .ok (b', ids) ∧ Staged b' blockSize (es ++ us) := by
  induction us generalizing b es with
  | nil => exact ⟨b, [], rfl, by rwa [append_nil]⟩
  | cons e us ih =>
    obtain ⟨next, hnext, hstaged⟩ := h.appendRow fmt e
    obtain ⟨b', ids, hrest, hstaged'⟩ := ih hstaged
    rw [append_assoc] at hstaged'
    refine ⟨b', (e.1, b.rowCount) :: ids, ?_, hstaged'⟩
    rw [KvStore.appendEntries, hnext]
    dsimp only
    rw [hrest]

/-- A chunk is sealed if and only if its builder makes a block. -/
theorem sealChunk_isOk_iff (fmt : TextFormat) (s : KvStore) (chunk : List (Bytes × Bytes)) :
    ∃ b, Staged b s.blockSize chunk ∧
      ((∃ s', sealChunk fmt s chunk = .ok s') ↔ ∃ block, b.finalize = .ok block) := by
  obtain ⟨start, hstart, hempty⟩ := staged_new s.blockSize
  obtain ⟨b, ids, hentries, hstaged⟩ := hempty.appendEntries fmt chunk
  refine ⟨b, hstaged, ?_⟩
  unfold sealChunk
  rw [hstart]
  dsimp only
  rw [hentries]
  dsimp only
  cases b.finalize with
  | error err => exact iff_of_false (by simp) (by simp)
  | ok block => exact iff_of_true ⟨_, rfl⟩ ⟨block, rfl⟩

/-! ### The space of a chunk -/

/-- A column of hashes is encoded; a single hash takes 8 bytes. -/
theorem encodeColumn_keys (ws : List Int64) : ∃ page zoneMin zoneMax enc,
      encodeColumn (ColumnSpec.new 0 .i64).pk (.fixed .i64 ws) = .ok (page, zoneMin, zoneMax, enc) ∧
      page.length ≤ 16 * ws.length + 16 ∧ (ws.length = 1 → page.length = 8) := by
  obtain ⟨page, hpage, -⟩ := decodeMinipage_autoSelect ws
  have hone (h : ws.length = 1) : page.length = 8 := by
    obtain ⟨w, rfl⟩ := length_eq_one_iff.mp h
    have hraw : encodeMinipage (autoSelectEncodingI64 [w]) [w] = .ok (leI64 w ++ []) := rfl
    rw [← Except.ok.inj (hraw.symm.trans hpage), append_nil, length_leI64]
  unfold encodeColumn
  dsimp only
  rw [if_pos ⟨rfl, Or.inl rfl⟩, hpage]
  cases ws with
  | nil | cons w ws => exact ⟨page, _, _, _, rfl, length_encodeMinipage_le hpage, hone⟩

/-- Where the minipages of `n` rows end, after a first one of some bytes. -/
def minipagesEnd (page n : ℕ) : ℕ := alignUp (alignUp (256 + page) minipageAlign + 8 * n) minipageAlign + 8 * n

/-- The minipages and the heap of a staged chunk. -/
theorem Staged.layout (h : Staged b blockSize es) :
    ∃ page laid, page ≤ 16 * es.length + 16 ∧ (es.length = 1 → page = 8) ∧
      layoutColumns b.rowCount (64 + b.specs.length * 64) (b.specs.zip b.staging) =
        .ok (laid, minipagesEnd page es.length) ∧
      (mergeHeaps [] (b.specs.zip b.staging) (laid.map Prod.snd)).2 =
        es.flatMap Prod.fst ++ es.flatMap Prod.snd := by
  obtain ⟨hspecs, -, -, keys, values, hstaging, hkeys, hvalues⟩ := h
  obtain ⟨page, zoneMin, zoneMax, enc, henc, hlen, hone⟩ := encodeColumn_keys (es.map fun e => hashKey e.1)
  rw [length_map] at hlen hone
  have hslots (slots : List (UInt32 × UInt32)) : (slots.flatMap slotBytes).length = 8 * slots.length := by
    rw [Words.length_flatMap fun slot _ => length_slotBytes slot, Nat.mul_comm]
  have hstart : alignUp (64 + kvSpecs.length * 64) minipageAlign = 256 := by decide
  obtain ⟨laid, hlaid⟩ : ∃ laid, layoutColumns b.rowCount (64 + kvSpecs.length * 64) (kvSpecs.zip
      [.fixed .i64 (es.map fun e => hashKey e.1), .var keys (es.flatMap Prod.fst),
        .var values (es.flatMap Prod.snd)]) = .ok (laid, minipagesEnd page.length es.length) := by
    generalize 64 + kvSpecs.length * 64 = start at hstart
    simp only [kvSpecs, zip_cons_cons, zip_nil_right, layoutColumns, henc]
    simp only [encodeColumn, hslots, hkeys, hvalues, hstart, minipagesEnd]
    exact ⟨_, rfl⟩
  rw [hspecs, hstaging]
  refine ⟨page.length, laid, hlen, hone, hlaid, ?_⟩
  have hthree : laid.length = 3 := length_layoutColumns hlaid
  obtain ⟨d₀, d₁, d₂, rfl⟩ := length_eq_three.mp hthree
  rfl

theorem Staged.length_staging (h : Staged b blockSize es) : b.staging.length = b.specs.length := by
  obtain ⟨hspecs, -, -, keys, values, hstaging, -⟩ := h
  rw [hspecs, hstaging]
  rfl

theorem minipagesEnd_le (page n : ℕ) : minipagesEnd page n ≤ 382 + page + 16 * n := by
  have hfirst := alignUp_lt (256 + page) (show 0 < minipageAlign by decide)
  have hsecond := alignUp_lt (alignUp (256 + page) minipageAlign + 8 * n) (show 0 < minipageAlign by decide)
  have halign : minipageAlign = 64 := rfl
  unfold minipagesEnd
  omega

theorem sum_rowBytes (es : List (Bytes × Bytes)) : (es.map rowBytes).sum =
      40 * es.length + (es.flatMap Prod.fst ++ es.flatMap Prod.snd).length := by
  induction es with
  | nil => rfl
  | cons e es ih =>
    simp only [map_cons, sum_cons, length_cons, flatMap_cons, length_append] at ih ⊢
    unfold rowBytes at ih ⊢
    omega

/-- **One entry is sealed if and only if it fits a block.** -/
theorem sealChunk_single_isOk_iff (e : Bytes × Bytes) :
    (∃ s', sealChunk fmt s [e] = .ok s') ↔ FitsBlock s.blockSize e := by
  obtain ⟨b, hstaged, hseal⟩ := sealChunk_isOk_iff fmt s [e]
  obtain ⟨page, laid, -, hone, hlayout, hheap⟩ := hstaged.layout
  rw [hone rfl] at hlayout
  have hend : alignUp (minipagesEnd 8 1) 8 = 392 := by decide
  have hrow : (UInt32.ofNat [e].length).toNat = 1 := rfl
  have hcolumns : kvSpecs.length = 3 := rfl
  have hroom : minipagesEnd 8 1 + 8 ≤ 2 ^ 32 := by decide
  rw [hseal, finalize_isOk_iff hstaged.length_staging hlayout hroom, hheap, hstaged.specs,
    hstaged.rowCount, hstaged.blockSize, hrow, hcolumns, length_singleton, hend,
    length_append, flatMap_singleton, flatMap_singleton]
  unfold FitsBlock
  omega

/-- **Entries that `flush_pending` puts together are sealed.** -/
theorem sealChunk_isOk (fmt : TextFormat) {chunk : List (Bytes × Bytes)}
    (h : (chunk.map rowBytes).sum + 512 ≤ s.blockSize.toNat) :
    ∃ s', sealChunk fmt s chunk = .ok s' := by
  obtain ⟨b, hstaged, hseal⟩ := sealChunk_isOk_iff fmt s chunk
  obtain ⟨page, laid, hpage, -, hlayout, hheap⟩ := hstaged.layout
  have hsize := UInt32.toNat_lt s.blockSize
  have hend := minipagesEnd_le page chunk.length
  have halign := alignUp_lt (minipagesEnd page chunk.length) (show 0 < 8 by decide)
  have hcolumns : kvSpecs.length = 3 := rfl
  rw [sum_rowBytes] at h
  have hrows : (UInt32.ofNat chunk.length).toNat = chunk.length := by
    rw [UInt32.toNat_ofNat', Nat.mod_eq_of_lt (by omega)]
  apply hseal.mpr
  apply (finalize_isOk_iff hstaged.length_staging hlayout (by omega)).mpr
  rw [hheap, hstaged.specs, hstaged.rowCount, hstaged.blockSize, hrows, hcolumns]
  omega

theorem length_of_build (h : PaxBlockBuilder.build fmt blockSize kvSpecs (es.map rowOf) = .ok block) :
    block.buf.length = blockSize.toNat := by
  obtain ⟨start, hstart, hempty⟩ := staged_new blockSize
  obtain ⟨b, ids, hentries, hstaged⟩ := hempty.appendEntries fmt es
  unfold PaxBlockBuilder.build at h
  rw [hstart] at h
  dsimp only at h
  rw [(appendEntries_spec hentries).1] at h
  obtain ⟨laid, stop, minipages, varheap, hdr, hfin⟩ := finalize_cases h hstaged.length_staging
  rw [hfin.length_buf, hstaged.blockSize]

section
variable {e : Bytes × Bytes} (h : PaxBlockBuilder.build fmt blockSize kvSpecs [rowOf e] = .ok block)
include h

theorem length_single : block.buf.length = blockSize.toNat := by
  have hes : [rowOf e] = [e].map rowOf := rfl
  rw [hes] at h
  exact length_of_build h

theorem varValue_single (hsize : blockSize.toNat + minipageAlign ≤ 2 ^ 32) :
    block.varValue 2 (0 : UInt32).toNat = .ok (some e.2) := by
  have hes : [rowOf e] = [e].map rowOf := rfl
  rw [hes] at h
  exact varValue_of_build h hsize (r := 0) rfl

end

/-- An entry that fits a block is sealed in one. -/
theorem exists_build (fmt : TextFormat) (blockSize : UInt32) (e : Bytes × Bytes) (h : FitsBlock blockSize e) :
    ∃ block, PaxBlockBuilder.build fmt blockSize kvSpecs [rowOf e] = .ok block := by
  obtain ⟨s', hs'⟩ : ∃ s', (new 1 blockSize).sealChunk fmt [e] = .ok s' := (sealChunk_single_isOk_iff e).mpr h
  obtain ⟨block, hblock, -⟩ := sealChunk_eq hs'
  exact ⟨block, hblock⟩

end KvStore

end CenDB.Projection
