import CenDB.Projection.KvRefinement

/-! # The rows of a store

`Stored s rows` says that the sealed blocks hold `rows`, block by block, and that the index has the
place of the last row of each key.  The log of a store is its rows, in order, and then its pending
entries: a `get` returns the last value of the log (`Stored.get_eq`), a flush keeps the log
(`Stored.flush`), a put of a new key appends to it (`Stored.put_new`).

Rows are placed by 32-bit numbers; everything but `Stored.get_eq` holds for any number of blocks. -/

namespace CenDB.Projection

open CenDB.Storage List Option Table

/-- A block that holds entries, one row each. -/
structure HoldsRows (block : PaxBlock) (es : List (Bytes × Bytes)) : Prop where
  header_fits : blockHeaderSize ≤ block.buf.length
  rowCount : block.header.rowCount.toNat = es.length
  read : ∀ (slot : ℕ) e, es[slot]? = some e →
    block.varValue 1 slot = .ok (some e.1) ∧ block.varValue 2 slot = .ok (some e.2)

variable {block : PaxBlock} {es : List (Bytes × Bytes)} {fmt : TextFormat}

theorem HoldsRows.length_lt (h : HoldsRows block es) : es.length < 2 ^ 32 := by
  rw [← h.rowCount]
  exact UInt32.toNat_lt _

/-- **A block built from entries holds them.** -/
theorem holdsRows_of_built {varheap : List UInt8} (hb : Built fmt kvSpecs (es.map KvStore.rowOf) block varheap) :
    HoldsRows block es := by
  have hfit := hb.slots_fit (i := 1) rfl rfl
  have hbuf := hb.length_buf
  have hvarheap := hb.varheapOff
  have hends := hb.varheap_fits
  rw [length_map] at hfit
  refine ⟨by rw [blockHeaderSize]; omega, ?_, fun slot e he => ?_⟩
  · rw [hb.rowCount, length_map, UInt32.toNat_ofNat', Nat.mod_eq_of_lt (by omega)]
  · have hrow : (es.map KvStore.rowOf)[slot]? = some (KvStore.rowOf e) := by simp [he]
    constructor
    · rw [hb.varValue_eq (i := 1) rfl rfl (getElem?_columnOf hrow)]
      rfl
    · rw [hb.varValue_eq (i := 2) rfl rfl (getElem?_columnOf hrow)]
      rfl

theorem holdsRows_of_build {blockSize : UInt32}
    (h : PaxBlockBuilder.build fmt blockSize kvSpecs (es.map KvStore.rowOf) = .ok block)
    (hsize : blockSize.toNat + minipageAlign ≤ 2 ^ 32) : HoldsRows block es := by
  obtain ⟨varheap, hb⟩ := build_spec h hsize
  exact holdsRows_of_built hb

namespace KvStore

variable {fmt : TextFormat} {s s' : KvStore} {rows : List (List (Bytes × Bytes))}

/-! ### Places -/

/-- The places of the rows of blocks. -/
def places (rows : List (List (Bytes × Bytes))) : List (Bytes × (UInt32 × UInt32)) :=
  (rows.mapIdx placesIn).flatten

theorem places_append (rows : List (List (Bytes × Bytes))) (es : List (Bytes × Bytes)) :
    places (rows ++ [es]) = places rows ++ placesIn rows.length es := by
  simp [places]

/-- The last row of a key in few blocks, by its place and by its value. -/
theorem lastOf_places (hfew : rows.length ≤ 2 ^ 32) (hrows : ∀ es ∈ rows, es.length < 2 ^ 32) (k : Bytes) :
    (Table.lastOf (places rows) k = none ∧ Table.lastOf rows.flatten k = none) ∨
      ∃ id slot es v, Table.lastOf (places rows) k = some (id, slot) ∧
        Table.lastOf rows.flatten k = some v ∧ rows[id.toNat]? = some es ∧
        es[slot.toNat]? = some (k, v) := Places.lastOf_all hfew hrows k

/-! ### What a store holds -/

/-- The blocks hold rows, and the index has the place of the last row of every key, unless the key
was deleted and is pending. -/
structure Stored (s : KvStore) (rows : List (List (Bytes × Bytes))) : Prop where
  blocks : List.Forall₂ HoldsRows s.blocks rows
  index : ∀ k, s.index.lookup k = Table.lastOf (places rows) k ∨
    (s.index.lookup k = none ∧ (s.pending.lookup k).isSome)
  nodup : s.pendingOrder.Nodup
  order : ∀ k, k ∈ s.pendingOrder ↔ (s.pending.lookup k).isSome

/-- The rows and then the pending entries. -/
def log (s : KvStore) (rows : List (List (Bytes × Bytes))) : List (Bytes × Bytes) := rows.flatten ++ s.ordered

theorem stored_new (segmentId : UInt64) (blockSize : UInt32) : Stored (new segmentId blockSize) [] where
  blocks := .nil
  index _ := Or.inl rfl
  nodup := nodup_nil
  order _ := by simp [new]

theorem Stored.keys_ordered (h : Stored s rows) : s.ordered.map Prod.fst = s.pendingOrder := by
  have hall : ∀ k ∈ s.pendingOrder, (((s.pending.lookup k).map fun v => (k, v)).map Prod.fst) = some k := by
    intro k hk
    obtain ⟨v, hv⟩ := isSome_iff_exists.mp ((h.order k).mp hk)
    rw [hv]
    rfl
  rw [ordered, map_filterMap, filterMap_congr hall, filterMap_some]

variable {k v key : Bytes} {es : List (Bytes × Bytes)}

theorem Stored.mem_ordered_iff (h : Stored s rows) : (k, v) ∈ s.ordered ↔ s.pending.lookup k = some v := by
  rw [mem_ordered, h.order]
  constructor
  · exact And.right
  · intro hv
    exact ⟨by rw [hv]; rfl, hv⟩

theorem Stored.lastOf_ordered (h : Stored s rows) (k : Bytes) :
    Table.lastOf s.ordered k = s.pending.lookup k := by
  apply Option.ext
  intro v
  have hnodup : (s.ordered.map Prod.fst).Nodup := by
    rw [h.keys_ordered]
    exact h.nodup
  rw [lastOf_of_nodup hnodup, h.mem_ordered_iff]

theorem Stored.pendingOrder_eq_nil (h : Stored s rows) (hpending : s.pending = ∅) : s.pendingOrder = [] := by
  apply eq_nil_iff_forall_not_mem.mpr
  intro k
  rw [h.order, hpending]
  simp

/-- The log of a store without pending entries. -/
theorem Stored.log_eq (h : Stored s rows) (hpending : s.pending = ∅) : s.log rows = rows.flatten := by
  rw [log, ordered, h.pendingOrder_eq_nil hpending]
  exact append_nil _

theorem Stored.length_blocks (h : Stored s rows) : s.blocks.length = rows.length := h.blocks.length_eq

theorem Stored.length_row (h : Stored s rows) : ∀ es ∈ rows, es.length < 2 ^ 32 := by
  intro es hes
  obtain ⟨i, hi, rfl⟩ := mem_iff_getElem.mp hes
  exact (h.blocks.get (by rw [h.length_blocks]; exact hi) hi).length_lt

/-- **A `get` returns the last value of the log.** -/
theorem Stored.get_eq (h : Stored s rows) (hfew : s.blocks.length ≤ 2 ^ 32) (k : Bytes) :
    s.get k = .ok ((Table.lastOf (s.log rows) k).bind visible) := by
  rw [log, lastOf_append, h.lastOf_ordered]
  cases hpending : s.pending.lookup k with
  | some v => rw [get_pending hpending]; rfl
  | none =>
    have hindex : s.index.lookup k = Table.lastOf (places rows) k := by
      cases h.index k with
      | inl heq => exact heq
      | inr hdeleted =>
        rw [hpending] at hdeleted
        cases hdeleted.2
    rw [get, hpending, hindex, none_or]
    dsimp only
    have hfew' : rows.length ≤ 2 ^ 32 := by
      rw [← h.length_blocks]
      exact hfew
    cases lastOf_places hfew' h.length_row k with
    | inl hnone => rw [hnone.1, hnone.2]; rfl
    | inr hsome =>
      obtain ⟨id, slot, es, v, hplace, hvalue, hes, hslot⟩ := hsome
      obtain ⟨hlt, hes'⟩ := List.getElem?_eq_some_iff.mp hes
      have hlt' : id.toNat < s.blocks.length := by
        rw [h.length_blocks]
        exact hlt
      have hblock : s.blocks[id.toNat]? = some s.blocks[id.toNat] := getElem?_eq_getElem _
      have hholds := h.blocks.get hlt' hlt
      rw [get_eq_getElem, get_eq_getElem] at hholds
      have hread := (hholds.read slot.toNat (k, v) (by rw [hes']; exact hslot)).2
      rw [hplace, hvalue]
      dsimp only
      rw [readSlot, hblock]
      dsimp only
      rw [hread]

/-- One entry for every key, and no tombstone. -/
structure Tidy (es : List (Bytes × Bytes)) : Prop where
  nodup : (es.map Prod.fst).Nodup
  value : ∀ e ∈ es, e.2 ≠ []

theorem visible_eq_some {w : Bytes} : visible v = some w ↔ v = w ∧ w ≠ [] := by
  cases v with
  | nil => simp [visible, eq_comm]
  | cons b bs =>
    rw [visible, isEmpty_cons, if_neg Bool.false_ne_true, Option.some.injEq]
    exact ⟨fun h => ⟨h, h ▸ cons_ne_nil b bs⟩, And.left⟩

/-- The entries of a tidy log are what a `get` finds. -/
theorem Stored.mem_log_iff (h : Stored s rows) (hfew : s.blocks.length ≤ 2 ^ 32) (htidy : Tidy (s.log rows)) :
    (k, v) ∈ s.log rows ↔ s.get k = .ok (some v) := by
  rw [h.get_eq hfew, Except.ok.injEq, bind_eq_some_iff]
  constructor
  · intro hmem
    exact ⟨v, (lastOf_of_nodup htidy.nodup).mpr hmem, visible_eq_some.mpr ⟨rfl, htidy.value _ hmem⟩⟩
  · rintro ⟨w, hw, hvisible⟩
    rw [← (visible_eq_some.mp hvisible).1]
    exact mem_of_lastOf hw

/-! ### What the calls do to the rows -/

/-- What no call changes. -/
def config (s : KvStore) : UInt64 × UInt32 × ℕ := (s.segmentId, s.blockSize, s.pendingCapacity)

theorem blockSize_of_config (h : s'.config = s.config) : s'.blockSize = s.blockSize :=
  congrArg (fun c => c.2.1) h

/-- Sealing entries adds blocks that hold them; the index gets the places of their rows. -/
structure Extends (es : List (Bytes × Bytes)) (rows : List (List (Bytes × Bytes)))
    (s : KvStore) (rows' : List (List (Bytes × Bytes))) (s' : KvStore) : Prop where
  config : s'.config = s.config
  pending : s'.pending = s.pending ∧ s'.pendingOrder = s.pendingOrder
  flatten : rows'.flatten = rows.flatten ++ es
  blocks : List.Forall₂ HoldsRows s.blocks rows → List.Forall₂ HoldsRows s'.blocks rows'
  index : ∀ k, (k ∈ es.map Prod.fst ∧ s'.index.lookup k = Table.lastOf (places rows') k) ∨
    (k ∉ es.map Prod.fst ∧ s'.index.lookup k = s.index.lookup k ∧
      Table.lastOf (places rows') k = Table.lastOf (places rows) k)

theorem Extends.refl (rows : List (List (Bytes × Bytes))) (s : KvStore) : Extends [] rows s rows s :=
  ⟨rfl, ⟨rfl, rfl⟩, by simp, id, fun _ => Or.inr ⟨by simp, rfl, rfl⟩⟩

theorem Extends.trans {us : List (Bytes × Bytes)} {rows₁ rows' : List (List (Bytes × Bytes))} {s₁ : KvStore}
    (h : Extends es rows s rows₁ s₁) (h' : Extends us rows₁ s₁ rows' s') :
    Extends (es ++ us) rows s rows' s' := by
  obtain ⟨hconfig, ⟨hpending, horder⟩, hflatten, hblocks, hindex⟩ := h
  obtain ⟨hconfig', ⟨hpending', horder'⟩, hflatten', hblocks', hindex'⟩ := h'
  refine ⟨hconfig'.trans hconfig, ⟨hpending'.trans hpending, horder'.trans horder⟩, ?_,
    hblocks' ∘ hblocks, fun k => ?_⟩
  · simp [hflatten', hflatten]
  · rw [map_append, mem_append]
    obtain ⟨hmem, hlast⟩ | ⟨hother, hsame, hplaces⟩ := hindex' k
    · exact Or.inl ⟨Or.inr hmem, hlast⟩
    · rw [hsame, hplaces]
      obtain ⟨hmem, hlast⟩ | ⟨hother', hsame', hplaces'⟩ := hindex k
      · exact Or.inl ⟨Or.inl hmem, hlast⟩
      · refine Or.inr ⟨?_, hsame', hplaces'⟩
        rw [not_or]
        exact ⟨hother', hother⟩

theorem extends_sealChunk {chunk : List (Bytes × Bytes)} (h : sealChunk fmt s chunk = .ok s')
    (hlen : s.blocks.length = rows.length) (hsize : s.blockSize.toNat + minipageAlign ≤ 2 ^ 32) :
    Extends chunk rows s (rows ++ [chunk]) s' := by
  obtain ⟨block, hbuild, rfl⟩ := sealChunk_eq h
  refine ⟨rfl, ⟨rfl, rfl⟩, by simp, fun hrows => ?_, fun k => ?_⟩
  · exact rel_append hrows (.cons (holdsRows_of_build hbuild hsize) .nil)
  · dsimp only
    rw [lookup_foldl_insert, places_append, lastOf_append, hlen]
    cases hlast : Table.lastOf (placesIn rows.length chunk) k with
    | some place =>
      refine Or.inl ⟨?_, rfl⟩
      rw [← keys_placesIn rows.length]
      exact mem_map_of_mem (mem_of_lastOf hlast)
    | none =>
      rw [lastOf_eq_none, keys_placesIn] at hlast
      exact Or.inr ⟨hlast, rfl, rfl⟩

theorem extends_sealChunks {usable : ℕ} (h : sealChunks fmt usable s es = .ok s')
    (hlen : s.blocks.length = rows.length) (hsize : s.blockSize.toNat + minipageAlign ≤ 2 ^ 32) :
    ∃ rows', Extends es rows s rows' s' := by
  induction hn : es.length using Nat.strongRecOn generalizing es s rows with
  | ind n ih =>
    cases es with
    | nil =>
      rw [sealChunks] at h
      rw [Except.ok.inj h]
      exact ⟨rows, Extends.refl rows s'⟩
    | cons e es =>
      rw [sealChunks] at h
      split at h
      · cases h
      · rename_i mid hmid
        have hsplit := takeChunk_append usable (rowBytes e) es
        have hlength := congrArg List.length hsplit
        rw [length_append] at hlength
        rw [length_cons] at hn
        have hfirst := extends_sealChunk hmid hlen hsize
        have hlen' : mid.blocks.length = (rows ++ [e :: (takeChunk usable (rowBytes e) es).1]).length := by
          rw [blocks_sealChunk hmid, hlen, length_append, length_singleton]
        obtain ⟨rows', hrest⟩ := ih _ (by omega) h hlen'
          (by rw [blockSize_of_config hfirst.config]; exact hsize) rfl
        have hall := hfirst.trans hrest
        rw [cons_append, hsplit] at hall
        exact ⟨rows', hall⟩

/-- **A flush keeps the log**, and leaves nothing pending. -/
theorem Stored.flush (h : Stored s rows) (hflush : s.flushPending fmt = .ok s')
    (hsize : s.blockSize.toNat + minipageAlign ≤ 2 ^ 32) :
    ∃ rows', Stored s' rows' ∧ s'.log rows' = s.log rows ∧ s'.config = s.config ∧ s'.pending = ∅ := by
  unfold flushPending at hflush
  split at hflush
  · rename_i hempty
    rw [← Except.ok.inj hflush]
    exact ⟨rows, h, rfl, rfl, AList.ext (List.isEmpty_iff.mp hempty)⟩
  · dsimp only at hflush
    split at hflush
    · cases hflush
    · rename_i mid hmid
      obtain ⟨rows', hext⟩ := extends_sealChunks hmid h.length_blocks hsize
      rw [← Except.ok.inj hflush]
      refine ⟨rows', ⟨hext.blocks h.blocks, fun k => Or.inl ?_, nodup_nil, fun k => by simp⟩,
        ?_, hext.config, rfl⟩
      · obtain ⟨-, hlast⟩ | ⟨hother, hsame, hplaces⟩ := hext.index k
        · exact hlast
        · dsimp only
          rw [hsame, hplaces]
          cases h.index k with
          | inl heq => exact heq
          | inr hdeleted =>
            rw [h.keys_ordered, h.order] at hother
            exact absurd hdeleted.2 hother
      · rw [log, hext.flatten]
        exact append_nil _

theorem Stored.bufferPut (h : Stored s rows) (key value : Bytes) : Stored (s.bufferPut key value) rows := by
  have hlookup (k : Bytes) : (s.bufferPut key value).pending.lookup k =
      if k = key then some value else s.pending.lookup k := lookup_insert_if s.pending key k value
  refine ⟨h.blocks, fun k => ?_, ?_, fun k => ?_⟩
  · cases h.index k with
    | inl heq => exact Or.inl heq
    | inr hdeleted =>
      refine Or.inr ⟨hdeleted.1, ?_⟩
      rw [hlookup]
      split
      · rfl
      · exact hdeleted.2
  · show (if _ then _ else _ : List Bytes).Nodup
    split
    · exact h.nodup
    · rename_i hnew
      rw [nodup_append]
      refine ⟨h.nodup, nodup_singleton key, ?_⟩
      intro k hk k' hk' heq
      rw [mem_singleton.mp hk'] at heq
      rw [heq, h.order] at hk
      exact hnew hk
  · rw [hlookup]
    show k ∈ (if _ then _ else _ : List Bytes) ↔ _
    by_cases hkey : k = key
    · rw [if_pos hkey, hkey]
      split
      · rename_i hold
        exact ⟨fun _ => rfl, fun _ => (h.order key).mpr hold⟩
      · simp
    · rw [if_neg hkey, ← h.order k]
      split
      · rfl
      · simp [hkey]

/-- A pending write of a new key comes last. -/
theorem Stored.ordered_bufferPut (h : Stored s rows) (value : Bytes) (hnew : s.pending.lookup key = none) :
    (s.bufferPut key value).ordered = s.ordered ++ [(key, value)] := by
  have hmem : key ∉ s.pendingOrder := by
    rw [h.order, hnew]
    simp
  have hsame : ∀ k ∈ s.pendingOrder, ((s.bufferPut key value).pending.lookup k).map (fun v => (k, v)) =
        (s.pending.lookup k).map fun v => (k, v) := by
    intro k hk
    have hne : k ≠ key := fun heq => hmem (heq ▸ hk)
    rw [KvStore.bufferPut, AList.lookup_insert_ne hne]
  have horder : (s.bufferPut key value).pendingOrder = s.pendingOrder ++ [key] := by
    rw [KvStore.bufferPut, hnew]
    rfl
  have hlast : (s.bufferPut key value).pending.lookup key = some value := AList.lookup_insert s.pending
  rw [ordered, horder, filterMap_append, filterMap_congr hsame, ordered]
  simp [hlast]

theorem Stored.put {value : Bytes} (h : Stored s rows) (hput : s.put fmt key value = .ok s')
    (hsize : s.blockSize.toNat + minipageAlign ≤ 2 ^ 32) :
    ∃ rows', Stored s' rows' ∧ s'.log rows' = (s.bufferPut key value).log rows ∧ s'.config = s.config := by
  have hbuffer := h.bufferPut key value
  unfold KvStore.put at hput
  dsimp only at hput
  split at hput
  · obtain ⟨rows', hstored, hlog, hconfig, -⟩ := hbuffer.flush hput hsize
    exact ⟨rows', hstored, hlog, hconfig⟩
  · rw [← Except.ok.inj hput]
    exact ⟨rows, hbuffer, rfl, rfl⟩

/-- A key that is forgotten and then written. -/
theorem Stored.rewrite (h : Stored s rows) (key value : Bytes) :
    Stored ((s.forget key).bufferPut key value) rows := by
  have hlookup (k : Bytes) : ((s.forget key).bufferPut key value).pending.lookup k =
      if k = key then some value else s.pending.lookup k := by
    by_cases hkey : k = key
    · rw [if_pos hkey, hkey]
      exact AList.lookup_insert _
    · rw [if_neg hkey]
      exact (AList.lookup_insert_ne hkey).trans (AList.lookup_erase_ne hkey)
  have horder : ((s.forget key).bufferPut key value).pendingOrder =
      (s.pendingOrder.filter fun k => decide (k ≠ key)) ++ [key] := by
    have hforgotten : (s.forget key).pending.lookup key = none := AList.lookup_erase key s.pending
    rw [KvStore.bufferPut, hforgotten]
    show (s.forget key).pendingOrder ++ [key] = _
    rw [forget]
    dsimp only
    split
    · rfl
    · rename_i hnone
      rw [← h.order] at hnone
      have hall : (s.pendingOrder.filter fun k => decide (k ≠ key)) = s.pendingOrder :=
        filter_eq_self.mpr fun k hk => decide_eq_true fun heq => hnone (heq ▸ hk)
      rw [hall]
  refine ⟨h.blocks, fun k => ?_, ?_, fun k => ?_⟩
  · have hindex : ((s.forget key).bufferPut key value).index.lookup k =
        if k = key then none else s.index.lookup k := lookup_erase_if s.index key k
    rw [hlookup, hindex]
    by_cases hkey : k = key
    · simp [hkey]
    · rw [if_neg hkey, if_neg hkey]
      exact h.index k
  · rw [horder, nodup_append]
    refine ⟨h.nodup.filter _, nodup_singleton key, ?_⟩
    intro k hk k' hk' heq
    rw [mem_filter, heq, mem_singleton.mp hk'] at hk
    simp at hk
  · rw [hlookup, horder, mem_append, mem_filter, mem_singleton, h.order]
    by_cases hkey : k = key <;> simp [hkey]

/-- A key that is not there is forgotten. -/
theorem Stored.forget (h : Stored s rows) (hindex : s.index.lookup key = none)
    (hpending : s.pending.lookup key = none) :
    Stored (s.forget key) rows ∧ (s.forget key).log rows = s.log rows := by
  have hlookup (k : Bytes) : (s.forget key).pending.lookup k = s.pending.lookup k := by
    refine (lookup_erase_if s.pending key k).trans ?_
    split
    · rename_i hkey
      rw [hkey, hpending]
    · rfl
  have hindex' (k : Bytes) : (s.forget key).index.lookup k = s.index.lookup k := by
    refine (lookup_erase_if s.index key k).trans ?_
    split
    · rename_i hkey
      rw [hkey, hindex]
    · rfl
  have horder : (s.forget key).pendingOrder = s.pendingOrder := by
    rw [KvStore.forget, hpending]
    rfl
  refine ⟨⟨h.blocks, fun k => ?_, ?_, fun k => ?_⟩, ?_⟩
  · rw [hindex', hlookup]
    exact h.index k
  · rw [horder]
    exact h.nodup
  · rw [horder, hlookup]
    exact h.order k
  · rw [log, log, ordered, ordered, horder]
    simp only [hlookup]

/-- What a delete does: the key gets a tombstone if the key is indexed or pending. -/
theorem Stored.delete {existed : Bool} (h : Stored s rows) (hdelete : s.delete fmt key = .ok (s', existed))
    (hsize : s.blockSize.toNat + minipageAlign ≤ 2 ^ 32) :
    ∃ rows', Stored s' rows' ∧ s'.config = s.config ∧
      ((existed = true ∧ ((s.index.lookup key).isSome ∨ (s.pending.lookup key).isSome) ∧
          s'.log rows' = ((s.forget key).bufferPut key []).log rows) ∨
        (existed = false ∧ s.index.lookup key = none ∧ s.pending.lookup key = none ∧
          s'.log rows' = s.log rows)) := by
  unfold KvStore.delete at hdelete
  split at hdelete
  · rename_i hthere
    rw [Bool.or_eq_true] at hthere
    split at hdelete
    · cases hdelete
    · rename_i next hnext
      cases hdelete
      have hbuffer := h.rewrite key []
      unfold KvStore.put at hnext
      dsimp only at hnext
      split at hnext
      · obtain ⟨rows', hstored, hlog, hconfig, -⟩ := hbuffer.flush hnext hsize
        exact ⟨rows', hstored, hconfig, Or.inl ⟨rfl, hthere, hlog⟩⟩
      · rw [← Except.ok.inj hnext]
        exact ⟨rows, hbuffer, rfl, Or.inl ⟨rfl, hthere, rfl⟩⟩
  · rename_i hgone
    rw [Bool.or_eq_true, not_or, not_isSome_iff_eq_none, not_isSome_iff_eq_none] at hgone
    cases hdelete
    obtain ⟨hstored, hlog⟩ := h.forget hgone.1 hgone.2
    exact ⟨rows, hstored, rfl, Or.inr ⟨rfl, hgone.1, hgone.2, hlog⟩⟩

end KvStore

end CenDB.Projection
