import CenDB.Projection.KvRows

/-! # Compaction

`compact` flushes a store, takes the visible value of every indexed key, clears the blocks and puts
these entries back in the order of their keys.

`compact_spec` says what the new blocks hold: one row for every key that a `get` of the flushed
store finds, and nothing else.  The entries put back are all there is to the new store
(`rebuild_spec`), so a second compaction builds it again (`compact_compact`). -/

namespace CenDB.Projection

open CenDB.Storage List Option Table

structure CompactionStats where
  blocksBefore : ℕ
  blocksAfter : ℕ
  rowsBefore : ℕ
  rowsAfter : ℕ
  bytesReclaimed : ℕ

/-- The key and the value of a row, if it has both. -/
def readRow (block : PaxBlock) (slot : ℕ) : Option (Bytes × Bytes) :=
  match block.varValue 1 slot, block.varValue 2 slot with
  | .ok (some k), .ok (some v) => some (k, v)
  | _, _ => none

def blockRows (block : PaxBlock) : List (Bytes × Bytes) :=
  (List.range block.header.rowCount.toNat).filterMap (readRow block)

theorem HoldsRows.blockRows_eq {block : PaxBlock} {es : List (Bytes × Bytes)}
    (h : HoldsRows block es) : blockRows block = es := by
  have hread : (List.range es.length).map (readRow block) = es.map some := by
    apply ext_getElem
    · simp
    · intro slot hslot hslot'
      have hlt : slot < es.length := by simpa using hslot
      have hrow := h.read slot _ (getElem?_eq_getElem hlt)
      rw [getElem_map, getElem_map, getElem_range, readRow, hrow.1, hrow.2]
  calc (List.range block.header.rowCount.toNat).filterMap (readRow block)
      = ((List.range es.length).map (readRow block)).filterMap id := by simp [h.rowCount]
    _ = es := by
        rw [hread, filterMap_map]
        exact filterMap_some

namespace KvStore

/-- The rows of all blocks, tombstones among them. -/
def sealedRows (s : KvStore) : List (Bytes × Bytes) := s.blocks.flatMap blockRows

/-- The row counts of the headers, summed. -/
def rowTotal (s : KvStore) : ℕ := (s.blocks.map fun block => block.header.rowCount.toNat).sum

def sealedBytes (s : KvStore) : ℕ := (s.blocks.map fun block => block.buf.length).sum

/-- The visible values of index entries; an entry that points outside the blocks is skipped. -/
def survivors (s : KvStore) : List (Bytes × (UInt32 × UInt32)) → Except Halt (List (Bytes × Bytes))
  | [] => .ok []
  | (key, blockId, slot) :: entries =>
    match s.blocks[blockId.toNat]? with
    | none => survivors s entries
    | some block =>
      match block.varValue 2 slot.toNat with
      | .error err => .error err
      | .ok value =>
        match survivors s entries with
        | .error err => .error err
        | .ok found =>
          match value.bind visible with
          | none => .ok found
          | some v => .ok ((key, v) :: found)

def sortByKey (es : List (Bytes × Bytes)) : List (Bytes × Bytes) := es.insertionSort fun a b => a.1 ≤ b.1

def putAll (fmt : TextFormat) (s : KvStore) : List (Bytes × Bytes) → Except Halt KvStore
  | [] => .ok s
  | e :: es =>
    match s.put fmt e.1 e.2 with
    | .error err => .error err
    | .ok s => putAll fmt s es

/-- Put entries into a store whose blocks and index are cleared, and flush. -/
def rebuild (fmt : TextFormat) (s : KvStore) (es : List (Bytes × Bytes)) : Except Halt KvStore :=
  match putAll fmt { s with blocks := [], index := ∅ } es with
  | .error err => .error err
  | .ok s => s.flushPending fmt

def compact (fmt : TextFormat) (s : KvStore) : Except Halt (KvStore × CompactionStats) :=
  match s.flushPending fmt with
  | .error err => .error err
  | .ok before =>
    match before.survivors before.index.items with
    | .error err => .error err
    | .ok found =>
      match before.rebuild fmt (sortByKey found) with
      | .error err => .error err
      | .ok after =>
        .ok (after, ⟨before.blocks.length, after.blocks.length, before.rowTotal,
          after.rowTotal, before.sealedBytes - after.sealedBytes⟩)

variable {fmt : TextFormat} {s s' : KvStore} {rows : List (List (Bytes × Bytes))}

/-! ### Sorting by key -/

theorem perm_sortByKey (es : List (Bytes × Bytes)) : (sortByKey es).Perm es := perm_insertionSort _ es

theorem pairwise_sortByKey (es : List (Bytes × Bytes)) : (sortByKey es).Pairwise fun a b => a.1 ≤ b.1 := by
  have : Std.Total fun a b : Bytes × Bytes => a.1 ≤ b.1 := ⟨fun a b => List.le_total a.1 b.1⟩
  have : IsTrans (Bytes × Bytes) fun a b => a.1 ≤ b.1 := ⟨fun a b c => List.le_trans⟩
  exact pairwise_insertionSort _ es

variable {es : List (Bytes × Bytes)} {entries : List (Bytes × (UInt32 × UInt32))} {blockId slot : UInt32}
  {block : PaxBlock} {key : Bytes} {flushed : KvStore}

/-- Entries with one value a key, sorted, are determined by their set. -/
theorem sortByKey_congr {us : List (Bytes × Bytes)} (hes : (es.map Prod.fst).Nodup)
    (hus : (us.map Prod.fst).Nodup) (h : ∀ e, e ∈ es ↔ e ∈ us) : sortByKey es = sortByKey us := by
  have hperm : (sortByKey es).Perm (sortByKey us) :=
    ((perm_sortByKey es).trans ((perm_ext_iff_of_nodup hes.of_map hus.of_map).mpr h)).trans
      (perm_sortByKey us).symm
  refine hperm.eq_of_pairwise (fun a b ha hb hab hba => ?_) (pairwise_sortByKey es) (pairwise_sortByKey us)
  have hkey : a.1 = b.1 := List.le_antisymm hab hba
  have hb' : b ∈ es := (h b).mpr ((perm_sortByKey us).mem_iff.mp hb)
  exact inj_on_of_nodup_map hes ((perm_sortByKey es).mem_iff.mp ha) hb' hkey

/-! ### Rows -/

theorem Stored.sealedRows_eq (h : Stored s rows) : s.sealedRows = rows.flatten := by
  have hblocks := h.blocks
  unfold sealedRows
  clear h
  generalize s.blocks = blocks at hblocks
  induction hblocks with
  | nil => rfl
  | cons hblock _ ih => rw [flatMap_cons, hblock.blockRows_eq, ih, flatten_cons]

theorem Stored.rowTotal_eq (h : Stored s rows) : s.rowTotal = rows.flatten.length := by
  have hblocks := h.blocks
  unfold rowTotal
  clear h
  generalize s.blocks = blocks at hblocks
  induction hblocks with
  | nil => rfl
  | cons hblock _ ih =>
    rw [map_cons, sum_cons, hblock.rowCount, ih, flatten_cons, length_append]

/-! ### The entries that survive -/

variable {found : List (Bytes × Bytes)} {stats : CompactionStats}

/-- An entry of a block adds what a read of its place finds. -/
theorem survivors_entry (hblock : s.blocks[blockId.toNat]? = some block) :
    s.survivors ((key, blockId, slot) :: entries) =
      match s.readSlot blockId slot with
      | .error err => .error err
      | .ok out =>
        match s.survivors entries with
        | .error err => .error err
        | .ok found => .ok (out.toList.map (fun v => (key, v)) ++ found) := by
  rw [survivors, readSlot, hblock]
  dsimp only
  cases block.varValue 2 slot.toNat with
  | error err => rfl
  | ok value =>
    cases s.survivors entries with
    | error err => rfl
    | ok found =>
      dsimp only
      cases value.bind visible <;> rfl

theorem survivors_skip (hblock : s.blocks[blockId.toNat]? = none) :
    s.survivors ((key, blockId, slot) :: entries) = s.survivors entries := by
  rw [survivors, hblock]

theorem survivors_spec (h : s.survivors entries = .ok found) :
    (found.map Prod.fst).Sublist (entries.map Prod.fst) ∧
      ∀ k v, (k, v) ∈ found ↔ ∃ place, (k, place) ∈ entries ∧ s.readSlot place.1 place.2 = .ok (some v) := by
  induction entries generalizing found with
  | nil =>
    rw [← Except.ok.inj h]
    simp
  | cons entry entries ih =>
    obtain ⟨key, blockId, slot⟩ := entry
    -- what the entry reads, against what is found after it
    have hcons (out : Option Bytes) {rest : List (Bytes × Bytes)}
        (hread : ∀ v, s.readSlot blockId slot = .ok (some v) ↔ out = some v)
        (hrest : s.survivors entries = .ok rest)
        (hfound : found = out.toList.map (fun v => (key, v)) ++ rest) :
        (found.map Prod.fst).Sublist (key :: entries.map Prod.fst) ∧
          ∀ k v, (k, v) ∈ found ↔ ∃ place, (k, place) ∈ (key, blockId, slot) :: entries ∧
            s.readSlot place.1 place.2 = .ok (some v) := by
      obtain ⟨hsub, hmem⟩ := ih hrest
      rw [hfound]
      refine ⟨?_, fun k v => ?_⟩
      · cases out with
        | none => exact hsub.cons key
        | some v => exact hsub.cons_cons key
      · rw [mem_append, hmem]
        constructor
        · rintro (hnew | ⟨place, hplace, hvalue⟩)
          · obtain ⟨w, hw, heq⟩ := List.mem_map.mp hnew
            obtain ⟨rfl, rfl⟩ := Prod.mk.inj heq
            exact ⟨(blockId, slot), mem_cons_self, (hread w).mpr (mem_toList.mp hw)⟩
          · exact ⟨place, mem_cons_of_mem _ hplace, hvalue⟩
        · rintro ⟨place, hplace, hvalue⟩
          cases mem_cons.mp hplace with
          | inl hfirst =>
            obtain ⟨rfl, rfl⟩ := Prod.mk.inj hfirst
            exact Or.inl (List.mem_map.mpr ⟨v, mem_toList.mpr ((hread v).mp hvalue), rfl⟩)
          | inr hlater => exact Or.inr ⟨place, hlater, hvalue⟩
    cases hblock : s.blocks[blockId.toNat]? with
    | none =>
      rw [survivors_skip hblock] at h
      exact hcons none (fun v => by rw [readSlot, hblock]; simp) h rfl
    | some block =>
      rw [survivors_entry hblock] at h
      cases hread : s.readSlot blockId slot with
      | error err =>
        rw [hread] at h
        cases h
      | ok out =>
        rw [hread] at h
        dsimp only at h
        cases hrest : s.survivors entries with
        | error err =>
          rw [hrest] at h
          cases h
        | ok rest =>
          rw [hrest] at h
          exact hcons out (fun v => by rw [hread, Except.ok.injEq]) hrest (Except.ok.inj h).symm

theorem survivors_ok (h : ∀ e ∈ entries, ∃ out, s.readSlot e.2.1 e.2.2 = .ok out) :
    ∃ found, s.survivors entries = .ok found := by
  induction entries with
  | nil => exact ⟨[], rfl⟩
  | cons entry entries ih =>
    obtain ⟨key, blockId, slot⟩ := entry
    rw [forall_mem_cons] at h
    obtain ⟨⟨out, hout⟩, hrest⟩ := h
    obtain ⟨found, hfound⟩ := ih hrest
    dsimp only at hout
    cases hblock : s.blocks[blockId.toNat]? with
    | none => exact ⟨found, (survivors_skip hblock).trans hfound⟩
    | some block =>
      rw [survivors_entry hblock, hout, hfound]
      exact ⟨_, rfl⟩

theorem readSlot_eq {value : Option Bytes} (hblock : s.blocks[blockId.toNat]? = some block)
    (hvalue : block.varValue 2 slot.toNat = .ok value) :
    s.readSlot blockId slot = .ok (value.bind visible) := by
  rw [readSlot, hblock]
  dsimp only
  rw [hvalue]

/-- An entry that reads a value survives. -/
theorem survivors_cons {v : Bytes} (hblock : s.blocks[blockId.toNat]? = some block)
    (hvalue : block.varValue 2 slot.toNat = .ok (some v)) (hv : v ≠ [])
    (hrest : s.survivors entries = .ok found) :
    s.survivors ((key, blockId, slot) :: entries) = .ok ((key, v) :: found) := by
  have hvisible : (some v).bind visible = some v := visible_eq_some.mpr ⟨rfl, hv⟩
  rw [survivors_entry hblock, readSlot_eq hblock hvalue, hvisible, hrest]
  rfl

/-- A tombstone is no survivor. -/
theorem survivors_tombstone (hblock : s.blocks[blockId.toNat]? = some block)
    (hvalue : block.varValue 2 slot.toNat = .ok (some [])) (hrest : s.survivors entries = .ok found) :
    s.survivors ((key, blockId, slot) :: entries) = .ok found := by
  rw [survivors_entry hblock, readSlot_eq hblock hvalue, hrest]
  rfl

theorem get_of_pending_empty (h : s.pending = ∅) (k : Bytes) :
    (∀ place, s.index.lookup k = some place → s.get k = s.readSlot place.1 place.2) ∧
      (s.index.lookup k = none → s.get k = .ok none) := by
  have hnone : s.pending.lookup k = none := by
    rw [h]
    rfl
  constructor
  · intro place hplace
    rw [get, hnone, hplace]
  · intro hindex
    rw [get, hnone, hindex]

/-- **The survivors of a flushed store are what a `get` finds**, once for every key. -/
theorem survivors_items (h : s.survivors s.index.items = .ok found) (hpending : s.pending = ∅) :
    (found.map Prod.fst).Nodup ∧ ∀ k v, (k, v) ∈ found ↔ s.get k = .ok (some v) := by
  obtain ⟨hsub, hmem⟩ := survivors_spec h
  have hkeys : s.index.items.map Prod.fst = s.index.entries.map Sigma.fst := by simp [Table.items]
  refine ⟨hsub.nodup (by rw [hkeys]; exact s.index.nodupKeys), fun k v => ?_⟩
  obtain ⟨hsome, hnone⟩ := get_of_pending_empty hpending k
  rw [hmem]
  constructor
  · rintro ⟨place, hplace, hvalue⟩
    rw [hsome place (mem_items.mp hplace), hvalue]
  · intro hget
    cases hindex : s.index.lookup k with
    | none =>
      rw [hnone hindex] at hget
      cases hget
    | some place =>
      rw [hsome place hindex] at hget
      exact ⟨place, mem_items.mpr hindex, hget⟩

/-! ### Putting entries back -/

/-- **A put of a new key appends to the log.** -/
theorem Stored.put_new {value : Bytes} (h : Stored s rows) (hput : s.put fmt key value = .ok s')
    (hsize : s.blockSize.toNat + minipageAlign ≤ 2 ^ 32) (hnew : key ∉ (s.log rows).map Prod.fst) :
    ∃ rows', Stored s' rows' ∧ s'.log rows' = s.log rows ++ [(key, value)] ∧ s'.config = s.config := by
  obtain ⟨rows', hstored, hlog, hconfig⟩ := h.put hput hsize
  have hpending : s.pending.lookup key = none := by
    rw [log, map_append, mem_append, not_or, h.keys_ordered, h.order, not_isSome_iff_eq_none] at hnew
    exact hnew.2
  refine ⟨rows', hstored, ?_, hconfig⟩
  rw [hlog, log, log, h.ordered_bufferPut value hpending, append_assoc]

theorem Stored.putAll (h : Stored s rows) (hputs : putAll fmt s es = .ok s')
    (hsize : s.blockSize.toNat + minipageAlign ≤ 2 ^ 32) (hnew : ((s.log rows ++ es).map Prod.fst).Nodup) :
    ∃ rows', Stored s' rows' ∧ s'.log rows' = s.log rows ++ es ∧ s'.config = s.config := by
  induction es generalizing s rows with
  | nil =>
    rw [← Except.ok.inj hputs]
    exact ⟨rows, h, (append_nil _).symm, rfl⟩
  | cons e es ih =>
    rw [KvStore.putAll] at hputs
    split at hputs
    · cases hputs
    · rename_i mid hmid
      have hkey : e.1 ∉ (s.log rows).map Prod.fst := by
        rw [map_append, map_cons, nodup_middle, nodup_cons, mem_append, not_or] at hnew
        exact hnew.1.1
      obtain ⟨rows₁, hstored, hlog, hconfig⟩ := h.put_new hmid hsize hkey
      have hlog' : mid.log rows₁ ++ es = s.log rows ++ e :: es := by simp [hlog]
      obtain ⟨rows', hstored', hlogs, hconfig'⟩ := ih hstored hputs
        (by rw [blockSize_of_config hconfig]; exact hsize) (by rw [hlog']; exact hnew)
      exact ⟨rows', hstored', hlogs.trans hlog', hconfig'.trans hconfig⟩

/-- **A rebuilt store holds the entries put back**, row by row. -/
theorem rebuild_spec (h : s.rebuild fmt es = .ok s') (hsize : s.blockSize.toNat + minipageAlign ≤ 2 ^ 32)
    (hpending : s.pending = ∅) (horder : s.pendingOrder = []) (hes : (es.map Prod.fst).Nodup) :
    ∃ rows, Stored s' rows ∧ rows.flatten = es ∧ s'.pending = ∅ ∧ s'.config = s.config := by
  have hstart : Stored { s with blocks := [], index := ∅ } [] := by
    refine ⟨.nil, fun k => Or.inl rfl, ?_, fun k => ?_⟩
    · simp [horder]
    · simp [horder, hpending]
  have hlogStart : log { s with blocks := [], index := ∅ } [] = [] := by
    rw [log, ordered]
    dsimp only
    rw [horder]
    rfl
  unfold rebuild at h
  split at h
  · cases h
  · rename_i mid hmid
    obtain ⟨rows₁, hstored, hlog, hconfig⟩ := hstart.putAll hmid hsize (by rw [hlogStart]; exact hes)
    have hsize' : mid.blockSize.toNat + minipageAlign ≤ 2 ^ 32 := by
      rw [blockSize_of_config hconfig]
      exact hsize
    obtain ⟨rows, hstored', hlog', hconfig', hpending'⟩ := hstored.flush h hsize'
    refine ⟨rows, hstored', ?_, hpending', hconfig'.trans hconfig⟩
    rw [hlog, hlogStart, List.nil_append, hstored'.log_eq hpending'] at hlog'
    exact hlog'

/-! ### Compaction -/

/-- A flush changes no `get`. -/
theorem Stored.get_flush {rows₁ : List (List (Bytes × Bytes))} (h : Stored s rows)
    (hflushed : s.flushPending fmt = .ok flushed) (hstored : Stored flushed rows₁)
    (hlog : flushed.log rows₁ = s.log rows) (hfew : flushed.blocks.length ≤ 2 ^ 32) (k : Bytes) :
    flushed.get k = s.get k := by
  rw [hstored.get_eq hfew, h.get_eq ((blocks_flush hflushed).trans hfew), hlog]

/-- What a compaction flushes, finds and puts back. -/
theorem compact_cases (hcompact : s.compact fmt = .ok (s', stats)) :
    ∃ flushed found, s.flushPending fmt = .ok flushed ∧ flushed.survivors flushed.index.items = .ok found ∧
      flushed.rebuild fmt (sortByKey found) = .ok s' := by
  unfold compact at hcompact
  split at hcompact
  · cases hcompact
  · rename_i flushed hflushed
    split at hcompact
    · cases hcompact
    · rename_i found hfound
      split at hcompact
      · cases hcompact
      · rename_i after hafter
        obtain ⟨rfl, -⟩ := Prod.mk.inj (Except.ok.inj hcompact)
        exact ⟨flushed, found, hflushed, hfound, hafter⟩

theorem compact_of (hflushed : s.flushPending fmt = .ok flushed)
    (hfound : flushed.survivors flushed.index.items = .ok found)
    (hbuild : flushed.rebuild fmt (sortByKey found) = .ok s') :
    s.compact fmt = .ok (s', ⟨flushed.blocks.length, s'.blocks.length, flushed.rowTotal, s'.rowTotal,
      flushed.sealedBytes - s'.sealedBytes⟩) := by
  rw [KvStore.compact, hflushed]
  dsimp only
  rw [hfound]
  dsimp only
  rw [hbuild]

/-- The survivors of a flushed store, put back. -/
theorem Stored.survivors (h : Stored flushed rows) (hpending : flushed.pending = ∅)
    (hfound : flushed.survivors flushed.index.items = .ok found)
    (hbuild : flushed.rebuild fmt (sortByKey found) = .ok s')
    (hsize : flushed.blockSize.toNat + minipageAlign ≤ 2 ^ 32) :
    ∃ rows', Stored s' rows' ∧ s'.pending = ∅ ∧ s'.config = flushed.config ∧
      (rows'.flatten.map Prod.fst).Nodup ∧
      ∀ k v, (k, v) ∈ rows'.flatten ↔ flushed.get k = .ok (some v) := by
  obtain ⟨hnodup, hmem⟩ := survivors_items hfound hpending
  have hperm := perm_sortByKey found
  have hnodup' : ((sortByKey found).map Prod.fst).Nodup := (hperm.map Prod.fst).nodup_iff.mpr hnodup
  obtain ⟨rows', hstored, hflatten, hpending', hconfig⟩ := rebuild_spec hbuild hsize hpending
    (h.pendingOrder_eq_nil hpending) hnodup'
  refine ⟨rows', hstored, hpending', hconfig, by rw [hflatten]; exact hnodup', fun k v => ?_⟩
  rw [hflatten, hperm.mem_iff]
  exact hmem k v

/-- **A compacted store has one row for every key that a `get` finds**, and nothing else. -/
theorem Stored.compact (h : Stored s rows) (hcompact : s.compact fmt = .ok (s', stats))
    (hsize : s.blockSize.toNat + minipageAlign ≤ 2 ^ 32)
    (hfew : ∀ flushed, s.flushPending fmt = .ok flushed → flushed.blocks.length ≤ 2 ^ 32) :
    ∃ rows', Stored s' rows' ∧ s'.pending = ∅ ∧ s'.config = s.config ∧ Tidy rows'.flatten ∧
      ∀ k v, (k, v) ∈ rows'.flatten ↔ s.get k = .ok (some v) := by
  obtain ⟨flushed, found, hflushed, hfound, hbuild⟩ := compact_cases hcompact
  obtain ⟨rows₁, hstored, hlog, hconfig, hpending⟩ := h.flush hflushed hsize
  obtain ⟨rows', hstored', hpending', hconfig', hnodup, hmem⟩ := hstored.survivors hpending hfound
    hbuild (by rw [blockSize_of_config hconfig]; exact hsize)
  have hget (k : Bytes) : s.get k = .ok ((Table.lastOf (s.log rows) k).bind visible) :=
    h.get_eq ((blocks_flush hflushed).trans (hfew flushed hflushed)) k
  have hrows (k v : Bytes) : (k, v) ∈ rows'.flatten ↔ s.get k = .ok (some v) := by
    rw [hmem, hstored.get_eq (hfew flushed hflushed), hlog, hget]
  refine ⟨rows', hstored', hpending', hconfig'.trans hconfig, ⟨hnodup, fun e he => ?_⟩, hrows⟩
  have hvalue := (hrows e.1 e.2).mp he
  rw [hget, Except.ok.injEq, bind_eq_some_iff] at hvalue
  obtain ⟨w, -, hw⟩ := hvalue
  exact (visible_eq_some.mp hw).2

/-- **A compaction changes no `get`.** -/
theorem get_compact (h : Stored s rows) (hcompact : s.compact fmt = .ok (s', stats))
    (hsize : s.blockSize.toNat + minipageAlign ≤ 2 ^ 32)
    (hfew : ∀ flushed, s.flushPending fmt = .ok flushed → flushed.blocks.length ≤ 2 ^ 32)
    (hfew' : s'.blocks.length ≤ 2 ^ 32) (k : Bytes) : s'.get k = s.get k := by
  obtain ⟨rows', hstored, hpending, -, htidy, hmem⟩ := h.compact hcompact hsize hfew
  obtain ⟨flushed, -, hflushed, -⟩ := compact_cases hcompact
  rw [← hstored.log_eq hpending] at htidy hmem
  have hget := h.get_eq ((blocks_flush hflushed).trans (hfew flushed hflushed)) k
  have hget' := hstored.get_eq hfew' k
  have hsame (v : Bytes) : s'.get k = .ok (some v) ↔ s.get k = .ok (some v) := by
    rw [← hmem, hstored.mem_log_iff hfew' htidy]
  rw [hget, hget'] at hsame ⊢
  rw [Except.ok.injEq]
  apply Option.ext
  intro v
  have hv := hsame v
  rw [Except.ok.injEq, Except.ok.injEq] at hv
  exact hv

theorem rebuild_congr {t : KvStore} (hconfig : s.config = t.config)
    (hpending : s.pending = t.pending) (horder : s.pendingOrder = t.pendingOrder)
    (es : List (Bytes × Bytes)) : s.rebuild fmt es = t.rebuild fmt es := by
  obtain ⟨hid, hsize, hcap⟩ : s.segmentId = t.segmentId ∧ s.blockSize = t.blockSize ∧
      s.pendingCapacity = t.pendingCapacity := by
    simpa [config] using hconfig
  rw [rebuild, rebuild, hid, hsize, hcap, hpending, horder]

/-- **A second compaction builds the same store.** -/
theorem compact_compact (h : Stored s rows) (hcompact : s.compact fmt = .ok (s', stats))
    (hsize : s.blockSize.toNat + minipageAlign ≤ 2 ^ 32)
    (hfew : ∀ flushed, s.flushPending fmt = .ok flushed → flushed.blocks.length ≤ 2 ^ 32)
    (hfew' : s'.blocks.length ≤ 2 ^ 32) :
    s'.compact fmt = .ok (s', ⟨s'.blocks.length, s'.blocks.length, s'.rowTotal, s'.rowTotal, 0⟩) := by
  obtain ⟨rows', hstored', hpending', hconfig', -, -⟩ := h.compact hcompact hsize hfew
  obtain ⟨flushed, found, hflushed, hfound, hbuild⟩ := compact_cases hcompact
  obtain ⟨rows₁, hstored, hlog, hconfig, hpending⟩ := h.flush hflushed hsize
  have hflush : s'.flushPending fmt = .ok s' := by
    unfold flushPending
    rw [if_pos (by rw [hpending']; rfl)]
  -- every indexed row of the new store can be read
  have hreads : ∀ e ∈ s'.index.items, ∃ out, s'.readSlot e.2.1 e.2.2 = .ok out := by
    rintro ⟨k, place⟩ he
    have hget := hstored'.get_eq hfew' k
    rw [(get_of_pending_empty hpending' k).1 place (mem_items.mp he)] at hget
    exact ⟨_, hget⟩
  obtain ⟨found', hfound'⟩ := survivors_ok hreads
  obtain ⟨hnodup, hmemFound⟩ := survivors_items hfound hpending
  obtain ⟨hnodup', hmemFound'⟩ := survivors_items hfound' hpending'
  have hsame : sortByKey found' = sortByKey found := by
    refine sortByKey_congr hnodup' hnodup fun e => ?_
    obtain ⟨k, v⟩ := e
    rw [hmemFound', hmemFound, get_compact h hcompact hsize hfew hfew',
      h.get_flush hflushed hstored hlog (hfew flushed hflushed)]
  have horder : s'.pendingOrder = flushed.pendingOrder := by
    rw [hstored'.pendingOrder_eq_nil hpending', hstored.pendingOrder_eq_nil hpending]
  have hagain : s'.rebuild fmt (sortByKey found') = .ok s' := by
    rw [hsame, rebuild_congr (hconfig'.trans hconfig.symm) (hpending'.trans hpending.symm) horder]
    exact hbuild
  rw [compact_of hflush hfound' hagain, Nat.sub_self]

/-! ### Runs -/

theorem Stored.step {op : Op} (h : Stored s rows) (hstep : step fmt s op = some s')
    (hsize : s.blockSize.toNat + minipageAlign ≤ 2 ^ 32) :
    ∃ rows', Stored s' rows' ∧ s'.config = s.config := by
  obtain ⟨key, value, -, hput⟩ | ⟨key, existed, -, hdelete⟩ | ⟨-, hflush⟩ := step_cases hstep
  · obtain ⟨rows', hstored, -, hconfig⟩ := h.put hput hsize
    exact ⟨rows', hstored, hconfig⟩
  · obtain ⟨rows', hstored, hconfig, -⟩ := h.delete hdelete hsize
    exact ⟨rows', hstored, hconfig⟩
  · obtain ⟨rows', hstored, -, hconfig, -⟩ := h.flush hflush hsize
    exact ⟨rows', hstored, hconfig⟩

theorem stored_run {blockSize : UInt32} {segmentId : UInt64} {ops : List Op}
    (hrun : Transition.run (KvStore.step fmt) (new segmentId blockSize) ops = some s)
    (hsize : blockSize.toNat + minipageAlign ≤ 2 ^ 32) :
    ∃ rows, Stored s rows ∧ s.blockSize = blockSize := by
  refine Transition.run_preserves (I := fun t => ∃ rows, Stored t rows ∧ t.blockSize = blockSize)
    ?_ ⟨[], stored_new segmentId blockSize, rfl⟩ hrun
  rintro t op t' ⟨rows, hstored, hblockSize⟩ hstep
  obtain ⟨rows', hstored', hconfig⟩ := hstored.step hstep (by rw [hblockSize]; exact hsize)
  exact ⟨rows', hstored', (blockSize_of_config hconfig).trans hblockSize⟩

/-- **A compaction changes no `get`, leaves one row for every visible key and no tombstone, and a
second one changes nothing**, as long as the blocks are at most `2 ^ 32`. -/
theorem compact_run (segmentId : UInt64) (blockSize : UInt32)
    (hsize : blockSize.toNat + minipageAlign ≤ 2 ^ 32) (ops : List Op) (s s' : KvStore)
    (stats : CompactionStats)
    (hrun : Transition.run (KvStore.step fmt) (new segmentId blockSize) ops = some s)
    (hcompact : s.compact fmt = .ok (s', stats))
    (hfew : ∀ flushed, s.flushPending fmt = .ok flushed → flushed.blocks.length ≤ 2 ^ 32)
    (hfew' : s'.blocks.length ≤ 2 ^ 32) :
    (∀ k, s'.get k = s.get k) ∧ s'.pending = ∅ ∧
      (s'.sealedRows.map Prod.fst).Nodup ∧ s'.rowTotal = s'.sealedRows.length ∧
      (∀ k v, (k, v) ∈ s'.sealedRows ↔ s.get k = .ok (some v)) ∧
      (∀ e ∈ s'.sealedRows, e.2 ≠ []) ∧
      s'.compact fmt = .ok (s', ⟨s'.blocks.length, s'.blocks.length, s'.rowTotal, s'.rowTotal, 0⟩) := by
  obtain ⟨rows, hstored, hblockSize⟩ := stored_run hrun hsize
  have hsize' : s.blockSize.toNat + minipageAlign ≤ 2 ^ 32 := by
    rw [hblockSize]
    exact hsize
  obtain ⟨rows', hstored', hpending, -, htidy, hmem⟩ := hstored.compact hcompact hsize' hfew
  rw [← hstored'.sealedRows_eq] at htidy hmem
  refine ⟨get_compact hstored hcompact hsize' hfew hfew', hpending, htidy.nodup, ?_, hmem,
    htidy.value, compact_compact hstored hcompact hsize' hfew hfew'⟩
  rw [hstored'.rowTotal_eq, hstored'.sealedRows_eq]

/-- A run with an overwritten key and a tombstone. -/
def overwriteAndDelete : List Op := [.put [1] [2], .put [2] [2], .flush, .put [1] [3], .delete [2], .flush]

/-- The entries of each flush get blocks of their own. -/
theorem run_overwriteAndDelete : ∃ b₁ b₂ b₃ b₄, (∀ b ∈ [b₁, b₂, b₃, b₄], b.buf.length = 512) ∧
    b₃.varValue 2 (0 : UInt32).toNat = .ok (some [3]) ∧ b₄.varValue 2 (0 : UInt32).toNat = .ok (some []) ∧
    Transition.run (KvStore.step plainFormat) (new 1 512) overwriteAndDelete = some ⟨1, 512, [b₁, b₂, b₃, b₄],
      AList.insert [2] (3, 0) (AList.insert [1] (2, 0) (AList.insert [1] (0, 0) ∅)), ∅, [], 1024⟩ := by
  obtain ⟨b₁, h₁⟩ := exists_build plainFormat 512 ([1], [2]) (by decide)
  obtain ⟨b₂, h₂⟩ := exists_build plainFormat 512 ([2], [2]) (by decide)
  obtain ⟨b₃, h₃⟩ := exists_build plainFormat 512 ([1], [3]) (by decide)
  obtain ⟨b₄, h₄⟩ := exists_build plainFormat 512 ([2], []) (by decide)
  have hfirst : Transition.run (KvStore.step plainFormat) (new 1 512) [.put [1] [2], .put [2] [2]] = some
      ⟨1, 512, [], ∅, AList.insert [2] [2] (AList.insert [1] [2] ∅), [[1], [2]], 1024⟩ := rfl
  have hflush : flushPending plainFormat ⟨1, 512, [], ∅, AList.insert [2] [2] (AList.insert [1] [2] ∅),
      [[1], [2]], 1024⟩ = .ok ⟨1, 512, [b₁, b₂], AList.insert [2] (1, 0) (AList.insert [1] (0, 0) ∅), ∅, [], 1024⟩ :=
    flush_pair rfl rfl h₁ h₂
  have hsecond : Transition.run (KvStore.step plainFormat) ⟨1, 512, [b₁, b₂],
      AList.insert [2] (1, 0) (AList.insert [1] (0, 0) ∅), ∅, [], 1024⟩ [.put [1] [3], .delete [2]] = some
      ⟨1, 512, [b₁, b₂], AList.insert [1] (0, 0) ∅, AList.insert [2] [] (AList.insert [1] [3] ∅), [[1], [2]],
        1024⟩ := rfl
  have hflush' : flushPending plainFormat ⟨1, 512, [b₁, b₂], AList.insert [1] (0, 0) ∅,
      AList.insert [2] [] (AList.insert [1] [3] ∅), [[1], [2]], 1024⟩ = .ok ⟨1, 512, [b₁, b₂, b₃, b₄],
        AList.insert [2] (3, 0) (AList.insert [1] (2, 0) (AList.insert [1] (0, 0) ∅)), ∅, [], 1024⟩ :=
    flush_pair rfl rfl h₃ h₄
  have hthree : b₃.varValue 2 (0 : UInt32).toNat = .ok (some [3]) := varValue_single h₃ (by decide)
  have hfour : b₄.varValue 2 (0 : UInt32).toNat = .ok (some []) := varValue_single h₄ (by decide)
  refine ⟨b₁, b₂, b₃, b₄, ?_, hthree, hfour, ?_⟩
  · simp [length_single h₁, length_single h₂, length_single h₃, length_single h₄]
  · have hops : overwriteAndDelete =
        [Op.put [1] [2], Op.put [2] [2]] ++ Op.flush :: ([Op.put [1] [3], Op.delete [2]] ++ [Op.flush]) := rfl
    rw [hops, Transition.run_append_some hfirst, Transition.run_cons, KvStore.step, hflush, Except.toOption,
      Option.bind_some, Transition.run_append_some hsecond, Transition.run_cons, KvStore.step, hflush']
    rfl

theorem compact_run_overwriteAndDelete :
    ∃ s s' stats, Transition.run (KvStore.step plainFormat) (new 1 512) overwriteAndDelete =
        some s ∧ s.compact plainFormat = .ok (s', stats) ∧ s'.get [1] = s.get [1] := by
  obtain ⟨b₁, b₂, b₃, b₄, -, hthree, hfour, hrun⟩ := run_overwriteAndDelete
  obtain ⟨b₅, h₅⟩ := exists_build plainFormat 512 ([1], [3]) (by decide)
  generalize hs : (⟨1, 512, [b₁, b₂, b₃, b₄], AList.insert [2] (3, 0)
    (AList.insert [1] (2, 0) (AList.insert [1] (0, 0) ∅)), ∅, [], 1024⟩ : KvStore) = s at hrun
  have hflush : s.flushPending plainFormat = .ok s := by
    rw [← hs]
    rfl
  have hfound : s.survivors s.index.items = .ok [([1], [3])] := by
    rw [← hs]
    exact survivors_tombstone rfl hfour (survivors_cons rfl hthree (by decide) rfl)
  have hbuild : s.rebuild plainFormat (sortByKey [([1], [3])]) =
      .ok ⟨1, 512, [b₅], AList.insert [1] (0, 0) ∅, ∅, [], 1024⟩ := by
    rw [← hs]
    exact flush_single ∅ [] h₅
  have hcompact := compact_of hflush hfound hbuild
  refine ⟨s, _, _, hrun, hcompact, ?_⟩
  refine (compact_run 1 512 (by decide) _ s _ _ hrun hcompact ?_ ?_).1 [1]
  · intro flushed hflushed
    rw [← Except.ok.inj (hflush.symm.trans hflushed), ← hs]
    simp
  · simp

/-- **The flush of a compaction can give the last block the id of the first**, and then the value
of the first is what survives. -/
theorem compact_wraps : ∃ s s' stats, Transition.run (KvStore.step plainFormat) (new 1 512)
        ((List.replicate (2 ^ 32) (round ([0], [1]))).flatten ++ [.put [1] [2]]) = some s ∧
      s.compact plainFormat = .ok (s', stats) ∧
      s.get [1] = .ok (some [2]) ∧ s'.get [1] = .ok (some [1]) := by
  obtain ⟨block, hblock⟩ := exists_build plainFormat 512 ([0], [1]) (by decide)
  obtain ⟨block', hblock'⟩ := exists_build plainFormat 512 ([1], [2]) (by decide)
  obtain ⟨last, hlast⟩ := exists_build plainFormat 512 ([1], [1]) (by decide)
  have hvalue : block.varValue 2 (0 : UInt32).toNat = .ok (some [1]) := varValue_single hblock (by decide)
  have hvalue' : last.varValue 2 (0 : UInt32).toNat = .ok (some [1]) := varValue_single hlast (by decide)
  have hrebuild : rebuild plainFormat (new 1 512) [([0], [1]), ([1], [1])] = .ok ⟨1, 512, [block, last],
      AList.insert [1] (1, 0) (AList.insert [0] (0, 0) ∅), ∅, [], 1024⟩ :=
    show flushPending plainFormat ⟨1, 512, [], ∅, AList.insert [1] [1] (AList.insert [0] [1] ∅), [[0], [1]], 1024⟩ = _
      from flush_pair rfl rfl hblock hlast
  have hwrap : UInt32.ofNat (2 ^ 32 - 1 + 1) = 0 := by decide
  have hid : (UInt32.ofNat (2 ^ 32 - 1)).toNat < 2 ^ 32 - 1 + 1 := by decide
  have hpos : 2 ^ 32 = 2 ^ 32 - 1 + 1 := by decide
  rw [hpos]
  generalize 2 ^ 32 - 1 = n at hwrap hid ⊢
  have hrun := run_rounds hblock n
  -- the flushed store, and what its index entries read
  have hflush := flush_single (AList.insert [0] (UInt32.ofNat n, 0) ∅)
    (List.replicate (n + 1) block) hblock'
  rw [length_replicate, hwrap] at hflush
  have hread (id : UInt32) (hlt : id.toNat < n + 1) :
      (List.replicate (n + 1) block ++ [block'])[id.toNat]? = some block := by
    rw [getElem?_append_left (by rw [length_replicate]; exact hlt), getElem?_replicate, if_pos hlt]
  have hfound : survivors ⟨1, 512, List.replicate (n + 1) block ++ [block'],
      AList.insert [1] (0, 0) (AList.insert [0] (UInt32.ofNat n, 0) ∅), ∅, [], 1024⟩
      [([1], 0, 0), ([0], UInt32.ofNat n, 0)] = .ok [([1], [1]), ([0], [1])] :=
    survivors_cons (hread 0 (Nat.succ_pos n)) hvalue (by decide)
      (survivors_cons (hread _ hid) hvalue (by decide) rfl)
  have hsort : sortByKey [([1], [1]), ([0], [1])] = [([0], [1]), ([1], [1])] := by decide
  have hitems : Table.items (AList.insert [1] (0, 0) (AList.insert [0] (UInt32.ofNat n, 0) ∅) :
      Table Bytes (UInt32 × UInt32)) = [([1], 0, 0), ([0], UInt32.ofNat n, 0)] := rfl
  have hbuild : rebuild plainFormat ⟨1, 512, List.replicate (n + 1) block ++ [block'],
      AList.insert [1] (0, 0) (AList.insert [0] (UInt32.ofNat n, 0) ∅), ∅, [], 1024⟩
      [([0], [1]), ([1], [1])] = _ :=
    (rebuild_congr (t := new 1 512) rfl rfl rfl _).trans hrebuild
  rw [← hsort] at hbuild
  rw [← hitems] at hfound
  refine ⟨⟨1, 512, List.replicate (n + 1) block, AList.insert [0] (UInt32.ofNat n, 0) ∅,
    AList.insert [1] [2] ∅, [[1]], 1024⟩, _, _, ?_, compact_of hflush hfound hbuild, rfl, ?_⟩
  · rw [Transition.run_append_some hrun]
    rfl
  · have hpending : (∅ : Table Bytes Bytes).lookup [1] = none := rfl
    have hslot : ([block, last] : List PaxBlock)[(1 : UInt32).toNat]? = some last := rfl
    rw [get, hpending]
    dsimp only
    rw [AList.lookup_insert]
    dsimp only
    rw [readSlot, hslot]
    dsimp only
    rw [hvalue']
    rfl

end KvStore

end CenDB.Projection
