import CenDB.Lib.Places
import CenDB.Lib.Transition
import CenDB.Storage.PaxRows

/-! # Relational table

A table holds pending rows, sealed blocks, and an index from an integer key to the place of a sealed
row.  A table is not used after a failed call.

`Stored t batches` says what the blocks and the index hold; `findByPk_eq` is the lookup as a search
of two lists of rows, the pending ones by one reading of the key and the sealed ones by another. -/

namespace CenDB.Projection

open CenDB.Storage List Option

abbrev Row := List Value

/-- The column of the primary key, if any. -/
def pkIndex (columns : List ColumnSpec) : Option ℕ := columns.findIdx? fun c => c.isPk ≠ 0

structure RelationalTable where
  columns : List ColumnSpec
  blockSize : UInt32
  blocks : List PaxBlock
  index : Table Int64 (UInt32 × UInt32)
  pending : List Row
  pendingCapacity : ℕ

namespace RelationalTable

def new (columns : List ColumnSpec) (blockSize : UInt32) : Except Halt RelationalTable :=
  if columns.isEmpty then
    .error (constraint "RelationalTable: schema must have >= 1 column")
  else if (pkIndex columns).isNone then
    .error (constraint "RelationalTable: schema must have a primary key column (mark one with .pk())")
  else .ok ⟨columns, blockSize, [], ∅, [], 512⟩

/-- The primary key of a row; every row has a value for each column. -/
def pkValue (t : RelationalTable) (row : Row) : Value := row.getD ((pkIndex t.columns).getD 0) .null

/-- The key that a sealed row is indexed by. -/
def indexKey (t : RelationalTable) (row : Row) : Int64 :=
  match t.pkValue row with
  | .i64 v => v
  | .u64 v => v.toInt64
  | _ => 0

/-- Append the pending rows to a block; the key and the number of each row. -/
def appendPending (fmt : TextFormat) (t : RelationalTable) (b : PaxBlockBuilder) :
    List Row → Except Halt (PaxBlockBuilder × List (Int64 × UInt32))
  | [] => .ok (b, [])
  | row :: rows =>
    match b.appendRow fmt row with
    | .error e => .error e
    | .ok next =>
      match appendPending fmt t next rows with
      | .error e => .error e
      | .ok (last, entries) => .ok (last, (t.indexKey row, b.rowCount) :: entries)

def flushPending (fmt : TextFormat) (t : RelationalTable) : Except Halt RelationalTable :=
  if t.pending.isEmpty then .ok t
  else
    match PaxBlockBuilder.new t.blockSize t.columns with
    | .error e => .error e
    | .ok b =>
      match appendPending fmt t b t.pending with
      | .error e => .error e
      | .ok (b, entries) =>
        match b.finalize with
        | .error e => .error e
        | .ok block =>
          let blockId := UInt32.ofNat t.blocks.length
          .ok { t with
            index := entries.foldl (fun index e => AList.insert e.1 (blockId, e.2) index) t.index
            blocks := t.blocks ++ [block]
            pending := [] }

def insert (fmt : TextFormat) (t : RelationalTable) (row : Row) : Except Halt RelationalTable :=
  if row.length ≠ t.columns.length then
    .error (constraint s!"insert: expected {t.columns.length} values, got {row.length}")
  else
    let t := { t with pending := t.pending ++ [row] }
    if t.pendingCapacity ≤ t.pending.length then t.flushPending fmt else .ok t

def findByPk (t : RelationalTable) (pk : Int64) : Except Halt (Option Row) :=
  match t.pending.reverse.find? fun row => t.pkValue row = .i64 pk with
  | some row => .ok (some row)
  | none =>
    match t.index.lookup pk with
    | none => .ok none
    | some (blockId, slot) =>
      match t.blocks[blockId.toNat]? with
      | none => .error .panic
      | some block => (block.materializeRow slot.toNat).map some

/-! ### Sealing the pending rows -/

variable {fmt : TextFormat} {t t' : RelationalTable}

/-- A row with the key that it is indexed by. -/
def entry (t : RelationalTable) (row : Row) : Int64 × Row := (t.indexKey row, row)

variable {rows : List Row} {batches : List (List Row)}

theorem appendPending_spec {b b' : PaxBlockBuilder} {entries : List (Int64 × UInt32)}
    (h : appendPending fmt t b rows = .ok (b', entries)) :
    b.appendRows fmt rows = .ok b' ∧
      entries = rows.mapIdx fun r row => (t.indexKey row, b.rowCount + UInt32.ofNat r) := by
  induction rows generalizing b entries with
  | nil =>
    rw [appendPending, Except.ok.injEq, Prod.mk.injEq] at h
    rw [← h.1, ← h.2]
    exact ⟨rfl, rfl⟩
  | cons row rows ih =>
    rw [appendPending] at h
    split at h
    · cases h
    · rename_i next hnext
      split at h
      · cases h
      · rename_i last rest hrest
        rw [Except.ok.injEq, Prod.mk.injEq] at h
        obtain ⟨rfl, rfl⟩ := h
        obtain ⟨hrows, rfl⟩ := ih hrest
        obtain ⟨-, -, -, hcount, -⟩ := PaxBlockBuilder.appendRow_spec hnext
        refine ⟨?_, ?_⟩
        · rw [PaxBlockBuilder.appendRows, hnext]
          exact hrows
        · have hshift (r : ℕ) : b.rowCount + 1 + UInt32.ofNat r = b.rowCount + UInt32.ofNat (r + 1) := by
            simp [UInt32.add_assoc, UInt32.add_comm]
          simp [hcount, mapIdx_cons, hshift]

/-- A flush of pending rows builds a block of them and indexes them. -/
theorem flushPending_eq (h : t.flushPending fmt = .ok t') (hne : t.pending ≠ []) :
    ∃ block, PaxBlockBuilder.build fmt t.blockSize t.columns t.pending = .ok block ∧ t' = { t with
        index := (Places.inBlock t.blocks.length (t.pending.map t.entry)).foldl
          (fun index e => AList.insert e.1 e.2 index) t.index
        blocks := t.blocks ++ [block]
        pending := [] } := by
  unfold flushPending at h
  rw [if_neg (by simpa using hne)] at h
  split at h
  · cases h
  · rename_i start hstart
    split at h
    · cases h
    · rename_i b entries hentries
      split at h
      · cases h
      · rename_i block hblock
        obtain ⟨hrows, rfl⟩ := appendPending_spec hentries
        have hcount : start.rowCount = 0 := by
          unfold PaxBlockBuilder.new at hstart
          split_ifs at hstart
          rw [← Except.ok.inj hstart]
        refine ⟨block, ?_, ?_⟩
        · unfold PaxBlockBuilder.build
          rw [hstart]
          dsimp only
          rw [hrows]
          exact hblock
        · have hplaces : Places.inBlock t.blocks.length (t.pending.map t.entry) =
              (t.pending.mapIdx fun r row => (t.indexKey row, start.rowCount + UInt32.ofNat r)).map
                fun e => (e.1, (UInt32.ofNat t.blocks.length, e.2)) := by
            apply ext_getElem?
            intro r
            simp [Places.inBlock, entry, hcount, Function.comp_def]
          rw [← Except.ok.inj h, hplaces, foldl_map]

/-! ### What a table holds -/

/-- A block that holds rows. -/
def HoldsRows (block : PaxBlock) (rows : List Row) : Prop :=
  rows.length < 2 ^ 32 ∧ ∀ (slot : ℕ) row, rows[slot]? = some row → block.materializeRow slot = .ok row

/-- The blocks hold the batches, and the index has the place of the last row of each key. -/
structure Stored (t : RelationalTable) (batches : List (List Row)) : Prop where
  size : t.blockSize.toNat + minipageAlign ≤ 2 ^ 32
  blocks : List.Forall₂ HoldsRows t.blocks batches
  index : ∀ k, t.index.lookup k = Table.lastOf (Places.all (batches.map (·.map t.entry))) k

/-- A flush can seal the pending rows: their block keeps them and has a number of 32 bits. -/
structure Sealable (t : RelationalTable) : Prop where
  kept : ∀ row ∈ t.pending, KeptRow t.columns row
  fit : ColumnsFit t.columns t.pending
  few : t.pending.length < 2 ^ 32
  number : t.blocks.length < 2 ^ 32

theorem stored_new {columns : List ColumnSpec} {blockSize : UInt32}
    (hsize : blockSize.toNat + minipageAlign ≤ 2 ^ 32) (h : new columns blockSize = .ok t) :
    Stored t [] := by
  unfold new at h
  split_ifs at h
  cases h
  exact ⟨hsize, .nil, fun _ => rfl⟩

/-- A flush seals the pending rows, if there are any. -/
theorem Stored.flush (h : Stored t batches) (hfew : t.blocks.length ≤ 2 ^ 32)
    (hseal : t.pending ≠ [] → Sealable t) (hflush : t.flushPending fmt = .ok t') :
    (∃ batches', Stored t' batches' ∧ batches'.flatten = batches.flatten ++ t.pending) ∧
      t'.blocks.length ≤ 2 ^ 32 ∧ t'.pending = [] ∧ t'.columns = t.columns ∧
      t'.pendingCapacity = t.pendingCapacity := by
  by_cases hempty : t.pending = []
  · rw [flushPending, hempty] at hflush
    cases hflush
    exact ⟨⟨batches, h, by rw [hempty, append_nil]⟩, hfew, hempty, rfl, rfl⟩
  · obtain ⟨block, hbuild, rfl⟩ := flushPending_eq hflush hempty
    have hseal := hseal hempty
    refine ⟨⟨batches ++ [t.pending], ⟨h.size, ?_, ?_⟩, by simp⟩, ?_, rfl, rfl, rfl⟩
    · refine rel_append h.blocks (.cons ⟨hseal.few, ?_⟩ .nil)
      intro slot row hrow
      exact materializeRow_kept hbuild h.size hseal.fit hseal.kept hseal.few hrow
    · intro k
      have hentry : ({ t with
          index := (Places.inBlock t.blocks.length (t.pending.map t.entry)).foldl
            (fun index e => AList.insert e.1 e.2 index) t.index
          blocks := t.blocks ++ [block]
          pending := [] } : RelationalTable).entry = t.entry := rfl
      show (List.foldl _ t.index _).lookup k = _
      rw [Table.lookup_foldl_insert, h.index, hentry, map_append, map_singleton,
        Places.all_append, Table.lastOf_append, length_map, h.blocks.length_eq]
    · have hnumber := hseal.number
      show (t.blocks ++ [block]).length ≤ 2 ^ 32
      rw [length_append, length_singleton]
      omega

theorem Stored.block (h : Stored t batches) {i : ℕ} (hi : batches[i]? = some rows) :
    ∃ block, t.blocks[i]? = some block ∧ HoldsRows block rows := by
  obtain ⟨hlt, rfl⟩ := List.getElem?_eq_some_iff.mp hi
  have hlt' : i < t.blocks.length := h.blocks.length_eq ▸ hlt
  exact ⟨t.blocks[i], getElem?_eq_getElem hlt', h.blocks.get hlt' hlt⟩

/-- A lookup searches the pending rows for the key as an `I64`, and then the sealed rows for the
indexed key. -/
theorem Stored.findByPk_eq (h : Stored t batches) (hfew : t.blocks.length ≤ 2 ^ 32) (k : Int64) :
    t.findByPk k = .ok ((t.pending.reverse.find? fun row => t.pkValue row = .i64 k).or
      (Table.lastOf (batches.flatten.map t.entry) k)) := by
  unfold findByPk
  cases t.pending.reverse.find? fun row => t.pkValue row = .i64 k with
  | some row => rfl
  | none =>
    dsimp only
    have hrows : ∀ es ∈ batches.map (·.map t.entry), es.length < 2 ^ 32 := by
      intro es hes
      obtain ⟨batch, hbatch, rfl⟩ := List.mem_map.mp hes
      obtain ⟨i, hi⟩ := mem_iff_getElem?.mp hbatch
      obtain ⟨block, -, hholds⟩ := h.block hi
      rw [length_map]
      exact hholds.1
    have hlen : (batches.map (·.map t.entry)).length ≤ 2 ^ 32 := by
      rw [length_map, ← h.blocks.length_eq]
      exact hfew
    rw [h.index, none_or, map_flatten]
    cases Places.lastOf_all hlen hrows k with
    | inl hnone => rw [hnone.1, hnone.2]
    | inr hsome =>
      obtain ⟨id, slot, es, row, hplace, hrow, hes, hslot⟩ := hsome
      rw [getElem?_map, map_eq_some_iff] at hes
      obtain ⟨batch, hbatch, rfl⟩ := hes
      rw [getElem?_map, map_eq_some_iff] at hslot
      obtain ⟨row', hrow', heq⟩ := hslot
      obtain ⟨-, rfl⟩ := Prod.mk.inj heq
      obtain ⟨block, hblock, hholds⟩ := h.block hbatch
      rw [hplace, hrow]
      dsimp only
      rw [hblock]
      dsimp only
      rw [hholds.2 slot.toNat row' hrow']
      rfl

end RelationalTable

end CenDB.Projection
