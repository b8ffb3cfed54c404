import CenDB.Lib.InPlace
import CenDB.Projection.Relational

/-! # A flush that loses rows

`flush_pending` takes the pending rows out of the table before it appends them to a block, so a row that is
refused, or a block that is full, leaves none of them: not the refused row, and not the rows around it.  The
calls here return the table that they leave, also when they fail; a success leaves the table of the other
modules (`flushPending_eq_result`, `insert_eq_result`). -/

namespace CenDB.Projection

open CenDB.Storage List

namespace RelationalTable

/-! ### Calls in place -/

def flushInPlace (fmt : TextFormat) (t : RelationalTable) : Except Halt Unit × RelationalTable :=
  if t.pending.isEmpty then (.ok (), t)
  else
    match PaxBlockBuilder.new t.blockSize t.columns with
    | .error e => (.error e, t)
    | .ok b =>
      -- the drained rows are gone, also when the loop over them ends early
      let drained := { t with pending := [] }
      match appendPending fmt t b t.pending with
      | .error e => (.error e, drained)
      | .ok (b, entries) =>
        match b.finalize with
        | .error e => (.error e, drained)
        | .ok block =>
          let blockId := UInt32.ofNat t.blocks.length
          (.ok (), { drained with
            index := entries.foldl (fun index e => AList.insert e.1 (blockId, e.2) index) t.index
            blocks := t.blocks ++ [block] })

def insertInPlace (fmt : TextFormat) (t : RelationalTable) (row : Row) : Except Halt Unit × RelationalTable :=
  if row.length ≠ t.columns.length then
    (.error (constraint s!"insert: expected {t.columns.length} values, got {row.length}"), t)
  else
    let t := { t with pending := t.pending ++ [row] }
    if t.pendingCapacity ≤ t.pending.length then t.flushInPlace fmt else (.ok (), t)

theorem flushPending_eq_result (fmt : TextFormat) (t : RelationalTable) :
    t.flushPending fmt = InPlace.result (t.flushInPlace fmt) := by
  unfold flushPending flushInPlace
  by_cases hempty : t.pending.isEmpty = true
  · rw [if_pos hempty, if_pos hempty]
    rfl
  · rw [if_neg hempty, if_neg hempty]
    cases PaxBlockBuilder.new t.blockSize t.columns with
    | error e => rfl
    | ok b =>
      dsimp only
      cases appendPending fmt t b t.pending with
      | error e => rfl
      | ok r =>
        dsimp only
        cases r.1.finalize with
        | error e | ok block => rfl

theorem insert_eq_result (fmt : TextFormat) (t : RelationalTable) (row : Row) :
    t.insert fmt row = InPlace.result (t.insertInPlace fmt row) := by
  unfold insert insertInPlace
  by_cases hlen : row.length ≠ t.columns.length
  · rw [if_pos hlen, if_pos hlen]
    rfl
  · rw [if_neg hlen, if_neg hlen]
    dsimp only
    by_cases hfull : t.pendingCapacity ≤ (t.pending ++ [row]).length
    · rw [if_pos hfull, if_pos hfull, flushPending_eq_result]
    · rw [if_neg hfull, if_neg hfull]
      rfl

/-! ### Scans -/

/-- What the iterator yields. -/
def iter (t : RelationalTable) : List (Except Halt Row) :=
  t.pending.map .ok ++ t.blocks.flatMap fun block =>
    (List.range block.header.rowCount.toNat).map block.materializeRow

/-- The integers of a column in the pending rows; a value of another kind is left out. -/
def scanPending (colIdx : ℕ) : List Row → Except Halt (List Int64)
  | [] => .ok []
  | row :: rows =>
    match row[colIdx]? with
    | none => .error .panic
    | some (.i64 v) => (scanPending colIdx rows).map (v :: ·)
    | some (.u64 v) => (scanPending colIdx rows).map (v.toInt64 :: ·)
    | some (.bool b) => (scanPending colIdx rows).map ((if b then 1 else 0) :: ·)
    | some _ => scanPending colIdx rows

def scanBlocks (colIdx : ℕ) : List PaxBlock → Except Halt (List Int64)
  | [] => .ok []
  | block :: blocks =>
    match block.decodeI64Column colIdx with
    | .error e => .error e
    | .ok vals => (scanBlocks colIdx blocks).map (vals ++ ·)

def scanColumnI64 (t : RelationalTable) (colIdx : ℕ) : Except Halt (List Int64) :=
  match scanBlocks colIdx t.blocks with
  | .error e => .error e
  | .ok out => (scanPending colIdx t.pending).map (out ++ ·)

/-- Every row that a lookup or a scan has returned is returned again. -/
structure KeepsRows (t t' : RelationalTable) : Prop where
  lookup : ∀ k row, t.findByPk k = .ok (some row) → t'.findByPk k = .ok (some row)
  iter : t.iter.Subperm t'.iter
  scan : ∀ colIdx < t.columns.length, ∀ vals, t.scanColumnI64 colIdx = .ok vals →
    ∃ vals', t'.scanColumnI64 colIdx = .ok vals' ∧ vals.Subperm vals'

variable {fmt : TextFormat} {t t' : RelationalTable} {row : Row} {e : Halt}

theorem KeepsRows.refl (t : RelationalTable) : KeepsRows t t :=
  ⟨fun _ _ h => h, List.Subperm.refl _, fun _ _ vals h => ⟨vals, h, List.Subperm.refl _⟩⟩

/-- A table without its pending rows keeps the rows only if there were none. -/
theorem keepsRows_drained : KeepsRows t { t' with pending := [] } → t'.blocks = t.blocks → t.pending = [] := by
  intro h hblocks
  have hlen := h.iter.length_le
  rw [iter, iter, hblocks, length_append, length_append, length_map, length_map] at hlen
  exact eq_nil_of_length_eq_zero (by rw [length_nil] at hlen; omega)

theorem scanPending_append {colIdx : ℕ} (hcol : colIdx < row.length) {rows : List Row} {vals : List Int64}
    (h : scanPending colIdx rows = .ok vals) :
    ∃ last, scanPending colIdx (rows ++ [row]) = .ok (vals ++ last) := by
  induction rows generalizing vals with
  | nil =>
    cases h
    rw [List.nil_append, scanPending, getElem?_eq_getElem hcol]
    cases row[colIdx] <;> exact ⟨_, rfl⟩
  | cons first rows ih =>
    rw [cons_append, scanPending]
    rw [scanPending] at h
    cases hfirst : first[colIdx]? with
    | none =>
      rw [hfirst] at h
      cases h
    | some v =>
      rw [hfirst] at h
      cases hrest : scanPending colIdx rows with
      | error e =>
        rw [hrest] at h
        cases v <;> cases h
      | ok rest =>
        rw [hrest] at h
        obtain ⟨last, hlast⟩ := ih hrest
        rw [hlast]
        cases v <;> (obtain rfl := Except.ok.inj h; exact ⟨last, rfl⟩)

/-- A row that is left pending keeps the rows that it does not hide. -/
theorem keepsRows_pending (hlen : row.length = t.columns.length) :
    KeepsRows t { t with pending := t.pending ++ [row] } ↔
      ∀ k found, t.pkValue row = .i64 k → t.findByPk k = .ok (some found) → found = row := by
  have hlast (k : Int64) : ({ t with pending := t.pending ++ [row] } : RelationalTable).findByPk k =
      if t.pkValue row = .i64 k then .ok (some row) else t.findByPk k := by
    unfold findByPk
    rw [reverse_append, reverse_singleton, singleton_append, find?_cons]
    by_cases hkey : t.pkValue row = .i64 k
    · rw [if_pos hkey]
      have hkey' : ({ t with pending := t.pending ++ [row] } : RelationalTable).pkValue row = .i64 k := hkey
      rw [decide_eq_true hkey']
    · rw [if_neg hkey]
      have hkey' : ¬({ t with pending := t.pending ++ [row] } : RelationalTable).pkValue row = .i64 k := hkey
      rw [decide_eq_false hkey']
      rfl
  constructor
  · intro h k found hkey hfound
    have hnow := h.lookup k found hfound
    rw [hlast, if_pos hkey] at hnow
    exact (Option.some.inj (Except.ok.inj hnow)).symm
  · intro h
    refine ⟨fun k found hfound => ?_, ?_, fun colIdx hcol vals hvals => ?_⟩
    · rw [hlast]
      by_cases hkey : t.pkValue row = .i64 k
      · rw [if_pos hkey, h k found hkey hfound]
      · rw [if_neg hkey, hfound]
    · unfold iter
      dsimp only
      rw [map_append]
      exact (List.Sublist.append (sublist_append_left _ _) (List.Sublist.refl _)).subperm
    · unfold scanColumnI64 at hvals ⊢
      dsimp only
      cases hout : scanBlocks colIdx t.blocks with
      | error e =>
        rw [hout] at hvals
        cases hvals
      | ok out =>
        rw [hout] at hvals
        cases hrest : scanPending colIdx t.pending with
        | error e =>
          rw [hrest] at hvals
          cases hvals
        | ok rest =>
          rw [hrest] at hvals
          cases hvals
          obtain ⟨last, hpending⟩ := scanPending_append (hlen ▸ hcol) hrest
          refine ⟨_, by dsimp only; rw [hpending]; rfl, ?_⟩
          dsimp only
          rw [← append_assoc]
          exact (sublist_append_left _ _).subperm

/-! ### Failed calls -/

/-- No block can be begun with these columns. -/
def Refused (columns : List ColumnSpec) : Prop :=
  columns = [] ∨ (1 < columns.countP fun s => s.isPk ≠ 0) ∨ 1 < columns.countP fun s => s.isTs ≠ 0

theorem new_error_iff (blockSize : UInt32) (columns : List ColumnSpec) :
    (∃ e, PaxBlockBuilder.new blockSize columns = .error e) ↔ Refused columns := by
  unfold PaxBlockBuilder.new Refused
  rw [← List.isEmpty_iff]
  split_ifs with hempty hpk hts
  · exact iff_of_true ⟨_, rfl⟩ (Or.inl hempty)
  · exact iff_of_true ⟨_, rfl⟩ (Or.inr (Or.inl hpk))
  · exact iff_of_true ⟨_, rfl⟩ (Or.inr (Or.inr hts))
  · refine iff_of_false nofun ?_
    rintro (h | h | h)
    · exact hempty h
    · exact hpk h
    · exact hts h

/-- What a flush that fails leaves. -/
theorem flush_error (h : t.flushInPlace fmt = (.error e, t')) :
    t.pending ≠ [] ∧ (Refused t.columns ∧ t' = t ∨ ¬Refused t.columns ∧ t' = { t with pending := [] }) := by
  unfold flushInPlace at h
  rw [← new_error_iff t.blockSize]
  by_cases hempty : t.pending.isEmpty = true
  · rw [if_pos hempty] at h
    cases h
  · rw [if_neg hempty] at h
    refine ⟨fun hnil => hempty (List.isEmpty_iff.mpr hnil), ?_⟩
    cases hstart : PaxBlockBuilder.new t.blockSize t.columns with
    | error e' =>
      rw [hstart] at h
      exact Or.inl ⟨⟨e', rfl⟩, (Prod.mk.inj h).2.symm⟩
    | ok b =>
      rw [hstart] at h
      refine Or.inr ⟨nofun, ?_⟩
      dsimp only at h
      cases hrows : appendPending fmt t b t.pending with
      | error e' =>
        rw [hrows] at h
        exact (Prod.mk.inj h).2.symm
      | ok r =>
        rw [hrows] at h
        dsimp only at h
        cases hblock : r.1.finalize with
        | error e' =>
          rw [hblock] at h
          exact (Prod.mk.inj h).2.symm
        | ok block =>
          rw [hblock] at h
          cases h

/-- **A failed flush keeps the rows if and only if no block could be begun.**  A failed insertion keeps them if
and only if its row has the wrong length, or no block could be begun and no other row is hidden by the one that
stays pending, or nothing was pending. -/
theorem failed_call_keepsRows_iff (fmt : TextFormat) (t : RelationalTable) :
    (∀ e t', t.flushInPlace fmt = (.error (.error e), t') → (KeepsRows t t' ↔ Refused t.columns)) ∧
      ∀ row e t', t.insertInPlace fmt row = (.error (.error e), t') →
        (KeepsRows t t' ↔ row.length ≠ t.columns.length ∨ ¬Refused t.columns ∧ t.pending = [] ∨
          Refused t.columns ∧
            ∀ k found, t.pkValue row = .i64 k → t.findByPk k = .ok (some found) → found = row) := by
  constructor
  · intro e t' h
    obtain ⟨hpending, ⟨hrefused, rfl⟩ | ⟨hbegun, rfl⟩⟩ := flush_error h
    · exact iff_of_true (.refl t') hrefused
    · exact iff_of_false (fun hkeeps => hpending (keepsRows_drained hkeeps rfl)) hbegun
  · intro row e t' h
    unfold insertInPlace at h
    by_cases hlen : row.length ≠ t.columns.length
    · rw [if_pos hlen] at h
      obtain rfl := (Prod.mk.inj h).2
      exact iff_of_true (.refl t) (Or.inl hlen)
    · rw [if_neg hlen] at h
      dsimp only at h
      rw [or_iff_right hlen]
      by_cases hfull : t.pendingCapacity ≤ (t.pending ++ [row]).length
      · rw [if_pos hfull] at h
        obtain ⟨-, ⟨hrefused, rfl⟩ | ⟨hbegun, rfl⟩⟩ := flush_error h
        · have hrefused : Refused t.columns := hrefused
          rw [or_iff_right fun hnot => hnot.1 hrefused, and_iff_right hrefused]
          exact keepsRows_pending (not_not.mp hlen)
        · have hbegun : ¬Refused t.columns := hbegun
          rw [or_iff_left fun hnot => hbegun hnot.1, and_iff_right hbegun]
          refine ⟨fun hkeeps => keepsRows_drained hkeeps rfl, fun hpending => ?_⟩
          have hsame : ({ t with pending := [] } : RelationalTable) = t := by
            rw [← hpending]
          exact hsame ▸ .refl t
      · rw [if_neg hfull] at h
        cases h

/-- A table of one integer column. -/
def keyTable (blockSize : UInt32) (pending : List Row) : RelationalTable :=
  ⟨[{ ColumnSpec.new 0 .i64 with isPk := 1 }], blockSize, [], ∅, pending, 512⟩

/-- **A row is lost with a later one that is refused, and with a block that is full.** -/
theorem failed_flush_loses : (((keyTable 16384 [[.i64 1], [.bool true]]).flushInPlace plainFormat).1 =
          .error (constraint "append_row: cannot store Bool(true) in column of kind I64") ∧
        ¬KeepsRows (keyTable 16384 [[.i64 1], [.bool true]])
          ((keyTable 16384 [[.i64 1], [.bool true]]).flushInPlace plainFormat).2) ∧
      ((keyTable 128 [[.i64 1]]).flushInPlace plainFormat).1 =
          .error (constraint "PaxBlockBuilder: block overflow — need 138 bytes, block size is 128") ∧
        ¬KeepsRows (keyTable 128 [[.i64 1]]) ((keyTable 128 [[.i64 1]]).flushInPlace plainFormat).2 := by
  refine ⟨⟨by decide, fun h => ?_⟩, by decide, fun h => ?_⟩
  · have hfound := h.lookup 1 [.i64 1] (by decide)
    revert hfound
    decide
  · have hfound := h.lookup 1 [.i64 1] (by decide)
    revert hfound
    decide

end RelationalTable

end CenDB.Projection
