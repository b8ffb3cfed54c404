import CenDB.Projection.Relational

/-! # Lookups by primary key over a run

`Found` says that every lookup returns the row inserted last with the key.  The pending rows are
searched for an `I64`, and a sealed row is indexed by 0 unless its key is an `I64` or a `U64`; so
`Found` holds throughout in a table of `I64` keys, and `found_iff` says exactly when it does for
the other integer keys. -/

namespace CenDB.Projection

open CenDB.Storage List

namespace RelationalTable

/-- The integer primary key of a row. -/
def key (t : RelationalTable) (row : Row) : Option Int64 := zoneWord (t.pkValue row)

/-- The kind of the primary key. -/
def pkKind (columns : List ColumnSpec) : Option ValueKind :=
  (columns[(pkIndex columns).getD 0]?).map ColumnSpec.kind

/-- A table with the rows inserted so far. -/
structure Recorded where
  table : RelationalTable
  log : List Row

inductive Op where
  | insert (row : Row)
  | flush

def step (fmt : TextFormat) (s : Recorded) : Op → Option Recorded
  | .insert row => (s.table.insert fmt row).toOption.map fun t => ⟨t, s.log ++ [row]⟩
  | .flush => (s.table.flushPending fmt).toOption.map fun t => ⟨t, s.log⟩

namespace Recorded

variable {fmt : TextFormat} {s s' : Recorded} {sealedRows : List Row}

/-- The row inserted last with a key. -/
def lastInserted (s : Recorded) (k : Int64) : Option Row :=
  s.log.reverse.find? fun row => s.table.key row = some k

/-- Every lookup returns the row inserted last with the key. -/
def Found (s : Recorded) : Prop := ∀ k, s.table.findByPk k = .ok (s.lastInserted k)

/-- The rows that a call seals. -/
def batch (s : Recorded) : Op → List Row
  | .insert row =>
    if s.table.pendingCapacity ≤ s.table.pending.length + 1 then s.table.pending ++ [row] else []
  | .flush => s.table.pending

/-- Rows are stored as they are, and a block that is sealed keeps them and has a number of 32 bits. -/
def Storable (s : Recorded) (op : Op) : Prop :=
  (∀ row, op = .insert row → KeptRow s.table.columns row) ∧
    (s.batch op ≠ [] → ColumnsFit s.table.columns (s.batch op) ∧ s.table.blocks.length < 2 ^ 32)

/-- The inserted row can be found: its key is an `I64`, the lookup of its key returns an equal row
already, or the row fills the pending buffer and is indexed by its key. -/
def Findable (s : Recorded) : Op → Prop
  | .insert row =>
    pkKind s.table.columns = some .i64 ∨ (∃ k, s.table.key row = some k ∧ s.lastInserted k = some row) ∨
      (s.table.pendingCapacity ≤ s.table.pending.length + 1 ∧
        (pkKind s.table.columns = some .u64 ∨ s.table.key row = some 0))
  | .flush => True

/-! ### What holds along a run -/

/-- What holds of a table whose sealed rows are `sealedRows`. -/
structure Inv (s : Recorded) (sealedRows : List Row) : Prop where
  stored : ∃ batches, Stored s.table batches ∧ batches.flatten = sealedRows
  few : s.table.blocks.length ≤ 2 ^ 32
  log : s.log = sealedRows ++ s.table.pending
  kept : ∀ row ∈ s.log, KeptRow s.table.columns row ∧ row.length = s.table.columns.length
  capacity : s.table.pendingCapacity = 512
  pending : s.table.pending.length < 512
  kind : ∃ kind, pkKind s.table.columns = some kind ∧ (kind = .i64 ∨ kind = .u64 ∨ kind = .timestamp)

theorem toOption_map_eq_some {α β : Type} {e : Except Halt α} {f : α → β} {b : β}
    (h : e.toOption.map f = some b) : ∃ a, e = .ok a ∧ f a = b := by
  cases e with
  | error e => cases h
  | ok a => exact ⟨a, rfl, Option.some.inj h⟩

variable {t : RelationalTable} {kind : ValueKind} {op : Op}

/-- Sealing the pending rows of a table, for a log that ends with them. -/
theorem inv_flushed {u : RelationalTable} {log : List Row}
    (hstored : ∃ batches, Stored u batches ∧ batches.flatten = sealedRows) (hfew : u.blocks.length ≤ 2 ^ 32)
    (hlog : log = sealedRows ++ u.pending)
    (hkept : ∀ row ∈ log, KeptRow u.columns row ∧ row.length = u.columns.length)
    (hcapacity : u.pendingCapacity = 512) (hlen : u.pending.length ≤ 512)
    (hkind : ∃ kind, pkKind u.columns = some kind ∧ (kind = .i64 ∨ kind = .u64 ∨ kind = .timestamp))
    (hfit : u.pending ≠ [] → ColumnsFit u.columns u.pending ∧ u.blocks.length < 2 ^ 32)
    (hflush : u.flushPending fmt = .ok t) : Inv ⟨t, log⟩ log ∧ t.columns = u.columns := by
  obtain ⟨batches, hbatches, rfl⟩ := hstored
  have hseal (hne : u.pending ≠ []) : Sealable u :=
    ⟨fun row hrow => (hkept row (hlog ▸ mem_append_right _ hrow)).1, (hfit hne).1, by omega, (hfit hne).2⟩
  obtain ⟨⟨batches', hstored', hflat⟩, hfew', hpending, hcolumns, hcap⟩ := hbatches.flush hfew hseal hflush
  refine ⟨⟨⟨batches', hstored', hflat.trans hlog.symm⟩, hfew', ?_, ?_, hcap.trans hcapacity, ?_, ?_⟩, hcolumns⟩
  · simp [hpending]
  · show ∀ row ∈ log, KeptRow t.columns row ∧ row.length = t.columns.length
    rw [hcolumns]
    exact hkept
  · simp [hpending]
  · show ∃ kind, pkKind t.columns = some kind ∧ _
    rw [hcolumns]
    exact hkind

theorem Inv.flush (h : Inv s sealedRows) (hstorable : s.Storable .flush) (hstep : step fmt s .flush = some s') :
    Inv s' s'.log ∧ s'.log = s.log ∧ s'.table.columns = s.table.columns := by
  obtain ⟨t, hflush, rfl⟩ := toOption_map_eq_some hstep
  obtain ⟨hinv, hcolumns⟩ := inv_flushed h.stored h.few h.log h.kept h.capacity h.pending.le h.kind
    hstorable.2 hflush
  exact ⟨hinv, rfl, hcolumns⟩

variable {row : Row}

theorem Inv.insert (h : Inv s sealedRows) (hstorable : s.Storable (.insert row))
    (hstep : step fmt s (.insert row) = some s') :
    s'.log = s.log ++ [row] ∧ s'.table.columns = s.table.columns ∧
      (s.table.pendingCapacity ≤ s.table.pending.length + 1 → Inv s' s'.log) ∧
        (¬ s.table.pendingCapacity ≤ s.table.pending.length + 1 → Inv s' sealedRows) := by
  obtain ⟨t, hinsert, rfl⟩ := toOption_map_eq_some hstep
  unfold RelationalTable.insert at hinsert
  split at hinsert
  · cases hinsert
  · rename_i hlength
    rw [not_not] at hlength
    dsimp only at hinsert
    rw [length_append, length_singleton] at hinsert
    obtain ⟨batches, hbatches, hflat⟩ := h.stored
    have hlog : s.log ++ [row] = sealedRows ++ (s.table.pending ++ [row]) := by simp [h.log]
    have hkept : ∀ r ∈ s.log ++ [row], KeptRow s.table.columns r ∧ r.length = s.table.columns.length := by
      rw [forall_mem_append, forall_mem_singleton]
      exact ⟨h.kept, hstorable.1 row rfl, hlength⟩
    have hbatch := hstorable.2
    have hlen := h.pending
    unfold batch at hbatch
    dsimp only at hbatch
    by_cases hfull : s.table.pendingCapacity ≤ s.table.pending.length + 1
    · rw [if_pos hfull] at hinsert hbatch
      obtain ⟨hinv, hcolumns⟩ := inv_flushed (u := { s.table with pending := s.table.pending ++ [row] })
        ⟨batches, ⟨hbatches.size, hbatches.blocks, hbatches.index⟩, hflat⟩ h.few hlog hkept h.capacity
        (by rw [length_append, length_singleton]; omega) h.kind hbatch hinsert
      exact ⟨rfl, hcolumns, fun _ => hinv, fun hnot => absurd hfull hnot⟩
    · rw [if_neg hfull, Except.ok.injEq] at hinsert
      subst hinsert
      refine ⟨rfl, rfl, fun hfull' => absurd hfull' hfull, fun _ => ?_⟩
      refine ⟨⟨batches, ⟨hbatches.size, hbatches.blocks, hbatches.index⟩, hflat⟩, h.few, hlog, hkept,
        h.capacity, ?_, h.kind⟩
      have hcap := h.capacity
      show (s.table.pending ++ [row]).length < 512
      rw [length_append, length_singleton]
      omega

/-! ### Lookups by the kind of the key -/

/-- The primary key of a row of the log has the kind of its column. -/
theorem Inv.pkValue_kind (h : Inv s sealedRows) (hkind : pkKind s.table.columns = some kind)
    (hrow : row ∈ s.log) :
    (s.table.pkValue row).kind = kind := by
  obtain ⟨hkept, hlength⟩ := h.kept row hrow
  obtain ⟨spec, hspec, rfl⟩ := Option.map_eq_some_iff.mp hkind
  obtain ⟨hlt, -⟩ := List.getElem?_eq_some_iff.mp hspec
  have hvalue : row[(pkIndex s.table.columns).getD 0]? = some (s.table.pkValue row) := by
    rw [pkValue, getD_eq_getElem _ _ (by omega), getElem?_eq_getElem]
  refine (hkept _ (cell_mem hspec hvalue)).resolve_right fun hbytes => ?_
  obtain ⟨kind, hsome, hint⟩ := h.kind
  rw [hkind, Option.some.injEq] at hsome
  rw [← hsome, hbytes.1] at hint
  simp at hint

theorem Inv.findByPk (h : Inv s sealedRows) (k : Int64) :
    s.table.findByPk k = .ok ((s.table.pending.reverse.find? fun row => s.table.pkValue row = .i64 k).or
      (sealedRows.reverse.find? fun row => s.table.indexKey row = k)) := by
  obtain ⟨batches, hstored, rfl⟩ := h.stored
  rw [hstored.findByPk_eq h.few]
  exact congrArg (fun o => Except.ok (Option.or _ o)) (Table.lastOf_map_key _ _ k)

theorem Inv.lastInserted (h : Inv s sealedRows) (k : Int64) :
    s.lastInserted k = (s.table.pending.reverse.find? fun row => s.table.key row = some k).or
      (sealedRows.reverse.find? fun row => s.table.key row = some k) := by simp [Recorded.lastInserted, h.log]

/-- Two searches of rows of the log by tests that agree on keys of the kind. -/
theorem Inv.find_congr (h : Inv s sealedRows) (hkind : pkKind s.table.columns = some kind) {p q : Row → Bool}
    (hsame : ∀ row, (s.table.pkValue row).kind = kind → p row = q row) {rows : List Row}
    (hrows : ∀ row ∈ rows, row ∈ s.log) : rows.reverse.find? p = rows.reverse.find? q :=
  find?_congr fun row hrow =>
    hsame row (h.pkValue_kind hkind (hrows row (mem_reverse.mp hrow)))

theorem Inv.sealed_mem (h : Inv s sealedRows) : ∀ row ∈ sealedRows, row ∈ s.log := by
  intro row hrow
  rw [h.log]
  exact mem_append_left _ hrow

theorem Inv.pending_mem (h : Inv s sealedRows) : ∀ row ∈ s.table.pending, row ∈ s.log := by
  intro row hrow
  rw [h.log]
  exact mem_append_right _ hrow

/-- A table of `I64` keys finds every row. -/
theorem Inv.found_i64 (h : Inv s sealedRows) (hkind : pkKind s.table.columns = some .i64) : s.Found := by
  intro k
  rw [h.findByPk, h.lastInserted]
  have hpending (row : Row) (hrow : (s.table.pkValue row).kind = .i64) :
      decide (s.table.pkValue row = .i64 k) = decide (s.table.key row = some k) := by
    unfold key
    cases hv : s.table.pkValue row <;> simp [hv, Value.kind, zoneWord] at hrow ⊢
  have hsealed (row : Row) (hrow : (s.table.pkValue row).kind = .i64) :
      decide (s.table.indexKey row = k) = decide (s.table.key row = some k) := by
    unfold key indexKey
    cases hv : s.table.pkValue row <;> simp [hv, Value.kind, zoneWord] at hrow ⊢
  rw [h.find_congr hkind hpending h.pending_mem, h.find_congr hkind hsealed h.sealed_mem]

/-- No pending row of another kind is found. -/
theorem Inv.findByPk_sealed (h : Inv s sealedRows) (hkind : pkKind s.table.columns = some kind)
    (hne : kind ≠ .i64) (k : Int64) :
    s.table.findByPk k = .ok (sealedRows.reverse.find? fun row => s.table.indexKey row = k) := by
  have hnone : (s.table.pending.reverse.find? fun row => s.table.pkValue row = .i64 k) = none := by
    refine find?_eq_none.mpr fun row hrow hvalue => hne ?_
    rw [← h.pkValue_kind hkind (h.pending_mem row (mem_reverse.mp hrow)), of_decide_eq_true hvalue]
    rfl
  rw [h.findByPk, hnone, Option.none_or]

/-- In a table of `U64` keys the sealed rows are found. -/
theorem Inv.findByPk_u64 (h : Inv s sealedRows) (hkind : pkKind s.table.columns = some .u64) (k : Int64) :
    s.table.findByPk k = .ok (sealedRows.reverse.find? fun row => s.table.key row = some k) := by
  rw [h.findByPk_sealed hkind nofun]
  refine congrArg Except.ok (h.find_congr hkind (fun row hrow => ?_) h.sealed_mem)
  unfold key indexKey
  cases hv : s.table.pkValue row <;> simp [hv, Value.kind, zoneWord] at hrow ⊢

/-- In a table of timestamps every sealed row is found under 0. -/
theorem Inv.findByPk_timestamp (h : Inv s sealedRows)
    (hkind : pkKind s.table.columns = some .timestamp) (k : Int64) :
    s.table.findByPk k = .ok (sealedRows.reverse.find? fun _ => (0 : Int64) = k) := by
  rw [h.findByPk_sealed hkind nofun]
  refine congrArg Except.ok (h.find_congr hkind (fun row hrow => ?_) h.sealed_mem)
  unfold indexKey
  cases hv : s.table.pkValue row <;> simp [hv, Value.kind] at hrow ⊢

/-! ### When every row is found -/

theorem key_congr {t' : RelationalTable} (h : t'.columns = t.columns) : t'.key = t.key := by
  unfold key pkValue
  rw [h]

theorem Inv.key_isSome (h : Inv s sealedRows) (hrow : row ∈ s.log) : ∃ k, s.table.key row = some k := by
  obtain ⟨kind, hkind, hint⟩ := h.kind
  have hvalue := h.pkValue_kind hkind hrow
  unfold key
  cases hv : s.table.pkValue row <;> rw [hv] at hvalue <;> simp [Value.kind, zoneWord] at hvalue ⊢ <;>
    simp [← hvalue] at hint

/-- The rows inserted last, after one more. -/
theorem lastInserted_snoc (hlog : s'.log = s.log ++ [row]) (hcolumns : s'.table.columns = s.table.columns)
    (k : Int64) :
    s'.lastInserted k = if s.table.key row = some k then some row else s.lastInserted k := by
  rw [lastInserted, lastInserted, key_congr hcolumns, hlog, reverse_append,
    reverse_singleton, singleton_append, find?_cons]
  by_cases heq : s.table.key row = some k
  · simp [heq]
  · simp [heq]

/-- An insert that seals nothing keeps the lookups, so that the row must be there already. -/
theorem found_iff_of_unsealed (hfound : s.Found) (hlog : s'.log = s.log ++ [row])
    (hcolumns : s'.table.columns = s.table.columns) (hsame : ∀ k, s'.table.findByPk k = s.table.findByPk k)
    {k₀ : Int64} (hkey : s.table.key row = some k₀) : s'.Found ↔ s.lastInserted k₀ = some row := by
  constructor
  · intro h
    have hat := h k₀
    rw [hsame, hfound, lastInserted_snoc hlog hcolumns, if_pos hkey] at hat
    exact Except.ok.inj hat
  · intro h k
    rw [hsame, hfound, lastInserted_snoc hlog hcolumns]
    split
    · rename_i heq
      rw [hkey, Option.some.injEq] at heq
      rw [← heq, h]
    · rfl

/-- Timestamps that are all found are all 0. -/
theorem Inv.key_eq_zero (h : Inv s sealedRows) (hkind : pkKind s.table.columns = some .timestamp)
    (hfound : s.Found) (hrow : row ∈ s.log) : s.table.key row = some 0 := by
  obtain ⟨k, hk⟩ := h.key_isSome hrow
  by_cases hzero : 0 = k
  · rw [hk, hzero]
  · have hnone := hfound k
    rw [h.findByPk_timestamp hkind, Except.ok.injEq, find?_eq_none.mpr fun _ _ => by simpa using hzero,
      eq_comm] at hnone
    have hmiss := find?_eq_none.mp hnone row (mem_reverse.mpr hrow)
    simp [hk] at hmiss

theorem Inv.found_iff (h : Inv s sealedRows) (hfound : s.Found) (hstorable : s.Storable op)
    (hstep : step fmt s op = some s') : s'.Found ↔ s.Findable op := by
  obtain ⟨kind, hkind, hint⟩ := h.kind
  cases op with
  | flush =>
    obtain ⟨hinv, hlog, hcolumns⟩ := h.flush hstorable hstep
    have hkind' : pkKind s'.table.columns = some kind := by rw [hcolumns, hkind]
    refine iff_of_true ?_ trivial
    rcases hint with rfl | rfl | rfl
    · exact hinv.found_i64 hkind'
    · intro k
      rw [hinv.findByPk_u64 hkind']
      rfl
    · intro k
      have hzero (row : Row) (hrow : row ∈ s'.log) : s'.table.key row = some 0 := by
        rw [key_congr hcolumns]
        exact h.key_eq_zero hkind hfound (hlog ▸ hrow)
      rw [hinv.findByPk_timestamp hkind', Recorded.lastInserted]
      refine congrArg Except.ok (find?_congr fun row hrow => ?_)
      rw [hzero row (mem_reverse.mp hrow)]
      simp
  | insert row =>
    obtain ⟨hlog, hcolumns, hfull, hspare⟩ := h.insert hstorable hstep
    have hkind' : pkKind s'.table.columns = some kind := by rw [hcolumns, hkind]
    have hrow : row ∈ s'.log := by simp [hlog]
    by_cases hcap : s.table.pendingCapacity ≤ s.table.pending.length + 1
    · have hinv := hfull hcap
      obtain ⟨k₀, hk₀⟩ := hinv.key_isSome hrow
      rw [key_congr hcolumns] at hk₀
      rcases hint with rfl | rfl | rfl
      · exact iff_of_true (hinv.found_i64 hkind') (Or.inl hkind)
      · refine iff_of_true (fun k => ?_) (Or.inr (Or.inr ⟨hcap, Or.inl hkind⟩))
        rw [hinv.findByPk_u64 hkind']
        rfl
      · constructor
        · intro h'
          have hzero := hinv.key_eq_zero hkind' h' hrow
          rw [key_congr hcolumns] at hzero
          exact Or.inr (Or.inr ⟨hcap, Or.inr hzero⟩)
        · intro hfindable k
          have hzero : s.table.key row = some 0 := by
            rcases hfindable with hi64 | ⟨k, hk, hlast⟩ | ⟨-, hu64 | hzero⟩
            · rw [hkind] at hi64
              cases hi64
            · exact h.key_eq_zero hkind hfound (mem_reverse.mp (mem_of_find?_eq_some hlast))
            · rw [hkind] at hu64
              cases hu64
            · exact hzero
          have hall (r : Row) (hr : r ∈ s'.log) : s'.table.key r = some 0 := by
            rw [key_congr hcolumns]
            rw [hlog, mem_append, mem_singleton] at hr
            cases hr with
            | inl hold => exact h.key_eq_zero hkind hfound hold
            | inr heq => rw [heq, hzero]
          rw [hinv.findByPk_timestamp hkind', Recorded.lastInserted]
          refine congrArg Except.ok (find?_congr fun r hr => ?_)
          rw [hall r (mem_reverse.mp hr)]
          simp
    · have hinv := hspare hcap
      obtain ⟨k₀, hk₀⟩ := hinv.key_isSome hrow
      rw [key_congr hcolumns] at hk₀
      have hother (hne : kind ≠ .i64) : s'.Found ↔ s.Findable (.insert row) := by
        have hsame (k : Int64) : s'.table.findByPk k = s.table.findByPk k := by
          rw [hinv.findByPk_sealed hkind' hne, h.findByPk_sealed hkind hne]
          unfold indexKey pkValue
          rw [hcolumns]
        rw [found_iff_of_unsealed hfound hlog hcolumns hsame hk₀]
        constructor
        · intro hlast
          exact Or.inr (Or.inl ⟨k₀, hk₀, hlast⟩)
        · rintro (hi64 | ⟨k, hk, hlast⟩ | ⟨hcap', -⟩)
          · rw [hkind, Option.some.injEq] at hi64
            exact absurd hi64 hne
          · rw [hk₀, Option.some.injEq] at hk
            rw [hk, hlast]
          · omega
      rcases hint with rfl | rfl | rfl
      · exact iff_of_true (hinv.found_i64 hkind') (Or.inl hkind)
      · exact hother nofun
      · exact hother nofun

/-- One step keeps the invariant. -/
theorem Inv.step (h : Inv s sealedRows) (hstorable : s.Storable op) (hstep : step fmt s op = some s') :
    ∃ sealedRows', Inv s' sealedRows' := by
  cases op with
  | flush => exact ⟨_, (h.flush hstorable hstep).1⟩
  | insert row =>
    obtain ⟨-, -, hfull, hspare⟩ := h.insert hstorable hstep
    by_cases hcap : s.table.pendingCapacity ≤ s.table.pending.length + 1
    · exact ⟨_, hfull hcap⟩
    · exact ⟨_, hspare hcap⟩

theorem inv_new {columns : List ColumnSpec} {blockSize : UInt32} {table : RelationalTable}
    (hsize : blockSize.toNat + minipageAlign ≤ 2 ^ 32)
    (hnew : RelationalTable.new columns blockSize = .ok table)
    (hkind : ∃ kind, pkKind columns = some kind ∧ (kind = .i64 ∨ kind = .u64 ∨ kind = .timestamp)) :
    Inv ⟨table, []⟩ [] := by
  have hstored := stored_new hsize hnew
  unfold RelationalTable.new at hnew
  split_ifs at hnew
  cases hnew
  exact ⟨⟨[], hstored, rfl⟩, Nat.zero_le _, rfl, nofun, rfl, Nat.succ_pos 511, hkind⟩

/-- **When every row is found**: in a run of calls that succeed and whose blocks keep their rows,
every lookup returns the row inserted last exactly if every inserted row is `Findable`. -/
theorem found_throughout_iff {columns : List ColumnSpec} {blockSize : UInt32}
    {table : RelationalTable} (hsize : blockSize.toNat + minipageAlign ≤ 2 ^ 32)
    (hnew : RelationalTable.new columns blockSize = .ok table)
    (hkind : ∃ kind, pkKind columns = some kind ∧ (kind = .i64 ∨ kind = .u64 ∨ kind = .timestamp))
    {ops : List Op} (hstorable : Transition.Along (RelationalTable.step fmt) Storable ⟨table, []⟩ ops)
    (hrun : Transition.run (RelationalTable.step fmt) ⟨table, []⟩ ops = some s) :
    Transition.Throughout (RelationalTable.step fmt) Found ⟨table, []⟩ ops ↔
      Transition.Along (RelationalTable.step fmt) Findable ⟨table, []⟩ ops := by
  have hinv := inv_new hsize hnew hkind
  have hfound : Found ⟨table, []⟩ := by
    intro k
    rw [hinv.findByPk]
    unfold RelationalTable.new at hnew
    split_ifs at hnew
    obtain rfl := Except.ok.inj hnew
    rfl
  refine Transition.throughout_iff_along_of_side (I := fun s => (∃ rows, Inv s rows) ∧ s.Found)
    (fun s hs => hs.2) ?_ ?_ ⟨⟨_, hinv⟩, hfound⟩ hstorable hrun
  · rintro s op s' ⟨⟨rows, h⟩, hs⟩ hside hok hstep
    exact ⟨h.step hside hstep, (h.found_iff hs hside hstep).mpr hok⟩
  · rintro s op s' ⟨⟨rows, h⟩, hs⟩ hside hno hstep hfound'
    exact hno ((h.found_iff hs hside hstep).mp hfound')

/-! ### Two tables of one column -/

/-- A table of one key column. -/
def keysOf (kind : ValueKind) : RelationalTable := ⟨[(ColumnSpec.new 0 kind).pk], 512, [], ∅, [], 512⟩

theorem found_throughout_iff_i64 :
    Transition.Throughout (RelationalTable.step plainFormat) Found ⟨keysOf .i64, []⟩
      [.insert [.i64 5], .flush] := by
  have hruns : (Transition.run (RelationalTable.step plainFormat) ⟨keysOf .i64, []⟩
      [.insert [.i64 5], .flush]).isSome = true := by set_option maxRecDepth 8000 in decide
  obtain ⟨s, hrun⟩ := Option.isSome_iff_exists.mp hruns
  have hnew : RelationalTable.new [(ColumnSpec.new 0 .i64).pk] 512 = .ok (keysOf .i64) := rfl
  refine (found_throughout_iff (by decide) hnew ⟨.i64, rfl, Or.inl rfl⟩ ?_ hrun).mpr
    ⟨Or.inl rfl, fun _ _ => Transition.along_single.mpr trivial⟩
  refine Transition.along_cons_of ⟨?_, fun hne => absurd rfl hne⟩ rfl
    (Transition.along_single.mpr ⟨nofun, fun _ => ⟨columnsFit_raw (by decide) _, by decide⟩⟩)
  intro row hrow
  rw [Op.insert.injEq] at hrow
  subst hrow
  decide

/-- **A pending row with a `U64` key is not found.** -/
theorem pending_u64_not_found : RelationalTable.new [(ColumnSpec.new 0 .u64).pk] 512 = .ok (keysOf .u64) ∧
      ¬ Transition.Throughout (RelationalTable.step plainFormat) Found ⟨keysOf .u64, []⟩
        [.insert [.u64 5], .flush] := by
  refine ⟨rfl, fun hfound => ?_⟩
  have hlookup := hfound [.insert [.u64 5]] _ ⟨[.flush], rfl⟩ rfl 5
  exact absurd hlookup (by decide)

end Recorded

end RelationalTable

end CenDB.Projection
