import CenDB.Storage.PaxBlock

/-! # What the builder holds

After a successful sequence of appends every staging area holds its column of the rows
(`appendRows_staging`): the stored words of a column of fixed width (`pushAll_fixed`), the slots
and the heap of the others (`pushAll_var`).  The two ranges hold the extremes of their zone values
(`appendRows_range`). -/

namespace CenDB.Storage

open Words List

variable {fmt : TextFormat}

/-! ### Columns of rows -/

/-- The values of a column. -/
def columnOf (rows : List (List Value)) (i : ℕ) : List Value := rows.map fun row => row.getD i .null

/-- Push values one after the other. -/
def Staging.pushAll (fmt : TextFormat) (kind : ValueKind) : Staging → List Value → Except Halt Staging
  | s, [] => .ok s
  | s, v :: vs =>
    match s.push fmt kind v with
    | .error e => .error e
    | .ok s => s.pushAll fmt kind vs

/-- The zone values of the cells of a row. -/
def cellZones (flag : ColumnSpec → UInt8) (specs : List ColumnSpec) (row : List Value) : List Int64 :=
  (specs.zip row).filterMap fun cell => if flag cell.1 ≠ 0 then zoneWord cell.2 else none

theorem cellZones_single (flag : ColumnSpec → UInt8) (spec : ColumnSpec) (v : Value) :
    cellZones flag [spec] [v] = if flag spec ≠ 0 then (zoneWord v).toList else [] := by
  unfold cellZones
  cases hv : zoneWord v with
  | none => simp [hv]
  | some x => by_cases hflag : flag spec = 0 <;> simp [hv, hflag]

/-- The zone values of rows. -/
def zoneValues (flag : ColumnSpec → UInt8) (specs : List ColumnSpec) (rows : List (List Value)) :
    List Int64 := rows.flatMap (cellZones flag specs)

namespace PaxBlockBuilder

variable {b b' : PaxBlockBuilder}

/-- Everything that writing one value changes. -/
theorem writeValue_spec {colIdx : ℕ} {v : Value} (h : b.writeValue fmt colIdx v = .ok b') :
    ∃ spec staging staging', b.specs[colIdx]? = some spec ∧ b.staging[colIdx]? = some staging ∧
      staging.push fmt spec.kind v = .ok staging' ∧
      b' = { b with
        staging := b.staging.set colIdx staging'
        pkRange := (cellZones ColumnSpec.isPk [spec] [v]).foldl extendRange b.pkRange
        tsRange := (cellZones ColumnSpec.isTs [spec] [v]).foldl extendRange b.tsRange } := by
  unfold writeValue at h
  split at h
  · rename_i spec staging hspec hstaging
    split at h
    · cases h
    · rename_i staging' hpush
      refine ⟨spec, staging, staging', hspec, hstaging, hpush, ?_⟩
      have hb' := Except.ok.inj h
      rw [cellZones_single, cellZones_single]
      cases hv : zoneWord v with
      | none => simp [← hb', hv]
      | some x => by_cases hpk : spec.isPk = 0 <;> by_cases hts : spec.isTs = 0 <;>
        simp [← hb', hv, hpk, hts]
  · cases h

/-- A loop over columns pushes each value to its own column. -/
theorem writeValues_spec {k : ℕ} {vs : List Value} (h : b.writeValues fmt k vs = .ok b') :
    b'.specs = b.specs ∧ b'.blockSize = b.blockSize ∧ b'.rowCount = b.rowCount ∧
      b'.staging.length = b.staging.length ∧ (vs ≠ [] → k + vs.length ≤ b.specs.length) ∧
      b'.pkRange = (cellZones ColumnSpec.isPk (b.specs.drop k) vs).foldl extendRange b.pkRange ∧
      b'.tsRange = (cellZones ColumnSpec.isTs (b.specs.drop k) vs).foldl extendRange b.tsRange ∧
      (∀ i, i < k → b'.staging[i]? = b.staging[i]?) ∧
      ∀ i v, vs[i]? = some v → ∃ spec staging staging', b.specs[k + i]? = some spec ∧
        b.staging[k + i]? = some staging ∧ b'.staging[k + i]? = some staging' ∧
        staging.push fmt spec.kind v = .ok staging' := by
  induction vs generalizing b k with
  | nil =>
    rw [← Except.ok.inj h]
    refine ⟨rfl, rfl, rfl, rfl, fun hne => absurd rfl hne, ?_, ?_, fun i _ => rfl, ?_⟩
    · simp [cellZones]
    · simp [cellZones]
    · simp
  | cons v vs ih =>
    rw [writeValues] at h
    split at h
    · cases h
    · rename_i mid hmid
      obtain ⟨spec, staging, staging', hspec, hstaging, hpush, rfl⟩ := writeValue_spec hmid
      obtain ⟨hspecs, hsize, hcount, hlen, hfit, hpk, hts, hbefore, hafter⟩ := ih h
      dsimp only at hspecs hsize hcount hlen hfit hpk hts hbefore hafter
      obtain ⟨hk, hspec'⟩ := List.getElem?_eq_some_iff.mp hspec
      obtain ⟨hk', -⟩ := List.getElem?_eq_some_iff.mp hstaging
      have hcells (flag : ColumnSpec → UInt8) : cellZones flag (b.specs.drop k) (v :: vs) =
          cellZones flag [spec] [v] ++ cellZones flag (b.specs.drop (k + 1)) vs := by
        unfold cellZones
        rw [← filterMap_append, drop_eq_getElem_cons hk, hspec', zip_cons_cons]
        rfl
      refine ⟨hspecs, hsize, hcount, hlen.trans (length_set ..), fun _ => ?_, ?_, ?_, ?_, ?_⟩
      · rw [length_cons]
        cases hvs : vs with
        | nil =>
          rw [length_nil]
          omega
        | cons w ws =>
          have hroom := hfit (by rw [hvs]; exact cons_ne_nil w ws)
          rw [hvs] at hroom
          omega
      · simp [hpk, hcells]
      · simp [hts, hcells]
      · intro i hi
        rw [hbefore i (by omega), getElem?_set_ne (by omega)]
      · intro i w hw
        cases i with
        | zero =>
          rw [getElem?_cons_zero] at hw
          refine ⟨spec, staging, staging', hspec, hstaging, ?_, ?_⟩
          · rw [Nat.add_zero, hbefore k (Nat.lt_succ_self k), getElem?_set_self hk']
          · rw [← Option.some.inj hw]
            exact hpush
        | succ i =>
          rw [getElem?_cons_succ] at hw
          obtain ⟨spec₁, s₁, s₁', hspec₁, hs₁, hs₁', hpush₁⟩ := hafter i w hw
          have hshift : k + 1 + i = k + (i + 1) := by omega
          rw [hshift] at hspec₁ hs₁ hs₁'
          rw [getElem?_set_ne (by omega)] at hs₁
          exact ⟨spec₁, s₁, s₁', hspec₁, hs₁, hs₁', hpush₁⟩

/-- Everything that appending one row changes. -/
theorem appendRow_spec {row : List Value} (h : b.appendRow fmt row = .ok b') :
    row.length = b.specs.length ∧ b'.specs = b.specs ∧ b'.blockSize = b.blockSize ∧
      b'.rowCount = b.rowCount + 1 ∧ b'.staging.length = b.staging.length ∧
      b'.pkRange = (cellZones ColumnSpec.isPk b.specs row).foldl extendRange b.pkRange ∧
      b'.tsRange = (cellZones ColumnSpec.isTs b.specs row).foldl extendRange b.tsRange ∧
      ∀ (i : ℕ) spec, b.specs[i]? = some spec → ∃ staging staging',
        b.staging[i]? = some staging ∧ b'.staging[i]? = some staging' ∧
        staging.push fmt spec.kind (row.getD i .null) = .ok staging' := by
  unfold appendRow at h
  split at h
  · cases h
  · rename_i hlen
    rw [not_not] at hlen
    split at h
    · cases h
    · rename_i mid hmid
      obtain ⟨hspecs, hsize, hcount, hstaging, -, hpk, hts, -, hcells⟩ := writeValues_spec hmid
      rw [drop_zero] at hpk hts
      rw [← Except.ok.inj h]
      refine ⟨hlen, hspecs, hsize, by dsimp only; rw [hcount], hstaging, hpk, hts, ?_⟩
      intro i spec hspec
      obtain ⟨hi, -⟩ := List.getElem?_eq_some_iff.mp hspec
      have hrow : row[i]? = some (row.getD i .null) := by
        rw [getD_eq_getElem _ _ (by omega), getElem?_eq_getElem]
      obtain ⟨spec', s, s', hspec', hs, hs', hpush⟩ := hcells i _ hrow
      rw [Nat.zero_add] at hspec' hs hs'
      rw [hspec, Option.some.injEq] at hspec'
      rw [← hspec'] at hpush
      exact ⟨s, s', hs, hs', hpush⟩

/-- **Every staging area holds its column of the appended rows.** -/
theorem appendRows_spec {rows : List (List Value)} (h : b.appendRows fmt rows = .ok b') :
    (∀ row ∈ rows, row.length = b.specs.length) ∧ b'.specs = b.specs ∧
      b'.blockSize = b.blockSize ∧ b'.rowCount = b.rowCount + UInt32.ofNat rows.length ∧
      b'.staging.length = b.staging.length ∧
      b'.pkRange = (zoneValues ColumnSpec.isPk b.specs rows).foldl extendRange b.pkRange ∧
      b'.tsRange = (zoneValues ColumnSpec.isTs b.specs rows).foldl extendRange b.tsRange ∧
      ∀ (i : ℕ) spec staging, b.specs[i]? = some spec → b.staging[i]? = some staging →
        ∃ staging', b'.staging[i]? = some staging' ∧
          staging.pushAll fmt spec.kind (columnOf rows i) = .ok staging' := by
  induction rows generalizing b with
  | nil =>
    rw [← Except.ok.inj h]
    refine ⟨by simp, rfl, rfl, by simp, rfl, rfl, rfl, ?_⟩
    intro i spec staging _ hstaging
    exact ⟨staging, hstaging, rfl⟩
  | cons row rows ih =>
    rw [appendRows] at h
    split at h
    · cases h
    · rename_i mid hmid
      obtain ⟨hlen, hspecs, hsize, hcount, hstaging, hpk, hts, hcells⟩ := appendRow_spec hmid
      obtain ⟨hlen', hspecs', hsize', hcount', hstaging', hpk', hts', hcells'⟩ := ih h
      rw [hspecs] at hlen' hspecs' hpk' hts' hcells'
      refine ⟨forall_mem_cons.mpr ⟨hlen, hlen'⟩, hspecs', hsize'.trans hsize, ?_,
        hstaging'.trans hstaging, ?_, ?_, ?_⟩
      · have hone : UInt32.ofNat (rows.length + 1) = 1 + UInt32.ofNat rows.length := by simp [UInt32.add_comm]
        rw [hcount', hcount, length_cons, hone, UInt32.add_assoc]
      · rw [hpk', hpk, zoneValues, zoneValues, flatMap_cons, foldl_append]
      · rw [hts', hts, zoneValues, zoneValues, flatMap_cons, foldl_append]
      · intro i spec staging hspec hs
        obtain ⟨s, s₁, hs', hs₁, hpush⟩ := hcells i spec hspec
        rw [hs, Option.some.injEq] at hs'
        subst hs'
        obtain ⟨s₂, hs₂, hpushAll⟩ := hcells' i spec s₁ hspec hs₁
        refine ⟨s₂, hs₂, ?_⟩
        have hcolumn : columnOf (row :: rows) i = row.getD i .null :: columnOf rows i := rfl
        rw [hcolumn, Staging.pushAll, hpush]
        exact hpushAll

end PaxBlockBuilder

/-! ### Columns of fixed width -/

/-- The word that stands for a value: 0 for a null. -/
def storedWord (kind : ValueKind) (v : Value) : Int64 := (fixedWord kind v).getD 0

theorem fixedWord_null (kind : ValueKind) : fixedWord kind .null = none := by
  cases kind <;> rfl

/-- What a column of fixed width accepts, and what it stores. -/
theorem pushAll_fixed {kind stagKind : ValueKind} {vals : List Int64} {vs : List Value}
    {s : Staging} (h : (Staging.fixed stagKind vals).pushAll fmt kind vs = .ok s) :
    s = .fixed stagKind (vals ++ vs.map (storedWord kind)) ∧ ∀ v ∈ vs, v = .null ∨ (fixedWord kind v).isSome := by
  induction vs generalizing vals with
  | nil =>
    rw [← Except.ok.inj h]
    simp
  | cons v vs ih =>
    rw [Staging.pushAll, Staging.push] at h
    by_cases hnull : v = .null
    · rw [if_pos hnull] at h
      obtain ⟨hs, hrest⟩ := ih h
      refine ⟨?_, forall_mem_cons.mpr ⟨.inl hnull, hrest⟩⟩
      rw [hs, hnull, map_cons, storedWord, fixedWord_null, append_assoc]
      rfl
    · rw [if_neg hnull] at h
      cases hword : fixedWord kind v with
      | none =>
        rw [hword] at h
        cases h
      | some x =>
        rw [hword] at h
        obtain ⟨hs, hrest⟩ := ih h
        refine ⟨?_, forall_mem_cons.mpr ⟨.inr (by rw [hword]; rfl), hrest⟩⟩
        rw [hs, map_cons, storedWord, hword, append_assoc]
        rfl

/-! ### Columns of variable length -/

/-- The bytes that a column of variable length stores; none for a null. -/
def payload (fmt : TextFormat) : Value → Option (List UInt8)
  | .null => none
  | .bytes b => some b
  | v => some (valueToString fmt v).toUTF8.toList

/-- The heap of a column. -/
def heapOf (fmt : TextFormat) (vs : List Value) : List UInt8 := vs.flatMap fun v => (payload fmt v).getD []

/-- The slot of a value whose bytes start at an offset of the heap. -/
def slotOf (fmt : TextFormat) (off : ℕ) (v : Value) : UInt32 × UInt32 :=
  match payload fmt v with
  | none => (0, nullLen)
  | some p => (UInt32.ofNat off, UInt32.ofNat p.length)

/-- The slots of values whose bytes start at an offset of the heap. -/
def slotsFrom (fmt : TextFormat) : ℕ → List Value → List (UInt32 × UInt32)
  | _, [] => []
  | off, v :: vs => slotOf fmt off v :: slotsFrom fmt (off + ((payload fmt v).getD []).length) vs

theorem slotsFrom_cons (off : ℕ) (v : Value) (vs : List Value) : slotsFrom fmt off (v :: vs) =
    slotOf fmt off v :: slotsFrom fmt (off + ((payload fmt v).getD []).length) vs := rfl

theorem push_var (kind : ValueKind) (slots : List (UInt32 × UInt32)) (heap : List UInt8) (v : Value) :
    (Staging.var slots heap).push fmt kind v =
      .ok (.var (slots ++ [slotOf fmt heap.length v]) (heap ++ (payload fmt v).getD [])) := by
  cases v with
  | null => simp [Staging.push, slotOf, payload]
  | bytes b | bool b | i64 x | u64 x | f64 bits | timestamp x => rfl

theorem heapOf_cons (v : Value) (vs : List Value) :
    heapOf fmt (v :: vs) = (payload fmt v).getD [] ++ heapOf fmt vs := flatMap_cons

/-- What a column of variable length stores. -/
theorem pushAll_var (kind : ValueKind) (slots : List (UInt32 × UInt32)) (heap : List UInt8) (vs : List Value) :
    (Staging.var slots heap).pushAll fmt kind vs =
      .ok (.var (slots ++ slotsFrom fmt heap.length vs) (heap ++ heapOf fmt vs)) := by
  induction vs generalizing slots heap with
  | nil => simp [Staging.pushAll, slotsFrom, heapOf]
  | cons v vs ih =>
    rw [Staging.pushAll, push_var]
    dsimp only
    rw [ih, slotsFrom_cons, heapOf_cons, append_assoc, append_assoc, length_append]
    rfl

theorem length_slotsFrom (off : ℕ) (vs : List Value) : (slotsFrom fmt off vs).length = vs.length := by
  induction vs generalizing off with
  | nil => rfl
  | cons v vs ih => rw [slotsFrom_cons, length_cons, ih, length_cons]

/-- The slot of a row starts after the bytes of the rows before it. -/
theorem getElem?_slotsFrom (off : ℕ) (vs : List Value) (r : ℕ) : (slotsFrom fmt off vs)[r]? =
      vs[r]?.map (slotOf fmt (off + (heapOf fmt (vs.take r)).length)) := by
  induction vs generalizing off r with
  | nil => rfl
  | cons v vs ih =>
    rw [slotsFrom_cons]
    cases r with
    | zero => simp [heapOf]
    | succ r =>
      rw [getElem?_cons_succ, ih, getElem?_cons_succ, take_succ_cons, heapOf_cons, length_append, Nat.add_assoc]

/-- The heap around the bytes of a row. -/
theorem heapOf_split {vs : List Value} {r : ℕ} {v : Value} (h : vs[r]? = some v) : heapOf fmt vs =
      heapOf fmt (vs.take r) ++ ((payload fmt v).getD [] ++ heapOf fmt (vs.drop (r + 1))) := by
  obtain ⟨hr, hv⟩ := List.getElem?_eq_some_iff.mp h
  have hsplit : vs = vs.take r ++ v :: vs.drop (r + 1) := by
    rw [← hv, ← drop_eq_getElem_cons hr, take_append_drop]
  conv_lhs => rw [hsplit]
  rw [heapOf, flatMap_append, flatMap_cons]
  rfl

/-! ### Ranges -/

/-- A range that started empty holds the extremes of its values. -/
theorem foldl_extendRange (xs : List Int64) : xs.foldl extendRange none = match xs with
      | [] => none
      | x :: xs => some (minOf x xs, maxOf x xs) := by
  have hsome : ∀ (xs : List Int64) (lo hi : Int64),
      xs.foldl extendRange (some (lo, hi)) = some (minOf lo xs, maxOf hi xs) := by
    intro xs
    induction xs with
    | nil => exact fun lo hi => rfl
    | cons x xs ih => exact fun lo hi => ih _ _
  cases xs with
  | nil => rfl
  | cons x xs => exact hsome xs x x

end CenDB.Storage
