import CenDB.Storage.PaxRoundTrip

/-! # Nulls in a block

A null of a bytes column has a slot of its own; a null of a column of fixed width is stored as the
word 0 and comes back as a value, since the null bitmap is left zeroed
(`null_materializes_as_zero`).  A column of kind null holds nothing, so it gives nulls only, and an
encoded boolean column cannot be materialized at all.  `materializeRow_nulls` says which cells keep
their nulls. -/

namespace CenDB.Storage

open Words List

variable {fmt : TextFormat}

def Value.isNull (v : Value) : Bool := decide (v = .null)

/-- A cell that comes back null exactly when it was null. -/
def KeepsNull (spec : ColumnSpec) (v : Value) : Prop :=
  (v = .null → spec.kind.fixedWidth = 0) ∧ (spec.kind = .null → v = .null) ∧
    (spec.kind = .bool → spec.encoding = .raw)

instance (spec : ColumnSpec) (v : Value) : Decidable (KeepsNull spec v) :=
  inferInstanceAs (Decidable ((v = .null → spec.kind.fixedWidth = 0) ∧
    (spec.kind = .null → v = .null) ∧ (spec.kind = .bool → spec.encoding = .raw)))

section Cells

variable {specs : List ColumnSpec} {rows : List (List Value)} {block : PaxBlock}
  {varheap : List UInt8} {i r : ℕ} {spec : ColumnSpec} {row : List Value} {v : Value}

/-- Reading a word never gives a null. -/
theorem indexInto_isNull {vals : Except Halt (List Int64)} {kind : ValueKind}
    (hwidth : kind.fixedWidth ≠ 0) {out : Value}
    (h : PaxBlock.indexInto vals r (wordValue kind) = .ok out) : out.isNull = false := by
  unfold PaxBlock.indexInto at h
  split at h
  · cases h
  · split at h
    · cases h
    · rw [← Except.ok.inj h]
      cases kind with
      | null | bytes => exact absurd rfl hwidth
      | bool | i64 | u64 | f64 | timestamp => rfl

/-- A cell of fixed width comes back, as a value, unless its column is boolean and encoded. -/
theorem Built.materializeValue_isNull (hb : Built fmt specs rows block varheap)
    (hspec : specs[i]? = some spec) (hwidth : spec.kind.fixedWidth ≠ 0)
    (hr : r < rows.length % 2 ^ 32) :
    (∃ out, block.materializeValue r i = .ok out) ↔ (spec.kind = .bool → spec.encoding = .raw) := by
  obtain ⟨-, dir, page, hwords⟩ := hb.hasWords hspec hwidth
  have hlen : ((columnOf rows i).map (storedWord spec.kind)).length = rows.length := by simp [columnOf]
  generalize (columnOf rows i).map (storedWord spec.kind) = vals at hwords hlen
  rw [← hlen] at hwords hr
  rw [materializeValue_fixed hwords.directory hwords.kind hwidth]
  have hindex {out : List Int64} (hout : r < out.length) :
      ∃ v, PaxBlock.indexInto (.ok out) r (wordValue spec.kind) = .ok v := by simp [PaxBlock.indexInto, hout]
  by_cases hbool : spec.kind = .bool
  · rw [if_pos hbool]
    have hused : usedEncoding spec vals = spec.encoding := by
      rw [usedEncoding, if_neg (by simp [hbool])]
    by_cases hraw : spec.encoding = .raw
    · rw [hwords.columnView_raw (hused.trans hraw)]
      exact iff_of_true (hindex (lt_of_lt_of_le hr (Nat.mod_le _ _))) fun _ => hraw
    · obtain ⟨e, he⟩ := hwords.columnView_encoded
        (hwords.page_ne_nil (by omega) hb.length_buf) (by rw [hused]; exact hraw)
      rw [he]
      refine iff_of_false ?_ fun h => hraw (h hbool)
      rintro ⟨out, hout⟩
      cases hout
  · rw [if_neg hbool]
    have hne : vals ≠ [] := fun hnil => by simp [hnil] at hr
    obtain ⟨out, hdecode, hout⟩ := hwords.length_decodeI64Column hne hb.length_buf
    rw [hdecode]
    exact iff_of_true (hindex (by rw [hout]; exact hr)) fun h => absurd h hbool

theorem payload_eq_none : payload fmt v = none ↔ v = .null := by
  cases v <;> simp [payload]

/-- **A cell keeps its null exactly as `KeepsNull` says.** -/
theorem Built.keepsNull (hb : Built fmt specs rows block varheap) (hspec : specs[i]? = some spec)
    (hrow : rows[r]? = some row) (hv : row[i]? = some v) (hr : r < rows.length % 2 ^ 32) :
    (∃ out, block.materializeValue r i = .ok out ∧ out.isNull = v.isNull) ↔ KeepsNull spec v := by
  obtain ⟨_, dir, _, _, _, _, _, _, hhas⟩ := hb.column i spec hspec
  have hdir := hhas.directory
  have hkindByte := hhas.entry.1
  by_cases hwidth : spec.kind.fixedWidth = 0
  · cases hkind : spec.kind with
    | null =>
      have hread : block.materializeValue r i = .ok .null := by
        unfold PaxBlock.materializeValue
        rw [hdir]
        dsimp only
        rw [hkindByte, hkind, ValueKind.fromU8_toU8]
      rw [hread]
      simp [KeepsNull, hkind, Value.isNull, ValueKind.fixedWidth, eq_comm]
    | bytes =>
      have hcol := getElem?_columnOf (i := i) hrow
      rw [getD_eq_getElem?_getD, hv, Option.getD_some] at hcol
      rw [hkind] at hkindByte
      rw [materializeValue_bytes hdir hkindByte (hb.varValue_eq hspec hkind hcol)]
      refine iff_of_true ⟨_, rfl, ?_⟩ ⟨fun _ => hwidth, by simp [hkind], by simp [hkind]⟩
      cases hp : payload fmt v with
      | none => rw [payload_eq_none.mp hp]; rfl
      | some p =>
        have hne : v ≠ .null := fun h => by simp [payload_eq_none.mpr h] at hp
        simp [Value.isNull, hne]
    | _ => simp [hkind, ValueKind.fixedWidth] at hwidth
  · have hiff := hb.materializeValue_isNull hspec hwidth hr
    have hvalue {out : Value} (hout : block.materializeValue r i = .ok out) : out.isNull = false := by
      rw [materializeValue_fixed hdir hkindByte hwidth] at hout
      exact indexInto_isNull hwidth hout
    constructor
    · rintro ⟨out, hout, hsame⟩
      rw [hvalue hout] at hsame
      refine ⟨fun hnull => ?_, fun hkind => ?_, hiff.mp ⟨out, hout⟩⟩
      · rw [hnull] at hsame
        cases hsame
      · rw [hkind] at hwidth
        exact absurd rfl hwidth
    · rintro ⟨hnull, -, hbool⟩
      obtain ⟨out, hout⟩ := hiff.mpr hbool
      refine ⟨out, hout, ?_⟩
      rw [hvalue hout, Value.isNull, eq_comm, decide_eq_false_iff_not]
      exact fun h => hwidth (hnull h)

/-- A row keeps its nulls exactly when each of its cells does. -/
theorem Built.keepsNulls (hb : Built fmt specs rows block varheap) (hrow : rows[r]? = some row)
    (hr : r < rows.length % 2 ^ 32) :
    (∃ out, block.materializeRow r = .ok out ∧ out.map Value.isNull = row.map Value.isNull) ↔
      ∀ cell ∈ specs.zip row, KeepsNull cell.1 cell.2 := by
  have hlen := hb.length_row row (mem_of_getElem? hrow)
  rw [hb.materializeRow_eq hr]
  constructor
  · rintro ⟨out, hout, hsame⟩ ⟨spec, v⟩ hcell
    obtain ⟨i, hi⟩ := mem_iff_getElem?.mp hcell
    obtain ⟨hspec, hv⟩ := getElem?_zip_eq_some.mp hi
    rw [materializeValues_eq_ok, forall₂_iff_get] at hout
    obtain ⟨hlenOut, hout⟩ := hout
    obtain ⟨hi', -⟩ := List.getElem?_eq_some_iff.mp hspec
    rw [← length_range (n := specs.length)] at hi'
    have hread := hout i hi' (hlenOut ▸ hi')
    simp only [get_eq_getElem, getElem_range] at hread
    refine (hb.keepsNull hspec hrow hv hr).mp ⟨_, hread, ?_⟩
    have hat := congrArg (·[i]?) hsame
    simpa [getElem?_map, hv, getElem?_eq_getElem (hlenOut ▸ hi')] using hat
  · intro hcells
    have hcell : ∀ i, i < specs.length → ∃ out, block.materializeValue r i = .ok out ∧
        out.isNull = (row.getD i .null).isNull := by
      intro i hi
      have hspec := getElem?_eq_getElem hi
      have hv : row[i]? = some (row.getD i .null) := by
        rw [getD_eq_getElem _ _ (by omega), getElem?_eq_getElem]
      exact (hb.keepsNull hspec hrow hv hr).mpr (hcells _ (cell_mem hspec hv))
    have : Nonempty Value := ⟨.null⟩
    choose! f hread hsame using hcell
    refine ⟨(List.range specs.length).map f, ?_, ?_⟩
    · rw [materializeValues_eq_ok, forall₂_map_right_iff, forall₂_same]
      exact fun i hi => hread i (mem_range.mp hi)
    · apply ext_getElem
      · simp [hlen]
      · intro i hi hi'
        rw [length_map, length_map, length_range] at hi
        rw [length_map] at hi'
        simp only [getElem_map, getElem_range]
        rw [hsame i hi, getD_eq_getElem _ _ hi']

end Cells

/-- **Nulls are kept exactly in the cells that `KeepsNull` names**: not in a column of fixed width,
where a null comes back as the value of the word 0. -/
theorem materializeRow_nulls (blockSize : UInt32) (specs : List ColumnSpec)
    (rows : List (List Value)) (block : PaxBlock)
    (h : PaxBlockBuilder.build fmt blockSize specs rows = .ok block)
    (hsize : blockSize.toNat + minipageAlign ≤ 2 ^ 32) :
    (∀ r row, rows[r]? = some row → r < block.header.rowCount.toNat →
      ∃ out, block.materializeRow r = .ok out ∧ out.map Value.isNull = row.map Value.isNull) ↔
    ∀ row ∈ rows.take (rows.length % 2 ^ 32), ∀ cell ∈ specs.zip row, KeepsNull cell.1 cell.2 := by
  obtain ⟨varheap, hb⟩ := build_spec h hsize
  rw [hb.rowCount, UInt32.toNat_ofNat']
  constructor
  · intro hkept row hmem
    obtain ⟨r, hr⟩ := mem_iff_getElem?.mp hmem
    obtain ⟨hlt, -⟩ := List.getElem?_eq_some_iff.mp hr
    rw [length_take] at hlt
    rw [getElem?_take_of_lt (by omega)] at hr
    exact (hb.keepsNulls hr (by omega)).mp (hkept r row hr (by omega))
  · intro hcells r row hrow hr
    refine (hb.keepsNulls hrow hr).mpr (hcells row (mem_iff_getElem?.mpr ⟨r, ?_⟩))
    rw [getElem?_take_of_lt hr, hrow]

/-- A null of an integer column, and one of a bytes column. -/
theorem build_null : (PaxBlockBuilder.build plainFormat 256 [.new 0 .i64] [[.null]]).map
      (fun block => (block.header.rowCount.toNat, block.materializeRow 0)) = .ok (1, .ok [.i64 0]) ∧
    (PaxBlockBuilder.build plainFormat 256 [.new 0 .bytes] [[.null]]).map
      (fun block => block.header.rowCount.toNat) = .ok 1 := by
  decide +kernel

/-- A null of an integer column comes back as the integer 0. -/
theorem null_materializes_as_zero :
    ∃ block, PaxBlockBuilder.build plainFormat 256 [.new 0 .i64] [[.null]] = .ok block ∧
      ¬ ∀ r row, ([[.null]] : List (List Value))[r]? = some row → r < block.header.rowCount.toNat →
          ∃ out, block.materializeRow r = .ok out ∧ out.map Value.isNull = row.map Value.isNull := by
  have hrun := build_null.1
  cases hbuild : PaxBlockBuilder.build plainFormat 256 [.new 0 .i64] [[.null]] with
  | error e =>
    rw [hbuild] at hrun
    cases hrun
  | ok block =>
    rw [hbuild] at hrun
    obtain ⟨hcount, hrow⟩ := Prod.mk.inj (Except.ok.inj hrun)
    refine ⟨block, rfl, fun hkept => ?_⟩
    obtain ⟨out, hout, hsame⟩ := hkept 0 [.null] rfl (by omega)
    rw [← Except.ok.inj (hrow.symm.trans hout)] at hsame
    exact absurd hsame (by decide)

/-- A null of a bytes column comes back. -/
theorem materializeRow_nulls_bytes :
    ∃ block, PaxBlockBuilder.build plainFormat 256 [.new 0 .bytes] [[.null]] = .ok block ∧
      ∃ out, block.materializeRow 0 = .ok out ∧ out.map Value.isNull = [true] := by
  have hrun := build_null.2
  cases hbuild : PaxBlockBuilder.build plainFormat 256 [.new 0 .bytes] [[.null]] with
  | error e =>
    rw [hbuild] at hrun
    cases hrun
  | ok block =>
    rw [hbuild] at hrun
    have hcount : block.header.rowCount.toNat = 1 := Except.ok.inj hrun
    exact ⟨block, rfl, (materializeRow_nulls 256 [.new 0 .bytes] [[.null]] block hbuild
      (by decide)).mpr (by decide) 0 [.null] rfl (by omega)⟩

end CenDB.Storage
