import CenDB.Storage.PaxRoundTrip

/-! # Rows that come back

A row comes back from its block as it was appended when every value is of its column's kind (a null
may stand in a bytes column) and the encodings of the columns fit the block (`materializeRow_kept`).
Columns without an encoding of their own always fit (`columnsFit_raw`). -/

namespace CenDB.Storage

open List

variable {fmt : TextFormat}

/-- A value that its column stores as it is. -/
def Kept (spec : ColumnSpec) (v : Value) : Prop := v.kind = spec.kind ∨ (spec.kind = .bytes ∧ v = .null)

instance (spec : ColumnSpec) (v : Value) : Decidable (Kept spec v) :=
  inferInstanceAs (Decidable (v.kind = spec.kind ∨ (spec.kind = .bytes ∧ v = .null)))

/-- A row whose values are stored as they are. -/
def KeptRow (specs : List ColumnSpec) (row : List Value) : Prop := ∀ cell ∈ specs.zip row, Kept cell.1 cell.2

instance (specs : List ColumnSpec) (row : List Value) : Decidable (KeptRow specs row) :=
  inferInstanceAs (Decidable (∀ cell ∈ specs.zip row, Kept cell.1 cell.2))

/-- The encodings of the columns of fixed width fit the rows of a block. -/
def ColumnsFit (specs : List ColumnSpec) (rows : List (List Value)) : Prop :=
  ∀ (i : ℕ) spec, specs[i]? = some spec → spec.kind.fixedWidth ≠ 0 →
    Fits (usedEncoding spec ((columnOf rows i).map (storedWord spec.kind)))
      ((columnOf rows i).map (storedWord spec.kind)) ∧ (spec.kind = .bool → spec.encoding = .raw)

theorem columnsFit_raw {specs : List ColumnSpec} (hraw : ∀ spec ∈ specs, spec.encoding = .raw)
    (rows : List (List Value)) : ColumnsFit specs rows := by
  intro i spec hspec _
  have henc := hraw spec (mem_of_getElem? hspec)
  exact ⟨fits_usedEncoding henc _, fun _ => henc⟩

variable {specs : List ColumnSpec} {rows : List (List Value)} {block : PaxBlock}
  {varheap : List UInt8} {i r : ℕ} {spec : ColumnSpec} {row : List Value} {v : Value}

/-- A cell comes back as it was. -/
theorem Built.materializeValue_kept (hb : Built fmt specs rows block varheap)
    (hfit : ColumnsFit specs rows) (hspec : specs[i]? = some spec) (hrow : rows[r]? = some row)
    (hv : row[i]? = some v) (hfew : rows.length < 2 ^ 32) (hkept : Kept spec v) :
    block.materializeValue r i = .ok v := by
  obtain ⟨_, dir, _, _, _, _, _, _, hhas⟩ := hb.column i spec hspec
  have hdir := hhas.entry.1
  have hcol := getElem?_columnOf (i := i) hrow
  rw [getD_eq_getElem?_getD, hv, Option.getD_some] at hcol
  by_cases hwidth : spec.kind.fixedWidth = 0
  · cases hkind : spec.kind with
    | null =>
      have hnull : v = .null := by
        have hsame : v.kind = .null := hkept.elim (hkind ▸ ·) fun h => absurd (hkind ▸ h.1) nofun
        cases v <;> simp [Value.kind] at hsame ⊢
      unfold PaxBlock.materializeValue
      rw [hhas.directory]
      dsimp only
      rw [hdir, hkind, ValueKind.fromU8_toU8, hnull]
    | bytes =>
      rw [hkind] at hdir
      rw [materializeValue_bytes hhas.directory hdir (hb.varValue_eq hspec hkind hcol)]
      cases hkept with
      | inl hsame =>
        rw [hkind] at hsame
        cases v <;> simp [Value.kind, payload] at hsame ⊢
      | inr hnull =>
        rw [hnull.2]
        rfl
    | _ => simp [hkind, ValueKind.fixedWidth] at hwidth
  · have hkind : v.kind = spec.kind := by
      refine hkept.resolve_right fun h => hwidth ?_
      rw [h.1]
      rfl
    obtain ⟨w, hw⟩ : ∃ w, fixedWord spec.kind v = some w := by
      rw [← hkind] at hwidth ⊢
      cases v <;> simp [fixedWord, Value.kind, ValueKind.fixedWidth] at hwidth ⊢
    have hword : ((columnOf rows i).map (storedWord spec.kind))[r]? = some w := by
      rw [getElem?_map, hcol]
      simp [storedWord, hw]
    obtain ⟨hfits, hbool⟩ := hfit i spec hspec hwidth
    rw [materializeValue_fixed hhas.directory hdir hwidth]
    by_cases hb' : spec.kind = .bool
    · obtain ⟨-, dir', page, hwords⟩ := hb.hasWords hspec hwidth
      have hraw : usedEncoding spec ((columnOf rows i).map (storedWord spec.kind)) = .raw := by
        rw [usedEncoding, if_neg (by simp [hb']), hbool hb']
      rw [if_pos hb', hwords.columnView_raw hraw, PaxBlock.indexInto, hword]
      exact congrArg Except.ok (wordValue_of_fixedWord hkind hw)
    · rw [if_neg hb', hb.decodeI64Column_words hspec hwidth hfits hfew, PaxBlock.indexInto, hword]
      exact congrArg Except.ok (wordValue_of_fixedWord hkind hw)

/-- **A row of kept values comes back from its block.** -/
theorem materializeRow_kept {blockSize : UInt32}
    (h : PaxBlockBuilder.build fmt blockSize specs rows = .ok block)
    (hsize : blockSize.toNat + minipageAlign ≤ 2 ^ 32) (hfit : ColumnsFit specs rows)
    (hkept : ∀ row ∈ rows, KeptRow specs row) (hfew : rows.length < 2 ^ 32)
    (hrow : rows[r]? = some row) : block.materializeRow r = .ok row := by
  obtain ⟨varheap, hb⟩ := build_spec h hsize
  have hmem := mem_of_getElem? hrow
  have hlen := hb.length_row row hmem
  have hr : r < rows.length % 2 ^ 32 := by
    rw [Nat.mod_eq_of_lt hfew]
    exact (List.getElem?_eq_some_iff.mp hrow).1
  rw [hb.materializeRow_eq hr, materializeValues_eq_ok, forall₂_iff_get]
  refine ⟨by rw [length_range, hlen], ?_⟩
  intro i hi hi'
  rw [length_range] at hi
  simp only [get_eq_getElem, getElem_range]
  have hspec := getElem?_eq_getElem hi
  have hv := getElem?_eq_getElem hi'
  exact hb.materializeValue_kept hfit hspec hrow hv hfew (hkept row hmem _ (cell_mem hspec hv))

end CenDB.Storage
