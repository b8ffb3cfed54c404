import CenDB.Lib.InPlace
import CenDB.Storage.PaxRoundTrip

/-! # Rejected rows

`append_row` works on the builder in place and writes a row column by column, so a row that is rejected can
leave values behind.  The calls here return the builder that they leave, also when they fail; a success leaves
the builder of the other modules (`appendRow_eq`).

The first value is staged before the second one is looked at.  So a builder is left as it was exactly if the row
has the wrong number of values, or if its first value is refused and no range has been widened by it
(`rejectedRow_iff`). -/

namespace CenDB.Storage

open List

variable {fmt : TextFormat}

namespace PaxBlockBuilder

/-! ### Calls in place -/

/-- The first half of `write_value`: the ranges hold the value. -/
def extendZones (b : PaxBlockBuilder) (spec : ColumnSpec) (v : Value) : PaxBlockBuilder where
  blockSize := b.blockSize
  specs := b.specs
  staging := b.staging
  rowCount := b.rowCount
  pkRange :=
    match zoneWord v with
    | some x => if spec.isPk ≠ 0 then extendRange b.pkRange x else b.pkRange
    | none => b.pkRange
  tsRange :=
    match zoneWord v with
    | some x => if spec.isTs ≠ 0 then extendRange b.tsRange x else b.tsRange
    | none => b.tsRange

/-- `write_value` of a value with its column. -/
def writeValueInPlace (fmt : TextFormat) (cell : Value × ℕ) (b : PaxBlockBuilder) :
    Except Halt Unit × PaxBlockBuilder :=
  match b.specs[cell.2]? with
  | none => (.error .panic, b)
  | some spec =>
    let b := b.extendZones spec cell.1
    match b.staging[cell.2]? with
    | none => (.error .panic, b)
    | some staging =>
      match staging.push fmt spec.kind cell.1 with
      | .error e => (.error e, b)
      | .ok staging => (.ok (), { b with staging := b.staging.set cell.2 staging })

/-- `append_row`; the outcome is the number of the row. -/
def appendRowInPlace (fmt : TextFormat) (b : PaxBlockBuilder) (values : List Value) :
    Except Halt UInt32 × PaxBlockBuilder :=
  if values.length ≠ b.specs.length then
    (.error (constraint s!"append_row: expected {b.specs.length} values, got {values.length}"), b)
  else
    match InPlace.forEach (writeValueInPlace fmt) values.zipIdx b with
    | (.error e, b) => (.error e, b)
    | (.ok (), written) => (.ok b.rowCount, { written with rowCount := written.rowCount + 1 })

/-- The builder after calls with rows, of which any may be rejected. -/
def afterCalls (fmt : TextFormat) (b : PaxBlockBuilder) (rows : List (List Value)) : PaxBlockBuilder :=
  rows.foldl (fun b row => (b.appendRowInPlace fmt row).2) b

/-! ### A success leaves the builder of `appendRow` -/

theorem writeValue_eq (b : PaxBlockBuilder) (colIdx : ℕ) (v : Value) :
    b.writeValue fmt colIdx v = InPlace.result (writeValueInPlace fmt (v, colIdx) b) := by
  unfold writeValue writeValueInPlace
  cases hspec : b.specs[colIdx]? with
  | none => rfl
  | some spec =>
    have hzones : (b.extendZones spec v).staging[colIdx]? = b.staging[colIdx]? := rfl
    dsimp only
    rw [hzones]
    cases hstaging : b.staging[colIdx]? with
    | none => rfl
    | some staging =>
      dsimp only
      cases staging.push fmt spec.kind v with
      | error e | ok pushed => rfl

theorem writeValues_eq (b : PaxBlockBuilder) (k : ℕ) (values : List Value) :
    b.writeValues fmt k values = InPlace.result (InPlace.forEach (writeValueInPlace fmt) (values.zipIdx k) b) := by
  induction values generalizing b k with
  | nil => rfl
  | cons v values ih =>
    rw [writeValues, writeValue_eq, zipIdx_cons]
    cases hwrite : writeValueInPlace fmt (v, k) b with
    | mk outcome b' =>
      cases outcome with
      | error e =>
        rw [InPlace.forEach_cons_error hwrite]
        rfl
      | ok _ =>
        rw [InPlace.forEach_cons_ok hwrite]
        exact ih b' (k + 1)

theorem appendRow_eq (b : PaxBlockBuilder) (values : List Value) :
    b.appendRow fmt values = InPlace.result (b.appendRowInPlace fmt values) := by
  unfold appendRow appendRowInPlace
  by_cases hlen : values.length ≠ b.specs.length
  · rw [if_pos hlen, if_pos hlen]
    rfl
  · rw [if_neg hlen, if_neg hlen, writeValues_eq]
    cases InPlace.forEach (writeValueInPlace fmt) (values.zipIdx 0) b with
    | mk outcome b' =>
      cases outcome with
      | error e | ok _ => rfl

end PaxBlockBuilder

/-! ### What a column refuses -/

def Staging.isFixed : Staging → Bool
  | .fixed _ _ => true
  | .var _ _ => false

/-- A column of fixed width has no word for the value. -/
def Refuses (spec : ColumnSpec) (v : Value) : Prop :=
  spec.kind.fixedWidth ≠ 0 ∧ v ≠ .null ∧ fixedWord spec.kind v = none

/-- The range holds what the value adds to it. -/
def Covered (range : Option (Int64 × Int64)) (v : Value) : Prop :=
  ∀ x, zoneWord v = some x → ∃ lo hi, range = some (lo, hi) ∧ lo ≤ x ∧ x ≤ hi

theorem isFixed_start (kind : ValueKind) : (Staging.start kind).isFixed = true ↔ kind.fixedWidth ≠ 0 := by
  unfold Staging.start
  by_cases h : kind.fixedWidth = 0
  · rw [if_pos h]
    exact iff_of_false nofun (not_not.mpr h)
  · rw [if_neg h]
    exact iff_of_true rfl h

/-- A push is refused, or stages one more value. -/
theorem push_cases (fmt : TextFormat) (kind : ValueKind) (v : Value) (staging : Staging) :
    ((staging.isFixed = true ∧ v ≠ .null ∧ fixedWord kind v = none) ∧
        ∃ e, staging.push fmt kind v = .error (.error e)) ∨
      ¬(staging.isFixed = true ∧ v ≠ .null ∧ fixedWord kind v = none) ∧
        ∃ pushed, staging.push fmt kind v = .ok pushed ∧ pushed ≠ staging ∧ pushed.isFixed = staging.isFixed := by
  have hgrows {β : Type} (xs : List β) (x : β) : xs ++ [x] ≠ xs := by simp
  cases staging with
  | fixed stagKind vals =>
    have hpushed (x : Int64) : Staging.fixed stagKind (vals ++ [x]) ≠ .fixed stagKind vals := fun h =>
      hgrows vals x (Staging.fixed.inj h).2
    unfold Staging.push
    dsimp only
    by_cases hnull : v = .null
    · rw [if_pos hnull]
      exact Or.inr ⟨fun h => h.2.1 hnull, _, rfl, hpushed 0, rfl⟩
    · rw [if_neg hnull]
      cases hword : fixedWord kind v with
      | none => exact Or.inl ⟨⟨rfl, hnull, rfl⟩, _, rfl⟩
      | some x => exact Or.inr ⟨fun h => Option.some_ne_none x h.2.2, _, rfl, hpushed x, rfl⟩
  | var slots heap =>
    rw [push_var]
    exact Or.inr ⟨fun h => Bool.false_ne_true h.1, _, rfl, fun h => hgrows slots _ (Staging.var.inj h).1, rfl⟩

/-- A range stays as it is exactly if it holds the value. -/
theorem extendRange_eq_iff (range : Option (Int64 × Int64)) (x : Int64) :
    extendRange range x = range ↔ ∃ lo hi, range = some (lo, hi) ∧ lo ≤ x ∧ x ≤ hi := by
  cases range with
  | none => exact iff_of_false nofun nofun
  | some r =>
    obtain ⟨lo, hi⟩ := r
    unfold extendRange
    simp only [Option.some.injEq, Prod.mk.injEq]
    constructor
    · rintro ⟨hlow, hhigh⟩
      refine ⟨lo, hi, ⟨rfl, rfl⟩, Int64.not_lt.mp fun hlt => ?_, Int64.not_lt.mp fun hlt => ?_⟩
      · rw [if_pos hlt] at hlow
        exact Int64.ne_of_lt hlt hlow
      · rw [if_pos hlt] at hhigh
        exact Int64.ne_of_lt hlt hhigh.symm
    · rintro ⟨lo', hi', ⟨rfl, rfl⟩, hlow, hhigh⟩
      exact ⟨if_neg (Int64.not_lt.mpr hlow), if_neg (Int64.not_lt.mpr hhigh)⟩

/-- A range that a column keeps only if it is flagged. -/
theorem extended_eq_iff (flag : UInt8) (range : Option (Int64 × Int64)) (v : Value) : (match zoneWord v with
      | some x => if flag ≠ 0 then extendRange range x else range
      | none => range) = range ↔ (flag ≠ 0 → Covered range v) := by
  unfold Covered
  cases hv : zoneWord v with
  | none => exact iff_of_true rfl fun _ x hx => nomatch hx
  | some x =>
    dsimp only
    by_cases hflag : flag ≠ 0
    · simp [extendRange_eq_iff]
    · simp [hflag]

namespace PaxBlockBuilder

variable {b : PaxBlockBuilder} {spec : ColumnSpec} {v : Value}

theorem extendZones_pkRange :
    (b.extendZones spec v).pkRange = b.pkRange ↔ (spec.isPk ≠ 0 → Covered b.pkRange v) :=
  extended_eq_iff spec.isPk b.pkRange v

theorem extendZones_tsRange :
    (b.extendZones spec v).tsRange = b.tsRange ↔ (spec.isTs ≠ 0 → Covered b.tsRange v) :=
  extended_eq_iff spec.isTs b.tsRange v

/-! ### Builders with a staging area for each column -/

/-- One staging area for each column, of the column's sort. -/
structure Shaped (b : PaxBlockBuilder) : Prop where
  length : b.staging.length = b.specs.length
  sorts : ∀ (i : ℕ) spec staging, b.specs[i]? = some spec → b.staging[i]? = some staging →
    (staging.isFixed = true ↔ spec.kind.fixedWidth ≠ 0)

theorem shaped_new {blockSize : UInt32} {specs : List ColumnSpec} (h : new blockSize specs = .ok b) : Shaped b := by
  unfold new at h
  split_ifs at h
  cases h
  refine ⟨length_map _, fun i spec staging hspec hstaging => ?_⟩
  dsimp only at hspec hstaging
  rw [getElem?_map, hspec, Option.map_some, Option.some.injEq] at hstaging
  rw [← hstaging]
  exact isFixed_start spec.kind

/-- A call writes a value, or refuses it and widens the ranges all the same. -/
theorem Shaped.write_cases (h : Shaped b) (fmt : TextFormat) {k : ℕ} (hspec : b.specs[k]? = some spec) (v : Value) :
    (Refuses spec v ∧ ∃ e, writeValueInPlace fmt (v, k) b = (.error (.error e), b.extendZones spec v)) ∨
      ¬Refuses spec v ∧ ∃ staging pushed, b.staging[k]? = some staging ∧ pushed ≠ staging ∧
        pushed.isFixed = staging.isFixed ∧
        writeValueInPlace fmt (v, k) b =
          (.ok (), { b.extendZones spec v with staging := b.staging.set k pushed }) := by
  obtain ⟨hlt, -⟩ := List.getElem?_eq_some_iff.mp hspec
  obtain ⟨staging, hstaging⟩ : ∃ staging, b.staging[k]? = some staging :=
    ⟨_, getElem?_eq_getElem (h.length.symm ▸ hlt)⟩
  have hsort := h.sorts k spec staging hspec hstaging
  have hzones : (b.extendZones spec v).staging = b.staging := rfl
  unfold writeValueInPlace Refuses
  rw [hspec]
  dsimp only
  rw [hzones, hstaging, ← hsort]
  dsimp only
  rcases push_cases fmt spec.kind v staging with ⟨hrefused, e, hpush⟩ | ⟨haccepted, pushed, hpush, hne, hfixed⟩
  · rw [hpush]
    exact Or.inl ⟨hrefused, e, rfl⟩
  · rw [hpush]
    exact Or.inr ⟨haccepted, staging, pushed, rfl, hne, hfixed, rfl⟩

/-- A call leaves a builder with its schema and its staging areas, and those of the other columns as they were. -/
theorem Shaped.write (h : Shaped b) (fmt : TextFormat) (cell : Value × ℕ) :
    Shaped (writeValueInPlace fmt cell b).2 ∧ (writeValueInPlace fmt cell b).2.specs = b.specs ∧
      ∀ i ≠ cell.2, (writeValueInPlace fmt cell b).2.staging[i]? = b.staging[i]? := by
  obtain ⟨v, k⟩ := cell
  cases hspec : b.specs[k]? with
  | none =>
    have hpanic : writeValueInPlace fmt (v, k) b = (.error .panic, b) := by simp [writeValueInPlace, hspec]
    rw [hpanic]
    exact ⟨h, rfl, fun i _ => rfl⟩
  | some spec =>
    rcases h.write_cases fmt hspec v with
      ⟨-, e, hwrite⟩ | ⟨-, staging, pushed, hstaging, -, hfixed, hwrite⟩
    · rw [hwrite]
      exact ⟨⟨h.length, h.sorts⟩, rfl, fun i _ => rfl⟩
    · rw [hwrite]
      refine ⟨⟨(length_set).trans h.length, fun i spec' staging' hspec' hstaging' => ?_⟩, rfl,
        fun i hi => getElem?_set_ne hi.symm⟩
      dsimp only at hspec' hstaging'
      by_cases hi : i = k
      · obtain ⟨hlt, -⟩ := List.getElem?_eq_some_iff.mp hstaging
        rw [hi, getElem?_set_self hlt, Option.some.injEq] at hstaging'
        rw [← hstaging', hfixed]
        exact h.sorts k spec' staging (hi ▸ hspec') hstaging
      · rw [getElem?_set_ne (Ne.symm hi)] at hstaging'
        exact h.sorts i spec' staging' hspec' hstaging'

theorem Shaped.append (h : Shaped b) (row : List Value) : Shaped (b.appendRowInPlace fmt row).2 := by
  have hloop : Shaped (InPlace.forEach (writeValueInPlace fmt) row.zipIdx b).2 :=
    InPlace.forEach_preserves (fun cell _ b hb => (hb.write fmt cell).1) h
  unfold appendRowInPlace
  by_cases hlen : row.length ≠ b.specs.length
  · rw [if_pos hlen]
    exact h
  · rw [if_neg hlen]
    cases hwrite : InPlace.forEach (writeValueInPlace fmt) row.zipIdx b with
    | mk outcome written =>
      rw [hwrite] at hloop
      cases outcome with
      | error e => exact hloop
      | ok _ => exact ⟨hloop.length, hloop.sorts⟩

theorem Shaped.afterCalls (h : Shaped b) (rows : List (List Value)) : Shaped (b.afterCalls fmt rows) := by
  induction rows generalizing b with
  | nil => exact h
  | cons row rows ih => exact ih (h.append row)

/-! ### Rejected rows -/

/-- The same staged rows and ranges, and the same blocks after any further calls. -/
structure AsBefore (fmt : TextFormat) (before after : PaxBlockBuilder) : Prop where
  staging : after.staging = before.staging
  rowCount : after.rowCount = before.rowCount
  pkRange : after.pkRange = before.pkRange
  tsRange : after.tsRange = before.tsRange
  finalized : ∀ rows, (after.afterCalls fmt rows).finalize = (before.afterCalls fmt rows).finalize

theorem AsBefore.refl (fmt : TextFormat) (b : PaxBlockBuilder) : AsBefore fmt b b :=
  ⟨rfl, rfl, rfl, rfl, fun _ => rfl⟩

/-- The row has the wrong length, or its first value is refused and widens no range. -/
def Harmless (b : PaxBlockBuilder) (row : List Value) : Prop :=
  row.length ≠ b.specs.length ∨ ∃ spec v, b.specs[0]? = some spec ∧ row[0]? = some v ∧ Refuses spec v ∧
      (spec.isPk ≠ 0 → Covered b.pkRange v) ∧ (spec.isTs ≠ 0 → Covered b.tsRange v)

/-- The loop that comes after the first column leaves the first staging area. -/
theorem Shaped.first_staging (h : Shaped b) (fmt : TextFormat) (row : List Value) :
    (InPlace.forEach (writeValueInPlace fmt) (row.zipIdx 1) b).2.staging[0]? = b.staging[0]? := by
  have hall : ∀ cell ∈ row.zipIdx 1, 0 ≠ cell.2 := by
    rintro ⟨v, k⟩ hcell
    exact (Nat.lt_of_lt_of_le Nat.zero_lt_one (mem_zipIdx hcell).1).ne
  have hkeep : Shaped (InPlace.forEach (writeValueInPlace fmt) (row.zipIdx 1) b).2 ∧
      (InPlace.forEach (writeValueInPlace fmt) (row.zipIdx 1) b).2.staging[0]? = b.staging[0]? :=
    InPlace.forEach_preserves (P := fun b' => Shaped b' ∧ b'.staging[0]? = b.staging[0]?)
      (fun cell hcell b' hb' => ⟨(hb'.1.write fmt cell).1, ((hb'.1.write fmt cell).2.2 0 (hall cell hcell)).trans hb'.2⟩)
      ⟨h, rfl⟩
  exact hkeep.2

/-- **A rejected row leaves a builder as it was if and only if it is harmless.** -/
theorem Shaped.asBefore_iff (h : Shaped b) {row : List Value} {e : Halt}
    (hrejected : (b.appendRowInPlace fmt row).1 = .error e) :
    AsBefore fmt b (b.appendRowInPlace fmt row).2 ↔ Harmless b row := by
  by_cases hlen : row.length ≠ b.specs.length
  · have hsame : (b.appendRowInPlace fmt row).2 = b := by
      unfold appendRowInPlace
      rw [if_pos hlen]
    rw [hsame]
    exact iff_of_true (AsBefore.refl fmt b) (Or.inl hlen)
  · unfold Harmless
    rw [or_iff_right hlen]
    unfold appendRowInPlace at hrejected ⊢
    rw [if_neg hlen] at hrejected ⊢
    cases row with
    | nil => cases hrejected
    | cons v row =>
      obtain ⟨spec, hspec⟩ : ∃ spec, b.specs[0]? = some spec := by
        rw [not_not, length_cons] at hlen
        exact ⟨_, getElem?_eq_getElem (by omega)⟩
      rw [zipIdx_cons] at hrejected ⊢
      rcases h.write_cases fmt hspec v with
        ⟨hrefused, e, hwrite⟩ | ⟨haccepted, staging, pushed, hstaging, hne, hfixed, hwrite⟩
      · rw [InPlace.forEach_cons_error hwrite]
        constructor
        · intro hsame
          exact ⟨spec, v, hspec, rfl, hrefused, extendZones_pkRange.mp hsame.pkRange,
            extendZones_tsRange.mp hsame.tsRange⟩
        · rintro ⟨spec', v', hspec', hv', -, hpk, hts⟩
          rw [hspec, Option.some.injEq] at hspec'
          subst hspec'
          obtain rfl : v = v' := Option.some.inj hv'
          have hsame : b.extendZones spec v = b := by
            have hpk' := extendZones_pkRange.mpr hpk
            have hts' := extendZones_tsRange.mpr hts
            unfold extendZones at hpk' hts' ⊢
            dsimp only at hpk' hts'
            rw [hpk', hts']
          rw [hsame]
          exact AsBefore.refl fmt b
      · -- the first value stays staged, whatever comes after it
        have hshape := (h.write fmt (v, 0)).1
        rw [hwrite] at hshape
        have hfirst := hshape.first_staging fmt row
        obtain ⟨hlt, -⟩ := List.getElem?_eq_some_iff.mp hstaging
        dsimp only at hfirst
        rw [getElem?_set_self hlt] at hfirst
        rw [InPlace.forEach_cons_ok hwrite] at hrejected ⊢
        refine iff_of_false ?_ ?_
        · intro hsame
          have hstaged : (InPlace.forEach (writeValueInPlace fmt) (row.zipIdx (0 + 1))
              { b.extendZones spec v with staging := b.staging.set 0 pushed }).2.staging = b.staging := by
            have hstaging' := hsame.staging
            revert hrejected hstaging'
            cases InPlace.forEach (writeValueInPlace fmt) (row.zipIdx (0 + 1))
              { b.extendZones spec v with staging := b.staging.set 0 pushed } with
            | mk outcome written =>
              cases outcome with
              | error e => exact fun _ hstaging' => hstaging'
              | ok _ => exact fun hrejected => nomatch hrejected
          rw [hstaged, hstaging] at hfirst
          exact hne (Option.some.inj hfirst).symm
        · rintro ⟨spec', v', hspec', hv', hrefused, -⟩
          rw [hspec, Option.some.injEq] at hspec'
          subst hspec'
          obtain rfl : v = v' := Option.some.inj hv'
          exact haccepted hrefused

/-- **After any calls on a new builder, a rejected row leaves it as it was if and only if the row has the wrong
length, or its first value is refused and widens no range.** -/
theorem rejectedRow_iff {blockSize : UInt32} {specs : List ColumnSpec} {start : PaxBlockBuilder}
    (hnew : new blockSize specs = .ok start) (rows : List (List Value)) {row : List Value} {e : CenError}
    (hrejected : ((start.afterCalls fmt rows).appendRowInPlace fmt row).1 = .error (.error e)) :
    AsBefore fmt (start.afterCalls fmt rows) ((start.afterCalls fmt rows).appendRowInPlace fmt row).2 ↔
      Harmless (start.afterCalls fmt rows) row :=
  ((shaped_new hnew).afterCalls rows).asBefore_iff hrejected

/-- Bytes and an integer, with no row yet. -/
def bytesAndInteger : PaxBlockBuilder where
  blockSize := 512
  specs := [.new 0 .bytes, .new 1 .i64]
  staging := [.var [] [], .fixed .i64 []]
  rowCount := 0
  pkRange := none
  tsRange := none

theorem rejectedRow_bytesAndInteger :
    AsBefore plainFormat (bytesAndInteger.afterCalls plainFormat [[.bytes [7], .i64 8]])
        ((bytesAndInteger.afterCalls plainFormat [[.bytes [7], .i64 8]]).appendRowInPlace plainFormat
          [.bytes [1], .bool true]).2 ↔
      Harmless (bytesAndInteger.afterCalls plainFormat [[.bytes [7], .i64 8]]) [.bytes [1], .bool true] :=
  rejectedRow_iff (show new 512 bytesAndInteger.specs = .ok bytesAndInteger from rfl) [[.bytes [7], .i64 8]] rfl

/-- **A rejected row shifts the rows after it**: its bytes are stored with the integer of the next row. -/
theorem rejected_row_shifts :
    (∃ e, (bytesAndInteger.appendRowInPlace plainFormat [.bytes [1], .bool true]).1 = .error (.error e)) ∧
      ¬AsBefore plainFormat bytesAndInteger
        (bytesAndInteger.appendRowInPlace plainFormat [.bytes [1], .bool true]).2 ∧
      (bytesAndInteger.afterCalls plainFormat [[.bytes [1], .bool true], [.bytes [5], .i64 6]]).finalize.bind
        (fun block => block.materializeRow 0) = .ok [.bytes [1], .i64 6] := by
  refine ⟨⟨_, rfl⟩, fun h => ?_, by decide +kernel⟩
  exact absurd h.staging (by decide)

end PaxBlockBuilder

end CenDB.Storage
