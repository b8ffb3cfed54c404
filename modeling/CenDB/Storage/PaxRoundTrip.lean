import CenDB.Storage.PaxLayout

/-! # Reading a finished block

`build` runs the builder over rows.  A reader finds every column of the rows in the block
(`build_spec`): a column of fixed width decodes to its stored words, as far as its encoding allows
(`decodeI64Column_of_fits`, `length_decodeI64Column`), and a slot of a bytes column leads to the
bytes of its row (`varValue_eq`).

Rows of well-typed values come back from a block with raw columns (`materializeRow_build`). -/

namespace CenDB.Storage

open Words List UInt32 Nat

variable {fmt : TextFormat}

/-- The block of rows. -/
def PaxBlockBuilder.build (fmt : TextFormat) (blockSize : UInt32) (specs : List ColumnSpec)
    (rows : List (List Value)) : Except Halt PaxBlock :=
  match PaxBlockBuilder.new blockSize specs with
  | .error e => .error e
  | .ok b =>
    match b.appendRows fmt rows with
    | .error e => .error e
    | .ok b => b.finalize

/-- What a block has of the rows it was built from. -/
structure Built (fmt : TextFormat) (specs : List ColumnSpec) (rows : List (List Value))
    (block : PaxBlock) (varheap : List UInt8) : Prop where
  length_row : ∀ row ∈ rows, row.length = specs.length
  length_buf : block.buf.length < 2 ^ 32
  rowCount : block.header.rowCount = UInt32.ofNat rows.length
  columnCount : block.header.columnCount.toNat = specs.length
  minPk : block.header.minPk = (((zoneValues ColumnSpec.isPk specs rows).foldl
    extendRange none).map Prod.fst).getD Int64.maxValue
  maxPk : block.header.maxPk = (((zoneValues ColumnSpec.isPk specs rows).foldl
    extendRange none).map Prod.snd).getD Int64.minValue
  minTs : block.header.minTs = (((zoneValues ColumnSpec.isTs specs rows).foldl
    extendRange none).map Prod.fst).getD Int64.maxValue
  maxTs : block.header.maxTs = (((zoneValues ColumnSpec.isTs specs rows).foldl
    extendRange none).map Prod.snd).getD Int64.minValue
  varheapOff : 64 ≤ block.header.varheapOff.toNat
  varheap_fits : block.header.varheapOff.toNat + varheap.length ≤ block.buf.length
  varheap_eq : slice block.buf block.header.varheapOff.toNat
    (block.header.varheapOff.toNat + varheap.length) = varheap
  column : ∀ (i : ℕ) spec, specs[i]? = some spec → ∃ staging dir page mp zoneMin zoneMax enc,
    (Staging.start spec.kind).pushAll fmt spec.kind (columnOf rows i) = .ok staging ∧
      HasColumn block (UInt32.ofNat rows.length) varheap i spec staging dir page mp zoneMin zoneMax enc

/-- The rows are laid out without an offset that wraps. -/
def UnwrappedRows (fmt : TextFormat) (blockSize : UInt32) (specs : List ColumnSpec) (rows : List (List Value)) :
    Prop :=
  ∀ start b, PaxBlockBuilder.new blockSize specs = .ok start → start.appendRows fmt rows = .ok b → b.Unwrapped

variable {blockSize : UInt32} {specs : List ColumnSpec} {rows : List (List Value)} {block : PaxBlock}
  {spec : ColumnSpec}

/-- **A finished block has every column of its rows.** -/
theorem build_spec_of_unwrapped (h : PaxBlockBuilder.build fmt blockSize specs rows = .ok block)
    (hroom : UnwrappedRows fmt blockSize specs rows) :
    ∃ varheap, Built fmt specs rows block varheap := by
  unfold PaxBlockBuilder.build at h
  split at h
  · cases h
  · rename_i start hstart
    split at h
    · cases h
    · rename_i b hrows
      have hroom := hroom start b hstart hrows
      have hnew : start = ⟨blockSize, specs, specs.map fun s => Staging.start s.kind, 0, none, none⟩ := by
        unfold PaxBlockBuilder.new at hstart
        split_ifs at hstart
        exact (Except.ok.inj hstart).symm
      subst hnew
      obtain ⟨hlen, hspecs, hblock, hcount, hstaging, hpk, hts, hcolumns⟩ := PaxBlockBuilder.appendRows_spec hrows
      dsimp only at hlen hspecs hblock hcount hstaging hpk hts hcolumns
      rw [UInt32.zero_add] at hcount
      rw [length_map] at hstaging
      obtain ⟨varheap, hbuf, -, hcount', hcols', hminPk, hmaxPk, hminTs, hmaxTs, hoff, hfits,
        hheap, hcolumn⟩ := finalize_spec_of_unwrapped h hroom (by rw [hspecs, hstaging])
      rw [hspecs] at hcols' hcolumn
      rw [hcount] at hcount' hcolumn
      rw [hpk] at hminPk hmaxPk
      rw [hts] at hminTs hmaxTs
      refine ⟨varheap, hlen, ?_, hcount', hcols', hminPk, hmaxPk, hminTs, hmaxTs, hoff, hfits, hheap, ?_⟩
      · rw [hbuf, hblock]
        exact blockSize.toNat_lt
      · intro i spec hspec
        have hfirst : (specs.map fun s => Staging.start s.kind)[i]? = some (Staging.start spec.kind) := by
          simp [hspec]
        obtain ⟨staging, hs, hpush⟩ := hcolumns i spec _ hspec hfirst
        obtain ⟨dir, page, mp, zoneMin, zoneMax, enc, hhas⟩ := hcolumn i spec staging hspec hs
        exact ⟨staging, dir, page, mp, zoneMin, zoneMax, enc, hpush, hhas⟩

theorem length_staging_of_rows {start b : PaxBlockBuilder}
    (hstart : PaxBlockBuilder.new blockSize specs = .ok start) (hrows : start.appendRows fmt rows = .ok b) :
    b.staging.length = b.specs.length ∧ b.blockSize = blockSize := by
  obtain ⟨-, hspecs, hblock, -, hstaging, -⟩ := PaxBlockBuilder.appendRows_spec hrows
  unfold PaxBlockBuilder.new at hstart
  split_ifs at hstart
  cases hstart
  rw [hspecs, hstaging, hblock]
  exact ⟨length_map _, rfl⟩

/-- A finished block that is not too large. -/
theorem build_spec (h : PaxBlockBuilder.build fmt blockSize specs rows = .ok block)
    (hsize : blockSize.toNat + minipageAlign ≤ 2 ^ 32) :
    ∃ varheap, Built fmt specs rows block varheap := by
  refine build_spec_of_unwrapped h fun start b hstart hrows => ?_
  obtain ⟨hstaging, hblock⟩ := length_staging_of_rows hstart hrows
  rw [PaxBlockBuilder.build, hstart] at h
  dsimp only at h
  rw [hrows] at h
  exact unwrapped_of_finalize h (hblock ▸ hsize) hstaging

/-! ### Columns of fixed width -/

/-- The encoding that `finalize` uses. -/
def usedEncoding (spec : ColumnSpec) (vals : List Int64) : Encoding :=
  if spec.encoding = .raw ∧ (spec.kind = .i64 ∨ spec.kind = .u64 ∨ spec.kind = .timestamp) then
    autoSelectEncodingI64 vals
  else spec.encoding

/-- A column of fixed width that is stored as words. -/
structure HasWords (block : PaxBlock) (rowCount : UInt32) (i : ℕ) (spec : ColumnSpec)
    (vals : List Int64) (dir : ColumnDirectory) (page : List UInt8) : Prop where
  encoded : encodeMinipage (usedEncoding spec vals) vals = .ok page
  directory : block.directory i = .ok dir
  minipage : block.minipageBytes i = .ok page
  kind : dir.kind = spec.kind.toU8
  encoding : dir.encoding = (usedEncoding spec vals).discriminant
  valueCount : dir.valueCount = rowCount
  zoneMin : dir.zoneMin = (vals.head?.map fun v => minOf v vals).getD Int64.maxValue
  zoneMax : dir.zoneMax = (vals.head?.map fun v => maxOf v vals).getD Int64.minValue
  length_page : page.length ≤ block.buf.length

theorem encodeColumn_fixed {vals : List Int64} {page : List UInt8} {zoneMin zoneMax : Int64} {enc : Encoding}
    (h : encodeColumn spec (.fixed spec.kind vals) = .ok (page, zoneMin, zoneMax, enc)) :
    encodeMinipage enc vals = .ok page ∧ enc = usedEncoding spec vals ∧
      zoneMin = (vals.head?.map fun v => minOf v vals).getD Int64.maxValue ∧
      zoneMax = (vals.head?.map fun v => maxOf v vals).getD Int64.minValue := by
  unfold encodeColumn at h
  dsimp only at h
  split at h
  · cases h
  · rename_i body hbody
    cases vals with
    | nil | cons v vals =>
      cases h
      exact ⟨hbody, rfl, rfl, rfl⟩

section Columns

variable {specs : List ColumnSpec} {rows : List (List Value)} {block : PaxBlock}
  {varheap : List UInt8} {i r : ℕ} {spec : ColumnSpec}

/-- A column of fixed width holds the stored words of its values. -/
theorem Built.hasWords (hb : Built fmt specs rows block varheap) (hspec : specs[i]? = some spec)
    (hwidth : spec.kind.fixedWidth ≠ 0) :
    (∀ v ∈ columnOf rows i, v = .null ∨ (fixedWord spec.kind v).isSome) ∧
      ∃ dir page, HasWords block (UInt32.ofNat rows.length) i spec
        ((columnOf rows i).map (storedWord spec.kind)) dir page := by
  obtain ⟨staging, dir, page, mp, zoneMin, zoneMax, enc, hpush, hhas⟩ := hb.column i spec hspec
  rw [Staging.start, if_neg hwidth] at hpush
  obtain ⟨hs, hstorable⟩ := pushAll_fixed hpush
  rw [List.nil_append] at hs
  have hencoded := hhas.encoded
  rw [hs] at hencoded
  obtain ⟨hpage, henc, hmin, hmax⟩ := encodeColumn_fixed hencoded
  obtain ⟨hkind, hdisc, -, hcount, hzmin, hzmax⟩ := hhas.entry
  refine ⟨hstorable, dir, page, ?_⟩
  rw [henc] at hpage hdisc
  exact ⟨hpage, hhas.directory, by rw [hhas.minipage, hhas.fixed _ _ hs], hkind, hdisc, hcount,
    hzmin.trans hmin, hzmax.trans hmax, hhas.length_page⟩

variable {vals : List Int64} {dir : ColumnDirectory} {page : List UInt8}

variable {rowCount : UInt32} {vs : List Value} {v : Value}

/-- The column decoder runs the decoder of the encoding that was used. -/
theorem HasWords.decodeI64Column_eq (hw : HasWords block rowCount i spec vals dir page) :
    block.decodeI64Column i = decodeMinipage (usedEncoding spec vals) page rowCount.toNat := by
  unfold PaxBlock.decodeI64Column
  rw [hw.directory]
  dsimp only
  rw [hw.minipage]
  dsimp only
  rw [hw.encoding, hw.valueCount, decodeMinipage_fromDiscriminant]

section

variable (hw : HasWords block (UInt32.ofNat vals.length) i spec vals dir page)
include hw

/-- A column decodes to as many words as the `u32` row count says. -/
theorem HasWords.length_decodeI64Column (hne : vals ≠ []) (hbuf : block.buf.length < 2 ^ 32) :
    ∃ out, block.decodeI64Column i = .ok out ∧ out.length = vals.length % 2 ^ 32 := by
  have hpage := lt_of_le_of_lt hw.length_page hbuf
  rw [hw.decodeI64Column_eq, toNat_ofNat']
  exact length_decodeMinipage hne hw.encoded hpage

/-- A column whose encoding fits it decodes to its words. -/
theorem HasWords.decodeI64Column_of_fits (hfits : Fits (usedEncoding spec vals) vals) :
    block.decodeI64Column i = .ok (vals.take (vals.length % 2 ^ 32)) := by
  rw [hw.decodeI64Column_eq, toNat_ofNat']
  exact decodeMinipage_of_fits hw.encoded hfits (Nat.mod_le _ _)

/-- A page with rows is not empty. -/
theorem HasWords.page_ne_nil (hpos : 0 < vals.length % 2 ^ 32) (hbuf : block.buf.length < 2 ^ 32) : page ≠ [] := by
  have hne : vals ≠ [] := fun hnil => by simp [hnil] at hpos
  obtain ⟨out, hdecode, hlen⟩ := length_decodeMinipage hne hw.encoded (lt_of_le_of_lt hw.length_page hbuf)
  intro hnil
  rw [hnil] at hdecode
  rw [decodeMinipage_nil hpos hdecode, length_nil] at hlen
  omega

end

/-- The view of a raw column is the column. -/
theorem HasWords.columnView_raw (hw : HasWords block rowCount i spec vals dir page)
    (henc : usedEncoding spec vals = .raw) : block.columnView i = .ok vals := by
  have hencoded := hw.encoded
  have hdisc := hw.encoding
  rw [henc] at hencoded hdisc
  have hpage : vals.flatMap leI64 = page := Except.ok.inj hencoded
  have hlen : page.length = vals.length * 8 := by
    rw [← hpage]
    exact length_flatMap fun v _ => length_leI64 v
  have hread := map_i64At [] vals []
  simp only [append_nil, List.nil_append, hpage, length_nil, Nat.zero_add] at hread
  unfold PaxBlock.columnView
  rw [hw.directory]
  dsimp only
  rw [hw.minipage]
  dsimp only
  rw [if_neg (fun h => h.1 hdisc), hlen, Nat.mul_mod_left, if_neg (by omega), Nat.mul_div_cancel _ (by omega), hread]

/-- There is no view of an encoded column. -/
theorem HasWords.columnView_encoded (hw : HasWords block rowCount i spec vals dir page) (hne : page ≠ [])
    (henc : usedEncoding spec vals ≠ .raw) : ∃ e, block.columnView i = .error e := by
  have hdisc : dir.encoding ≠ Encoding.raw.discriminant := by
    rw [hw.encoding]
    exact fun h => henc (discriminant_eq_raw h)
  have hpage : ¬ page.isEmpty := by simpa using hne
  unfold PaxBlock.columnView
  rw [hw.directory]
  dsimp only
  rw [hw.minipage]
  dsimp only
  rw [if_pos ⟨hdisc, hpage⟩]
  exact ⟨_, rfl⟩

/-! ### Columns of variable length -/

/-- The slot of a row in a minipage. -/
theorem u32At_slots {slots : List (UInt32 × UInt32)} {slot : UInt32 × UInt32} (h : slots[r]? = some slot) :
    u32At (slots.flatMap slotBytes) (r * 8) = slot.1 ∧ u32At (slots.flatMap slotBytes) (r * 8 + 4) = slot.2 := by
  obtain ⟨hr, hslot⟩ := List.getElem?_eq_some_iff.mp h
  have hbytes := slice_flatMap (fun slot _ => length_slotBytes slot) hr
  rw [hslot] at hbytes
  obtain ⟨hoff, hlen⟩ := u32At_slotBytes slot []
  rw [append_nil, ← hbytes, u32At, slice_slice (by omega)] at hoff hlen
  exact ⟨hoff, hlen⟩

/-- The bytes of a row are in the heap of its column. -/
theorem slice_heapOf {p : List UInt8} (hv : vs[r]? = some v) (hp : payload fmt v = some p)
    (before after : List UInt8) :
    before.length + (heapOf fmt (vs.take r)).length + p.length ≤ (before ++ (heapOf fmt vs ++ after)).length ∧
      slice (before ++ (heapOf fmt vs ++ after)) (before.length + (heapOf fmt (vs.take r)).length)
        (before.length + (heapOf fmt (vs.take r)).length + p.length) = p := by
  have hsplit : before ++ (heapOf fmt vs ++ after) = (before ++ heapOf fmt (vs.take r)) ++
      (p ++ (heapOf fmt (vs.drop (r + 1)) ++ after)) := by
    rw [heapOf_split hv, hp, Option.getD_some]
    simp only [append_assoc]
  rw [hsplit]
  refine ⟨?_, slice_middle (length_append ..) rfl⟩
  simp only [length_append]
  omega

/-- A block has room for the slots of a bytes column. -/
theorem Built.slots_fit (hb : Built fmt specs rows block varheap) (hspec : specs[i]? = some spec)
    (hkind : spec.kind = .bytes) : rows.length * 8 ≤ block.buf.length := by
  obtain ⟨staging, dir, page, mp, zoneMin, zoneMax, enc, hpush, hhas⟩ := hb.column i spec hspec
  have hwidth : spec.kind.fixedWidth = 0 := by
    rw [hkind]
    rfl
  rw [Staging.start, if_pos hwidth, pushAll_var, Except.ok.injEq] at hpush
  have hencoded := hhas.encoded
  rw [← hpush, encodeColumn, Except.ok.injEq, Prod.mk.injEq] at hencoded
  have hpage := hhas.length_page
  rw [← hencoded.1, length_flatMap fun slot _ => length_slotBytes slot, List.nil_append,
    length_slotsFrom, columnOf, length_map] at hpage
  exact hpage

/-- The bytes of a row are found through its slot. -/
theorem Built.varValue_eq (hb : Built fmt specs rows block varheap) (hspec : specs[i]? = some spec)
    (hkind : spec.kind = .bytes) (hv : (columnOf rows i)[r]? = some v) :
    block.varValue i r = .ok (payload fmt v) := by
  obtain ⟨staging, dir, page, mp, zoneMin, zoneMax, enc, hpush, hhas⟩ := hb.column i spec hspec
  have hwidth : spec.kind.fixedWidth = 0 := by
    rw [hkind]
    rfl
  rw [Staging.start, if_pos hwidth, pushAll_var, List.nil_append, List.nil_append, Except.ok.injEq] at hpush
  obtain ⟨before, after, hjoin, hmp⟩ := hhas.var _ _ hpush.symm hwidth
  have hencoded := hhas.encoded
  rw [← hpush, encodeColumn, Except.ok.injEq, Prod.mk.injEq] at hencoded
  rw [← hencoded.1, rebase_slots] at hmp
  obtain ⟨hr, -⟩ := List.getElem?_eq_some_iff.mp hv
  obtain ⟨hr, -⟩ := List.getElem?_eq_some_iff.mp hv
  have hlen : mp.length = (columnOf rows i).length * 8 := by
    rw [hmp, length_flatMap fun slot _ => length_slotBytes slot, length_map, length_slotsFrom]
  have hslot : ((slotsFrom fmt ([] : List UInt8).length (columnOf rows i)).map
      (rebaseSlot (UInt32.ofNat before.length)))[r]? = some (rebaseSlot (UInt32.ofNat before.length)
        (slotOf fmt (heapOf fmt ((columnOf rows i).take r)).length v)) := by
    rw [getElem?_map, getElem?_slotsFrom, hv, length_nil, Nat.zero_add]
    rfl
  obtain ⟨hoff, hlen'⟩ := u32At_slots hslot
  rw [← hmp] at hoff hlen'
  have hentry := hhas.entry.1
  rw [hkind] at hentry
  unfold PaxBlock.varValue
  rw [hhas.directory]
  dsimp only
  rw [if_neg (not_not.mpr hentry), hhas.minipage]
  dsimp only
  rw [hoff, hlen', if_neg (by omega)]
  cases hp : payload fmt v with
  | none =>
    rw [slotOf, hp]
    dsimp only
    rw [rebaseSlot, if_pos rfl, if_pos rfl]
  | some p =>
    rw [slotOf, hp]
    dsimp only
    -- neither the length nor the moved offset wraps, as the heap ends in the block
    obtain ⟨hfits, hslice⟩ := slice_heapOf hv hp before after
    rw [← hjoin] at hfits hslice
    have hend := hb.varheap_fits
    have hbuf := hb.length_buf
    have hstart := hb.varheapOff
    have hlenNat : (UInt32.ofNat p.length).toNat = p.length := by
      rw [UInt32.toNat_ofNat', Nat.mod_eq_of_lt (by omega)]
    have hnull : UInt32.ofNat p.length ≠ nullLen := by
      intro heq
      have hmax : (UInt32.ofNat p.length).toNat = 4294967295 := by
        rw [heq]
        rfl
      omega
    have hmoved : (UInt32.ofNat (heapOf fmt ((columnOf rows i).take r)).length +
        UInt32.ofNat before.length).toNat = before.length + (heapOf fmt ((columnOf rows i).take r)).length := by
      rw [UInt32.toNat_add, UInt32.toNat_ofNat', UInt32.toNat_ofNat']
      omega
    generalize before.length + (heapOf fmt ((columnOf rows i).take r)).length = off at *
    have hread : slice block.buf (block.header.varheapOff.toNat + off)
        (block.header.varheapOff.toNat + off + p.length) = p := by
      rw [Nat.add_assoc, ← slice_slice (Nat.add_le_add_left hfits _), hb.varheap_eq, hslice]
    rw [rebaseSlot, if_neg hnull]
    dsimp only
    rw [if_neg hnull, hmoved, hlenNat, if_neg (by omega), hread]

/-! ### Rows -/

/-- The value that a stored word stands for. -/
def wordValue : ValueKind → Int64 → Value
  | .bool, w => .bool (w != 0)
  | .i64, w => .i64 w
  | .u64, w => .u64 w.toUInt64
  | .f64, w => .f64 w.toUInt64
  | .timestamp, w => .timestamp w
  | _, _ => .null

/-- A value of its column's own kind stands for itself. -/
theorem wordValue_of_fixedWord {kind : ValueKind} {w : Int64} (hkind : v.kind = kind)
    (h : fixedWord kind v = some w) : wordValue kind w = v := by
  subst hkind
  cases v with
  | null | bytes b => cases h
  | bool b =>
    rw [← Option.some.inj h]
    cases b <;> rfl
  | i64 x | timestamp x => rw [← Option.some.inj h]; rfl
  | u64 x =>
    rw [← Option.some.inj h]
    exact congrArg Value.u64 (UInt64.toUInt64_toInt64 x)
  | f64 bits =>
    rw [← Option.some.inj h]
    exact congrArg Value.f64 (UInt64.toUInt64_toInt64 bits)

/-- A value of fixed width comes from the view of a boolean column and from the decoder of every
other one. -/
theorem materializeValue_fixed (hdir : block.directory i = .ok dir) (hkind : dir.kind = spec.kind.toU8)
    (hwidth : spec.kind.fixedWidth ≠ 0) :
    block.materializeValue r i =
      PaxBlock.indexInto (if spec.kind = .bool then block.columnView i else block.decodeI64Column i) r
        (wordValue spec.kind) := by
  unfold PaxBlock.materializeValue
  rw [hdir]
  dsimp only
  rw [hkind, ValueKind.fromU8_toU8]
  generalize spec.kind = kind at hwidth ⊢
  cases kind with
  | null | bytes => exact absurd rfl hwidth
  | bool | i64 | u64 | f64 | timestamp => rfl

theorem materializeValue_bytes (hdir : block.directory i = .ok dir) (hkind : dir.kind = ValueKind.bytes.toU8)
    {p : Option (List UInt8)} (hp : block.varValue i r = .ok p) :
    block.materializeValue r i = .ok ((p.map Value.bytes).getD .null) := by
  unfold PaxBlock.materializeValue
  rw [hdir]
  dsimp only
  rw [hkind, ValueKind.fromU8_toU8]
  dsimp only
  rw [hp]
  cases p with
  | none | some b => rfl

theorem materializeValues_eq_ok {is : List ℕ} : block.materializeValues r is = .ok vs ↔
      List.Forall₂ (fun i v => block.materializeValue r i = .ok v) is vs := by
  induction is generalizing vs with
  | nil =>
    rw [PaxBlock.materializeValues, forall₂_nil_left_iff, Except.ok.injEq]
    exact eq_comm
  | cons i is ih =>
    rw [PaxBlock.materializeValues, forall₂_cons_left_iff]
    cases hv : block.materializeValue r i with
    | error e => simp
    | ok v =>
      dsimp only
      cases hvs : block.materializeValues r is with
      | error e => simp [← ih, hvs]
      | ok rest =>
        rw [Except.ok.injEq]
        constructor
        · intro h
          exact ⟨v, rest, rfl, ih.mp hvs, h.symm⟩
        · rintro ⟨v', rest', hv', hrest', rfl⟩
          rw [Except.ok.inj hv', Except.ok.inj (hvs.symm.trans (ih.mpr hrest'))]

/-- A row of a block is read column by column. -/
theorem Built.materializeRow_eq (hb : Built fmt specs rows block varheap) (hr : r < rows.length % 2 ^ 32) :
    block.materializeRow r = block.materializeValues r (List.range specs.length) := by
  have hrow : ¬ block.header.rowCount ≤ UInt32.ofNat r := by
    have hsmall : r < 2 ^ 32 := by omega
    rw [hb.rowCount, le_iff_toNat_le, toNat_ofNat', toNat_ofNat', mod_eq_of_lt hsmall]
    exact Nat.not_le.mpr hr
  unfold PaxBlock.materializeRow
  rw [if_neg hrow, hb.columnCount]

theorem getElem?_columnOf {row : List Value} (h : rows[r]? = some row) :
    (columnOf rows i)[r]? = some (row.getD i .null) := by
  rw [columnOf, getElem?_map, h]
  rfl

end Columns

/-- A row without nulls whose values are of their columns' kinds. -/
def WellTyped (specs : List ColumnSpec) (row : List Value) : Prop :=
  ∀ cell ∈ specs.zip row, cell.2 ≠ .null ∧ cell.2.kind = cell.1.kind

instance (specs : List ColumnSpec) (row : List Value) : Decidable (WellTyped specs row) :=
  inferInstanceAs (Decidable (∀ cell ∈ specs.zip row, cell.2 ≠ .null ∧ cell.2.kind = cell.1.kind))

/-- The encoding chosen for a raw column fits it. -/
theorem fits_usedEncoding (hraw : spec.encoding = .raw) (vals : List Int64) : Fits (usedEncoding spec vals) vals := by
  unfold usedEncoding
  split
  · exact (fits_autoSelectEncodingI64 vals).1
  · rw [hraw]
    exact trivial

section RoundTrip

variable {specs : List ColumnSpec} {rows : List (List Value)} {block : PaxBlock}
  {varheap : List UInt8} {i r : ℕ} {spec : ColumnSpec} {row : List Value} {v : Value}

theorem cell_mem (hspec : specs[i]? = some spec) (hv : row[i]? = some v) : (spec, v) ∈ specs.zip row := by
  rw [mem_iff_getElem?]
  exact ⟨i, getElem?_zip_eq_some.mpr ⟨hspec, hv⟩⟩

section

variable (hb : Built fmt specs rows block varheap)
include hb

/-- Both column readers return the word of a row of a raw column. -/
theorem Built.word_eq (hspec : specs[i]? = some spec)
    (hraw : spec.encoding = .raw) (hrow : rows[r]? = some row) (hv : row[i]? = some v)
    (hr : r < rows.length % 2 ^ 32) {w : Int64} (hw : fixedWord spec.kind v = some w) :
    (∃ vals, block.decodeI64Column i = .ok vals ∧ vals[r]? = some w) ∧
      (∀ vals, block.columnView i = .ok vals → vals[r]? = some w) ∧
      (spec.kind = .bool → ∃ vals, block.columnView i = .ok vals) := by
  have hwidth : spec.kind.fixedWidth ≠ 0 := by
    intro hzero
    generalize spec.kind = kind at hw hzero
    cases kind <;> cases v <;> simp [fixedWord, ValueKind.fixedWidth] at hw hzero
  obtain ⟨-, dir, page, hwords⟩ := hb.hasWords hspec hwidth
  have hlen : ((columnOf rows i).map (storedWord spec.kind)).length = rows.length := by simp [columnOf]
  have hword : ((columnOf rows i).map (storedWord spec.kind))[r]? = some w := by
    rw [getElem?_map, getElem?_columnOf hrow, getD_eq_getElem?_getD, hv]
    simp [storedWord, hw]
  generalize (columnOf rows i).map (storedWord spec.kind) = vals at hwords hlen hword
  rw [← hlen] at hwords hr
  have hdecode := hwords.decodeI64Column_of_fits (fits_usedEncoding hraw vals)
  refine ⟨⟨_, hdecode, by rw [getElem?_take_of_lt hr, hword]⟩, ?_, ?_⟩
  · intro out hout
    by_cases henc : usedEncoding spec vals = .raw
    · rw [hwords.columnView_raw henc, Except.ok.injEq] at hout
      rw [← hout, hword]
    · obtain ⟨e, he⟩ := hwords.columnView_encoded (hwords.page_ne_nil (by omega) hb.length_buf) henc
      rw [he] at hout
      cases hout
  · intro hbool
    refine ⟨vals, hwords.columnView_raw ?_⟩
    rw [usedEncoding, if_neg (by simp [hbool]), hraw]

/-- A column that its encoding fits decodes to the stored words of the rows. -/
theorem Built.decodeI64Column_words (hspec : specs[i]? = some spec) (hwidth : spec.kind.fixedWidth ≠ 0)
    (hfits : Fits (usedEncoding spec ((columnOf rows i).map (storedWord spec.kind)))
      ((columnOf rows i).map (storedWord spec.kind))) (hfew : rows.length < 2 ^ 32) :
    block.decodeI64Column i = .ok ((columnOf rows i).map (storedWord spec.kind)) := by
  obtain ⟨-, dir, page, hwords⟩ := hb.hasWords hspec hwidth
  have hlen : ((columnOf rows i).map (storedWord spec.kind)).length = rows.length := by simp [columnOf]
  generalize (columnOf rows i).map (storedWord spec.kind) = vals at hwords hlen hfits ⊢
  rw [← hlen] at hwords hfew
  rw [hwords.decodeI64Column_of_fits hfits, mod_eq_of_lt hfew, take_length]

/-- A raw column decodes to the stored words of the rows. -/
theorem Built.decodeI64Column_raw
    (hspec : specs[i]? = some spec) (hraw : spec.encoding = .raw) (hwidth : spec.kind.fixedWidth ≠ 0)
    (hfew : rows.length < 2 ^ 32) :
    block.decodeI64Column i = .ok ((columnOf rows i).map (storedWord spec.kind)) :=
  hb.decodeI64Column_words hspec hwidth (fits_usedEncoding hraw _) hfew

/-- The cell of a row of a raw column. -/
theorem Built.materializeValue_eq
    (hspec : specs[i]? = some spec) (hraw : spec.encoding = .raw) (hrow : rows[r]? = some row)
    (hv : row[i]? = some v) (hr : r < rows.length % 2 ^ 32) (hnull : v ≠ .null)
    (hkind : v.kind = spec.kind) : block.materializeValue r i = .ok v := by
  obtain ⟨_, dir, _, _, _, _, _, _, hhas⟩ := hb.column i spec hspec
  have hdir := hhas.entry.1
  have hfixed (w : Int64) (hw : fixedWord spec.kind v = some w)
      (hwidth : spec.kind.fixedWidth ≠ 0) : block.materializeValue r i = .ok v := by
    obtain ⟨⟨vals, hdecode, hget⟩, hview, hbool⟩ := hb.word_eq hspec hraw hrow hv hr hw
    rw [materializeValue_fixed hhas.directory hdir hwidth]
    by_cases hb : spec.kind = .bool
    · obtain ⟨out, hout⟩ := hbool hb
      rw [if_pos hb, hout, PaxBlock.indexInto, hview out hout]
      exact congrArg Except.ok (wordValue_of_fixedWord hkind hw)
    · rw [if_neg hb, hdecode, PaxBlock.indexInto, hget]
      exact congrArg Except.ok (wordValue_of_fixedWord hkind hw)
  cases v with
  | null => exact absurd rfl hnull
  | bool b => exact hfixed _ (by rw [← hkind]; rfl) (by rw [← hkind]; exact Nat.one_ne_zero)
  | i64 x | u64 x | f64 bits | timestamp x =>
    exact hfixed _ (by rw [← hkind]; rfl) (by rw [← hkind]; exact succ_ne_zero 7)
  | bytes b =>
    have hcol := getElem?_columnOf (i := i) hrow
    rw [getD_eq_getElem?_getD, hv, Option.getD_some] at hcol
    rw [← hkind] at hdir
    exact materializeValue_bytes hhas.directory hdir (hb.varValue_eq hspec hkind.symm hcol)

end

/-- **A block of raw columns gives its well-typed rows back**, as do its column readers. -/
theorem materializeRow_build (blockSize : UInt32) (h : PaxBlockBuilder.build fmt blockSize specs rows = .ok block)
    (hsize : blockSize.toNat + minipageAlign ≤ 2 ^ 32) (hraw : ∀ s ∈ specs, s.encoding = .raw)
    (htyped : ∀ row ∈ rows, WellTyped specs row) (hrow : rows[r]? = some row)
    (hr : r < block.header.rowCount.toNat) :
    PaxBlock.fromOwned block.buf block.blockSize = .ok block ∧ block.materializeRow r = .ok row ∧
      ∀ (i : ℕ) spec v, specs[i]? = some spec → row[i]? = some v →
        (∀ b, v = .bytes b → block.varValue i r = .ok (some b)) ∧ ∀ w, fixedWord spec.kind v = some w →
            (∃ vals, block.decodeI64Column i = .ok vals ∧ vals[r]? = some w) ∧
              ∀ vals, block.columnView i = .ok vals → vals[r]? = some w := by
  obtain ⟨varheap, hb⟩ := build_spec h hsize
  have hlenRow := hb.length_row row (mem_of_getElem? hrow)
  have htype := htyped row (mem_of_getElem? hrow)
  rw [hb.rowCount, UInt32.toNat_ofNat'] at hr
  have hvar : ∀ (i : ℕ) spec b, specs[i]? = some spec → row[i]? = some (.bytes b) →
      block.varValue i r = .ok (some b) := by
    intro i spec b hspec hv
    have hkind := (htype _ (cell_mem hspec hv)).2
    have hcol := getElem?_columnOf (i := i) hrow
    rw [getD_eq_getElem?_getD, hv, Option.getD_some] at hcol
    exact hb.varValue_eq hspec hkind.symm hcol
  refine ⟨?_, ?_, ?_⟩
  · have hstart := hb.varheapOff
    have hfits := hb.varheap_fits
    unfold PaxBlock.fromOwned
    rw [blockHeaderSize, if_neg (by omega)]
  · rw [hb.materializeRow_eq hr, materializeValues_eq_ok, forall₂_iff_get]
    refine ⟨by rw [length_range, hlenRow], ?_⟩
    intro i hi hi'
    rw [length_range] at hi
    simp only [get_eq_getElem, getElem_range]
    have hspec := getElem?_eq_getElem hi
    have hv := getElem?_eq_getElem hi'
    generalize specs[i] = spec at hspec
    generalize row[i] = v at hv
    obtain ⟨hnull, hkind⟩ := htype _ (cell_mem hspec hv)
    exact hb.materializeValue_eq hspec (hraw spec (mem_of_getElem? hspec)) hrow hv hr hnull hkind
  · intro i spec v hspec hv
    refine ⟨?_, ?_⟩
    · rintro b rfl
      exact hvar i spec b hspec hv
    · intro w hw
      obtain ⟨hdecode, hview, -⟩ := hb.word_eq hspec (hraw spec (mem_of_getElem? hspec)) hrow hv hr hw
      exact ⟨hdecode, hview⟩

/-- Text functions of no effect. -/
def plainFormat : TextFormat := ⟨fun _ => "", fun _ => "", fun _ => ""⟩

theorem materializeRow_build_pair : ∃ block, PaxBlockBuilder.build plainFormat 512
        [.new 0 .bytes, .new 1 .bool] [[.bytes [1, 2], .bool true], [.bytes [3], .bool false]] =
          .ok block ∧ block.materializeRow 1 = .ok [.bytes [3], .bool false] := by
  have hrows : (PaxBlockBuilder.build plainFormat 512 [.new 0 .bytes, .new 1 .bool]
      [[.bytes [1, 2], .bool true], [.bytes [3], .bool false]]).map
        (fun block => block.header.rowCount.toNat) = .ok 2 := by
    decide +kernel
  cases hbuild : PaxBlockBuilder.build plainFormat 512 [.new 0 .bytes, .new 1 .bool]
      [[.bytes [1, 2], .bool true], [.bytes [3], .bool false]] with
  | error e =>
    rw [hbuild] at hrows
    cases hrows
  | ok block =>
    rw [hbuild] at hrows
    have hcount : block.header.rowCount.toNat = 2 := Except.ok.inj hrows
    have hr : 1 < block.header.rowCount.toNat := by omega
    exact ⟨block, rfl, (materializeRow_build 512 hbuild (by decide) (by decide) (by decide) rfl hr).2.1⟩

end RoundTrip

end CenDB.Storage
