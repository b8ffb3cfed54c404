import CenDB.Storage.PaxStaging

/-! # The layout of a finished block

The regions that `finalize` writes ascend: header, directory entries, minipages, heap
(`writes_ascending`).  A block size is a multiple of the page size, so it is at least one alignment
below `2 ^ 32`; no offset wraps, and the readers find every region again (`finalize_spec_of_unwrapped`). -/

namespace CenDB.Storage

open Words List Option UInt32 Nat

/-! ### Joining the heaps -/

@[simp] theorem length_slotBytes (slot : UInt32 × UInt32) : (slotBytes slot).length = 8 := by rfl

theorem length_rebase (base : UInt32) (mp : List UInt8) : (rebase base mp).length = mp.length := by
  induction h : mp.length using Nat.strongRecOn generalizing mp with
  | ind n ih =>
    rw [rebase]
    by_cases hshort : mp.length < 8
    · rw [if_pos hshort, h]
    · have hrest := ih (mp.drop 8).length (by rw [length_drop]; omega) (mp.drop 8) rfl
      have hslot : (if u32At mp 4 = nullLen then mp.take 8
          else leU32 (u32At mp 0 + base) ++ slice mp 4 8).length = 8 := by
        split
        · rw [length_take]
          omega
        · rw [length_append, length_leU32, slice_length (by omega)]
      rw [if_neg hshort, length_append, hslot, hrest, length_drop]
      omega

/-- A slot after its heap has moved. -/
def rebaseSlot (base : UInt32) (slot : UInt32 × UInt32) : UInt32 × UInt32 :=
  if slot.2 = nullLen then slot else (slot.1 + base, slot.2)

theorem u32At_slotBytes (slot : UInt32 × UInt32) (rest : List UInt8) :
    u32At (slotBytes slot ++ rest) 0 = slot.1 ∧ u32At (slotBytes slot ++ rest) 4 = slot.2 := by
  have hsecond := u32At_append (leU32 slot.1) slot.2 rest
  rw [length_leU32] at hsecond
  rw [slotBytes, append_assoc]
  exact ⟨u32At_head _ _, hsecond⟩

/-- Moving a minipage moves each of its slots. -/
theorem rebase_slots (base : UInt32) (slots : List (UInt32 × UInt32)) :
    rebase base (slots.flatMap slotBytes) = (slots.map (rebaseSlot base)).flatMap slotBytes := by
  induction slots with
  | nil =>
    rw [rebase]
    rfl
  | cons slot slots ih =>
    have hlen : ¬ (slotBytes slot ++ slots.flatMap slotBytes).length < 8 := by simp
    obtain ⟨hoff, hlen2⟩ := u32At_slotBytes slot (slots.flatMap slotBytes)
    rw [flatMap_cons, rebase, if_neg hlen, hoff, hlen2, drop_left' (length_slotBytes slot),
      ih, map_cons, flatMap_cons]
    congr 1
    unfold rebaseSlot
    by_cases hnull : slot.2 = nullLen
    · simp [hnull]
    · have hslice : slice (slotBytes slot ++ slots.flatMap slotBytes) 4 8 = leU32 slot.2 := by rfl
      rw [if_neg hnull, if_neg hnull, hslice]
      rfl

/-- What joining the heaps does to each column: a fixed-width minipage stays, the slots of a text
column move by the place of its heap. -/
structure Merged (columns : List (ColumnSpec × Staging)) (mps : List (List UInt8))
    (varheap : List UInt8) (out : List (List UInt8) × List UInt8) : Prop where
  lengths : out.1.map List.length = mps.map List.length
  grows : varheap <+: out.2
  fixed : ∀ (i : ℕ) spec kind vals, columns[i]? = some (spec, .fixed kind vals) → out.1[i]? = mps[i]?
  var : ∀ (i : ℕ) spec slots heap, columns[i]? = some (spec, .var slots heap) →
    spec.kind.fixedWidth = 0 → ∃ before after, out.2 = before ++ (heap ++ after) ∧
      out.1[i]? = mps[i]?.map (rebase (UInt32.ofNat before.length))

variable {columns : List (ColumnSpec × Staging)} {laid : List (ColumnDirectory × List UInt8)} {stop : ℕ}
  {minipages : List (List UInt8)} {block : PaxBlock}

variable {mps : List (List UInt8)} {varheap mp : List UInt8} {out : List (List UInt8) × List UInt8}
  {rowCount : UInt32} {cursor i : ℕ} {w : ℕ × List UInt8} {hdr : BlockHeader} {dir : ColumnDirectory}
  {b : PaxBlockBuilder}

/-- A column in front that keeps its minipage. -/
theorem Merged.keep (h : Merged columns mps varheap out) {spec : ColumnSpec} {staging : Staging}
    (hwide : ∀ slots heap, staging = .var slots heap → spec.kind.fixedWidth ≠ 0) (mp : List UInt8) :
    Merged ((spec, staging) :: columns) (mp :: mps) varheap (mp :: out.1, out.2) where
  lengths := by simp [h.lengths]
  grows := h.grows
  fixed := by
    intro i spec' kind vals hi
    cases i with
    | zero => rfl
    | succ i => exact h.fixed i spec' kind vals hi
  var := by
    intro i spec' slots heap hi hzero
    cases i with
    | zero =>
      rw [getElem?_cons_zero, Option.some.injEq, Prod.mk.injEq] at hi
      rw [← hi.1] at hzero
      exact absurd hzero (hwide slots heap hi.2)
    | succ i => exact h.var i spec' slots heap hi hzero

/-- A text column in front, whose heap goes behind what is already joined. -/
theorem Merged.move {heap : List UInt8} (h : Merged columns mps (varheap ++ heap) out) (spec : ColumnSpec)
    (slots : List (UInt32 × UInt32)) (mp : List UInt8) :
    Merged ((spec, .var slots heap) :: columns) (mp :: mps) varheap
      (rebase (UInt32.ofNat varheap.length) mp :: out.1, out.2) where
  lengths := by
    dsimp only
    rw [map_cons, h.lengths, length_rebase, map_cons]
  grows := (prefix_append _ _).trans h.grows
  fixed := by
    intro i spec' kind vals hi
    cases i with
    | zero => cases hi
    | succ i => exact h.fixed i spec' kind vals hi
  var := by
    intro i spec' slots' heap' hi hzero
    cases i with
    | zero =>
      rw [getElem?_cons_zero, Option.some.injEq, Prod.mk.injEq, Staging.var.injEq] at hi
      obtain ⟨after, hafter⟩ := h.grows
      refine ⟨varheap, after, ?_, rfl⟩
      rw [← hi.2.2, ← append_assoc]
      exact hafter.symm
    | succ i => exact h.var i spec' slots' heap' hi hzero

theorem mergeHeaps_spec (hlen : columns.length = mps.length) (varheap : List UInt8) :
    Merged columns mps varheap (mergeHeaps varheap columns mps) := by
  induction columns generalizing mps varheap with
  | nil =>
    cases mps with
    | nil =>
      refine ⟨rfl, prefix_refl _, ?_, ?_⟩
      · simp
      · simp
    | cons mp mps => cases hlen
  | cons column columns ih =>
    cases mps with
    | nil => cases hlen
    | cons mp mps =>
      have hlen' : columns.length = mps.length := Nat.succ.inj hlen
      obtain ⟨spec, staging⟩ := column
      cases staging with
      | fixed kind vals =>
        rw [mergeHeaps]
        exact (ih hlen' varheap).keep (fun slots heap heq => by cases heq) mp
      | var slots heap =>
        rw [mergeHeaps]
        by_cases hwide : 0 < spec.kind.fixedWidth
        · rw [if_pos hwide]
          exact (ih hlen' varheap).keep (fun _ _ _ => by omega) mp
        · rw [if_neg hwide]
          exact (ih hlen' (varheap ++ heap)).move spec slots mp

/-! ### The columns -/

/-- The directory entry of a column whose minipage starts at an offset. -/
def IsEntry (spec : ColumnSpec) (rowCount : UInt32) (page : List UInt8) (zoneMin zoneMax : Int64)
    (enc : Encoding) (dir : ColumnDirectory) : Prop :=
  dir.kind = spec.kind.toU8 ∧ dir.encoding = enc.discriminant ∧
    dir.compressedLen = UInt32.ofNat page.length ∧ dir.valueCount = rowCount ∧
    dir.zoneMin = zoneMin ∧ dir.zoneMax = zoneMax

/-- The minipages of the laid out columns ascend and end below the limit that they fit in. -/
theorem layoutColumns_spec {limit : ℕ} (hlimit : limit + minipageAlign ≤ 2 ^ 32)
    (h : layoutColumns rowCount cursor columns = .ok (laid, stop)) (hcursor : cursor ≤ limit)
    (hfit : ∀ d ∈ laid, d.1.minipageOff.toNat + d.2.length ≤ limit) :
    cursor ≤ stop ∧ stop ≤ limit ∧
      (∀ d ∈ laid, cursor ≤ d.1.minipageOff.toNat ∧ d.1.minipageOff.toNat + d.2.length ≤ stop) ∧
      laid.Pairwise (fun d e => d.1.minipageOff.toNat + d.2.length ≤ e.1.minipageOff.toNat) ∧
      ∀ (i : ℕ) spec staging, columns[i]? = some (spec, staging) →
        ∃ dir page zoneMin zoneMax enc, laid[i]? = some (dir, page) ∧
          encodeColumn spec staging = .ok (page, zoneMin, zoneMax, enc) ∧
          IsEntry spec rowCount page zoneMin zoneMax enc dir := by
  induction columns generalizing cursor laid with
  | nil =>
    rw [layoutColumns, Except.ok.injEq, Prod.mk.injEq] at h
    rw [← h.1, ← h.2]
    refine ⟨le_refl _, hcursor, by simp, List.Pairwise.nil, ?_⟩
    intro i spec staging hi
    cases hi
  | cons column columns ih =>
    obtain ⟨spec, staging⟩ := column
    rw [layoutColumns] at h
    split at h
    · cases h
    · rename_i page zoneMin zoneMax enc henc
      dsimp only at h
      split at h
      · cases h
      · rename_i rest stop' hrest
        rw [Except.ok.injEq, Prod.mk.injEq] at h
        obtain ⟨hlaid, hstop⟩ := h
        subst hstop
        have hge := le_alignUp cursor (show 0 < minipageAlign by decide)
        have hlt := alignUp_lt cursor (show 0 < minipageAlign by decide)
        generalize hdir : ({ ColumnDirectory.fromSpec spec rowCount (UInt32.ofNat (alignUp cursor minipageAlign)) with
          encoding := enc.discriminant
          minipageLen := UInt32.ofNat page.length
          compressedLen := UInt32.ofNat page.length
          valueCount := rowCount
          zoneMin := zoneMin
          zoneMax := zoneMax } : ColumnDirectory) = dir at hlaid
        -- the offset is narrowed without loss
        have hoff : dir.minipageOff.toNat = alignUp cursor minipageAlign := by
          rw [← hdir]
          show (UInt32.ofNat (alignUp cursor minipageAlign)).toNat = _
          rw [toNat_ofNat', mod_eq_of_lt (by omega)]
        have hentry : IsEntry spec rowCount page zoneMin zoneMax enc dir := by
          rw [← hdir]
          exact ⟨rfl, rfl, rfl, rfl, rfl, rfl⟩
        rw [← hlaid] at hfit ⊢
        obtain ⟨hfirst, hfit'⟩ := forall_mem_cons.mp hfit
        dsimp only at hfirst
        obtain ⟨hmono, hstop, hbound, hasc, hcols⟩ := ih hrest (by omega) hfit'
        refine ⟨by omega, hstop, ?_, ?_, ?_⟩
        · refine forall_mem_cons.mpr ⟨⟨by dsimp only; omega, by dsimp only; omega⟩, ?_⟩
          intro d hd
          obtain ⟨hlow, hhigh⟩ := hbound d hd
          exact ⟨by omega, hhigh⟩
        · refine pairwise_cons.mpr ⟨?_, hasc⟩
          intro d hd
          have hlow := (hbound d hd).1
          dsimp only
          omega
        · intro i spec' staging' hi
          cases i with
          | zero =>
            rw [getElem?_cons_zero, Option.some.injEq, Prod.mk.injEq] at hi
            rw [← hi.1, ← hi.2]
            exact ⟨dir, page, zoneMin, zoneMax, enc, rfl, henc, hentry⟩
          | succ i => exact hcols i spec' staging' hi

/-- Minipages that end below `2 ^ 32` are where their entries say. -/
theorem layoutColumns_fits (h : layoutColumns rowCount cursor columns = .ok (laid, stop)) (hstop : stop < 2 ^ 32) :
    cursor ≤ stop ∧ ∀ d ∈ laid, d.1.minipageOff.toNat + d.2.length ≤ stop := by
  induction columns generalizing cursor laid with
  | nil =>
    obtain ⟨rfl, rfl⟩ := Prod.mk.inj (Except.ok.inj h)
    exact ⟨le_rfl, fun d hd => absurd hd not_mem_nil⟩
  | cons column columns ih =>
    obtain ⟨spec, staging⟩ := column
    rw [layoutColumns] at h
    split at h
    · cases h
    · rename_i page zoneMin zoneMax enc henc
      dsimp only at h
      split at h
      · cases h
      · rename_i rest stop' hrest
        obtain ⟨rfl, rfl⟩ := Prod.mk.inj (Except.ok.inj h)
        have hge := le_alignUp cursor (show 0 < minipageAlign by decide)
        obtain ⟨hmono, hbound⟩ := ih hrest
        have hoff : (UInt32.ofNat (alignUp cursor minipageAlign)).toNat = alignUp cursor minipageAlign := by
          rw [toNat_ofNat', mod_eq_of_lt (by omega)]
        refine ⟨by omega, forall_mem_cons.mpr ⟨?_, hbound⟩⟩
        show (UInt32.ofNat (alignUp cursor minipageAlign)).toNat + page.length ≤ stop'
        omega

/-! ### The block -/

/-- The directory entries at their places. -/
def directoryWrites (dirs : List ColumnDirectory) : List (ℕ × List UInt8) :=
  dirs.zipIdx.map fun d => (blockHeaderSize + d.2 * columnDirectorySize, d.1.bytes)

/-- The minipages at the places their entries name. -/
def minipageWrites (dirs : List ColumnDirectory) (minipages : List (List UInt8)) : List (ℕ × List UInt8) :=
  (dirs.zip minipages).map fun d => (d.1.minipageOff.toNat, d.2)

/-- What `finalize` writes, in its order. -/
def blockWrites (hdr : BlockHeader) (dirs : List ColumnDirectory) (minipages : List (List UInt8))
    (voff : ℕ) (varheap : List UInt8) : List (ℕ × List UInt8) :=
  (0, hdr.bytes) :: (directoryWrites dirs ++ (minipageWrites dirs minipages ++ [(voff, varheap)]))

section Writes

variable {hdr : BlockHeader} {dirs : List ColumnDirectory} {minipages : List (List UInt8)}
  {voff : ℕ} {varheap : List UInt8}

theorem header_mem_writes : (0, hdr.bytes) ∈ blockWrites hdr dirs minipages voff varheap := mem_cons_self

variable {i : ℕ} {dir : ColumnDirectory}

theorem directory_mem_writes (h : dirs[i]? = some dir) :
    (blockHeaderSize + i * columnDirectorySize, dir.bytes) ∈ blockWrites hdr dirs minipages voff varheap := by
  refine mem_cons_of_mem _ (mem_append_left _ ?_)
  exact List.mem_map.mpr ⟨(dir, i), mk_mem_zipIdx_iff_getElem?.mpr h, rfl⟩

theorem minipage_mem_writes {mp : List UInt8} (hdir : dirs[i]? = some dir) (hmp : minipages[i]? = some mp) :
    (dir.minipageOff.toNat, mp) ∈ blockWrites hdr dirs minipages voff varheap := by
  have hzip : (dirs.zip minipages)[i]? = some (dir, mp) := getElem?_zip_eq_some.mpr ⟨hdir, hmp⟩
  refine mem_cons_of_mem _ (mem_append_right _ (mem_append_left _ ?_))
  exact List.mem_map.mpr ⟨(dir, mp), mem_of_getElem? hzip, rfl⟩

theorem varheap_mem_writes : (voff, varheap) ∈ blockWrites hdr dirs minipages voff varheap :=
  mem_cons_of_mem _ (mem_append_right _ (mem_append_right _ mem_cons_self))

end Writes

/-- Regions, given by their places and lengths, ascend. -/
def Ascending (ws : List (ℕ × List UInt8)) : Prop := ws.Pairwise fun v w => v.1 + v.2.length ≤ w.1

theorem directoryWrites_ascending (dirs : List ColumnDirectory) : Ascending (directoryWrites dirs) := by
  unfold Ascending directoryWrites
  rw [pairwise_iff_getElem]
  intro i j hi hj hij
  simp only [getElem_map, getElem_zipIdx, ColumnDirectory.length_bytes, Nat.zero_add, columnDirectorySize]
  omega

theorem mem_directoryWrites {dirs : List ColumnDirectory} (h : w ∈ directoryWrites dirs) :
    64 ≤ w.1 ∧ w.1 + w.2.length ≤ 64 + dirs.length * 64 := by
  obtain ⟨d, hd, rfl⟩ := List.mem_map.mp h
  have hlt := (List.getElem?_eq_some_iff.mp (mk_mem_zipIdx_iff_getElem?.mp hd)).1
  dsimp only
  rw [ColumnDirectory.length_bytes, blockHeaderSize, columnDirectorySize]
  omega

theorem length_layoutColumns (h : layoutColumns rowCount cursor columns = .ok (laid, stop)) :
    laid.length = columns.length := by
  induction columns generalizing cursor laid with
  | nil =>
    rw [layoutColumns, Except.ok.injEq, Prod.mk.injEq] at h
    rw [← h.1]
    rfl
  | cons column columns ih =>
    rw [layoutColumns] at h
    split at h
    · cases h
    · dsimp only at h
      split at h
      · cases h
      · rename_i hrest
        rw [Except.ok.injEq, Prod.mk.injEq] at h
        obtain ⟨hlaid, rfl⟩ := h
        rw [← hlaid, length_cons, ih hrest, length_cons]

theorem minipagesOffset_eq (n : ℕ) : minipagesOffsetAfterDirectory n = 64 + n * 64 := by
  unfold minipagesOffsetAfterDirectory alignUp blockHeaderSize columnDirectorySize minipageAlign
  omega

section

variable (h : minipages.map List.length = laid.map fun d => d.2.length)
include h

/-- Joining the heaps keeps the length of every minipage. -/
theorem length_getElem_minipages (hmp : minipages[i]? = some mp) :
    ∃ d, laid[i]? = some d ∧ mp.length = d.2.length := by
  have hcongr := congrArg (·[i]?) h
  simp only [getElem?_map, hmp, map_some] at hcongr
  obtain ⟨d, hd, hlen⟩ := map_eq_some_iff.mp hcongr.symm
  exact ⟨d, hd, hlen.symm⟩

theorem mem_minipageWrites (hw : w ∈ minipageWrites (laid.map Prod.fst) minipages) :
    ∃ d ∈ laid, w.1 = d.1.minipageOff.toNat ∧ w.2.length = d.2.length := by
  obtain ⟨d, hd, rfl⟩ := List.mem_map.mp hw
  obtain ⟨i, hi⟩ := mem_iff_getElem?.mp hd
  obtain ⟨hdir, hmp⟩ := getElem?_zip_eq_some.mp hi
  obtain ⟨e, he, hlen⟩ := length_getElem_minipages h hmp
  rw [getElem?_map, he] at hdir
  exact ⟨e, mem_of_getElem? he, by rw [← Option.some.inj hdir], hlen⟩

theorem minipageWrites_ascending
    (hasc : laid.Pairwise fun d e => d.1.minipageOff.toNat + d.2.length ≤ e.1.minipageOff.toNat) :
    Ascending (minipageWrites (laid.map Prod.fst) minipages) := by
  unfold Ascending minipageWrites
  rw [pairwise_iff_getElem]
  intro i j hi hj hij
  simp only [length_map, length_zip, lt_inf_iff] at hi hj
  simp only [getElem_map, getElem_zip]
  obtain ⟨d, hd, hlen⟩ := length_getElem_minipages h (getElem?_eq_getElem hi.2)
  have hat := pairwise_iff_getElem.mp hasc i j hi.1 hj.1 hij
  rwa [hlen, ← (List.getElem?_eq_some_iff.mp hd).2]

end

/-- **The regions of a block ascend** when its minipages do. -/
theorem writes_ascending {voff : ℕ} (hlens : minipages.map List.length = laid.map fun d => d.2.length)
    (hbound : ∀ d ∈ laid, 64 + laid.length * 64 ≤ d.1.minipageOff.toNat ∧ d.1.minipageOff.toNat + d.2.length ≤ stop)
    (hasc : laid.Pairwise fun d e => d.1.minipageOff.toNat + d.2.length ≤ e.1.minipageOff.toNat)
    (hstart : 64 + laid.length * 64 ≤ stop) (hvoff : stop ≤ voff) :
    Ascending (blockWrites hdr (laid.map Prod.fst) minipages voff varheap) := by
  have hdirs : ∀ w ∈ directoryWrites (laid.map Prod.fst), 64 ≤ w.1 ∧ w.1 + w.2.length ≤ 64 + laid.length * 64 := by
    intro w hw
    have hat := mem_directoryWrites hw
    rwa [length_map] at hat
  have hpages : ∀ w ∈ minipageWrites (laid.map Prod.fst) minipages,
      64 + laid.length * 64 ≤ w.1 ∧ w.1 + w.2.length ≤ stop := by
    intro w hw
    obtain ⟨d, hd, hoff, hlen⟩ := mem_minipageWrites hlens hw
    rw [hoff, hlen]
    exact hbound d hd
  refine pairwise_cons.mpr ⟨?_, pairwise_append.mpr ⟨directoryWrites_ascending _, ?_, ?_⟩⟩
  · intro w hw
    rw [BlockHeader.length_bytes, blockHeaderSize]
    cases mem_append.mp hw with
    | inl hdir =>
      have hlow := (hdirs w hdir).1
      omega
    | inr hrest =>
      cases mem_append.mp hrest with
      | inl hpage =>
        have hlow := (hpages w hpage).1
        omega
      | inr hheap =>
        rw [mem_singleton.mp hheap]
        dsimp only
        omega
  · refine pairwise_append.mpr ⟨minipageWrites_ascending hlens hasc, pairwise_singleton _ _, ?_⟩
    intro v hv w hw
    rw [mem_singleton.mp hw]
    exact (hpages v hv).2.trans hvoff
  · intro v hv w hw
    have hhigh := (hdirs v hv).2
    cases mem_append.mp hw with
    | inl hpage => exact hhigh.trans (hpages w hpage).1
    | inr hheap =>
      rw [mem_singleton.mp hheap]
      dsimp only
      omega

/-! ### The readers -/

theorem header_of_slice (hfit : blockHeaderSize ≤ block.buf.length)
    (h : slice block.buf 0 blockHeaderSize = hdr.bytes) : block.header = hdr := by
  unfold PaxBlock.header
  rw [if_neg (Nat.not_lt.mpr hfit), ← slice_zero, h, BlockHeader.read_bytes]

theorem directory_of_slice (hfit : blockHeaderSize + i * columnDirectorySize + columnDirectorySize ≤ block.buf.length)
    (h : slice block.buf (blockHeaderSize + i * columnDirectorySize) (blockHeaderSize + i * columnDirectorySize + columnDirectorySize) = dir.bytes) :
    block.directory i = .ok dir := by
  unfold PaxBlock.directory
  dsimp only
  rw [if_neg (Nat.not_lt.mpr hfit), h, ColumnDirectory.read_bytes]

theorem minipageBytes_of_slice (hdir : block.directory i = .ok dir) (hlen : dir.compressedLen.toNat = mp.length)
    (hfit : dir.minipageOff.toNat + mp.length ≤ block.buf.length)
    (h : slice block.buf dir.minipageOff.toNat (dir.minipageOff.toNat + mp.length) = mp) :
    block.minipageBytes i = .ok mp := by
  unfold PaxBlock.minipageBytes
  rw [hdir]
  dsimp only
  rw [hlen, if_neg (Nat.not_lt.mpr hfit), h]

/-- What `finalize` has laid out and written when it returns a block. -/
structure Finalized (b : PaxBlockBuilder) (block : PaxBlock)
    (laid : List (ColumnDirectory × List UInt8)) (stop : ℕ) (minipages : List (List UInt8))
    (varheap : List UInt8) (hdr : BlockHeader) : Prop where
  layout : layoutColumns b.rowCount (UInt32.ofNat (minipagesOffsetAfterDirectory b.specs.length)).toNat
    (b.specs.zip b.staging) = .ok (laid, stop)
  merged : Merged (b.specs.zip b.staging) (laid.map Prod.snd) [] (minipages, varheap)
  blockSize : block.blockSize = b.blockSize
  rowCount : hdr.rowCount = b.rowCount
  columnCount : hdr.columnCount = UInt32.ofNat b.specs.length
  varheapOff : hdr.varheapOff = UInt32.ofNat (alignUp stop 8)
  minPk : hdr.minPk = (b.pkRange.map Prod.fst).getD Int64.maxValue
  maxPk : hdr.maxPk = (b.pkRange.map Prod.snd).getD Int64.minValue
  minTs : hdr.minTs = (b.tsRange.map Prod.fst).getD Int64.maxValue
  maxTs : hdr.maxTs = (b.tsRange.map Prod.snd).getD Int64.minValue
  length_laid : laid.length = b.specs.length
  written : ∃ buf, buf.length = b.blockSize.toNat ∧
    writeAll buf (blockWrites hdr (laid.map Prod.fst) minipages hdr.varheapOff.toNat varheap) = some block.buf

theorem finalize_cases (h : b.finalize = .ok block) (hstaging : b.staging.length = b.specs.length) :
    ∃ laid stop minipages varheap hdr, Finalized b block laid stop minipages varheap hdr := by
  have hcolumns : (b.specs.zip b.staging).length = b.specs.length := by simp [hstaging]
  unfold PaxBlockBuilder.finalize at h
  dsimp only at h
  split at h
  · cases h
  · rename_i laid stop hlayout
    have hlaid := length_layoutColumns hlayout
    have hmerged := mergeHeaps_spec (show (b.specs.zip b.staging).length = (laid.map Prod.snd).length by
        rw [length_map, hlaid]) []
    generalize mergeHeaps [] (b.specs.zip b.staging) (laid.map Prod.snd) = merged at h hmerged
    obtain ⟨minipages, varheap⟩ := merged
    dsimp only at h
    split at h
    · cases h
    · split at h
      · cases h
      · rename_i buf hbuf
        have hbufLen : buf.length = b.blockSize.toNat := by
          unfold allocAlignedBlock at hbuf
          split_ifs at hbuf with hzero
          rw [← Except.ok.inj hbuf, length_replicate]
        split at h
        · cases h
        · rename_i buf' hwrites
          rw [← Except.ok.inj h]
          exact ⟨laid, stop, minipages, varheap, _, hlayout, hmerged, rfl, rfl, rfl, rfl, rfl, rfl,
            rfl, rfl, hlaid.trans hcolumns, buf, hbufLen, hwrites⟩

/-- What a finished block has of a column. -/
structure HasColumn (block : PaxBlock) (rowCount : UInt32) (varheap : List UInt8) (i : ℕ)
    (spec : ColumnSpec) (staging : Staging) (dir : ColumnDirectory) (page mp : List UInt8)
    (zoneMin zoneMax : Int64) (enc : Encoding) : Prop where
  encoded : encodeColumn spec staging = .ok (page, zoneMin, zoneMax, enc)
  directory : block.directory i = .ok dir
  entry : IsEntry spec rowCount page zoneMin zoneMax enc dir
  minipage : block.minipageBytes i = .ok mp
  length_page : page.length ≤ block.buf.length
  fixed : ∀ kind vals, staging = .fixed kind vals → mp = page
  var : ∀ slots heap, staging = .var slots heap → spec.kind.fixedWidth = 0 →
    ∃ before after, varheap = before ++ (heap ++ after) ∧ mp = rebase (UInt32.ofNat before.length) page

namespace Finalized

variable {b : PaxBlockBuilder} {block : PaxBlock} {laid : List (ColumnDirectory × List UInt8)}
  {stop : ℕ} {minipages : List (List UInt8)} {varheap : List UInt8} {hdr : BlockHeader}

section

variable (h : Finalized b block laid stop minipages varheap hdr)
include h

theorem lengths : minipages.map List.length = laid.map fun d => d.2.length := by simp [h.merged.lengths]

theorem length_buf : block.buf.length = b.blockSize.toNat := by
  obtain ⟨buf, hlen, hwrites⟩ := h.written
  rw [length_writeAll hwrites, hlen]

theorem fits : ∀ w ∈ blockWrites hdr (laid.map Prod.fst) minipages hdr.varheapOff.toNat varheap,
      w.1 + w.2.length ≤ b.blockSize.toNat := by
  obtain ⟨buf, hlen, hwrites⟩ := h.written
  rw [← hlen]
  exact fits_writeAll hwrites

/-- The header and the directory lie in the block, so the number of columns is small. -/
theorem directory_fits : 64 + b.specs.length * 64 ≤ b.blockSize.toNat := by
  have hlen := h.length_laid
  cases hn : b.specs.length with
  | zero =>
    have hfirst := h.fits _ header_mem_writes
    dsimp only at hfirst
    rw [BlockHeader.length_bytes, blockHeaderSize] at hfirst
    omega
  | succ n =>
    have hn' : n < (laid.map Prod.fst).length := by
      rw [length_map]
      omega
    have hlast := h.fits _ (directory_mem_writes (getElem?_eq_getElem hn'))
    dsimp only at hlast
    rw [ColumnDirectory.length_bytes, blockHeaderSize, columnDirectorySize] at hlast
    omega

theorem minipage_fits : ∀ d ∈ laid, d.1.minipageOff.toNat + d.2.length ≤ b.blockSize.toNat := by
  intro d hd
  obtain ⟨i, hi⟩ := mem_iff_getElem?.mp hd
  have hlt : i < minipages.length := by
    have hcongr := congrArg List.length h.lengths
    rw [length_map, length_map] at hcongr
    rw [hcongr]
    exact (List.getElem?_eq_some_iff.mp hi).1
  have hmp := getElem?_eq_getElem hlt
  obtain ⟨d', hd', hlen⟩ := length_getElem_minipages h.lengths hmp
  have hpage := h.fits _ (minipage_mem_writes (by rw [getElem?_map, hi]; rfl) hmp)
  dsimp only at hpage
  rw [hi] at hd'
  rwa [hlen, ← Option.some.inj hd'] at hpage

theorem layout_eq :
    layoutColumns b.rowCount (64 + b.specs.length * 64) (b.specs.zip b.staging) = .ok (laid, stop) := by
  have hdir := h.directory_fits
  have hsize := b.blockSize.toNat_lt
  have hoff : (UInt32.ofNat (minipagesOffsetAfterDirectory b.specs.length)).toNat = 64 + b.specs.length * 64 := by
    rw [minipagesOffset_eq, toNat_ofNat', mod_eq_of_lt (by omega)]
  rw [← hoff]
  exact h.layout

/-- In a block that is not too large no offset wraps. -/
theorem stop_le (hsize : b.blockSize.toNat + minipageAlign ≤ 2 ^ 32) : stop ≤ b.blockSize.toNat :=
  (layoutColumns_spec hsize h.layout_eq h.directory_fits h.minipage_fits).2.1

/-- The columns as laid out, where no offset wraps. -/
theorem laid_spec (hroom : stop + minipageAlign ≤ 2 ^ 32) :
    64 + laid.length * 64 ≤ stop ∧ (∀ d ∈ laid, 64 + laid.length * 64 ≤ d.1.minipageOff.toNat ∧
        d.1.minipageOff.toNat + d.2.length ≤ stop) ∧
      laid.Pairwise (fun d e => d.1.minipageOff.toNat + d.2.length ≤ e.1.minipageOff.toNat) ∧
      ∀ (i : ℕ) spec staging, (b.specs.zip b.staging)[i]? = some (spec, staging) →
        ∃ dir page zoneMin zoneMax enc, laid[i]? = some (dir, page) ∧
          encodeColumn spec staging = .ok (page, zoneMin, zoneMax, enc) ∧
          IsEntry spec b.rowCount page zoneMin zoneMax enc dir := by
  have halign : minipageAlign = 64 := rfl
  obtain ⟨hstart, hpages⟩ := layoutColumns_fits h.layout_eq (by omega)
  obtain ⟨hmono, -, hlaid⟩ := layoutColumns_spec hroom h.layout_eq hstart hpages
  rw [h.length_laid]
  exact ⟨hmono, hlaid⟩

theorem varheapOff_toNat (hroom : stop + minipageAlign ≤ 2 ^ 32) : hdr.varheapOff.toNat = alignUp stop 8 := by
  have hlt := alignUp_lt stop (show 0 < 8 by decide)
  have halign : minipageAlign = 64 := rfl
  rw [h.varheapOff, toNat_ofNat', mod_eq_of_lt (by omega)]

/-- The regions ascend, so each of them is still there in the end. -/
theorem read (hroom : stop + minipageAlign ≤ 2 ^ 32) :
    ∀ w ∈ blockWrites hdr (laid.map Prod.fst) minipages hdr.varheapOff.toNat varheap,
      slice block.buf w.1 (w.1 + w.2.length) = w.2 := by
  obtain ⟨buf, hlen, hwrites⟩ := h.written
  obtain ⟨hstart, hbound, hasc, -⟩ := h.laid_spec hroom
  have hvoff : stop ≤ hdr.varheapOff.toNat := by
    rw [h.varheapOff_toNat hroom]
    exact le_alignUp stop (by decide)
  exact slice_writeAll hwrites (pairwise_apart (writes_ascending h.lengths hbound hasc hstart hvoff))

theorem header_eq (hroom : stop + minipageAlign ≤ 2 ^ 32) : block.header = hdr := by
  have hread := h.read hroom _ header_mem_writes
  dsimp only at hread
  rw [BlockHeader.length_bytes, Nat.zero_add] at hread
  refine header_of_slice ?_ hread
  have hdir := h.directory_fits
  rw [h.length_buf, blockHeaderSize]
  omega

/-- The readers find a column. -/
theorem hasColumn (hroom : stop + minipageAlign ≤ 2 ^ 32) {i : ℕ} {spec : ColumnSpec}
    {staging : Staging} (hcolumn : (b.specs.zip b.staging)[i]? = some (spec, staging)) :
    ∃ dir page mp zoneMin zoneMax enc,
      HasColumn block b.rowCount varheap i spec staging dir page mp zoneMin zoneMax enc := by
  obtain ⟨dir, page, zoneMin, zoneMax, enc, hlaid, henc, hentry⟩ := (h.laid_spec hroom).2.2.2 i spec staging hcolumn
  have hdir : (laid.map Prod.fst)[i]? = some dir := by simp [hlaid]
  have hpage : (laid.map Prod.snd)[i]? = some page := by simp [hlaid]
  obtain ⟨mp, hmp⟩ : ∃ mp, minipages[i]? = some mp := by
    have hcongr := congrArg (·[i]?) h.merged.lengths
    simp only [getElem?_map, hpage, map_some] at hcongr
    obtain ⟨mp, hmp, -⟩ := map_eq_some_iff.mp hcongr
    exact ⟨mp, hmp⟩
  have hlen : mp.length = page.length := by
    obtain ⟨d, hd, hlen⟩ := length_getElem_minipages h.lengths hmp
    rw [hlaid] at hd
    rw [hlen, ← Option.some.inj hd]
  have hfit : dir.minipageOff.toNat + page.length ≤ b.blockSize.toNat := h.minipage_fits _ (mem_of_getElem? hlaid)
  have hsize := b.blockSize.toNat_lt
  have hdirectory : block.directory i = .ok dir := by
    have hmem : (blockHeaderSize + i * columnDirectorySize, dir.bytes) ∈
        blockWrites hdr (laid.map Prod.fst) minipages hdr.varheapOff.toNat varheap :=
      directory_mem_writes hdir
    have hread := h.read hroom _ hmem
    have hfits := h.fits _ hmem
    dsimp only at hread hfits
    rw [ColumnDirectory.length_bytes] at hread hfits
    exact directory_of_slice (by rw [h.length_buf]; exact hfits) hread
  refine ⟨dir, page, mp, zoneMin, zoneMax, enc, henc, hdirectory, hentry, ?_, ?_, ?_, ?_⟩
  · refine minipageBytes_of_slice hdirectory ?_ ?_ (h.read hroom _ (minipage_mem_writes hdir hmp))
    · rw [hentry.2.2.1, toNat_ofNat', hlen, mod_eq_of_lt (by omega)]
    · rw [h.length_buf, hlen]
      exact hfit
  · rw [h.length_buf]
    omega
  · intro kind vals hkind
    rw [hkind] at hcolumn
    have hsame := h.merged.fixed i spec kind vals hcolumn
    rw [hpage, hmp] at hsame
    exact Option.some.inj hsame
  · intro slots heap hkind hzero
    rw [hkind] at hcolumn
    obtain ⟨before, after, hjoin, hmoved⟩ := h.merged.var i spec slots heap hcolumn hzero
    rw [hpage, hmp] at hmoved
    exact ⟨before, after, hjoin, Option.some.inj hmoved⟩

end

end Finalized

/-- No offset of the layout wraps. -/
def PaxBlockBuilder.Unwrapped (b : PaxBlockBuilder) : Prop :=
  ∀ laid stop, layoutColumns b.rowCount (64 + b.specs.length * 64) (b.specs.zip b.staging) = .ok (laid, stop) →
    stop + minipageAlign ≤ 2 ^ 32

/-- **The readers find what `finalize` wrote**: the header, the heap and every column. -/
theorem finalize_spec_of_unwrapped (h : b.finalize = .ok block) (hroom : b.Unwrapped)
    (hstaging : b.staging.length = b.specs.length) :
    ∃ varheap : List UInt8, block.buf.length = b.blockSize.toNat ∧ block.blockSize = b.blockSize ∧
      block.header.rowCount = b.rowCount ∧
      block.header.columnCount.toNat = b.specs.length ∧
      block.header.minPk = (b.pkRange.map Prod.fst).getD Int64.maxValue ∧
      block.header.maxPk = (b.pkRange.map Prod.snd).getD Int64.minValue ∧
      block.header.minTs = (b.tsRange.map Prod.fst).getD Int64.maxValue ∧
      block.header.maxTs = (b.tsRange.map Prod.snd).getD Int64.minValue ∧
      64 ≤ block.header.varheapOff.toNat ∧
      block.header.varheapOff.toNat + varheap.length ≤ block.buf.length ∧
      slice block.buf block.header.varheapOff.toNat (block.header.varheapOff.toNat + varheap.length) = varheap ∧
      ∀ (i : ℕ) spec staging, b.specs[i]? = some spec → b.staging[i]? = some staging →
        ∃ dir page mp zoneMin zoneMax enc, HasColumn block b.rowCount varheap i spec staging dir
          page mp zoneMin zoneMax enc := by
  obtain ⟨laid, stop, minipages, varheap, hdr, hfin⟩ := finalize_cases h hstaging
  have hroom := hroom laid stop hfin.layout_eq
  have hdirFit := hfin.directory_fits
  have hsize := b.blockSize.toNat_lt
  have hstart := (hfin.laid_spec hroom).1
  have hge := le_alignUp stop (show 0 < 8 by decide)
  rw [hfin.header_eq hroom]
  refine ⟨varheap, hfin.length_buf, hfin.blockSize, hfin.rowCount, ?_, hfin.minPk, hfin.maxPk,
    hfin.minTs, hfin.maxTs, ?_, ?_, hfin.read hroom _ varheap_mem_writes, ?_⟩
  · rw [hfin.columnCount, toNat_ofNat', mod_eq_of_lt (by omega)]
  · rw [hfin.varheapOff_toNat hroom]
    omega
  · rw [hfin.length_buf]
    exact hfin.fits _ varheap_mem_writes
  · intro i spec staging hspec hs
    exact hfin.hasColumn hroom (getElem?_zip_eq_some.mpr ⟨hspec, hs⟩)

/-- A block that is not too large. -/
theorem unwrapped_of_finalize (h : b.finalize = .ok block) (hsize : b.blockSize.toNat + minipageAlign ≤ 2 ^ 32)
    (hstaging : b.staging.length = b.specs.length) :
    b.Unwrapped := by
  obtain ⟨laid, stop, minipages, varheap, hdr, hfin⟩ := finalize_cases h hstaging
  have hstop := hfin.stop_le hsize
  intro laid' stop' hlayout
  obtain ⟨-, rfl⟩ := Prod.mk.inj (Except.ok.inj (hfin.layout_eq.symm.trans hlayout))
  omega

end CenDB.Storage
