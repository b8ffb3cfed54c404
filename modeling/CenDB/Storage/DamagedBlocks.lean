import CenDB.Storage.DamagedPages
import CenDB.Storage.PaxBlock

/-! # Damaged blocks

The readers of a block again, with every access checked and offsets that wrap around as a `usize` does.  The
borrowing reader and the owning block read alike; rows are put together by the owning block only, whose buffer
begins at a multiple of 64.

A place in the directory or among the slots can wrap around, a dictionary can be empty, a row can lie behind
the values of a column, and a column of booleans can begin where no word may.  These are all the panics
(`decodeI64Column_returns_iff`, `varValue_returns_iff`, `materializeRow_returns_iff`). -/

namespace CenDB.Storage.Checked

open Words List

/-! ### The readers -/

def directory (block : PaxBlock) (idx : ℕ) : Except Halt ColumnDirectory :=
  let off := (blockHeaderSize + idx * columnDirectorySize) % 2 ^ 64
  let stop := (off + columnDirectorySize) % 2 ^ 64
  if block.buf.length < stop then throw (corrupt s!"directory({idx}) out of bounds")
  else ColumnDirectory.read <$> slice block.buf off stop

def minipageBytes (block : PaxBlock) (idx : ℕ) : Except Halt (List UInt8) := do
  let dir ← directory block idx
  let off := dir.minipageOff.toNat
  let stop := off + dir.compressedLen.toNat
  if block.buf.length < stop then throw (corrupt s!"minipage({idx}) out of bounds: {off}..{stop}")
  else slice block.buf off stop

def decodeI64Column (block : PaxBlock) (idx : ℕ) : Except Halt (List Int64) := do
  let dir ← directory block idx
  let bytes ← minipageBytes block idx
  decodeMinipage (.fromDiscriminant dir.encoding) bytes dir.valueCount.toNat

/-- `column_view::<i64>`: where the bytes begin, and the bytes. -/
def columnView (block : PaxBlock) (idx : ℕ) : Except Halt (ℕ × List UInt8) := do
  let dir ← directory block idx
  let bytes ← minipageBytes block idx
  if dir.encoding ≠ Encoding.raw.discriminant ∧ ¬bytes.isEmpty then
    throw (constraint (s!"column_view: column {idx} is encoded " ++
      s!"({(Encoding.fromDiscriminant dir.encoding).debug}); decode first"))
  else if bytes.length % 8 ≠ 0 then
    throw (corrupt s!"ColumnView: slice len {bytes.length} not a multiple of size_of::<i64>() = 8")
  else return (dir.minipageOff.toNat, bytes)

/-- `cast_slice` to words, which have to begin at a multiple of eight. -/
def asSlice (view : ℕ × List UInt8) : Except Halt (List Int64) :=
  if view.1 % 8 = 0 then return (List.range (view.2.length / 8)).map fun i => i64At view.2 (i * 8)
  else .error .panic

def varValue (block : PaxBlock) (idx row : ℕ) : Except Halt (Option (List UInt8)) := do
  let dir ← directory block idx
  if dir.kind ≠ ValueKind.bytes.toU8 then throw (constraint s!"var_value: column {idx} is not Bytes")
  else do
    let mp ← minipageBytes block idx
    let slotOff := row * 8 % 2 ^ 64
    if mp.length < (slotOff + 8) % 2 ^ 64 then
      throw (corrupt s!"var_value: slot {row} out of bounds in column {idx}")
    else do
      let off := (u32Of (← takeAt mp slotOff 4)).toNat
      let len := u32Of (← takeAt mp (slotOff + 4) 4)
      if len = nullLen then return none
      else do
        let heapOff := block.header.varheapOff.toNat + off
        let heapEnd := heapOff + len.toNat
        if block.buf.length < heapEnd then
          throw (corrupt s!"var_value: heap slice {heapOff}..{heapEnd} out of bounds")
        else some <$> slice block.buf heapOff heapEnd

/-- `vals[row]`. -/
def indexInto (vals : Except Halt (List Int64)) (row : ℕ) (f : Int64 → Value) : Except Halt Value := do
  let vals ← vals
  f <$> index vals row

def materializeValue (block : PaxBlock) (row idx : ℕ) : Except Halt Value := do
  let dir ← directory block idx
  match ValueKind.fromU8 dir.kind with
  | .null => return .null
  | .bool => indexInto (columnView block idx >>= asSlice) row fun v => .bool (v != 0)
  | .i64 => indexInto (decodeI64Column block idx) row .i64
  | .u64 => indexInto (decodeI64Column block idx) row fun v => .u64 v.toUInt64
  | .f64 => indexInto (decodeI64Column block idx) row fun v => .f64 v.toUInt64
  | .timestamp => indexInto (decodeI64Column block idx) row .timestamp
  | .bytes => do
    match ← varValue block idx row with
    | some b => return .bytes b
    | none => return .null

def materializeRow (block : PaxBlock) (row : ℕ) : Except Halt (List Value) :=
  if block.header.rowCount ≤ UInt32.ofNat row then
    throw (constraint (s!"materialize_row: row {row} out of range " ++
      s!"(block has {block.header.rowCount} rows)"))
  else (List.range block.header.columnCount.toNat).mapM (materializeValue block row)

/-! ### What the bytes say -/

/-- The directory entry that is found for a column; its place wraps around. -/
def entryOf (buf : List UInt8) (idx : ℕ) : Option ColumnDirectory :=
  let off := (idx + 1) % 2 ^ 58 * 64
  if off + 64 ≤ buf.length then some (.read (Words.slice buf off (off + 64))) else none

/-- The minipage of an entry. -/
def pageOf (buf : List UInt8) (dir : ColumnDirectory) : Option (List UInt8) :=
  let off := dir.minipageOff.toNat
  if off + dir.compressedLen.toNat ≤ buf.length then some (Words.slice buf off (off + dir.compressedLen.toNat))
  else none

/-- No page of an empty dictionary with codes of no bits. -/
def Solid : Encoding → List UInt8 → ℕ → Prop
  | .dictionary _, page, count => Headless page ∨ count = 0 ∨ u32At page 0 ≠ 0 ∨ page.getD 4 0 ≠ 0
  | _, _, _ => True

/-- The place of the entry does not end with the address space. -/
def Placed (idx : ℕ) : Prop := idx % 2 ^ 58 ≠ 2 ^ 58 - 2

/-- The column has no page, or one that can be decoded or refused. -/
def SolidColumn (buf : List UInt8) (idx : ℕ) : Prop :=
  ∀ dir page, entryOf buf idx = some dir → pageOf buf dir = some page →
    Solid (.fromDiscriminant dir.encoding) page dir.valueCount.toNat

/-- The column has no page of slots, or the place of the slot does not end with the address space. -/
def SolidSlot (buf : List UInt8) (idx row : ℕ) : Prop :=
  ∀ dir page, entryOf buf idx = some dir → dir.kind = ValueKind.bytes.toU8 → pageOf buf dir = some page →
    row % 2 ^ 61 ≠ 2 ^ 61 - 1

/-- A result or an error, and no panic. -/
def Returns {α : Type} (r : Except Halt α) : Prop := r ≠ .error .panic

/-! ### The directory -/

variable {α : Type} {block : PaxBlock} {idx : ℕ} {dir : ColumnDirectory} {page : List UInt8}

theorem returns_ok (a : α) : Returns (.ok a : Except Halt α) := nofun

theorem returns_throw (e : CenError) : Returns (.error (.error e) : Except Halt α) := nofun

theorem not_returns_panic : ¬Returns (.error .panic : Except Halt α) := fun h => h rfl

/-- **A directory entry is found or refused, unless its place wraps around.** -/
theorem directory_cases (block : PaxBlock) (idx : ℕ) :
    (¬Placed idx ∧ directory block idx = .error .panic) ∨ Placed idx ∧
      ((entryOf block.buf idx = none ∧ ∃ e, directory block idx = .error (.error e)) ∨
        ∃ dir, entryOf block.buf idx = some dir ∧ directory block idx = .ok dir) := by
  have hoff : (blockHeaderSize + idx * columnDirectorySize) % 2 ^ 64 = (idx + 1) % 2 ^ 58 * 64 := by
    unfold blockHeaderSize columnDirectorySize
    omega
  unfold directory entryOf Placed
  rw [hoff]
  dsimp only
  by_cases hwrap : idx % 2 ^ 58 = 2 ^ 58 - 2
  · have hstop : ((idx + 1) % 2 ^ 58 * 64 + columnDirectorySize) % 2 ^ 64 = 0 := by
      unfold columnDirectorySize
      omega
    refine Or.inl ⟨fun h => h hwrap, ?_⟩
    rw [hstop, if_neg (Nat.not_lt_zero _), slice, Guarded.slice, if_neg (by omega)]
    rfl
  · have hstop : ((idx + 1) % 2 ^ 58 * 64 + columnDirectorySize) % 2 ^ 64 = (idx + 1) % 2 ^ 58 * 64 + 64 := by
      unfold columnDirectorySize
      omega
    refine Or.inr ⟨hwrap, ?_⟩
    rw [hstop]
    by_cases hroom : (idx + 1) % 2 ^ 58 * 64 + 64 ≤ block.buf.length
    · rw [if_pos hroom, if_neg (Nat.not_lt.mpr hroom), slice, Guarded.slice_of_le (Nat.le_add_right _ _) hroom]
      exact Or.inr ⟨_, rfl, rfl⟩
    · rw [if_neg hroom, if_pos (Nat.not_le.mp hroom)]
      exact Or.inl ⟨rfl, _, rfl⟩

/-- The page of an entry is found, or refused. -/
theorem minipageBytes_cases (hdir : directory block idx = .ok dir) :
    (pageOf block.buf dir = none ∧ ∃ e, minipageBytes block idx = .error (.error e)) ∨
      ∃ page, pageOf block.buf dir = some page ∧ minipageBytes block idx = .ok page := by
  unfold minipageBytes pageOf
  rw [hdir]
  simp only [bind, Except.bind]
  by_cases hroom : dir.minipageOff.toNat + dir.compressedLen.toNat ≤ block.buf.length
  · rw [if_pos hroom, if_neg (Nat.not_lt.mpr hroom), slice, Guarded.slice_of_le (Nat.le_add_right _ _) hroom]
    exact Or.inr ⟨_, rfl, rfl⟩
  · rw [if_neg hroom, if_pos (Nat.not_le.mp hroom)]
    exact Or.inl ⟨rfl, _, rfl⟩

/-! ### Pages -/

/-- The plain decoder returns values. -/
def Decodes (enc : Encoding) (page : List UInt8) (count : ℕ) : Prop :=
  ∃ vals, Storage.decodeMinipage enc page count = .ok vals

/-- The number of values of a page that can be decoded. -/
def held (enc : Encoding) (page : List UInt8) (count : ℕ) : ℕ :=
  match enc with
  | .runLength => min count (runSum page)
  | _ => count

variable {count : ℕ} {r : Except Halt α} {safe refused : Prop}

theorem dictionary_panic (b : UInt8) (h : ¬(Headless page ∨ count = 0 ∨ u32At page 0 ≠ 0 ∨ page.getD 4 0 ≠ 0)) :
    DictionaryCodec.decode (b :: page) count = .error .panic := by
  rw [not_or, not_or, not_or, not_not, not_not, Headless, not_or] at h
  obtain ⟨⟨hshort, hmissing⟩, hcount, hempty, hbits⟩ := h
  obtain ⟨count, rfl⟩ := Nat.exists_eq_succ_of_ne_zero hcount
  rw [DictionaryCodec.decode, if_neg (by simp)]
  dsimp only
  rw [drop_succ_cons, drop_zero, if_neg hshort, if_neg hmissing, hempty]
  have hzero : (0 : UInt32).toNat = 0 := rfl
  rw [hzero, Nat.zero_mul, Nat.add_zero, hbits]
  rfl

/-- Every page below the limit panics, is refused, or holds its values. -/
theorem decodeMinipage_cases (enc : Encoding) (page : List UInt8) (h : count < 2 ^ 60) :
    (¬Solid enc page count ∧ decodeMinipage enc page count = .error .panic) ∨ Solid enc page count ∧
      ((¬Decodes enc page count ∧ ∃ e, decodeMinipage enc page count = .error (.error e)) ∨
        Decodes enc page count ∧ ∃ vals, decodeMinipage enc page count = .ok vals ∧
          vals.length = held enc page count) := by
  have hanswers (hall : Answers (Storage.decodeMinipage enc page count) (held enc page count)) :
      (¬Decodes enc page count ∧ ∃ e, decodeMinipage enc page count = .error (.error e)) ∨
        Decodes enc page count ∧ ∃ vals, decodeMinipage enc page count = .ok vals ∧
          vals.length = held enc page count := by
    rw [decodeMinipage_eq enc page h, Decodes]
    rcases hall with ⟨e, heq⟩ | ⟨vals, heq, hlen⟩
    · rw [heq]
      refine Or.inl ⟨?_, e, rfl⟩
      rintro ⟨vals, hvals⟩
      cases hvals
    · rw [heq]
      exact Or.inr ⟨⟨vals, rfl⟩, vals, rfl, hlen⟩
  cases enc with
  | raw | gorilla | chimp128 | fsst => exact Or.inr ⟨trivial, hanswers (answers_raw _ page count)⟩
  | bitPacked bits => exact Or.inr ⟨trivial, hanswers (answers_bitPacked _ count)⟩
  | frameOfReference base bits => exact Or.inr ⟨trivial, hanswers (answers_frameOfReference _ count)⟩
  | deltaOfDelta => exact Or.inr ⟨trivial, hanswers (answers_deltaOfDelta _ page count)⟩
  | runLength => exact Or.inr ⟨trivial, hanswers (Or.inr (decode_runLength _ page count))⟩
  | dictionary dictId =>
    by_cases hsolid : Solid (.dictionary dictId) page count
    · exact Or.inr ⟨hsolid, hanswers ((answers_dictionary_iff _ page count).mpr hsolid)⟩
    · refine Or.inl ⟨hsolid, ?_⟩
      rw [decodeMinipage_eq _ page h]
      exact dictionary_panic _ hsolid

/-- The values of a column are decoded from its page. -/
theorem decodeI64Column_of_page (hdir : directory block idx = .ok dir)
    (hpage : minipageBytes block idx = .ok page) :
    decodeI64Column block idx = decodeMinipage (.fromDiscriminant dir.encoding) page dir.valueCount.toNat := by
  rw [decodeI64Column, hdir]
  simp only [bind, Except.bind, hpage]

theorem valueCount_lt (dir : ColumnDirectory) : dir.valueCount.toNat < 2 ^ 60 := by
  have hlt := dir.valueCount.toNat_lt
  omega

/-- **A column is read or refused if and only if its entry is placed and its page is solid.** -/
theorem decodeI64Column_returns_iff (block : PaxBlock) (idx : ℕ) :
    Returns (decodeI64Column block idx) ↔ Placed idx ∧ SolidColumn block.buf idx := by
  rcases directory_cases block idx with ⟨hwrap, hdir⟩ | ⟨hplaced, ⟨hnone, e, hdir⟩ | ⟨dir, hentry, hdir⟩⟩
  · refine iff_of_false ?_ fun hall => hwrap hall.1
    rw [decodeI64Column, hdir]
    exact not_returns_panic
  · refine iff_of_true ?_ ⟨hplaced, fun dir page hentry => ?_⟩
    · rw [decodeI64Column, hdir]
      exact returns_throw e
    · rw [hnone] at hentry
      cases hentry
  · rw [and_iff_right hplaced]
    rcases minipageBytes_cases hdir with ⟨hnone, e, hbytes⟩ | ⟨page, hpage, hbytes⟩
    · refine iff_of_true ?_ fun dir' page hentry' hpage => ?_
      · rw [decodeI64Column, hdir]
        simp only [bind, Except.bind, hbytes]
        exact returns_throw e
      · rw [hentry] at hentry'
        cases hentry'
        rw [hnone] at hpage
        cases hpage
    · have hsolid : SolidColumn block.buf idx ↔ Solid (.fromDiscriminant dir.encoding) page dir.valueCount.toNat := by
        constructor
        · exact fun hall => hall dir page hentry hpage
        · intro hsolid dir' page' hentry' hpage'
          rw [hentry] at hentry'
          cases hentry'
          rw [hpage] at hpage'
          cases hpage'
          exact hsolid
      rw [hsolid, decodeI64Column_of_page hdir hbytes]
      rcases decodeMinipage_cases (.fromDiscriminant dir.encoding) page (valueCount_lt dir) with
        ⟨hnot, hread⟩ | ⟨hsolid, ⟨-, e, hread⟩ | ⟨-, vals, hread, -⟩⟩
      · rw [hread]
        exact iff_of_false not_returns_panic hnot
      · rw [hread]
        exact iff_of_true (returns_throw e) hsolid
      · rw [hread]
        exact iff_of_true (returns_ok vals) hsolid

/-! ### Slots -/

theorem length_pageOf {buf : List UInt8} (h : pageOf buf dir = some page) : page.length < 2 ^ 32 := by
  unfold pageOf at h
  dsimp only at h
  split at h
  · rename_i hroom
    cases h
    have hlt := dir.compressedLen.toNat_lt
    rw [slice_length hroom]
    omega
  · cases h

/-- The slot of a row leads out of the page, or out of the buffer. -/
def SlotRefused (block : PaxBlock) (page : List UInt8) (row : ℕ) : Prop :=
  let slotOff := row * 8 % 2 ^ 64
  page.length < slotOff + 8 ∨ u32At page (slotOff + 4) ≠ nullLen ∧
    block.buf.length < block.header.varheapOff.toNat + (u32At page slotOff).toNat + (u32At page (slotOff + 4)).toNat

/-- A value of a bytes column panics, is refused, or found. -/
theorem varValue_cases (row : ℕ) (hdir : directory block idx = .ok dir)
    (hkind : dir.kind = ValueKind.bytes.toU8) (hpage : minipageBytes block idx = .ok page)
    (hlen : page.length < 2 ^ 32) :
    (row % 2 ^ 61 = 2 ^ 61 - 1 ∧ varValue block idx row = .error .panic) ∨ row % 2 ^ 61 ≠ 2 ^ 61 - 1 ∧
      ((SlotRefused block page row ∧ ∃ e, varValue block idx row = .error (.error e)) ∨
        ¬SlotRefused block page row ∧ ∃ p, varValue block idx row = .ok p) := by
  unfold varValue SlotRefused
  rw [hdir]
  simp only [bind, Except.bind, hpage]
  rw [if_neg (not_not.mpr hkind)]
  by_cases hwrap : row % 2 ^ 61 = 2 ^ 61 - 1
  · have hstop : (row * 8 % 2 ^ 64 + 8) % 2 ^ 64 = 0 := by omega
    have hoff : row * 8 % 2 ^ 64 = 2 ^ 64 - 8 := by omega
    refine Or.inl ⟨hwrap, ?_⟩
    rw [hstop, if_neg (Nat.not_lt_zero _), hoff, takeAt, Guarded.takeAt, Guarded.index_of_le (by omega)]
    rfl
  · have hstop : (row * 8 % 2 ^ 64 + 8) % 2 ^ 64 = row * 8 % 2 ^ 64 + 8 := by omega
    refine Or.inr ⟨hwrap, ?_⟩
    rw [hstop]
    by_cases hslot : page.length < row * 8 % 2 ^ 64 + 8
    · rw [if_pos hslot]
      exact Or.inl ⟨Or.inl hslot, _, rfl⟩
    · have hword (off : ℕ) : u32Of (Words.slice page off (off + 4)) = u32At page off := rfl
      rw [if_neg hslot, takeAt_of_le (by omega)]
      dsimp only
      rw [takeAt_of_le (by omega)]
      dsimp only
      rw [hword, hword]
      by_cases hnull : u32At page (row * 8 % 2 ^ 64 + 4) = nullLen
      · rw [if_pos hnull]
        exact Or.inr ⟨by rintro (h | h); exacts [hslot h, h.1 hnull], none, rfl⟩
      · rw [if_neg hnull]
        by_cases hheap : block.buf.length < block.header.varheapOff.toNat +
            (u32At page (row * 8 % 2 ^ 64)).toNat + (u32At page (row * 8 % 2 ^ 64 + 4)).toNat
        · rw [if_pos hheap]
          exact Or.inl ⟨Or.inr ⟨hnull, hheap⟩, _, rfl⟩
        · rw [if_neg hheap, slice, Guarded.slice_of_le (Nat.le_add_right _ _) (Nat.not_lt.mp hheap)]
          exact Or.inr ⟨by rintro (h | h); exacts [hslot h, hheap h.2], _, rfl⟩

/-- **A value is read or refused if and only if its entry and its slot are placed.** -/
theorem varValue_returns_iff (block : PaxBlock) (idx row : ℕ) :
    Returns (varValue block idx row) ↔ Placed idx ∧ SolidSlot block.buf idx row := by
  rcases directory_cases block idx with ⟨hwrap, hdir⟩ | ⟨hplaced, ⟨hnone, e, hdir⟩ | ⟨dir, hentry, hdir⟩⟩
  · refine iff_of_false ?_ fun hall => hwrap hall.1
    rw [varValue, hdir]
    exact not_returns_panic
  · refine iff_of_true ?_ ⟨hplaced, fun dir page hentry => ?_⟩
    · rw [varValue, hdir]
      exact returns_throw e
    · rw [hnone] at hentry
      cases hentry
  · rw [and_iff_right hplaced]
    have hsame (h : dir.kind = ValueKind.bytes.toU8 → ∀ page, pageOf block.buf dir = some page →
        row % 2 ^ 61 ≠ 2 ^ 61 - 1) : SolidSlot block.buf idx row := by
      intro dir' page hentry' hkind hpage
      rw [hentry] at hentry'
      cases hentry'
      exact h hkind page hpage
    by_cases hkind : dir.kind = ValueKind.bytes.toU8
    · rcases minipageBytes_cases hdir with ⟨hnone, e, hbytes⟩ | ⟨page, hpage, hbytes⟩
      · refine iff_of_true ?_ (hsame fun _ page hpage => ?_)
        · rw [varValue, hdir]
          simp only [bind, Except.bind, hbytes]
          rw [if_neg (not_not.mpr hkind)]
          exact returns_throw e
        · rw [hnone] at hpage
          cases hpage
      · rcases varValue_cases row hdir hkind hbytes (length_pageOf hpage) with
          ⟨hwrap, hread⟩ | ⟨hrow, ⟨-, e, hread⟩ | ⟨-, p, hread⟩⟩
        · rw [hread]
          exact iff_of_false not_returns_panic fun hall => hall dir page hentry hkind hpage hwrap
        · rw [hread]
          exact iff_of_true (returns_throw e) (hsame fun _ _ _ => hrow)
        · rw [hread]
          exact iff_of_true (returns_ok p) (hsame fun _ _ _ => hrow)
    · refine iff_of_true ?_ (hsame fun h => absurd h hkind)
      rw [varValue, hdir]
      simp only [bind, Except.bind]
      rw [if_pos hkind]
      exact returns_throw _

/-! ### Rows -/

/-- The page can be seen as words. -/
def Viewable (dir : ColumnDirectory) (page : List UInt8) : Prop :=
  (dir.encoding = Encoding.raw.discriminant ∨ page = []) ∧ page.length % 8 = 0

/-- The value lies inside what the page holds. -/
def SafePage (dir : ColumnDirectory) (row : ℕ) (page : List UInt8) : Prop :=
  let enc := Encoding.fromDiscriminant dir.encoding
  match ValueKind.fromU8 dir.kind with
  | .null => True
  | .bool => Viewable dir page → dir.minipageOff.toNat % 8 = 0 ∧ row < page.length / 8
  | .bytes => row % 2 ^ 61 ≠ 2 ^ 61 - 1
  | .i64 | .u64 | .f64 | .timestamp =>
    Solid enc page dir.valueCount.toNat ∧
      (Decodes enc page dir.valueCount.toNat → row < held enc page dir.valueCount.toNat)

/-- The page, or the slot of the value, is refused with an error. -/
def PageRefused (block : PaxBlock) (dir : ColumnDirectory) (row : ℕ) (page : List UInt8) : Prop :=
  match ValueKind.fromU8 dir.kind with
  | .null => False
  | .bool => ¬Viewable dir page
  | .bytes => SlotRefused block page row
  | .i64 | .u64 | .f64 | .timestamp => ¬Decodes (.fromDiscriminant dir.encoding) page dir.valueCount.toNat

/-- The column has no page, or one in which the value is safe. -/
def SafeValue (buf : List UInt8) (row idx : ℕ) : Prop :=
  ∀ dir page, entryOf buf idx = some dir → pageOf buf dir = some page → SafePage dir row page

/-- The entry, the page or the value is refused with an error. -/
def Refused (block : PaxBlock) (row idx : ℕ) : Prop :=
  ∀ dir, entryOf block.buf idx = some dir → ValueKind.fromU8 dir.kind ≠ .null ∧
    ∀ page, pageOf block.buf dir = some page → PageRefused block dir row page

/-- The outcome of a step: it panics, fails with an error, or succeeds. -/
def Outcome {α : Type} (r : Except Halt α) (safe refused : Prop) : Prop :=
  (¬safe ∧ r = .error .panic) ∨ safe ∧ ((refused ∧ ∃ e, r = .error (.error e)) ∨ ¬refused ∧ ∃ a, r = .ok a)

theorem outcome_congr {safe' refused' : Prop} (hsafe : safe ↔ safe') (hrefused : refused ↔ refused')
    (h : Outcome r safe refused) : Outcome r safe' refused' := by
  unfold Outcome at h ⊢
  rw [← hsafe, ← hrefused]
  exact h

/-- A word of a view. -/
theorem indexInto_view (row : ℕ) (f : Int64 → Value) (hdir : directory block idx = .ok dir)
    (hpage : minipageBytes block idx = .ok page) :
    Outcome (indexInto (columnView block idx >>= asSlice) row f)
      (Viewable dir page → dir.minipageOff.toNat % 8 = 0 ∧ row < page.length / 8) (¬Viewable dir page) := by
  have hempty : page.isEmpty = true ↔ page = [] := List.isEmpty_iff
  unfold indexInto columnView
  rw [hdir]
  simp only [bind, Except.bind, hpage]
  by_cases hview : Viewable dir page
  · have hraw : ¬(dir.encoding ≠ Encoding.raw.discriminant ∧ ¬page.isEmpty = true) := by
      rw [hempty, not_and_or, not_not, not_not]
      exact hview.1
    rw [if_neg hraw, if_neg (not_not.mpr hview.2)]
    dsimp only [pure, Except.pure]
    rw [asSlice]
    by_cases halign : dir.minipageOff.toNat % 8 = 0
    · rw [if_pos halign]
      by_cases hrow : row < page.length / 8
      · refine Or.inr ⟨fun _ => ⟨halign, hrow⟩, Or.inr ⟨not_not.mpr hview, ?_⟩⟩
        dsimp only [pure, Except.pure]
        rw [index_of_lt (by rw [length_map, length_range]; exact hrow) 0]
        exact ⟨_, rfl⟩
      · refine Or.inl ⟨fun hall => hrow (hall hview).2, ?_⟩
        dsimp only [pure, Except.pure]
        rw [index, Guarded.index_of_le (by rw [length_map, length_range]; exact Nat.not_lt.mp hrow)]
        rfl
    · rw [if_neg halign]
      exact Or.inl ⟨fun hall => halign (hall hview).1, rfl⟩
  · refine Or.inr ⟨fun h => absurd h hview, Or.inl ⟨hview, ?_⟩⟩
    by_cases hraw : dir.encoding ≠ Encoding.raw.discriminant ∧ ¬page.isEmpty = true
    · rw [if_pos hraw]
      exact ⟨_, rfl⟩
    · have hodd : page.length % 8 ≠ 0 := by
        rw [hempty, not_and_or, not_not, not_not] at hraw
        exact fun heven => hview ⟨hraw, heven⟩
      rw [if_neg hraw, if_pos hodd]
      exact ⟨_, rfl⟩

/-- A value of a decoded column. -/
theorem indexInto_column (row : ℕ) (f : Int64 → Value) (hdir : directory block idx = .ok dir)
    (hpage : minipageBytes block idx = .ok page) :
    let enc := Encoding.fromDiscriminant dir.encoding
    Outcome (indexInto (decodeI64Column block idx) row f) (Solid enc page dir.valueCount.toNat ∧
        (Decodes enc page dir.valueCount.toNat → row < held enc page dir.valueCount.toNat))
      (¬Decodes enc page dir.valueCount.toNat) := by
  intro enc
  rw [decodeI64Column_of_page hdir hpage]
  rcases decodeMinipage_cases enc page (valueCount_lt dir) with
    ⟨hnot, hread⟩ | ⟨hsolid, ⟨hnot, e, hread⟩ | ⟨hdecodes, vals, hread, hlen⟩⟩
  · rw [hread]
    exact Or.inl ⟨fun hall => hnot hall.1, rfl⟩
  · rw [hread]
    exact Or.inr ⟨⟨hsolid, fun h => absurd h hnot⟩, Or.inl ⟨hnot, e, rfl⟩⟩
  · rw [hread]
    unfold indexInto
    simp only [bind, Except.bind]
    by_cases hrow : row < vals.length
    · refine Or.inr ⟨⟨hsolid, fun _ => hlen ▸ hrow⟩, Or.inr ⟨not_not.mpr hdecodes, ?_⟩⟩
      rw [index_of_lt hrow 0]
      exact ⟨_, rfl⟩
    · refine Or.inl ⟨fun hall => hrow (hlen ▸ hall.2 hdecodes), ?_⟩
      rw [index, Guarded.index_of_le (Nat.not_lt.mp hrow)]
      rfl

/-- A value of a bytes column. -/
theorem bytes_outcome (row : ℕ) (hdir : directory block idx = .ok dir) (hkind : dir.kind = ValueKind.bytes.toU8)
    (hpage : minipageBytes block idx = .ok page) (hlen : page.length < 2 ^ 32) :
    Outcome (do
      match ← varValue block idx row with
      | some b => return Value.bytes b
      | none => return .null) (row % 2 ^ 61 ≠ 2 ^ 61 - 1) (SlotRefused block page row) := by
  simp only [bind, Except.bind]
  rcases varValue_cases row hdir hkind hpage hlen with
    ⟨hwrap, hread⟩ | ⟨hrow, ⟨hrefused, e, hread⟩ | ⟨hfound, p, hread⟩⟩
  · rw [hread]
    exact Or.inl ⟨not_not.mpr hwrap, rfl⟩
  · rw [hread]
    exact Or.inr ⟨hrow, Or.inl ⟨hrefused, e, rfl⟩⟩
  · rw [hread]
    cases p with
    | none | some b => exact Or.inr ⟨hrow, Or.inr ⟨hfound, _, rfl⟩⟩

theorem kind_of_fromU8 {b : UInt8} (h : ValueKind.fromU8 b = .bytes) : b = ValueKind.bytes.toU8 := by
  unfold ValueKind.fromU8 at h
  split_ifs at h with h0 h1 h2 h3 h4 h5 h6
  exact h5

/-- A value whose page is there. -/
theorem materializeValue_page (row : ℕ) (hdir : directory block idx = .ok dir)
    (hpage : minipageBytes block idx = .ok page) (hlen : page.length < 2 ^ 32) :
    Outcome (materializeValue block row idx) (SafePage dir row page) (PageRefused block dir row page) := by
  rw [materializeValue, hdir]
  unfold SafePage PageRefused
  simp only [bind, Except.bind]
  cases hkind : ValueKind.fromU8 dir.kind with
  | null => exact Or.inr ⟨trivial, Or.inr ⟨id, _, rfl⟩⟩
  | bool => exact indexInto_view row _ hdir hpage
  | i64 | u64 | f64 | timestamp => exact indexInto_column row _ hdir hpage
  | bytes => exact bytes_outcome row hdir (kind_of_fromU8 hkind) hpage hlen

/-- Without a page only a null is found. -/
theorem materializeValue_pageless {e : CenError} (row : ℕ) (hdir : directory block idx = .ok dir)
    (hbytes : minipageBytes block idx = .error (.error e)) :
    Outcome (materializeValue block row idx) True (ValueKind.fromU8 dir.kind ≠ .null) := by
  rw [materializeValue, hdir]
  simp only [bind, Except.bind]
  cases hkind : ValueKind.fromU8 dir.kind with
  | null => exact Or.inr ⟨trivial, Or.inr ⟨fun h => h rfl, _, rfl⟩⟩
  | bool =>
    refine Or.inr ⟨trivial, Or.inl ⟨nofun, e, ?_⟩⟩
    simp only [columnView, hdir, bind, Except.bind, hbytes, indexInto]
  | bytes =>
    refine Or.inr ⟨trivial, Or.inl ⟨nofun, e, ?_⟩⟩
    rw [varValue, hdir]
    simp only [bind, Except.bind, hbytes]
    rw [if_neg (not_not.mpr (kind_of_fromU8 hkind))]
  | _ =>
    refine Or.inr ⟨trivial, Or.inl ⟨nofun, e, ?_⟩⟩
    simp only [decodeI64Column, hdir, bind, Except.bind, hbytes, indexInto]

/-- **A value panics, is refused, or found, as the bytes of its column say.** -/
theorem materializeValue_outcome (row : ℕ) (hplaced : Placed idx) :
    Outcome (materializeValue block row idx) (SafeValue block.buf row idx) (Refused block row idx) := by
  rcases directory_cases block idx with ⟨hwrap, -⟩ | ⟨-, ⟨hnone, e, hdir⟩ | ⟨dir, hentry, hdir⟩⟩
  · exact absurd hplaced hwrap
  · have hempty (dir : ColumnDirectory) : entryOf block.buf idx ≠ some dir := by simp [hnone]
    refine Or.inr ⟨fun dir _ hentry => absurd hentry (hempty dir),
      Or.inl ⟨fun dir hentry => absurd hentry (hempty dir), e, ?_⟩⟩
    rw [materializeValue, hdir]
    rfl
  · have hsame {dir' : ColumnDirectory} (h : entryOf block.buf idx = some dir') : dir' = dir := by
      rw [hentry] at h
      exact (Option.some.inj h).symm
    rcases minipageBytes_cases hdir with ⟨hnone, e, hbytes⟩ | ⟨page, hpage, hbytes⟩
    · have hempty (page : List UInt8) : pageOf block.buf dir ≠ some page := by simp [hnone]
      refine outcome_congr ?_ ?_ (materializeValue_pageless row hdir hbytes)
      · refine iff_of_true trivial fun dir' page hentry' hpage => ?_
        rw [hsame hentry'] at hpage
        exact absurd hpage (hempty page)
      · constructor
        · intro hkind dir' hentry'
          rw [hsame hentry']
          exact ⟨hkind, fun page hpage => absurd hpage (hempty page)⟩
        · exact fun hall => (hall dir hentry).1
    · refine outcome_congr ?_ ?_ (materializeValue_page row hdir hbytes (length_pageOf hpage))
      · constructor
        · intro hsafe dir' page' hentry' hpage'
          rw [hsame hentry'] at hpage' ⊢
          rw [hpage] at hpage'
          cases hpage'
          exact hsafe
        · exact fun hall => hall dir page hentry hpage
      · constructor
        · intro hrefused dir' hentry'
          rw [hsame hentry']
          refine ⟨fun hnull => ?_, fun page' hpage' => ?_⟩
          · rw [PageRefused, hnull] at hrefused
            exact hrefused
          · rw [hpage] at hpage'
            cases hpage'
            exact hrefused
        · exact fun hall => (hall dir hentry).2 page hpage

/-! ### Rows -/

theorem returns_cons_iff (b : α) (rest : Except Halt (List α)) : Returns (do
      let b ← (Except.ok b : Except Halt α)
      let bs ← rest
      return b :: bs) ↔ Returns rest := by
  simp only [bind, Except.bind]
  cases rest with
  | error e => exact Iff.not ⟨fun h => congrArg _ (Except.error.inj h), fun h => congrArg _ (Except.error.inj h)⟩
  | ok bs => exact iff_of_true (returns_ok _) (returns_ok _)

/-- A loop returns if every step does that is reached. -/
theorem mapM_returns_iff (f : ℕ → Except Halt α) (k n : ℕ) : Returns ((List.range' k n).mapM f) ↔
      ∀ i, k ≤ i → i < k + n → (∀ j, k ≤ j → j < i → ∃ b, f j = .ok b) → Returns (f i) := by
  induction n generalizing k with
  | zero => exact iff_of_true (returns_ok _) fun i hlow hhigh => absurd hlow (Nat.not_le.mpr hhigh)
  | succ n ih =>
    rw [range'_succ, mapM_cons]
    cases hk : f k with
    | error e =>
      constructor
      · intro hreturns i hlow _ hbefore
        rcases Nat.eq_or_lt_of_le hlow with rfl | hlt
        · rw [hk]
          exact fun heq => hreturns (congrArg _ (Except.error.inj heq))
        · obtain ⟨b, hb⟩ := hbefore k le_rfl hlt
          rw [hk] at hb
          cases hb
      · intro hall heq
        have hfirst := hall k le_rfl (by omega) fun j hlow hlt => absurd hlow (Nat.not_le.mpr hlt)
        rw [hk] at hfirst
        exact hfirst (congrArg _ (Except.error.inj heq))
    | ok b =>
      rw [returns_cons_iff, ih]
      constructor
      · intro hall i hlow hhigh hbefore
        rcases Nat.eq_or_lt_of_le hlow with rfl | hlt
        · rw [hk]
          exact returns_ok b
        · exact hall i hlt (by omega) fun j hj => hbefore j (Nat.le_of_succ_le hj)
      · intro hall i hlow hhigh hbefore
        refine hall i (Nat.le_of_succ_le hlow) (by omega) fun j hj hlt => ?_
        rcases Nat.eq_or_lt_of_le hj with rfl | hlt'
        · exact ⟨b, hk⟩
        · exact hbefore j hlt' hlt

/-- Every value of the row that is reached is safe. -/
def SafeRow (block : PaxBlock) (row : ℕ) : Prop :=
  ∀ i < block.header.columnCount.toNat, (∀ j < i, ¬Refused block row j) → SafeValue block.buf row i

/-- The columns of a block are placed. -/
theorem placed_of_column {i : ℕ} (h : i < block.header.columnCount.toNat) : Placed i := by
  have hlt := block.header.columnCount.toNat_lt
  unfold Placed
  omega

theorem returns_of_outcome (h : Outcome r safe refused) : Returns r ↔ safe := by
  rcases h with ⟨hnot, rfl⟩ | ⟨hsafe, ⟨-, e, rfl⟩ | ⟨-, a, rfl⟩⟩
  · exact iff_of_false not_returns_panic hnot
  · exact iff_of_true (returns_throw e) hsafe
  · exact iff_of_true (returns_ok a) hsafe

theorem ok_of_outcome (h : Outcome r safe refused) : (∃ a, r = .ok a) ↔ safe ∧ ¬refused := by
  rcases h with ⟨hnot, rfl⟩ | ⟨hsafe, ⟨hrefused, e, rfl⟩ | ⟨hfound, a, rfl⟩⟩
  · exact iff_of_false nofun fun hall => hnot hall.1
  · exact iff_of_false nofun fun hall => hall.2 hrefused
  · exact iff_of_true ⟨a, rfl⟩ ⟨hsafe, hfound⟩

/-- **A row is put together or refused if and only if it is refused by its number, or its values are safe.** -/
theorem materializeRow_returns_iff (block : PaxBlock) (row : ℕ) :
    Returns (materializeRow block row) ↔ block.header.rowCount ≤ UInt32.ofNat row ∨ SafeRow block row := by
  unfold materializeRow
  by_cases hrow : block.header.rowCount ≤ UInt32.ofNat row
  · rw [if_pos hrow]
    exact iff_of_true (returns_throw _) (Or.inl hrow)
  · rw [if_neg hrow, or_iff_right hrow, range_eq_range', mapM_returns_iff]
    have houtcome {i : ℕ} (h : i < block.header.columnCount.toNat) :
        Outcome (materializeValue block row i) (SafeValue block.buf row i) (Refused block row i) :=
      materializeValue_outcome row (placed_of_column h)
    constructor
    · intro hall i
      -- the columns before the first refused one are safe, hence found
      induction i using Nat.strong_induction_on with
      | h i ih =>
        intro hi hbefore
        refine (returns_of_outcome (houtcome hi)).mp (hall i (Nat.zero_le i) (by omega) fun j _ hj => ?_)
        have hsafe := ih j hj (hj.trans hi) fun k hk => hbefore k (hk.trans hj)
        exact (ok_of_outcome (houtcome (hj.trans hi))).mpr ⟨hsafe, hbefore j hj⟩
    · intro hall i _ hi hbefore
      rw [Nat.zero_add] at hi
      refine (returns_of_outcome (houtcome hi)).mpr (hall i hi fun j hj => ?_)
      exact ((ok_of_outcome (houtcome (hj.trans hi))).mp (hbefore j (Nat.zero_le j) hj)).2

/-- **For every buffer, column and row a reader returns if and only if its access is placed, solid and safe.** -/
theorem paxBlock_returns_iff (buf : List UInt8) (blockSize : UInt32) (idx row : ℕ) :
    let block : PaxBlock := { buf, blockSize }
    (Returns (decodeI64Column block idx) ↔ Placed idx ∧ SolidColumn buf idx) ∧
      (Returns (varValue block idx row) ↔ Placed idx ∧ SolidSlot buf idx row) ∧
      (Returns (materializeRow block row) ↔ block.header.rowCount ≤ UInt32.ofNat row ∨ SafeRow block row) :=
  ⟨decodeI64Column_returns_iff _ idx, varValue_returns_iff _ idx row, materializeRow_returns_iff _ row⟩

/-- A header of one row and one column, and the entry of the column. -/
def oneColumn (entry : ColumnDirectory) : PaxBlock where
  buf := { BlockHeader.empty with rowCount := 1, columnCount := 1 }.bytes ++ entry.bytes
  blockSize := 128

/-- A column that holds no value, a dictionary without values, a row of more than 32 bits, and two places that
wrap around. -/
theorem damaged_blocks : let entry := ColumnDirectory.fromSpec (.new 0 .i64) 0 0
    let dictionary := { entry with encoding := 6, minipageOff := 32, compressedLen := 5, valueCount := 1 }
    let filled := { entry with compressedLen := 8, valueCount := 1 }
    ¬Returns (materializeRow (oneColumn entry) 0) ∧ ¬Returns (decodeI64Column (oneColumn dictionary) 0) ∧
      ¬Returns (materializeRow (oneColumn filled) (2 ^ 32)) ∧
      ¬Returns (decodeI64Column (oneColumn entry) (2 ^ 58 - 2)) ∧
      ¬Returns (varValue (oneColumn { entry with kind := 5 }) 0 (2 ^ 61 - 1)) := by
  refine ⟨?_, ?_, ?_, ?_, ?_⟩ <;> exact not_not.mpr (by set_option maxRecDepth 8000 in decide)

end CenDB.Storage.Checked
