import CenDB.Lib.Words

/-! # Regions of a buffer

Overwriting a region of a buffer of fixed length (`writeAt`), and a sequence of such writes
(`writeAll`).  A read sees the last write to its region and no write apart from it
(`slice_writeAt_self`, `slice_writeAt_apart`), so writes to regions that lie apart are all
readable in the end (`slice_writeAll`).

A file grows instead (`writeFrom`): a write at its end appends (`writeFrom_length`), and a write of
the length of its front replaces that (`writeFrom_zero`). -/

namespace Words

open List

/-- Overwrite the region at an offset; `none` where it does not lie in the buffer. -/
def writeAt (buf : List UInt8) (off : ℕ) (bytes : List UInt8) : Option (List UInt8) :=
  if off + bytes.length ≤ buf.length then
    some (buf.take off ++ (bytes ++ buf.drop (off + bytes.length)))
  else none

/-- Overwrite regions one after the other. -/
def writeAll (buf : List UInt8) : List (ℕ × List UInt8) → Option (List UInt8)
  | [] => some buf
  | w :: ws =>
    match writeAt buf w.1 w.2 with
    | none => none
    | some buf => writeAll buf ws

/-- Two regions without a common byte. -/
def Apart (v w : ℕ × List UInt8) : Prop := v.1 + v.2.length ≤ w.1 ∨ w.1 + w.2.length ≤ v.1

variable {buf buf' bytes : List UInt8} {off : ℕ} {ws : List (ℕ × List UInt8)}

section

variable (h : writeAt buf off bytes = some buf')
include h

/-- A write succeeds exactly inside the buffer. -/
theorem writeAt_eq_some : off + bytes.length ≤ buf.length ∧
      buf' = buf.take off ++ (bytes ++ buf.drop (off + bytes.length)) := by
  unfold writeAt at h
  split_ifs at h with hfit
  exact ⟨hfit, (Option.some.inj h).symm⟩

theorem length_writeAt : buf'.length = buf.length := by
  obtain ⟨hfit, rfl⟩ := writeAt_eq_some h
  simp only [length_append, length_take, length_drop]
  omega

theorem slice_writeAt_self : slice buf' off (off + bytes.length) = bytes := by
  obtain ⟨hfit, rfl⟩ := writeAt_eq_some h
  exact slice_middle (by rw [length_take]; omega) rfl

/-- A write leaves the rest of the buffer alone. -/
theorem slice_writeAt_apart {i j : ℕ} (happart : j ≤ off ∨ off + bytes.length ≤ i) :
    slice buf' i j = slice buf i j := by
  obtain ⟨hfit, rfl⟩ := writeAt_eq_some h
  have hfront : (buf.take off).length = off := by
    rw [length_take]
    omega
  cases happart with
  | inl hbefore =>
    rw [slice_append_left (by omega)]
    conv_rhs => rw [← take_append_drop off buf]
    rw [slice_append_left (by omega)]
  | inr hafter =>
    rw [slice_append_right (by omega), slice_append_right (by omega), hfront]
    conv_rhs => rw [← take_append_drop (off + bytes.length) buf]
    have hlen : (buf.take (off + bytes.length)).length = off + bytes.length := by
      rw [length_take]
      omega
    rw [slice_append_right (by omega), hlen, Nat.sub_sub, Nat.sub_sub]

end

theorem writeAll_nil : writeAll buf [] = some buf := rfl

/-- A sequence of writes succeeds with its first write and the rest of them. -/
theorem writeAll_cons {w : ℕ × List UInt8} : writeAll buf (w :: ws) = some buf' ↔
    ∃ mid, writeAt buf w.1 w.2 = some mid ∧ writeAll mid ws = some buf' := by
  change (match writeAt buf w.1 w.2 with
    | none => none
    | some buf => writeAll buf ws) = some buf' ↔ _
  cases writeAt buf w.1 w.2 <;> simp

/-- What a sequence of writes leaves of a region apart from all of them. -/
theorem slice_writeAll_apart (h : writeAll buf ws = some buf') {v : ℕ × List UInt8} (happart : ∀ w ∈ ws, Apart v w) :
    slice buf' v.1 (v.1 + v.2.length) = slice buf v.1 (v.1 + v.2.length) := by
  induction ws generalizing buf with
  | nil => rw [Option.some.inj h]
  | cons w ws ih =>
    obtain ⟨mid, hmid, h⟩ := writeAll_cons.mp h
    obtain ⟨hw, hws⟩ := forall_mem_cons.mp happart
    rw [ih h hws, slice_writeAt_apart hmid hw]

theorem length_writeAll (h : writeAll buf ws = some buf') : buf'.length = buf.length := by
  induction ws generalizing buf with
  | nil => rw [Option.some.inj h]
  | cons w ws ih =>
    obtain ⟨mid, hmid, h⟩ := writeAll_cons.mp h
    rw [ih h, length_writeAt hmid]

/-- Every region of a successful sequence of writes lies in the buffer. -/
theorem fits_writeAll (h : writeAll buf ws = some buf') : ∀ w ∈ ws, w.1 + w.2.length ≤ buf.length := by
  induction ws generalizing buf with
  | nil => simp
  | cons w ws ih =>
    obtain ⟨mid, hmid, h⟩ := writeAll_cons.mp h
    rw [← length_writeAt hmid]
    refine forall_mem_cons.mpr ⟨?_, ih h⟩
    rw [length_writeAt hmid]
    exact (writeAt_eq_some hmid).1

/-- Writes to regions of the buffer succeed. -/
theorem writeAll_isSome (h : ∀ w ∈ ws, w.1 + w.2.length ≤ buf.length) : ∃ buf', writeAll buf ws = some buf' := by
  induction ws generalizing buf with
  | nil => exact ⟨buf, writeAll_nil⟩
  | cons w ws ih =>
    obtain ⟨hw, hws⟩ := forall_mem_cons.mp h
    have hmid : writeAt buf w.1 w.2 = some (buf.take w.1 ++ (w.2 ++ buf.drop (w.1 + w.2.length))) := if_pos hw
    obtain ⟨buf', hrest⟩ := @ih (buf.take w.1 ++ (w.2 ++ buf.drop (w.1 + w.2.length))) (by
      rw [length_writeAt hmid]
      exact hws)
    exact ⟨buf', writeAll_cons.mpr ⟨_, hmid, hrest⟩⟩

/-- **Regions that lie apart are all readable after the writes.** -/
theorem slice_writeAll (h : writeAll buf ws = some buf') (happart : ws.Pairwise Apart) :
    ∀ w ∈ ws, slice buf' w.1 (w.1 + w.2.length) = w.2 := by
  induction ws generalizing buf with
  | nil => simp
  | cons w ws ih =>
    obtain ⟨mid, hmid, h⟩ := writeAll_cons.mp h
    rw [pairwise_cons] at happart
    refine forall_mem_cons.mpr ⟨?_, ih h happart.2⟩
    rw [slice_writeAll_apart h happart.1, slice_writeAt_self hmid]

/-- Regions in ascending order lie apart. -/
theorem pairwise_apart (h : ws.Pairwise fun v w => v.1 + v.2.length ≤ w.1) : ws.Pairwise Apart := h.imp .inl

/-! ### Files -/

/-- Seek and write: bytes past the end are appended, and a gap before them is filled with zeros. -/
def writeFrom (file : List UInt8) (off : ℕ) (bytes : List UInt8) : List UInt8 :=
  file.take off ++ (List.replicate (off - file.length) 0 ++ (bytes ++ file.drop (off + bytes.length)))

/-- A write at the end of a file appends. -/
theorem writeFrom_length (file bytes : List UInt8) : writeFrom file file.length bytes = file ++ bytes := by
  simp [writeFrom]

/-- A write at the start replaces as many bytes as it has. -/
theorem writeFrom_zero {front : List UInt8} (h : bytes.length = front.length) (rest : List UInt8) :
    writeFrom (front ++ rest) 0 bytes = bytes ++ rest := by
  simp [writeFrom, h]

end Words
