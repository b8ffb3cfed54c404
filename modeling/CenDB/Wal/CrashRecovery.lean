import CenDB.Wal.Log

/-! # Appending after a crash

A crash leaves the intact records `old` followed by a byte string `tail` that does not start
with an intact record: a torn header, a torn payload, a wrong checksum or an unknown record
type.  `open` scans up to the damage and continues the LSNs from there, but it leaves `tail`
in the file and `append` writes behind it, at the physical end, while `read_all` stops at the
damage.

`keepsLaterRecords_iff` says exactly when the reader still returns every record appended
after the crash: all payloads fit the 32-bit length field, and the appended bytes start over
behind the tail (`Framing.Restarts`).  They do when there is no tail or nothing is appended
(`readAll_keeps_of_clean`), and never when the tail is at least as long as the first appended
record (`readAll_loses_of_long_tail`); in between only by the accident that the record repeats
the torn bytes. -/

namespace CenDB.Wal

open Framing WriteAheadLog List

/-- The bytes do not start with an intact record. -/
def Damaged (bytes : List UInt8) : Prop := ∀ p, LogRecord.fromBytes bytes ≠ .ok p

theorem Damaged.decode_eq_none {bytes : List UInt8} (h : Damaged bytes) : recordFormat.decode bytes = none := by
  cases hd : recordFormat.decode bytes with
  | none => rfl
  | some p => exact absurd (decodeRecord_eq_some.mp hd) (h p)

/-- The reader returns the records before the damage followed by every record appended after
the crash, with contiguous LSNs. -/
def KeepsLaterRecords (base : ℕ) (old appended : List LogRecord) (w : WriteAheadLog) : Prop :=
  w.readAll = .ok ((old ++ appended).map LogRecord.withCrc) ∧ ContiguousFrom base (old ++ appended)

theorem encodeAll_map_withCrc (rs : List LogRecord) :
    recordFormat.encodeAll (rs.map LogRecord.withCrc) = recordFormat.encodeAll rs := by
  induction rs with
  | nil => rfl
  | cons r rs ih =>
    rw [map_cons, Format.encodeAll_cons, Format.encodeAll_cons, ih]
    rfl

theorem valid_map_withCrc {rs : List LogRecord} :
    (∀ r ∈ rs.map LogRecord.withCrc, recordFormat.Valid r) ↔ ∀ r ∈ rs, r.Fits := by
  simp only [List.mem_map, forall_exists_index, and_imp, forall_apply_eq_imp_iff₂]
  constructor
  · intro h r hr
    exact (h r hr).fits
  · intro h r hr
    exact LogRecord.withCrc_wellFormed (h r hr)

section reopened

variable {config : WalConfig} {base : ℕ} {old : List LogRecord} {tail : List UInt8}
  {w w' : WriteAheadLog} {cs : List AppendCall} {lsns : List UInt64}

/-- After a crash the LSNs continue where the intact records end. -/
theorem nextLsn_after_crash (hold : ContiguousFrom base old) (hbase : 1 ≤ base)
    (hfresh : old = [] → base = 1) (hfits : ∀ r ∈ old, r.Fits) (htail : Damaged tail)
    (hopen : openLog (recordFormat.encodeAll old ++ tail) config = .ok w) :
    w.nextLsn.toNat = base + old.length := by
  obtain ⟨-, -, hnext⟩ := openLog_ok hopen
  rw [← encodeAll_map_withCrc, scan_encodeAll_append (valid_map_withCrc.mpr hfits),
    scan_eq_nil htail.decode_eq_none, append_nil] at hnext
  rw [hnext]
  by_cases hne : old = []
  · rw [hfresh hne, hne]
    rfl
  · have hmap : ContiguousFrom base (old.map LogRecord.withCrc) := contiguousFrom_map_withCrc.mpr hold
    have hzero : (0 : UInt64).toNat < base := hbase
    have := maxLsn_contiguous hmap (by simpa using hne) hzero
    rwa [length_map] at this

/-- What the reader sees after the crash and the later appends. -/
theorem readAll_after_crash (hopen : openLog (recordFormat.encodeAll old ++ tail) config = .ok w)
    (happ : AppendAll w cs lsns w') :
    w'.readAll = .ok (recordFormat.scan (recordFormat.encodeAll old ++
      (tail ++ recordFormat.encodeAll (appendedRecords lsns cs)))) := by
  obtain ⟨hfile, -, -⟩ := openLog_ok hopen
  rw [readAll_eq, happ.file_eq, hfile, append_assoc]

/-- The reader returns the old records followed by every later one exactly when they all fit
and the log starts over behind the damaged tail. -/
theorem readAll_keeps_iff (hopen : openLog (recordFormat.encodeAll old ++ tail) config = .ok w)
    (happ : AppendAll w cs lsns w') :
    w'.readAll = .ok ((old ++ appendedRecords lsns cs).map LogRecord.withCrc) ↔
      (∀ r ∈ old ++ appendedRecords lsns cs, r.Fits) ∧
        Restarts recordFormat tail (recordFormat.encodeAll (appendedRecords lsns cs)) := by
  have hread := readAll_after_crash hopen happ
  -- once the old records fit, reading the file is reading behind the tail
  have hsplit (hfits : ∀ r ∈ old, r.Fits) :
      w'.readAll = .ok ((old ++ appendedRecords lsns cs).map LogRecord.withCrc) ↔ recordFormat.scan (tail ++
          recordFormat.encodeAll ((appendedRecords lsns cs).map LogRecord.withCrc)) =
            (appendedRecords lsns cs).map LogRecord.withCrc := by
    rw [hread, ← encodeAll_map_withCrc old, scan_encodeAll_append (valid_map_withCrc.mpr hfits),
      map_append, Except.ok.injEq, append_cancel_left_eq, encodeAll_map_withCrc]
  constructor
  · intro hall
    have hvalid : ∀ r ∈ old ++ appendedRecords lsns cs, r.Fits := by
      rw [← valid_map_withCrc]
      intro r hr
      rw [hread, Except.ok.injEq] at hall
      rw [← hall] at hr
      exact valid_of_mem_scan hr
    refine ⟨hvalid, ?_⟩
    have hnew := (hsplit fun r hr => hvalid r (mem_append_left _ hr)).mp hall
    have := (scan_eq_iff_restarts.mp hnew).2
    rwa [encodeAll_map_withCrc] at this
  · rintro ⟨hvalid, hrestarts⟩
    refine (hsplit fun r hr => hvalid r (mem_append_left _ hr)).mpr (scan_eq_iff_restarts.mpr ⟨?_, ?_⟩)
    · exact valid_map_withCrc.mpr fun r hr => hvalid r (mem_append_right _ hr)
    · rwa [encodeAll_map_withCrc]

theorem contiguousFrom_after_crash (hold : ContiguousFrom base old) (hbase : 1 ≤ base)
    (hfresh : old = [] → base = 1) (hfits : ∀ r ∈ old, r.Fits) (htail : Damaged tail)
    (hopen : openLog (recordFormat.encodeAll old ++ tail) config = .ok w)
    (happ : AppendAll w cs lsns w') : ContiguousFrom base (old ++ appendedRecords lsns cs) := by
  have hnext := nextLsn_after_crash hold hbase hfresh hfits htail hopen
  exact contiguousFrom_append.mpr ⟨hold, hnext ▸ happ.contiguousFrom⟩

/-- **Crash recovery keeps the later records exactly when the log starts over behind the
damaged tail.** -/
theorem keepsLaterRecords_iff (hold : ContiguousFrom base old) (hbase : 1 ≤ base)
    (hfresh : old = [] → base = 1) (htail : Damaged tail)
    (hopen : openLog (recordFormat.encodeAll old ++ tail) config = .ok w)
    (happ : AppendAll w cs lsns w') :
    KeepsLaterRecords base old (appendedRecords lsns cs) w' ↔ (∀ r ∈ old ++ appendedRecords lsns cs, r.Fits) ∧
        Restarts recordFormat tail (recordFormat.encodeAll (appendedRecords lsns cs)) := by
  rw [KeepsLaterRecords, readAll_keeps_iff hopen happ, and_iff_left_iff_imp]
  rintro ⟨hvalid, -⟩
  have hfits : ∀ r ∈ old, r.Fits := fun r hr => hvalid r (mem_append_left _ hr)
  exact contiguousFrom_after_crash hold hbase hfresh hfits htail hopen happ

end reopened

/-! ### A torn record in front of a commit -/

/-- Checkpoints by hand only. -/
def manualConfig : WalConfig := ⟨false, false, 0⟩

/-- The record on disk before the crash. -/
def insertRecord : LogRecord := ⟨1, 0, 1, .insert, 7, [104, 105], 0⟩

/-- The first bytes of a record with LSN 2 that the crash cut off. -/
def tornTail : List UInt8 := [2, 0, 0]

/-- The commit appended after reopening. -/
def commitCall : AppendCall := ⟨1, 1, .commit, 0, []⟩

def reopenedLog : WriteAheadLog := ⟨recordFormat.encodeAll [insertRecord] ++ tornTail, 2, 1, manualConfig, 0, 1⟩

def committedLog : WriteAheadLog :=
  ⟨reopenedLog.file ++ (commitCall.record 2).toBytes, 3, 2, manualConfig, 1, 2⟩

theorem tornTail_damaged : Damaged tornTail := by
  intro p hp
  cases hp

/-- What follows the record on disk is read only if it starts with a record. -/
theorem scan_insertRecord {rest : List UInt8} (h : recordFormat.decode rest = none) :
    recordFormat.scan (recordFormat.encodeAll [insertRecord] ++ rest) = [insertRecord.withCrc] := by
  have hvalid : ∀ r ∈ [insertRecord].map LogRecord.withCrc, recordFormat.Valid r :=
    valid_map_withCrc.mpr (by simp [LogRecord.Fits, insertRecord])
  rw [← encodeAll_map_withCrc, scan_encodeAll_append hvalid, scan_eq_nil h]
  rfl

theorem open_reopenedLog :
    openLog (recordFormat.encodeAll [insertRecord] ++ tornTail) manualConfig = .ok reopenedLog :=
  openLog_of_scan manualConfig (scan_insertRecord tornTail_damaged.decode_eq_none) rfl

theorem append_committedLog : AppendAll reopenedLog [commitCall] [2] committedLog := .cons 1 rfl (.nil _)

/-- The commit is acknowledged with LSN 2, and the reader never returns it. -/
theorem crash_loses_commit :
    ∃ w w', openLog (recordFormat.encodeAll [insertRecord] ++ tornTail) manualConfig = .ok w ∧
      AppendAll w [commitCall] [2] w' ∧
      ¬ KeepsLaterRecords 1 [insertRecord] (appendedRecords [2] [commitCall]) w' := by
  refine ⟨reopenedLog, committedLog, open_reopenedLog, append_committedLog, ?_⟩
  rintro ⟨hread, -⟩
  have hdamaged : recordFormat.decode
      (tornTail ++ recordFormat.encodeAll (appendedRecords [2] [commitCall])) = none := rfl
  have hactual : committedLog.readAll = .ok [insertRecord.withCrc] := by
    rw [readAll_after_crash open_reopenedLog append_committedLog, scan_insertRecord hdamaged]
  rw [hactual] at hread
  cases hread

theorem keepsLaterRecords_iff_commit :
    KeepsLaterRecords 1 [insertRecord] (appendedRecords [2] [commitCall]) committedLog ↔
      (∀ r ∈ [insertRecord] ++ appendedRecords [2] [commitCall], r.Fits) ∧ Restarts recordFormat tornTail
          (recordFormat.encodeAll (appendedRecords [2] [commitCall])) :=
  keepsLaterRecords_iff ⟨rfl, trivial⟩ le_rfl (fun _ => rfl) tornTail_damaged open_reopenedLog
    append_committedLog

end CenDB.Wal
