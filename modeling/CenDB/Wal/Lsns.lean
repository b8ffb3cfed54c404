import CenDB.Wal.Truncation

/-! # LSNs over the life of a log

The next LSN is kept in memory, and read off the largest LSN in the file when the log is opened.
`Recorded` ties both to all records that were ever appended: the file holds the last of them, and it
is empty only as long as nothing was appended, so that the two never disagree. -/

namespace CenDB.Wal

open Framing WriteAheadLog List UInt64

/-- The calls on a log; `reopen` closes it and opens its file again. -/
inductive Call where
  | append (c : AppendCall)
  | commit (txnId prevLsn : UInt64)
  | checkpoint
  | truncate
  | reopen (config : WalConfig)
deriving DecidableEq, Repr

namespace WriteAheadLog

/-- What a checkpoint appends. -/
def checkpointEntry (w : WriteAheadLog) : AppendCall := ⟨0, w.lastRecordLsn, .checkpoint, 0, []⟩

def commitFuel (fuel : ℕ) (w : WriteAheadLog) (txnId prevLsn : UInt64) : Except Halt (UInt64 × WriteAheadLog) :=
  appendFuel fuel w ⟨txnId, prevLsn, .commit, 0, []⟩

/-- The LSN that the call returns, if it appends a record, and the log. -/
def callFuel (fuel : ℕ) (w : WriteAheadLog) : Call → Except Halt (Option UInt64 × WriteAheadLog)
  | .append c => (appendFuel fuel w c).map (Prod.map some id)
  | .commit txnId prevLsn => (commitFuel fuel w txnId prevLsn).map (Prod.map some id)
  | .checkpoint => (checkpointFuel fuel w).map (Prod.map some id)
  | .truncate => (w.truncateToCheckpoint.map fun p => (none, p.2)).mapError .error
  | .reopen config => (openLog w.file config).map fun w' => (none, w')

end WriteAheadLog

namespace Call

/-- What a call appends. -/
def entry (w : WriteAheadLog) : Call → Option AppendCall
  | append c => some c
  | commit txnId prevLsn => some ⟨txnId, prevLsn, .commit, 0, []⟩
  | checkpoint => some w.checkpointEntry
  | truncate => none
  | reopen _ => none

/-- The record that a call appends, as it is read back, under the LSN that the call returns. -/
def written (w : WriteAheadLog) (call : Call) (lsn : Option UInt64) : Option LogRecord := do
  let c ← call.entry w
  return (c.record (← lsn)).withCrc

/-- The payload fits the 32-bit length field. -/
def Fits : Call → Prop
  | append c => c.payload.length < 2 ^ 32
  | _ => True

end Call

/-- Calls that return, on a log that was opened on an empty file, and all records they appended. -/
inductive Run : List Call → List LogRecord → WriteAheadLog → Prop
  | fresh {config : WalConfig} {w : WriteAheadLog} : openLog [] config = .ok w → Run [] [] w
  | call {calls : List Call} {log : List LogRecord} {w w' : WriteAheadLog} {c : Call}
    {lsn : Option UInt64} (fuel : ℕ) : Run calls log w → callFuel fuel w c = .ok (lsn, w') →
    Run (calls ++ [c]) (log ++ (c.written w lsn).toList) w'

/-- All records that were ever appended to a log. -/
structure Recorded (log : List LogRecord) (w : WriteAheadLog) : Prop where
  valid : ∀ r ∈ log, recordFormat.Valid r
  lsns : ContiguousFrom 1 log
  next : w.nextLsn.toNat = log.length + 1
  /-- The file holds the last of them. -/
  kept : ∃ front rs, log = front ++ rs ∧ w.file = recordFormat.encodeAll rs ∧ (rs = [] → log = [])

/-! ### Contiguous LSNs increase -/

variable {rs : List LogRecord} {w w' : WriteAheadLog} {c : Call}

variable {n fuel : ℕ} {r : LogRecord} {lsn : UInt64} {e : AppendCall}

theorem ContiguousFrom.lsn_mem (h : ContiguousFrom n rs) (hr : r ∈ rs) :
    n ≤ r.lsn.toNat ∧ r.lsn.toNat < n + rs.length := by
  induction rs generalizing n with
  | nil => cases hr
  | cons s rs ih =>
    rw [length_cons]
    cases mem_cons.mp hr with
    | inl hrs =>
      have hn := h.1
      rw [hrs]
      omega
    | inr hrs =>
      have hbounds := ih h.2 hrs
      omega

theorem ContiguousFrom.pairwise (h : ContiguousFrom n rs) : rs.Pairwise fun r s => r.lsn < s.lsn := by
  induction rs generalizing n with
  | nil => exact List.Pairwise.nil
  | cons r rs ih =>
    refine List.Pairwise.cons (fun s hs => ?_) (ih h.2)
    have hlater := (h.2.lsn_mem hs).1
    rw [lt_iff_toNat_lt, h.1]
    omega

/-! ### The calls -/

/-- A truncated log holds the records from the last checkpoint on, and nothing else changes. -/
theorem truncateToCheckpoint_ok {reclaimed : ℕ} (hfile : w.file = recordFormat.encodeAll rs)
    (hvalid : ∀ r ∈ rs, recordFormat.Valid r) (htrunc : w.truncateToCheckpoint = .ok (reclaimed, w')) :
    w'.file = recordFormat.encodeAll (rs.drop (checkpointIdx rs)) ∧ w'.nextLsn = w.nextLsn := by
  unfold truncateToCheckpoint at htrunc
  rw [readAll_eq, hfile, scan_encodeAll hvalid] at htrunc
  simp only [bind, Except.bind, pure, Except.pure] at htrunc
  rw [checkpointIdx]
  cases hidx : lastCpIdx rs with
  | none =>
    rw [hidx] at htrunc
    obtain ⟨-, rfl⟩ := Prod.mk.inj (Except.ok.inj htrunc)
    exact ⟨hfile, rfl⟩
  | some idx =>
    rw [hidx] at htrunc
    dsimp only at htrunc
    split_ifs at htrunc with hzero
    · obtain ⟨-, rfl⟩ := Prod.mk.inj (Except.ok.inj htrunc)
      rw [hzero]
      exact ⟨hfile, rfl⟩
    · obtain ⟨-, rfl⟩ := Prod.mk.inj (Except.ok.inj htrunc)
      exact ⟨rfl, rfl⟩

/-- Something is left of a log that held something. -/
theorem drop_checkpointIdx_eq_nil (h : rs.drop (checkpointIdx rs) = []) : rs = [] := by
  rw [checkpointIdx] at h
  cases hidx : lastCpIdx rs with
  | none => rwa [hidx] at h
  | some idx =>
    rw [hidx, drop_eq_nil_iff] at h
    obtain ⟨r, hr, -⟩ := lastCpIdx_some hidx
    have hlt := (List.getElem?_eq_some_iff.mp hr).1
    exact absurd h (not_le.mpr hlt)

/-- A checkpoint that returns has written its record, and perhaps truncated the log. -/
theorem checkpointFuel_ok (h : checkpointFuel fuel w = .ok (lsn, w')) :
    ∃ w₁, writeRecord w (checkpointEntry w) = .ok (lsn, w₁) ∧ (w' = { w₁ with recordsSinceCheckpoint := 0 } ∨
        ∃ reclaimed, truncateToCheckpoint { w₁ with recordsSinceCheckpoint := 0 } = .ok (reclaimed, w')) := by
  cases fuel with
  | zero => cases h
  | succ fuel =>
    unfold checkpointFuel at h
    cases happend : appendFuel fuel w (checkpointEntry w) with
    | error e =>
      rw [checkpointEntry] at happend
      simp [happend] at h
    | ok p =>
      have hwrite := appendFuel_returns happend
      rw [checkpointEntry] at happend
      simp only [happend] at h
      split_ifs at h
      · cases htrunc : truncateToCheckpoint { p.2 with recordsSinceCheckpoint := 0 } with
        | error e => simp [htrunc] at h
        | ok q =>
          simp only [htrunc] at h
          cases h
          exact ⟨p.2, hwrite, Or.inr ⟨q.1, htrunc⟩⟩
      · cases h
        exact ⟨p.2, hwrite, Or.inl rfl⟩

/-- A call that appends does so under the next LSN, and changes the log no further than by
truncating it. -/
theorem callFuel_some (h : callFuel fuel w c = .ok (some lsn, w')) :
    ∃ e w₁, c.entry w = some e ∧ writeRecord w e = .ok (lsn, w₁) ∧
      (w'.file = w₁.file ∧ w'.nextLsn = w₁.nextLsn ∨ ∃ (w₂ : WriteAheadLog) (reclaimed : ℕ), w₂.file = w₁.file ∧
        w₂.nextLsn = w₁.nextLsn ∧ w₂.truncateToCheckpoint = .ok (reclaimed, w')) := by
  cases c with
  | append e =>
    rw [callFuel] at h
    cases happend : appendFuel fuel w e with
    | error e => simp [happend, Except.map] at h
    | ok p =>
      rw [happend] at h
      cases h
      exact ⟨e, p.2, rfl, appendFuel_returns happend, Or.inl ⟨rfl, rfl⟩⟩
  | commit txnId prevLsn =>
    rw [callFuel] at h
    cases happend : commitFuel fuel w txnId prevLsn with
    | error e => simp [happend, Except.map] at h
    | ok p =>
      rw [happend] at h
      cases h
      exact ⟨_, p.2, rfl, appendFuel_returns happend, Or.inl ⟨rfl, rfl⟩⟩
  | checkpoint =>
    rw [callFuel] at h
    cases hcheckpoint : checkpointFuel fuel w with
    | error e => simp [hcheckpoint, Except.map] at h
    | ok p =>
      rw [hcheckpoint] at h
      cases h
      obtain ⟨w₁, hwrite, hafter⟩ := checkpointFuel_ok hcheckpoint
      refine ⟨checkpointEntry w, w₁, rfl, hwrite, ?_⟩
      refine hafter.imp (fun hw => by rw [hw]; exact ⟨rfl, rfl⟩) fun ⟨reclaimed, htrunc⟩ => ?_
      exact ⟨{ w₁ with recordsSinceCheckpoint := 0 }, reclaimed, rfl, rfl, htrunc⟩
  | truncate =>
    rw [callFuel] at h
    cases htrunc : w.truncateToCheckpoint with
    | error e | ok p => simp [htrunc, Except.map, Except.mapError] at h
  | reopen config =>
    rw [callFuel] at h
    cases hopen : openLog w.file config with
    | error e | ok w₁ => simp [hopen, Except.map] at h

/-- The other calls. -/
theorem callFuel_none (h : callFuel fuel w c = .ok (none, w')) :
    (∃ reclaimed, w.truncateToCheckpoint = .ok (reclaimed, w')) ∨ ∃ config, openLog w.file config = .ok w' := by
  cases c with
  | append e =>
    rw [callFuel] at h
    cases happend : appendFuel fuel w e <;> simp [happend, Except.map, Prod.map] at h
  | commit txnId prevLsn =>
    rw [callFuel] at h
    cases happend : commitFuel fuel w txnId prevLsn <;> simp [happend, Except.map, Prod.map] at h
  | checkpoint =>
    rw [callFuel] at h
    cases hcheckpoint : checkpointFuel fuel w <;> simp [hcheckpoint, Except.map, Prod.map] at h
  | truncate =>
    rw [callFuel] at h
    cases htrunc : w.truncateToCheckpoint with
    | error e => simp [htrunc, Except.map, Except.mapError] at h
    | ok p =>
      rw [htrunc] at h
      cases h
      exact Or.inl ⟨p.1, rfl⟩
  | reopen config =>
    rw [callFuel] at h
    cases hopen : openLog w.file config with
    | error e => simp [hopen, Except.map] at h
    | ok w₁ =>
      rw [hopen] at h
      cases h
      exact Or.inr ⟨config, hopen⟩

theorem Call.Fits.entry (h : c.Fits) (he : c.entry w = some e) : e.payload.length < 2 ^ 32 := by
  cases c <;> cases he
  · exact h
  · simp
  · exact Nat.two_pow_pos 32

namespace Recorded

variable {log : List LogRecord} {w w' : WriteAheadLog}

/-- Only the file and the next LSN matter. -/
theorem congr (h : Recorded log w) (hfile : w'.file = w.file) (hnext : w'.nextLsn = w.nextLsn) :
    Recorded log w' := by
  refine ⟨h.valid, h.lsns, by rw [hnext, h.next], ?_⟩
  rw [hfile]
  exact h.kept

theorem lsn_lt_next (h : Recorded log w) {r : LogRecord} (hr : r ∈ log) : r.lsn < w.nextLsn := by
  have hbounds := (h.lsns.lsn_mem hr).2
  rw [lt_iff_toNat_lt, h.next]
  omega

theorem reopened {config : WalConfig} (h : Recorded log w) (hopen : openLog w.file config = .ok w') :
    Recorded log w' := by
  obtain ⟨hfile, -, hnext⟩ := openLog_ok hopen
  obtain ⟨front, rs, hlog, hrs, hnil⟩ := h.kept
  have hvalid : ∀ r ∈ rs, recordFormat.Valid r := fun r hr =>
    h.valid r (hlog ▸ mem_append_right front hr)
  refine ⟨h.valid, h.lsns, ?_, front, rs, hlog, by rw [hfile, hrs], hnil⟩
  rw [hnext, hrs, scan_encodeAll hvalid]
  by_cases hempty : rs = []
  · rw [hempty, hnil hempty]
    rfl
  · have hcontiguous := h.lsns
    rw [hlog, contiguousFrom_append] at hcontiguous
    rw [maxLsn_contiguous hcontiguous.2 hempty (by rw [UInt64.toNat_zero]; omega), hlog, length_append]
    omega

theorem appended {c : AppendCall} {lsn : UInt64} (h : Recorded log w)
    (hfits : c.payload.length < 2 ^ 32) (hwrite : writeRecord w c = .ok (lsn, w')) :
    Recorded (log ++ [(c.record lsn).withCrc]) w' := by
  obtain ⟨hlsn, hfile, hnext, -⟩ := writeRecord_ok hwrite
  have hrecord : (c.record lsn).withCrc.lsn.toNat = 1 + log.length := by
    rw [LogRecord.withCrc_lsn, hlsn]
    exact h.next.trans (add_comm _ _)
  refine ⟨?_, ?_, ?_, ?_⟩
  · intro r hr
    cases mem_append.mp hr with
    | inl hold => exact h.valid r hold
    | inr hnew =>
      rw [mem_singleton.mp hnew]
      exact LogRecord.withCrc_wellFormed hfits
  · exact contiguousFrom_append.mpr ⟨h.lsns, hrecord, trivial⟩
  · simp [hnext, h.next]
  · obtain ⟨front, rs, hlog, hrs, -⟩ := h.kept
    refine ⟨front, rs ++ [(c.record lsn).withCrc], by rw [hlog, append_assoc], ?_, by simp⟩
    rw [hfile, hrs]
    simp [Format.encodeAll, recordFormat]

theorem truncated {reclaimed : ℕ} (h : Recorded log w)
    (htrunc : w.truncateToCheckpoint = .ok (reclaimed, w')) : Recorded log w' := by
  obtain ⟨front, rs, hlog, hrs, hnil⟩ := h.kept
  have hvalid : ∀ r ∈ rs, recordFormat.Valid r := fun r hr =>
    h.valid r (hlog ▸ mem_append_right front hr)
  obtain ⟨hfile, hnext⟩ := truncateToCheckpoint_ok hrs hvalid htrunc
  refine ⟨h.valid, h.lsns, by rw [hnext, h.next], ?_⟩
  refine ⟨front ++ rs.take (checkpointIdx rs), rs.drop (checkpointIdx rs), ?_, hfile, fun hdrop => ?_⟩
  · simp [hlog]
  · exact hnil (drop_checkpointIdx_eq_nil hdrop)

theorem call {fuel : ℕ} {c : Call} {lsn : Option UInt64} (h : Recorded log w) (hfits : c.Fits)
    (hcall : callFuel fuel w c = .ok (lsn, w')) : Recorded (log ++ (c.written w lsn).toList) w' := by
  cases lsn with
  | none =>
    have hwritten : c.written w none = none := by simp [Call.written]
    rw [hwritten, Option.toList_none, append_nil]
    cases callFuel_none hcall with
    | inl htrunc => exact h.truncated htrunc.choose_spec
    | inr hopen => exact h.reopened hopen.choose_spec
  | some lsn =>
    obtain ⟨e, w₁, he, hwrite, hafter⟩ := callFuel_some hcall
    have hnew := h.appended (hfits.entry he) hwrite
    rw [Call.written, he]
    cases hafter with
    | inl hsame => exact hnew.congr hsame.1 hsame.2
    | inr htrunc =>
      obtain ⟨w₂, reclaimed, hfile, hnext, htrunc⟩ := htrunc
      exact (hnew.congr hfile hnext).truncated htrunc

end Recorded

/-! ### Runs -/

theorem Run.recorded {calls : List Call} {log : List LogRecord} (h : Run calls log w)
    (hfits : ∀ call ∈ calls, call.Fits) : Recorded log w := by
  induction h with
  | fresh hopen =>
    obtain ⟨hfile, -, hnext⟩ := openLog_ok hopen
    exact ⟨nofun, trivial, hnext, [], [], rfl, hfile, fun _ => rfl⟩
  | call fuel _ hcall ih =>
    have hlast := hfits _ (mem_append_right _ (mem_singleton_self _))
    exact (ih fun call hmem => hfits call (mem_append_left _ hmem)).call hlast hcall

/-- **LSNs never go backwards**: the file holds the last records that were appended, in the order
of their LSNs, and a call that appends returns an LSN above those of all records so far. -/
theorem lsns_increase {calls : List Call} {log : List LogRecord} {w : WriteAheadLog}
    (h : Run calls log w) (hfits : ∀ call ∈ calls, call.Fits) :
    (∃ rs, w.file = recordFormat.encodeAll rs ∧ w.readAll = .ok rs ∧ rs <:+ log ∧
      rs.Pairwise fun r s => r.lsn < s.lsn) ∧
    ∀ fuel c lsn w', callFuel fuel w c = .ok (some lsn, w') → ∀ r ∈ log, r.lsn < lsn := by
  have hrecorded := h.recorded hfits
  refine ⟨?_, fun fuel c lsn w' hcall r hr => ?_⟩
  · obtain ⟨front, rs, hlog, hfile, -⟩ := hrecorded.kept
    have hsuffix : rs <:+ log := ⟨front, hlog.symm⟩
    refine ⟨rs, hfile, ?_, hsuffix, hrecorded.lsns.pairwise.sublist hsuffix.sublist⟩
    rw [readAll_eq, hfile, scan_encodeAll fun r hr => hrecorded.valid r (hsuffix.subset hr)]
  · obtain ⟨e, w₁, -, hwrite, -⟩ := callFuel_some hcall
    rw [(writeRecord_ok hwrite).1]
    exact hrecorded.lsn_lt_next hr

/-! ### A log truncated and opened again -/

/-- The insert of `spanningRecords`. -/
def spanningCall : AppendCall := ⟨9, 0, .insert, 4, [97]⟩

theorem run_fresh : Run [] [] ⟨[], 1, 0, manualConfig, 0, 0⟩ :=
  .fresh (show openLog [] manualConfig = _ from rfl)

theorem lsns_increase_spanning : (∃ rs, truncatedLog.file = recordFormat.encodeAll rs ∧
      WriteAheadLog.readAll ⟨truncatedLog.file, 3, 2, manualConfig, 0, 2⟩ = .ok rs ∧
      rs <:+ spanningRecords ∧ rs.Pairwise fun r s => r.lsn < s.lsn) ∧
    ∀ fuel c lsn w', callFuel fuel ⟨truncatedLog.file, 3, 2, manualConfig, 0, 2⟩ c = .ok (some lsn, w') →
      ∀ r ∈ spanningRecords, r.lsn < lsn := by
  have happend : callFuel 2 ⟨[], 1, 0, manualConfig, 0, 0⟩ (.append spanningCall) =
      .ok (some 1, ⟨(spanningCall.record 1).toBytes, 2, 1, manualConfig, 1, 1⟩) := by rfl
  have hfile : spanningLog.file =
      (spanningCall.record 1).toBytes ++ (AppendCall.record ⟨0, 1, .checkpoint, 0, []⟩ 2).toBytes := by
    rw [spanningLog, spanningRecords, encodeAll_map_withCrc, Format.encodeAll_cons, Format.encodeAll_cons,
      Format.encodeAll_nil, append_nil]
    rfl
  have hcheckpoint : callFuel 2 ⟨(spanningCall.record 1).toBytes, 2, 1, manualConfig, 1, 1⟩ .checkpoint =
      .ok (some 2, ⟨spanningLog.file, 3, 2, manualConfig, 0, 2⟩) := by
    rw [hfile]
    generalize (spanningCall.record 1).toBytes = file
    rfl
  have htruncate : callFuel 2 spanningLog .truncate = .ok (none, truncatedLog) := by
    rw [callFuel, truncate_spanningLog]
    rfl
  have hreopen : callFuel 2 truncatedLog (.reopen manualConfig) =
      .ok (none, ⟨truncatedLog.file, 3, 2, manualConfig, 0, 2⟩) := by
    have hscan : recordFormat.scan truncatedLog.file = spanningRecords.drop 1 :=
      scan_encodeAll fun r hr => valid_spanningRecords r (mem_of_mem_drop hr)
    rw [callFuel, openLog_of_scan manualConfig hscan rfl]
    rfl
  have hrun := (((run_fresh.call 2 happend).call 2 hcheckpoint).call 2 htruncate).call 2 hreopen
  refine lsns_increase hrun ?_
  simp [Call.Fits, spanningCall]

/-! ### A payload that does not fit -/

theorem body_of_length_eq_zero (hlen : UInt32.ofNat r.payload.length = 0) :
    r.body = LogRecord.body { r with payload := [] } ++ r.payload := by simp [LogRecord.body, hlen]

/-- A record whose length field has wrapped to zero is not read back. -/
theorem decode_eq_none_of_wraps {rest : List UInt8} (hlen : UInt32.ofNat r.payload.length = 0)
    (hpayload : r.payload = [0, 0, 0, 0] ++ rest) (hcrc : crc32c (LogRecord.body { r with payload := [] }) ≠ 0) :
    recordFormat.decode r.toBytes = none := by
  have htype := r.getD_recType []
  have hfield := r.slice_payloadLen []
  rw [append_nil] at htype hfield
  have hsplit : r.toBytes = LogRecord.body { r with payload := [] } ++ ([0, 0, 0, 0] ++
      (rest ++ Words.toLE 4 (crc32c r.body).toNat)) := by
    rw [LogRecord.toBytes, body_of_length_eq_zero hlen]
    simp [hpayload]
  have hshort : (LogRecord.body { r with payload := [] }).length = 37 := by simp
  have hstored : Words.slice r.toBytes 37 41 = [0, 0, 0, 0] := by
    rw [hsplit]
    exact Words.slice_middle hshort (by simp)
  have htake : r.toBytes.take 37 = LogRecord.body { r with payload := [] } := by simp [hsplit]
  have hdamaged : LogRecord.fromBytes r.toBytes = .error .crcMismatch := by
    have hlong : 41 ≤ r.toBytes.length := by simp
    have hzero : Words.fromLE (Words.toLE 4 (0 : UInt32).toNat) = 0 := by decide
    unfold LogRecord.fromBytes
    rw [if_neg (by omega), htype, LogRecordType.fromU8_toU8]
    simp only [hfield, hlen, hzero, Nat.add_zero, hstored, htake]
    rw [if_neg (by omega), if_pos]
    exact Ne.symm hcrc
  simp only [recordFormat, decodeRecord, hdamaged]

theorem openLog_of_decode_eq_none {contents : List UInt8} (config : WalConfig)
    (h : recordFormat.decode contents = none) :
    openLog contents config = .ok ⟨contents, 1, 0, config, 0, 0⟩ :=
  openLog_of_scan config (scan_eq_nil h) rfl

/-- An insert of `2 ^ 32` bytes. -/
def oversized : AppendCall := ⟨1, 0, .insert, 0, List.replicate (2 ^ 32) 0⟩

/-- The file that starts with it is read as empty, and the LSN 1 is given out again. -/
theorem oversized_repeats_lsn : ∃ log w w', Run [.append oversized, .reopen manualConfig] log w ∧
      callFuel 1 w (.append oversized) = .ok (some 1, w') ∧ ∃ r ∈ log, r.lsn = 1 := by
  have hpayload : oversized.payload = [0, 0, 0, 0] ++ List.replicate 4294967292 0 :=
    replicate_add 4 4294967292 0
  have hlen : UInt32.ofNat oversized.payload.length = 0 := by
    rw [hpayload, length_append, length_replicate]
    rfl
  have hdecode : recordFormat.decode (oversized.record 1).toBytes = none :=
    decode_eq_none_of_wraps hlen hpayload (by set_option maxRecDepth 16000 in decide)
  have happend (file : List UInt8) : callFuel 1 ⟨file, 1, 0, manualConfig, 0, 0⟩ (.append oversized) =
        .ok (some 1, ⟨file ++ (oversized.record 1).toBytes, 2, 1, manualConfig, 1, 1⟩) := by
    have hnext : Words.addU64 1 1 = some 2 := by decide
    have hsince : Words.addU32 0 1 = some 1 := by decide
    simp only [callFuel, appendFuel, writeRecord, hnext, hsince]
    rw [if_neg fun hdue => UInt32.lt_irrefl 0 hdue.1]
    rfl
  have hreopen : callFuel 1 ⟨[] ++ (oversized.record 1).toBytes, 2, 1, manualConfig, 1, 1⟩
      (.reopen manualConfig) = .ok (none, ⟨(oversized.record 1).toBytes, 1, 0, manualConfig, 0, 0⟩) := by
    rw [List.nil_append, callFuel, openLog_of_decode_eq_none manualConfig hdecode]
    rfl
  refine ⟨_, _, _, (run_fresh.call 1 (happend [])).call 1 hreopen, happend _,
    (oversized.record 1).withCrc, ?_, rfl⟩
  exact mem_append_left _ (mem_append_right _ mem_cons_self)

end CenDB.Wal
