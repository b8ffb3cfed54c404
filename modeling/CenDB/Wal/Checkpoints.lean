import CenDB.Wal.Lsns

/-! # Automatic checkpoints

`append` checkpoints by itself when enough records have accumulated, and `checkpoint` writes its record
with `append`.  The counter is reset when that append has returned, so an automatic checkpoint that is
due never returns.

An append returns if and only if it does not make a checkpoint due, and the counters have room
(`appends_iff`).  The counter is the number of records since the last checkpoint that was called or the
last opening of the log (`Session.since_eq`), so what a session may append is a matter of its calls
(`append_returns_iff`). -/

namespace CenDB.Wal

open WriteAheadLog

namespace WriteAheadLog

/-- The call returns after writing its record, and one checkpoint record at most. -/
def Appends (w : WriteAheadLog) (c : AppendCall) : Prop :=
  ∃ fuel lsn w', appendFuel fuel w c = .ok (lsn, w') ∧ ∃ w₁, writeRecord w c = .ok (lsn, w₁) ∧
    (w' = w₁ ∨ ∃ cp w₂, writeRecord w₁ w₁.checkpointEntry = .ok (cp, w₂) ∧ w'.nextLsn = w₂.nextLsn)

/-- One more record makes no checkpoint due. -/
def InTime (interval since : ℕ) : Prop := interval = 0 ∨ since + 1 < interval

instance (interval since : ℕ) : Decidable (InTime interval since) := inferInstanceAs (Decidable (_ ∨ _))

/-- The counters can count one more record. -/
def Room (w : WriteAheadLog) : Prop :=
  w.nextLsn.toNat + 1 < 2 ^ 64 ∧ w.recordsSinceCheckpoint.toNat + 1 < 2 ^ 32

instance (w : WriteAheadLog) : Decidable w.Room := inferInstanceAs (Decidable (_ ∧ _))

variable {w w' : WriteAheadLog} {c : AppendCall} {lsn : UInt64}

theorem exists_writeRecord_iff : (∃ p, writeRecord w c = .ok p) ↔ w.Room := by
  constructor
  · rintro ⟨⟨lsn, w'⟩, hwrite⟩
    obtain ⟨-, -, hnext, -, hsince⟩ := writeRecord_ok hwrite
    have hlsn := w'.nextLsn.toNat_lt
    have hcount := w'.recordsSinceCheckpoint.toNat_lt
    rw [Room]
    omega
  · rintro ⟨hlsn, hcount⟩
    have hnext : Words.addU64 w.nextLsn 1 = some (w.nextLsn + 1) := if_pos hlsn
    have hsince : Words.addU32 w.recordsSinceCheckpoint 1 = some (w.recordsSinceCheckpoint + 1) :=
      if_pos hcount
    simp only [writeRecord, hnext, hsince]
    exact ⟨_, rfl⟩

/-- After one more record, a checkpoint is due if it is not in time. -/
theorem checkpointDue_writeRecord (h : writeRecord w c = .ok (lsn, w')) :
    w'.CheckpointDue ↔ ¬ InTime w.config.checkpointInterval.toNat w.recordsSinceCheckpoint.toNat := by
  obtain ⟨-, -, -, hconfig, hsince⟩ := writeRecord_ok h
  have hzero : (0 : UInt32).toNat = 0 := rfl
  rw [CheckpointDue, InTime, hconfig, UInt32.lt_iff_toNat_lt, UInt32.le_iff_toNat_le, hsince, hzero]
  omega

/-- **An append returns if and only if it makes no checkpoint due and the counters have room.** -/
theorem appends_iff :
    w.Appends c ↔ InTime w.config.checkpointInterval.toNat w.recordsSinceCheckpoint.toNat ∧ w.Room := by
  constructor
  · rintro ⟨fuel, lsn, w', happend, w₁, hwrite, -⟩
    refine ⟨?_, exists_writeRecord_iff.mp ⟨_, hwrite⟩⟩
    by_contra hlate
    have hdue := (checkpointDue_writeRecord hwrite).mpr hlate
    cases fuel with
    | zero => cases happend
    | succ fuel =>
      simp only [appendFuel, hwrite, if_pos hdue] at happend
      cases hcheckpoint : checkpointFuel fuel w₁ with
      | error e => simp [hcheckpoint] at happend
      | ok q => exact checkpointFuel_due fuel hdue q hcheckpoint
  · rintro ⟨htime, hroom⟩
    obtain ⟨⟨lsn, w₁⟩, hwrite⟩ := (exists_writeRecord_iff (c := c)).mpr hroom
    have hdue : ¬ w₁.CheckpointDue := fun hdue => (checkpointDue_writeRecord hwrite).mp hdue htime
    refine ⟨1, lsn, w₁, ?_, w₁, hwrite, Or.inl rfl⟩
    simp only [appendFuel, hwrite, if_neg hdue]

end WriteAheadLog

/-! ### Sessions -/

/-- A log that was opened on some file, after calls that returned. -/
inductive Session (contents : List UInt8) (config : WalConfig) : List Call → WriteAheadLog → Prop
  | opened {w : WriteAheadLog} : openLog contents config = .ok w → Session contents config [] w
  | call {calls : List Call} {w w' : WriteAheadLog} {c : Call} {lsn : Option UInt64} (fuel : ℕ) :
    Session contents config calls w → callFuel fuel w c = .ok (lsn, w') →
    Session contents config (calls ++ [c]) w'

namespace Call

/-- Opening the log again sets its configuration. -/
def nextConfig (config : WalConfig) : Call → WalConfig
  | reopen config' => config'
  | _ => config

/-- A checkpoint that returns, and opening the log again, start the count over. -/
def nextCount (n : ℕ) : Call → ℕ
  | append _ => n + 1
  | commit .. => n + 1
  | checkpoint => 0
  | truncate => n
  | reopen _ => 0

/-- The configuration of the last opening. -/
def configAfter (config : WalConfig) (calls : List Call) : WalConfig := calls.foldl nextConfig config

/-- How many records were appended after the last checkpoint or opening. -/
def sinceCheckpoint (calls : List Call) : ℕ := calls.foldl nextCount 0

end Call

variable {contents : List UInt8} {config : WalConfig} {calls : List Call} {w w' : WriteAheadLog}

/-- A mapped result comes from a result. -/
theorem exists_of_map {ε α β : Type} {f : α → β} {x : Except ε α} {b : β} (h : x.map f = .ok b) :
    ∃ a, x = .ok a ∧ f a = b := by
  cases x with
  | error e => cases h
  | ok a => exact ⟨a, rfl, Except.ok.inj h⟩

theorem openLog_fields (h : openLog contents config = .ok w) :
    w.config = config ∧ w.recordsSinceCheckpoint = 0 := by
  rw [openLog_eq] at h
  cases hnext : Words.addU64 (maxLsn 0 (recordFormat.scan contents)) 1 with
  | none =>
    rw [hnext] at h
    cases h
  | some next =>
    rw [hnext] at h
    cases h
    exact ⟨rfl, rfl⟩

theorem truncateToCheckpoint_fields {reclaimed : ℕ} (h : w.truncateToCheckpoint = .ok (reclaimed, w')) :
    w'.config = w.config ∧ w'.recordsSinceCheckpoint = w.recordsSinceCheckpoint := by
  unfold truncateToCheckpoint at h
  rw [readAll_eq] at h
  simp only [bind, Except.bind, pure, Except.pure] at h
  split at h
  · cases h
    exact ⟨rfl, rfl⟩
  · split at h
    · cases h
      exact ⟨rfl, rfl⟩
    · cases h
      exact ⟨rfl, rfl⟩

variable {fuel : ℕ} {lsn : UInt64}

theorem appendFuel_fields {e : AppendCall} (h : appendFuel fuel w e = .ok (lsn, w')) : w'.config = w.config ∧
      w'.recordsSinceCheckpoint.toNat = w.recordsSinceCheckpoint.toNat + 1 := by
  obtain ⟨-, -, -, hconfig, hsince⟩ := writeRecord_ok (appendFuel_returns h)
  exact ⟨hconfig, hsince⟩

theorem checkpointFuel_fields (h : checkpointFuel fuel w = .ok (lsn, w')) :
    w'.config = w.config ∧ w'.recordsSinceCheckpoint.toNat = 0 := by
  obtain ⟨w₁, hwrite, hafter⟩ := checkpointFuel_ok h
  have hconfig := (writeRecord_ok hwrite).2.2.2.1
  cases hafter with
  | inl hreset =>
    rw [hreset]
    exact ⟨hconfig, rfl⟩
  | inr htrunc =>
    obtain ⟨reclaimed, htrunc⟩ := htrunc
    obtain ⟨hsame, hreset⟩ := truncateToCheckpoint_fields htrunc
    exact ⟨hsame.trans hconfig, by rw [hreset]; rfl⟩

/-- What a call that returns does to the configuration and to the counter. -/
theorem callFuel_fields {c : Call} {lsn : Option UInt64} (h : callFuel fuel w c = .ok (lsn, w')) :
    w'.config = c.nextConfig w.config ∧
      w'.recordsSinceCheckpoint.toNat = c.nextCount w.recordsSinceCheckpoint.toNat := by
  cases c with
  | append e | commit txnId prevLsn =>
    obtain ⟨p, happend, hp⟩ := exists_of_map h
    cases hp
    exact appendFuel_fields happend
  | checkpoint =>
    obtain ⟨p, hcheckpoint, hp⟩ := exists_of_map h
    cases hp
    exact checkpointFuel_fields hcheckpoint
  | truncate =>
    cases htrunc : w.truncateToCheckpoint with
    | error e => simp [callFuel, htrunc, Except.map, Except.mapError] at h
    | ok p =>
      rw [callFuel, htrunc] at h
      cases h
      obtain ⟨hconfig, hsince⟩ := truncateToCheckpoint_fields htrunc
      exact ⟨hconfig, congrArg UInt32.toNat hsince⟩
  | reopen config =>
    obtain ⟨p, hopen, hp⟩ := exists_of_map h
    cases hp
    obtain ⟨hconfig, hsince⟩ := openLog_fields hopen
    exact ⟨hconfig, congrArg UInt32.toNat hsince⟩

/-- The configuration and the counter follow from the calls. -/
theorem Session.fields (h : Session contents config calls w) : w.config = Call.configAfter config calls ∧
      w.recordsSinceCheckpoint.toNat = Call.sinceCheckpoint calls := by
  induction h with
  | opened hopen =>
    obtain ⟨hconfig, hsince⟩ := openLog_fields hopen
    exact ⟨hconfig, congrArg UInt32.toNat hsince⟩
  | call fuel _ hcall ih =>
    obtain ⟨hconfig, hsince⟩ := callFuel_fields hcall
    rw [Call.configAfter, Call.sinceCheckpoint, List.foldl_concat, List.foldl_concat]
    rw [ih.1] at hconfig
    rw [ih.2] at hsince
    exact ⟨hconfig, hsince⟩

/-- **In every state that a session reaches, an append returns after its record and at most one
checkpoint record if and only if it makes no checkpoint due and the counters have room.** -/
theorem append_returns_iff (h : Session contents config calls w) (c : AppendCall) : w.Appends c ↔
      InTime (Call.configAfter config calls).checkpointInterval.toNat (Call.sinceCheckpoint calls) ∧
        w.nextLsn.toNat + 1 < 2 ^ 64 ∧ Call.sinceCheckpoint calls + 1 < 2 ^ 32 := by
  obtain ⟨hconfig, hsince⟩ := h.fields
  rw [appends_iff, Room, hconfig, hsince]

/-! ### A checkpoint after every record -/

def everyRecord : WalConfig := ⟨true, false, 1⟩

/-- An insert of two bytes. -/
def insertCall : AppendCall := ⟨7, 0, .insert, 3, [104, 105]⟩

theorem append_returns_iff_manual : (WriteAheadLog.Appends ⟨[], 1, 0, manualConfig, 0, 0⟩ insertCall ↔
      InTime (Call.configAfter manualConfig []).checkpointInterval.toNat (Call.sinceCheckpoint []) ∧
        (1 : UInt64).toNat + 1 < 2 ^ 64 ∧ Call.sinceCheckpoint [] + 1 < 2 ^ 32) :=
  append_returns_iff (.opened (show openLog [] manualConfig = _ from rfl)) insertCall

/-- **The first append of a log that is to checkpoint after every record never returns.** -/
theorem append_never_returns : ∃ w, openLog [] everyRecord = .ok w ∧ ¬ w.Appends insertCall ∧
      ∀ fuel p, appendFuel fuel w insertCall ≠ .ok p := by
  have hstops : ¬ WriteAheadLog.Appends ⟨[], 1, 0, everyRecord, 0, 0⟩ insertCall := by
    rw [appends_iff]
    decide
  refine ⟨⟨[], 1, 0, everyRecord, 0, 0⟩, rfl, hstops, fun fuel p happend => hstops ?_⟩
  exact ⟨fuel, p.1, p.2, happend, p.2, appendFuel_returns happend, Or.inl rfl⟩

end CenDB.Wal
