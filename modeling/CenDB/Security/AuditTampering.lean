import CenDB.Security.AuditLog

/-! # Tampering with the audit log

The digest of an entry is taken of its fields one after the other, without their lengths: the texts
around `rows_affected` can give bytes to it and take bytes from it. -/

namespace CenDB.Security

open Words List

/-- The entries differ at most in where the bytes of the body are cut into its three fields. -/
structure AuditEntry.Regrouped (e f : AuditEntry) : Prop where
  sequence : f.sequence = e.sequence
  timestamp : f.timestamp = e.timestamp
  userId : f.userId = e.userId
  op : f.op = e.op
  body : f.body = e.body
  prevHash : f.prevHash = e.prevHash

theorem AuditEntry.regrouped_iff {e f : AuditEntry} :
    e.Regrouped f ↔ f.prevHash = e.prevHash ∧ f.hashed = e.hashed := by
  rw [AuditEntry.hashed_inj]
  constructor
  · rintro ⟨hseq, hts, huser, hop, hbody, hprev⟩
    exact ⟨hprev, hseq, hts, huser, hop, hbody, hprev⟩
  · rintro ⟨-, hseq, hts, huser, hop, hbody, hprev⟩
    exact ⟨hseq, hts, huser, hop, hbody, hprev⟩

namespace AuditLog

/-- The bytes that the entries are hashed as. -/
def hashedBytes (log : AuditLog) : Set (List UInt8) := {bytes | ∃ e ∈ log.entries, e.hashed = bytes}

/-- The second log is another one, with bytes moved within the bodies of its entries only. -/
def MovesBytes (before after : AuditLog) : Prop :=
  after ≠ before ∧ List.Forall₂ AuditEntry.Regrouped before.entries after.entries

/-- A changed log that keeps the stored digests verifies if only bytes within the bodies moved. -/
theorem verifyChain_of_kept {crypto : Crypto} {before after : AuditLog}
    (hok : before.verifyChain crypto = .ok ())
    (hkept : after.entries.map AuditEntry.entryHash = before.entries.map AuditEntry.entryHash)
    (hinj : Set.InjOn crypto.blake3 (before.hashedBytes ∪ after.hashedBytes)) :
    after.verifyChain crypto = .ok () ↔ List.Forall₂ AuditEntry.Regrouped before.entries after.entries := by
  have hchained := verifyChain_eq_ok.mp hok
  rw [verifyChain_eq_ok, Chained, HashChain.valid_iff_of_kept hchained hkept, forall₂_iff_zip, forall₂_iff_zip]
  refine and_congr_right fun _ => forall₃_congr fun e f hef => ?_
  obtain ⟨he, hf⟩ := of_mem_zip hef
  rw [AuditEntry.regrouped_iff]
  refine and_congr_right fun _ => ⟨fun h => ?_, fun h => congrArg crypto.blake3 h⟩
  exact hinj (Or.inr ⟨f, hf, rfl⟩) (Or.inl ⟨e, he, rfl⟩) h

/-- **Tampering is detected exactly when** it does more than move bytes between the resource, the
number of rows and the detail of an entry. -/
theorem tampering_detected_iff {crypto : Crypto} {before after : AuditLog}
    (hok : before.verifyChain crypto = .ok ())
    (hkept : after.entries.map AuditEntry.entryHash = before.entries.map AuditEntry.entryHash)
    (hinj : Set.InjOn crypto.blake3 (before.hashedBytes ∪ after.hashedBytes)) :
    (after ≠ before → ∃ sequence, after.verifyChain crypto = .error sequence) ↔ ¬MovesBytes before after := by
  have hverify := verifyChain_of_kept hok hkept hinj
  rw [MovesBytes, not_and, ← hverify]
  refine forall_congr' fun _ => ?_
  cases after.verifyChain crypto with
  | ok u => exact ⟨fun ⟨_, h⟩ => (by cases h), fun h => absurd rfl h⟩
  | error sequence => exact ⟨nofun, fun _ => ⟨sequence, rfl⟩⟩

/-! ### A recorded entry and two changes of it -/

/-- BLAKE3 of no bytes, of the recorded entry and of the recounted one. -/
def sampleCrypto : Crypto where
  argon2 _ _ := none
  blake3 data :=
    if data = [] then
      genesisHash
    else if data.getD 29 0 = 65 then
      #v[134, 111, 38, 143, 56, 228, 141, 131, 229, 66, 77, 213, 247, 241, 38, 81, 180, 188, 249, 62,
        94, 212, 106, 71, 243, 217, 196, 172, 231, 121, 102, 190]
    else
      #v[180, 158, 106, 102, 70, 59, 104, 18, 108, 23, 11, 198, 191, 160, 217, 55, 235, 182, 119, 96,
        115, 19, 202, 91, 197, 14, 12, 58, 163, 79, 237, 222]

def recordedEntry : AuditEntry := new.nextEntry sampleCrypto 1700000000 1 .other "" 65 "\x00"

def recorded : AuditLog := ⟨[recordedEntry]⟩

/-- The bytes of the detail moved to the front. -/
def moved : AuditLog := ⟨[{ recordedEntry with resource := "A", rowsAffected := 0, detail := "" }]⟩

/-- Another number of rows. -/
def recounted : AuditLog := ⟨[{ recordedEntry with rowsAffected := 66 }]⟩

theorem moved_bytes_accepted : recorded.verifyChain sampleCrypto = .ok () ∧
      moved.entries.map AuditEntry.entryHash = recorded.entries.map AuditEntry.entryHash ∧
      Set.InjOn sampleCrypto.blake3 (insert [] (recorded.hashedBytes ∪ moved.hashedBytes)) ∧
      moved ≠ recorded ∧ moved.verifyChain sampleCrypto = .ok () := by
  have hsame : recorded.hashedBytes ∪ moved.hashedBytes ⊆ {recordedEntry.hashed} := by
    rintro bytes (⟨e, he, rfl⟩ | ⟨e, he, rfl⟩)
    · rw [mem_singleton.mp he]
      exact rfl
    · rw [mem_singleton.mp he]
      decide
  have hne : sampleCrypto.blake3 [] ≠ sampleCrypto.blake3 recordedEntry.hashed := by decide
  refine ⟨by decide, rfl, Set.InjOn.mono (Set.insert_subset_insert hsame) ?_, ?_, by decide⟩
  · rintro a (rfl | rfl) b (rfl | rfl) hab
    · rfl
    · exact absurd hab hne
    · exact absurd hab.symm hne
    · rfl
  · intro h
    have hrows := congrArg (fun log => log.entries.map AuditEntry.rowsAffected) h
    revert hrows
    decide

theorem tampering_detected_iff_recounted :
    (recounted ≠ recorded → ∃ sequence, recounted.verifyChain sampleCrypto = .error sequence) ↔
      ¬MovesBytes recorded recounted := by
  refine tampering_detected_iff (by decide) rfl ?_
  have hne : sampleCrypto.blake3 recordedEntry.hashed ≠
      sampleCrypto.blake3 { recordedEntry with rowsAffected := 66 }.hashed := by decide
  rintro a (⟨e, he, rfl⟩ | ⟨e, he, rfl⟩) b (⟨f, hf, rfl⟩ | ⟨f, hf, rfl⟩) hab <;>
    rw [mem_singleton.mp he, mem_singleton.mp hf] at hab ⊢
  · exact absurd hab hne
  · exact absurd hab.symm hne

end AuditLog
end CenDB.Security
