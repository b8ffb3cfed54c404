import CenDB.Lib.HashChain
import CenDB.Lib.Words
import CenDB.Security.Auth

/-! # The audit log

Every entry stores the digest of the entry before it and its own; the first one stores the digest of
no bytes.  The clock is an argument of `append`.  Feeding a hasher piece by piece is hashing the
pieces joined. -/

namespace CenDB.Security

open Words

inductive AuditOp
  | insert
  | update
  | delete
  | create
  | drop
  | login
  | logout
  | failedLogin
  | grant
  | revoke
  | other
  deriving DecidableEq, Repr

def AuditOp.asStr : AuditOp → String
  | insert => "INSERT"
  | update => "UPDATE"
  | delete => "DELETE"
  | create => "CREATE"
  | drop => "DROP"
  | login => "LOGIN"
  | logout => "LOGOUT"
  | failedLogin => "FAILED_LOGIN"
  | grant => "GRANT"
  | revoke => "REVOKE"
  | other => "OTHER"

structure AuditEntry where
  sequence : UInt64
  timestamp : UInt64
  userId : UInt64
  op : AuditOp
  resource : String
  rowsAffected : UInt64
  detail : String
  prevHash : Vector UInt8 32
  entryHash : Vector UInt8 32
  deriving DecidableEq

namespace AuditEntry

/-- `s.as_bytes()`. -/
def asBytes (s : String) : List UInt8 := Utf8.encode s.toList

/-- The fields that two variable-length texts surround. -/
def body (e : AuditEntry) : List UInt8 :=
  asBytes e.resource ++ (toLE 8 e.rowsAffected.toNat ++ asBytes e.detail)

/-- What the hasher is fed. -/
def hashed (e : AuditEntry) : List UInt8 :=
  toLE 8 e.sequence.toNat ++ (toLE 8 e.timestamp.toNat ++ (toLE 8 e.userId.toNat ++
    (asBytes e.op.asStr ++ (e.body ++ e.prevHash.toList))))

def computeHash (crypto : Crypto) (e : AuditEntry) : Vector UInt8 32 := crypto.blake3 e.hashed

end AuditEntry

/-- BLAKE3 of no bytes, the `prev_hash` of a first entry. -/
def genesisHash : Vector UInt8 32 :=
  #v[175, 19, 73, 185, 245, 249, 161, 166, 160, 64, 77, 234, 54, 220, 201, 73, 155, 203, 37, 201, 173,
    193, 18, 183, 204, 154, 147, 202, 228, 31, 50, 98]

structure AuditLog where
  entries : List AuditEntry

namespace AuditLog

def new : AuditLog := ⟨[]⟩

/-- The digest that the next entry stores. -/
def lastHash (crypto : Crypto) (log : AuditLog) : Vector UInt8 32 :=
  (log.entries.getLast?.map AuditEntry.entryHash).getD (crypto.blake3 [])

/-- The entry that an append makes. -/
def nextEntry (crypto : Crypto) (timestamp userId : UInt64) (op : AuditOp) (resource : String)
    (rowsAffected : UInt64) (detail : String) (log : AuditLog) : AuditEntry :=
  let entry : AuditEntry :=
    { sequence := UInt64.ofNat log.entries.length + 1
      timestamp, userId, op, resource, rowsAffected, detail
      prevHash := log.lastHash crypto
      entryHash := .replicate 32 0 }
  { entry with entryHash := entry.computeHash crypto }

/-- The sequence number of the new entry.  A `Vec` has less than 2^63 elements: a push beyond its
capacity panics. -/
def append (crypto : Crypto) (timestamp userId : UInt64) (op : AuditOp) (resource : String)
    (rowsAffected : UInt64) (detail : String) (log : AuditLog) : Option (UInt64 × AuditLog) :=
  let entry := log.nextEntry crypto timestamp userId op resource rowsAffected detail
  if log.entries.length + 1 < 2 ^ 63 then some (entry.sequence, ⟨log.entries ++ [entry]⟩) else none

def verifyFrom (crypto : Crypto) : Vector UInt8 32 → List AuditEntry → Except UInt64 Unit
  | _, [] => .ok ()
  | prevHash, entry :: entries =>
    if entry.prevHash ≠ prevHash then .error entry.sequence
    else if entry.entryHash ≠ entry.computeHash crypto then .error entry.sequence
    else verifyFrom crypto entry.entryHash entries

/-- The error is the sequence number of the first bad entry. -/
def verifyChain (crypto : Crypto) (log : AuditLog) : Except UInt64 Unit :=
  verifyFrom crypto (crypto.blake3 []) log.entries

/-- How many entries went, and the log. -/
def pruneOlderThan (ts : UInt64) (log : AuditLog) : ℕ × AuditLog :=
  let kept := log.entries.filter fun e => ts ≤ e.timestamp
  (log.entries.length - kept.length, ⟨kept⟩)

/-! ### The chain -/

/-- The entries are a hash chain. -/
def Chained (crypto : Crypto) : Vector UInt8 32 → List AuditEntry → Prop :=
  HashChain.Valid AuditEntry.prevHash AuditEntry.entryHash (AuditEntry.computeHash crypto)

theorem verifyFrom_eq_ok {crypto : Crypto} {prevHash : Vector UInt8 32} {entries : List AuditEntry} :
    verifyFrom crypto prevHash entries = .ok () ↔ Chained crypto prevHash entries := by
  induction entries generalizing prevHash with
  | nil => exact ⟨fun _ => trivial, fun _ => rfl⟩
  | cons e es ih =>
    rw [verifyFrom, Chained, HashChain.Valid]
    by_cases hprev : e.prevHash = prevHash
    · by_cases hhash : e.entryHash = e.computeHash crypto
      · rw [if_neg (not_not.mpr hprev), if_neg (not_not.mpr hhash), ih]
        exact ⟨fun h => ⟨hprev, hhash, h⟩, fun h => h.2.2⟩
      · simp [hhash]
    · simp [hprev]

theorem verifyChain_eq_ok {crypto : Crypto} {log : AuditLog} :
    log.verifyChain crypto = .ok () ↔ Chained crypto (crypto.blake3 []) log.entries :=
  verifyFrom_eq_ok

end AuditLog

/-! ### What the digest is taken of -/

namespace AuditEntry

instance instFintypeAuditOp : Fintype AuditOp where
  elems := {.insert, .update, .delete, .create, .drop, .login, .logout, .failedLogin, .grant, .revoke, .other}
  complete op := by cases op <;> decide

/-- No name of an operation is the start of another. -/
theorem op_of_opBytes : ∀ a b : AuditOp, asBytes a.asStr <+: asBytes b.asStr → a = b := by
  decide

theorem op_inj {a b : AuditOp} {x y : List UInt8}
    (h : asBytes a.asStr ++ x = asBytes b.asStr ++ y) : a = b ∧ x = y := by
  have hab : a = b := by
    have ha : asBytes a.asStr <+: asBytes b.asStr ++ y := ⟨x, h⟩
    cases List.prefix_or_prefix_of_prefix ha (List.prefix_append _ _) with
    | inl hpre => exact op_of_opBytes a b hpre
    | inr hpre => exact (op_of_opBytes b a hpre).symm
  subst hab
  exact ⟨rfl, List.append_cancel_left h⟩

/-- The bytes fix every field apart from where the body is cut. -/
theorem hashed_inj {a b : AuditEntry} :
    a.hashed = b.hashed ↔ a.sequence = b.sequence ∧ a.timestamp = b.timestamp ∧ a.userId = b.userId ∧
      a.op = b.op ∧ a.body = b.body ∧ a.prevHash = b.prevHash := by
  constructor
  · intro h
    obtain ⟨hseq, h⟩ := List.append_inj h (by rw [toLE_length, toLE_length])
    obtain ⟨hts, h⟩ := List.append_inj h (by rw [toLE_length, toLE_length])
    obtain ⟨huser, h⟩ := List.append_inj h (by rw [toLE_length, toLE_length])
    obtain ⟨hop, h⟩ := op_inj h
    obtain ⟨hbody, hprev⟩ := List.append_inj' h (by rw [Vector.length_toList, Vector.length_toList])
    exact ⟨toLE_inj_64.mp hseq, toLE_inj_64.mp hts, toLE_inj_64.mp huser, hop, hbody,
      Vector.toList_inj.mp hprev⟩
  · rintro ⟨hseq, hts, huser, hop, hbody, hprev⟩
    rw [hashed, hashed, hseq, hts, huser, hop, hbody, hprev]

end AuditEntry
end CenDB.Security
