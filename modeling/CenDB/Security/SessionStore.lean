import CenDB.Lib.Table

/-! # Sessions and the in-memory session store

A session store keeps sessions by token.  The in-memory one is a map; its lock is never poisoned,
since no operation can panic under it, so its operations do not fail. -/

namespace CenDB.Security

abbrev UserId := UInt64

/-- A session token, hex text for transport. -/
abbrev TokenString := String

/-- A session after successful authentication. -/
structure Session where
  token : TokenString
  userId : UserId
  expiresAt : UInt64
  deriving DecidableEq, Repr

structure InMemorySessionStore where
  sessions : Table TokenString Session
  deriving DecidableEq

namespace InMemorySessionStore

def new : InMemorySessionStore := ⟨∅⟩

def save (session : Session) (st : InMemorySessionStore) : InMemorySessionStore :=
  ⟨st.sessions.insert session.token session⟩

def load (token : TokenString) (st : InMemorySessionStore) : Option Session := st.sessions.lookup token

def delete (token : TokenString) (st : InMemorySessionStore) : InMemorySessionStore := ⟨st.sessions.erase token⟩

/-- Drops the sessions that expired before a time and counts them. -/
def deleteExpired (beforeTs : UInt64) (st : InMemorySessionStore) : ℕ × InMemorySessionStore :=
  let kept := Table.retain (fun _ s => beforeTs ≤ s.expiresAt) st.sessions
  (Table.size st.sessions - Table.size kept, ⟨kept⟩)

variable {st : InMemorySessionStore}

@[simp] theorem load_new (token : TokenString) : new.load token = none := rfl

theorem load_save (session : Session) (token : TokenString) :
    (st.save session).load token = if token = session.token then some session else st.load token :=
  Table.lookup_insert_if ..

theorem load_delete (t token : TokenString) :
    (st.delete t).load token = if token = t then none else st.load token :=
  Table.lookup_erase_if ..

end InMemorySessionStore
end CenDB.Security
