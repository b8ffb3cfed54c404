import CenDB.Security.Hex
import CenDB.Security.SessionStore
import Mathlib.Data.List.SplitOn

/-! # The authentication manager

Users, API keys and sessions sit in separate maps, and a session is kept in the session store as
well when there is one.  A method that reads the clock or draws random bytes takes what it reads
and draws as arguments, one for each reading, so any passage of time between and within calls is
covered.  `none` is a panic, which ends the process.

Argon2id and BLAKE3 are outside: `Crypto` stands for them.  Clock sums and counters wrap, as they do
in a release build. -/

namespace CenDB.Security

structure Crypto where
  /-- The Argon2id digest of a password under a salt, unless the library refuses. -/
  argon2 : List UInt8 → List UInt8 → Option (Vector UInt8 32)
  blake3 : List UInt8 → Vector UInt8 32

structure User where
  id : UserId
  username : String
  /-- Digest and salt. -/
  passwordHash : String
  roles : List String
  active : Bool
  deriving DecidableEq, Repr

structure ApiKey where
  id : UInt64
  userId : UserId
  keyHash : Vector UInt8 32
  label : String
  createdAt : UInt64
  expiresAt : Option UInt64
  deriving DecidableEq

inductive AuthError
  | userNotFound
  | userInactive
  | invalidPassword
  | invalidApiKey
  | invalidSession
  | sessionExpired
  | usernameTaken
  | apiKeyExpired
  | databaseLocked (remainingSecs : UInt64)
  deriving DecidableEq, Repr

namespace Crypto

def hashPassword (crypto : Crypto) (password : String) (salt : Vector UInt8 16) : Except AuthError String :=
  match crypto.argon2 password.toUTF8.toList salt.toList with
  | none => .error .invalidPassword
  | some hash => .ok (bytesToHex salt.toList ++ ":" ++ bytesToHex hash.toList)

def verifyPassword (crypto : Crypto) (password stored : String) : Option Bool :=
  match (stored.toList.splitOn ':').map String.ofList with
  | [saltHex, hashHex] => do
    let some salt ← hexToBytes saltHex | some false
    let some expected ← hexToBytes hashHex | some false
    if salt.length = 16 ∧ expected.length = 32 then
      match crypto.argon2 password.toUTF8.toList salt with
      | none => some false
      | some actual => some (actual.toList = expected)
    else some false
  | _ => some false

end Crypto

/-! ### The manager -/

def defaultLockoutDurationSecs : UInt64 := 900

def defaultMaxFailedAttempts : UInt32 := 5

structure AuthManager where
  users : Table UserId User
  usernames : Table String UserId
  apiKeys : Table (Vector UInt8 32) ApiKey
  /-- The session cache, looked at before the store. -/
  sessions : Table TokenString Session
  sessionStore : Option InMemorySessionStore
  nextUserId : UserId
  nextKeyId : UInt64
  failedAttempts : Table String UInt32
  maxFailedAttempts : UInt32
  /-- When the current lockout of a username ends. -/
  lockedUntil : Table String UInt64
  lockoutDuration : UInt64

namespace AuthManager

def new : AuthManager where
  users := ∅
  usernames := ∅
  apiKeys := ∅
  sessions := ∅
  sessionStore := none
  nextUserId := 1
  nextKeyId := 1
  failedAttempts := ∅
  maxFailedAttempts := defaultMaxFailedAttempts
  lockedUntil := ∅
  lockoutDuration := defaultLockoutDurationSecs

def withSessionStore (store : InMemorySessionStore) : AuthManager :=
  { new with sessionStore := some store }

def setLockoutDuration (seconds : UInt64) (m : AuthManager) : AuthManager :=
  { m with lockoutDuration := seconds }

def setMaxFailedAttempts (n : UInt32) (m : AuthManager) : AuthManager :=
  { m with maxFailedAttempts := n }

def createUser (crypto : Crypto) (username password : String) (salt : Vector UInt8 16)
    (m : AuthManager) : Except AuthError UserId × AuthManager :=
  match m.usernames.lookup username with
  | some _ => (.error .usernameTaken, m)
  | none =>
    let id := m.nextUserId
    -- the id is taken before the password is hashed
    let m := { m with nextUserId := id + 1 }
    match crypto.hashPassword password salt with
    | .error e => (.error e, m)
    | .ok passwordHash =>
      (.ok id, { m with
        users := m.users.insert id ⟨id, username, passwordHash, [], true⟩
        usernames := m.usernames.insert username id })

def buildSession (userId : UserId) (now : UInt64) (bytes : Vector UInt8 32) : Session :=
  ⟨bytesToHex bytes.toList, userId, now + 3600⟩

def cacheAndPersistSession (session : Session) (m : AuthManager) : AuthManager :=
  { m with
    sessionStore := m.sessionStore.map (·.save session)
    sessions := m.sessions.insert session.token session }

/-- The lockout check of a login; a lockout that has ended is cleared. -/
def checkLockout (username : String) (now : UInt64) (m : AuthManager) : Except AuthError AuthManager :=
  match m.lockedUntil.lookup username with
  | none => .ok m
  | some unlockTs =>
    if now < unlockTs then .error (.databaseLocked (unlockTs - now))
    else .ok { m with
      lockedUntil := m.lockedUntil.erase username
      failedAttempts := m.failedAttempts.erase username }

/-- Counts a wrong password, and locks the account when there were too many. -/
def recordFailure (username : String) (now : UInt64) (m : AuthManager) : AuthManager :=
  let attempts := (m.failedAttempts.lookup username).getD 0 + 1
  { m with
    failedAttempts := m.failedAttempts.insert username attempts
    lockedUntil :=
      if m.maxFailedAttempts ≤ attempts then
        m.lockedUntil.insert username (now + m.lockoutDuration)
      else m.lockedUntil }

/-- A login reads the clock when it starts, when it locks the account and when it opens the
session. -/
def login (crypto : Crypto) (username password : String) (now lockedAt openedAt : UInt64)
    (bytes : Vector UInt8 32) (m : AuthManager) : Option (Except AuthError Session × AuthManager) :=
  match m.checkLockout username now with
  | .error e => some (.error e, m)
  | .ok m =>
    match m.usernames.lookup username with
    | none => some (.error .userNotFound, m)
    | some userId => do
      let user ← m.users.lookup userId
      if user.active then
        if ← crypto.verifyPassword password user.passwordHash then
          let session := buildSession userId openedAt bytes
          let m := { m with
            failedAttempts := m.failedAttempts.erase username
            lockedUntil := m.lockedUntil.erase username }
          some (.ok session, m.cacheAndPersistSession session)
        else some (.error .invalidPassword, m.recordFailure username lockedAt)
      else some (.error .userInactive, m)

/-- The stored hash of a key given as hex text. -/
def apiKeyHash (crypto : Crypto) (apiKeyHex : String) : Option (Option (Vector UInt8 32)) :=
  (hexToBytes apiKeyHex).map fun raw =>
    (raw.filter fun bytes => bytes.length = 32).map crypto.blake3

def loginApiKey (crypto : Crypto) (apiKeyHex : String) (now openedAt : UInt64)
    (bytes : Vector UInt8 32) (m : AuthManager) : Option (Except AuthError Session × AuthManager) := do
  let some keyHash ← apiKeyHash crypto apiKeyHex | some (.error .invalidApiKey, m)
  match m.apiKeys.lookup keyHash with
  | none => some (.error .invalidApiKey, m)
  | some apiKey =>
    if apiKey.expiresAt.any (· < now) then some (.error .apiKeyExpired, m)
    else
      match m.users.lookup apiKey.userId with
      | none => some (.error .userNotFound, m)
      | some user =>
        if user.active then
          let session := buildSession apiKey.userId openedAt bytes
          some (.ok session, m.cacheAndPersistSession session)
        else some (.error .userInactive, m)

def validateSession (token : TokenString) (now : UInt64) (m : AuthManager) :
    Except AuthError UserId × AuthManager :=
  match m.sessions.lookup token with
  | some session =>
    if session.expiresAt < now then
      (.error .sessionExpired, { m with
        sessions := m.sessions.erase token
        sessionStore := m.sessionStore.map (·.delete token) })
    else (.ok session.userId, m)
  | none =>
    match m.sessionStore.bind (·.load token) with
    | some session =>
      if session.expiresAt < now then
        (.error .sessionExpired, { m with sessionStore := m.sessionStore.map (·.delete token) })
      else (.ok session.userId, { m with sessions := m.sessions.insert session.token session })
    | none => (.error .invalidSession, m)

def logout (token : TokenString) (m : AuthManager) : AuthManager :=
  { m with
    sessions := m.sessions.erase token
    sessionStore := m.sessionStore.map (·.delete token) }

def createApiKey (crypto : Crypto) (userId : UserId) (label : String) (expiresAt : Option UInt64)
    (now : UInt64) (raw : Vector UInt8 32) (m : AuthManager) :
    Except AuthError String × AuthManager :=
  match m.users.lookup userId with
  | none => (.error .userNotFound, m)
  | some _ =>
    let keyHash := crypto.blake3 raw.toList
    (.ok (bytesToHex raw.toList), { m with
      nextKeyId := m.nextKeyId + 1
      apiKeys := m.apiKeys.insert keyHash ⟨m.nextKeyId, userId, keyHash, label, now, expiresAt⟩ })

def revokeApiKey (crypto : Crypto) (apiKeyHex : String) (m : AuthManager) :
    Option (Except AuthError Unit × AuthManager) := do
  let some keyHash ← apiKeyHash crypto apiKeyHex | some (.error .invalidApiKey, m)
  some (.ok (), { m with apiKeys := m.apiKeys.erase keyHash })

def assignRole (userId : UserId) (role : String) (m : AuthManager) : Except AuthError Unit × AuthManager :=
  match m.users.lookup userId with
  | none => (.error .userNotFound, m)
  | some user =>
    let roles := if role ∈ user.roles then user.roles else user.roles ++ [role]
    (.ok (), { m with users := m.users.insert userId { user with roles := roles } })

/-- Deactivates a user, which prevents a login. -/
def deactivateUser (userId : UserId) (m : AuthManager) : Except AuthError Unit × AuthManager :=
  match m.users.lookup userId with
  | none => (.error .userNotFound, m)
  | some user => (.ok (), { m with users := m.users.insert userId { user with active := false } })

end AuthManager
end CenDB.Security
