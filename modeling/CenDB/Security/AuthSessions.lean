import CenDB.Lib.Transition
import CenDB.Security.Auth

/-! # What a validated session means

A run of the manager records every call with its reply, newest first.  The record determines which
session a token has (`openSession`) and what became of an account (`lastStatus`), and the maps of
the manager agree with it (`Recorded`).  A validation then accepts exactly the open, unexpired
sessions (`Recorded.validateSession_ok`), whatever became of their accounts, so that it is safe if
and only if no such session belongs to a deactivated account (`validations_safe_iff`). -/

namespace CenDB.Security

open Transition Option Table

/-- A call of the manager, with what it reads from the clock and what it draws. -/
inductive Call
  | createUser (username password : String) (salt : Vector UInt8 16)
  | login (username password : String) (now lockedAt openedAt : UInt64) (bytes : Vector UInt8 32)
  | loginApiKey (apiKeyHex : String) (now openedAt : UInt64) (bytes : Vector UInt8 32)
  | validateSession (token : TokenString) (now : UInt64)
  | logout (token : TokenString)
  | createApiKey (userId : UserId) (label : String) (expiresAt : Option UInt64) (now : UInt64)
    (raw : Vector UInt8 32)
  | revokeApiKey (apiKeyHex : String)
  | assignRole (userId : UserId) (role : String)
  | deactivateUser (userId : UserId)
  | setLockoutDuration (seconds : UInt64)
  | setMaxFailedAttempts (n : UInt32)
  deriving DecidableEq

inductive Reply
  | created (r : Except AuthError UserId)
  /-- Of the two logins, and of nothing else. -/
  | opened (r : Except AuthError Session)
  | validated (r : Except AuthError UserId)
  | key (r : Except AuthError String)
  | done (r : Except AuthError Unit)

namespace AuthManager

def call (crypto : Crypto) (m : AuthManager) : Call → Option (Reply × AuthManager)
  | .createUser username password salt =>
    some ((m.createUser crypto username password salt).map .created id)
  | .login username password now lockedAt openedAt bytes =>
    (m.login crypto username password now lockedAt openedAt bytes).map (·.map .opened id)
  | .loginApiKey apiKeyHex now openedAt bytes =>
    (m.loginApiKey crypto apiKeyHex now openedAt bytes).map (·.map .opened id)
  | .validateSession token now => some ((m.validateSession token now).map .validated id)
  | .logout token => some (.done (.ok ()), m.logout token)
  | .createApiKey userId label expiresAt now raw =>
    some ((m.createApiKey crypto userId label expiresAt now raw).map .key id)
  | .revokeApiKey apiKeyHex => (m.revokeApiKey crypto apiKeyHex).map (·.map .done id)
  | .assignRole userId role => some ((m.assignRole userId role).map .done id)
  | .deactivateUser userId => some ((m.deactivateUser userId).map .done id)
  | .setLockoutDuration seconds => some (.done (.ok ()), m.setLockoutDuration seconds)
  | .setMaxFailedAttempts n => some (.done (.ok ()), m.setMaxFailedAttempts n)

/-- The activity flag of an account, if there is one. -/
def isActive (m : AuthManager) (u : UserId) : Option Bool := (m.users.lookup u).map User.active

end AuthManager

/-! ### The record of a run -/

structure Event where
  call : Call
  reply : Reply

namespace Event

/-- The session a login opened. -/
def issued (e : Event) : Option Session :=
  match e.reply with
  | .opened (.ok session) => some session
  | _ => none

/-- Does the event end the session of a token, by a logout or by finding it expired? -/
def closes (token : TokenString) (e : Event) : Bool :=
  match e.call, e.reply with
  | .logout t, _ => t = token
  | .validateSession t _, .validated (.error .sessionExpired) => t = token
  | _, _ => false

/-- What the event makes of an account: registered, deactivated or neither. -/
def status (u : UserId) (e : Event) : Option Bool :=
  match e.call, e.reply with
  | .createUser .., .created (.ok id) => if id = u then some true else none
  | .deactivateUser id, .done (.ok _) => if id = u then some false else none
  | _, _ => none

/-- The session of a token after the event, given the one before. -/
def sessionAfter (token : TokenString) (e : Event) (before : Option Session) : Option Session :=
  (e.issued.filter fun s => s.token = token).or (if e.closes token then none else before)

end Event

/-- The session that a token has after the events: the last one issued under it, unless it has been
closed since. -/
def openSession (token : TokenString) : List Event → Option Session
  | [] => none
  | e :: older => e.sessionAfter token (openSession token older)

/-- The last registration or deactivation of an account. -/
def lastStatus (u : UserId) : List Event → Option Bool
  | [] => none
  | e :: older => (e.status u).or (lastStatus u older)

/-- A manager in the middle of a run, with the record of the run, newest event first. -/
structure AuthRun where
  manager : AuthManager
  events : List Event

namespace AuthRun

def start (withStore : Bool) : AuthRun where
  manager := if withStore then .withSessionStore .new else .new
  events := []

def step (crypto : Crypto) (w : AuthRun) (c : Call) : Option AuthRun :=
  (w.manager.call crypto c).map fun out => ⟨out.2, ⟨c, out.1⟩ :: w.events⟩

end AuthRun

/-! ### What one call does -/

namespace AuthManager

variable {crypto : Crypto} {m m' : AuthManager} {c : Call} {r : Reply}

/-- The session store, if there is one, holds what the cache holds. -/
def Synced (m : AuthManager) : Prop :=
  ∀ store ∈ m.sessionStore, ∀ token, store.load token = m.sessions.lookup token

/-- Neither the cache nor the store has changed. -/
def SameSessions (m m' : AuthManager) : Prop := m'.sessions = m.sessions ∧ m'.sessionStore = m.sessionStore

theorem SameSessions.refl (m : AuthManager) : m.SameSessions m := ⟨rfl, rfl⟩

/-- What a login does: nothing to the accounts, and nothing to the sessions unless it succeeds. -/
structure Opens (m : AuthManager) (out : Except AuthError Session) (m' : AuthManager) : Prop where
  users : m'.users = m.users
  refused : ∀ e, out = .error e → m.SameSessions m'
  opened : ∀ session, out = .ok session → m.isActive session.userId = some true ∧
    m'.sessions = m.sessions.insert session.token session ∧
    m'.sessionStore = m.sessionStore.map (·.save session)

theorem Opens.error {e : AuthError} (husers : m'.users = m.users) (hsame : m.SameSessions m') :
    m.Opens (.error e) m' where
  users := husers
  refused _ _ := hsame
  opened _ h := nomatch h

variable {session : Session} {username password apiKeyHex : String} {now openedAt : UInt64} {user : User}
  {bytes : Vector UInt8 32} {userId : UserId} {out : Except AuthError Unit} {e : Event}

theorem Opens.ok (hactive : m.isActive session.userId = some true) (husers : m'.users = m.users)
    (hsame : m.SameSessions m') :
    m.Opens (.ok session) (m'.cacheAndPersistSession session) where
  users := husers
  refused _ h := nomatch h
  opened s h := by
    cases h
    refine ⟨hactive, ?_, ?_⟩
    · exact congrArg (AList.insert session.token session) hsame.1
    · exact congrArg (Option.map fun store => store.save session) hsame.2

theorem checkLockout_ok (h : m.checkLockout username now = .ok m') :
    m'.users = m.users ∧ m.SameSessions m' := by
  unfold checkLockout at h
  split at h
  · cases h
    exact ⟨rfl, .refl m⟩
  · split at h
    · cases h
    · cases h
      exact ⟨rfl, rfl, rfl⟩

theorem isActive_eq {u : UserId} (h : m.users.lookup u = some user) :
    m.isActive u = some user.active := by rw [isActive, h]; rfl

theorem login_spec {lockedAt : UInt64} {out : Except AuthError Session}
    (h : m.login crypto username password now lockedAt openedAt bytes = some (out, m')) :
    m.Opens out m' := by
  unfold login at h
  split at h
  case h_1 =>
    cases h
    exact .error rfl (.refl m)
  case h_2 m₁ hlock =>
    obtain ⟨husers, hsame⟩ := checkLockout_ok hlock
    split at h
    case h_1 =>
      cases h
      exact .error husers hsame
    case h_2 userId _ =>
      obtain ⟨user, huser, h⟩ := bind_eq_some_iff.mp h
      split at h
      case isFalse =>
        cases h
        exact .error husers hsame
      case isTrue hactive =>
        obtain ⟨correct, -, h⟩ := bind_eq_some_iff.mp h
        split at h
        · cases h
          have hactive' := (isActive_eq (husers ▸ huser)).trans (congrArg some hactive)
          exact .ok hactive' husers hsame
        · cases h
          exact .error husers hsame

theorem loginApiKey_spec {out : Except AuthError Session}
    (h : m.loginApiKey crypto apiKeyHex now openedAt bytes = some (out, m')) : m.Opens out m' := by
  unfold loginApiKey at h
  obtain ⟨keyHash, -, h⟩ := bind_eq_some_iff.mp h
  split at h
  case h_2 =>
    cases h
    exact .error rfl (.refl m)
  case h_1 =>
    split at h
    case h_1 =>
      cases h
      exact .error rfl (.refl m)
    case h_2 apiKey _ =>
      split at h
      case isTrue =>
        cases h
        exact .error rfl (.refl m)
      case isFalse =>
        split at h
        case h_1 =>
          cases h
          exact .error rfl (.refl m)
        case h_2 user huser =>
          split at h
          case isTrue hactive =>
            cases h
            exact .ok ((isActive_eq huser).trans (congrArg some hactive)) rfl (.refl m)
          case isFalse =>
            cases h
            exact .error rfl (.refl m)

theorem isActive_congr (h : m'.users = m.users) (u : UserId) : m'.isActive u = m.isActive u := by
  rw [isActive, h]
  rfl

theorem isActive_insert {id : UserId} (u : UserId) (h : m'.users = m.users.insert id user) :
    m'.isActive u = if id = u then some user.active else m.isActive u := by
  rw [isActive, h, lookup_insert_if]
  split_ifs with h₁ h₂ h₂
  · rfl
  · exact absurd h₁.symm h₂
  · exact absurd h₂.symm h₁
  · rfl

/-- A validation of a synchronised manager changes nothing but the session it finds expired. -/
theorem validateSession_spec {token : TokenString} (hsync : m.Synced) :
    m.validateSession token now = match m.sessions.lookup token with
      | none => (.error .invalidSession, m)
      | some session =>
        if session.expiresAt < now then (.error .sessionExpired, m.logout token)
        else (.ok session.userId, m) := by
  unfold validateSession
  cases hcache : m.sessions.lookup token with
  | some session => rfl
  | none =>
    have hstore : m.sessionStore.bind (·.load token) = none := by
      cases hs : m.sessionStore with
      | none => rfl
      | some store => exact (hsync store hs token).trans hcache
    dsimp only
    rw [hstore]

theorem validateSession_users (token : TokenString) (now : UInt64) :
    (m.validateSession token now).2.users = m.users := by
  unfold validateSession
  split
  · split <;> rfl
  · split
    · split <;> rfl
    · rfl

theorem createUser_spec {salt : Vector UInt8 16} {out : Except AuthError UserId}
    (h : m.createUser crypto username password salt = (out, m')) :
    m.SameSessions m' ∧ ((∃ e, out = .error e ∧ m'.users = m.users) ∨
      ∃ id user, out = .ok id ∧ user.active = true ∧ m'.users = m.users.insert id user) := by
  unfold createUser at h
  split at h
  · cases h
    exact ⟨.refl m, .inl ⟨_, rfl, rfl⟩⟩
  · dsimp only at h
    split at h
    · cases h
      exact ⟨⟨rfl, rfl⟩, .inl ⟨_, rfl, rfl⟩⟩
    · cases h
      exact ⟨⟨rfl, rfl⟩, .inr ⟨_, _, rfl, rfl, rfl⟩⟩

theorem createApiKey_spec {label : String} {expiresAt : Option UInt64} {raw : Vector UInt8 32}
    {out : Except AuthError String} (h : m.createApiKey crypto userId label expiresAt now raw = (out, m')) :
    m.SameSessions m' ∧ m'.users = m.users := by
  unfold createApiKey at h
  split at h
  · cases h
    exact ⟨.refl m, rfl⟩
  · cases h
    exact ⟨⟨rfl, rfl⟩, rfl⟩

theorem revokeApiKey_spec (h : m.revokeApiKey crypto apiKeyHex = some (out, m')) :
    m.SameSessions m' ∧ m'.users = m.users := by
  unfold revokeApiKey at h
  obtain ⟨keyHash, -, h⟩ := bind_eq_some_iff.mp h
  split at h
  · cases h
    exact ⟨⟨rfl, rfl⟩, rfl⟩
  · cases h
    exact ⟨.refl m, rfl⟩

theorem assignRole_spec {role : String} (h : m.assignRole userId role = (out, m')) :
    m.SameSessions m' ∧ ∀ u, m'.isActive u = m.isActive u := by
  unfold assignRole at h
  split at h
  · cases h
    exact ⟨.refl m, fun _ => rfl⟩
  · rename_i user huser
    cases h
    refine ⟨⟨rfl, rfl⟩, fun u => ?_⟩
    rw [isActive_insert u rfl]
    by_cases hu : userId = u
    · have hflag := isActive_eq (hu ▸ huser : m.users.lookup u = some user)
      rw [if_pos hu, hflag]
    · exact if_neg hu

theorem deactivateUser_spec (h : m.deactivateUser userId = (out, m')) :
    m.SameSessions m' ∧ ((∃ e, out = .error e ∧ m'.users = m.users) ∨
      ∃ user, out = .ok () ∧ user.active = false ∧ m'.users = m.users.insert userId user) := by
  unfold deactivateUser at h
  split at h
  · cases h
    exact ⟨.refl m, .inl ⟨_, rfl, rfl⟩⟩
  · cases h
    exact ⟨⟨rfl, rfl⟩, .inr ⟨_, rfl, rfl, rfl⟩⟩

/-! ### One call and the record -/

/-- The activity flag of an account after a call. -/
theorem call_isActive (h : m.call crypto c = some (r, m')) (u : UserId) :
    m'.isActive u = ((⟨c, r⟩ : Event).status u).or (m.isActive u) := by
  cases c with
  | createUser username password salt =>
    cases hout : m.createUser crypto username password salt with
    | mk out m₁ =>
      rw [call, hout] at h
      cases h
      obtain ⟨-, ⟨e, rfl, husers⟩ | ⟨id, user, rfl, hactive, husers⟩⟩ := createUser_spec hout
      · exact isActive_congr husers u
      · refine (isActive_insert u husers).trans ?_
        rw [hactive]
        dsimp only [Event.status]
        split_ifs <;> rfl
  | login username password now lockedAt openedAt bytes =>
    obtain ⟨out, hout, heq⟩ := map_eq_some_iff.mp h
    cases heq
    exact isActive_congr (login_spec hout).users u
  | loginApiKey apiKeyHex now openedAt bytes =>
    obtain ⟨out, hout, heq⟩ := map_eq_some_iff.mp h
    cases heq
    exact isActive_congr (loginApiKey_spec hout).users u
  | validateSession token now =>
    cases h
    exact isActive_congr (validateSession_users token now) u
  | createApiKey userId label expiresAt now raw =>
    cases h
    exact isActive_congr (createApiKey_spec rfl).2 u
  | revokeApiKey apiKeyHex =>
    obtain ⟨out, hout, heq⟩ := map_eq_some_iff.mp h
    cases heq
    exact isActive_congr (revokeApiKey_spec hout).2 u
  | assignRole userId role =>
    cases h
    exact (assignRole_spec rfl).2 u
  | deactivateUser userId =>
    cases hout : m.deactivateUser userId with
    | mk out m₁ =>
      rw [call, hout] at h
      cases h
      obtain ⟨-, ⟨e, rfl, husers⟩ | ⟨user, rfl, hactive, husers⟩⟩ := deactivateUser_spec hout
      · exact isActive_congr husers u
      · refine (isActive_insert u husers).trans ?_
        rw [hactive]
        dsimp only [Event.status]
        split_ifs <;> rfl
  | logout token | setLockoutDuration seconds | setMaxFailedAttempts n => cases h; rfl

/-- The sessions after a call that opens and closes none. -/
theorem SameSessions.after (hsame : m.SameSessions m') (hsync : m.Synced) (hissued : e.issued = none)
    (hcloses : ∀ token, e.closes token = false) :
    m'.Synced ∧ ∀ token, m'.sessions.lookup token = e.sessionAfter token (m.sessions.lookup token) := by
  constructor
  · intro store hstore token
    rw [hsame.1]
    exact hsync store (hsame.2 ▸ hstore) token
  · intro token
    rw [hsame.1, Event.sessionAfter, hissued, hcloses]
    rfl

theorem logout_after {t : TokenString} (hsync : m.Synced) (hissued : e.issued = none)
    (hcloses : ∀ token, e.closes token = decide (t = token)) :
    (m.logout t).Synced ∧
      ∀ token, (m.logout t).sessions.lookup token = e.sessionAfter token (m.sessions.lookup token) := by
  constructor
  · intro store hstore token
    obtain ⟨store', hstore', rfl⟩ := map_eq_some_iff.mp hstore
    rw [InMemorySessionStore.load_delete, hsync store' hstore' token]
    exact (lookup_erase_if _ t token).symm
  · intro token
    refine (lookup_erase_if _ t token).trans ?_
    rw [Event.sessionAfter, hissued, hcloses]
    by_cases ht : token = t
    · simp [ht]
    · simp [ht, Ne.symm ht]

theorem Opens.after {out : Except AuthError Session} (h : m.Opens out m') (hsync : m.Synced)
    (hcloses : ∀ token, (⟨c, .opened out⟩ : Event).closes token = false) :
    m'.Synced ∧ ∀ token, m'.sessions.lookup token =
      (⟨c, .opened out⟩ : Event).sessionAfter token (m.sessions.lookup token) := by
  cases out with
  | error e => exact (h.refused e rfl).after hsync rfl hcloses
  | ok session =>
    obtain ⟨-, hsessions, hstored⟩ := h.opened session rfl
    constructor
    · intro store hstore token
      rw [hstored] at hstore
      obtain ⟨store', hstore', rfl⟩ := map_eq_some_iff.mp hstore
      rw [InMemorySessionStore.load_save, hsync store' hstore' token, hsessions]
      exact (lookup_insert_if _ session.token token session).symm
    · intro token
      rw [hsessions, lookup_insert_if, Event.sessionAfter, hcloses]
      dsimp only [Event.issued]
      by_cases ht : token = session.token
      · simp [ht, Option.filter]
      · simp [ht, Ne.symm ht, Option.filter]

/-- The sessions after a call. -/
theorem call_sessions (h : m.call crypto c = some (r, m')) (hsync : m.Synced) :
    m'.Synced ∧ ∀ token, m'.sessions.lookup token =
      (⟨c, r⟩ : Event).sessionAfter token (m.sessions.lookup token) := by
  cases c with
  | login username password now lockedAt openedAt bytes =>
    obtain ⟨out, hout, heq⟩ := map_eq_some_iff.mp h
    cases heq
    exact (login_spec hout).after hsync fun _ => rfl
  | loginApiKey apiKeyHex now openedAt bytes =>
    obtain ⟨out, hout, heq⟩ := map_eq_some_iff.mp h
    cases heq
    exact (loginApiKey_spec hout).after hsync fun _ => rfl
  | validateSession token now =>
    rw [call, validateSession_spec hsync] at h
    split at h
    · cases h
      exact (SameSessions.refl m).after hsync rfl fun _ => rfl
    · split at h
      · cases h
        exact logout_after hsync rfl fun _ => rfl
      · cases h
        exact (SameSessions.refl m).after hsync rfl fun _ => rfl
  | logout token =>
    cases h
    exact logout_after hsync rfl fun _ => rfl
  | createUser username password salt =>
    cases h
    exact (createUser_spec rfl).1.after hsync rfl fun _ => rfl
  | createApiKey userId label expiresAt now raw =>
    cases h
    exact (createApiKey_spec rfl).1.after hsync rfl fun _ => rfl
  | revokeApiKey apiKeyHex =>
    obtain ⟨out, hout, heq⟩ := map_eq_some_iff.mp h
    cases heq
    exact (revokeApiKey_spec hout).1.after hsync rfl fun _ => rfl
  | assignRole userId role =>
    cases h
    exact (assignRole_spec rfl).1.after hsync rfl fun _ => rfl
  | deactivateUser userId =>
    cases h
    exact (deactivateUser_spec rfl).1.after hsync rfl fun _ => rfl
  | setLockoutDuration seconds | setMaxFailedAttempts n =>
    cases h
    exact SameSessions.after ⟨rfl, rfl⟩ hsync rfl fun _ => rfl

/-- A session is issued to an active account. -/
theorem call_issued (h : m.call crypto c = some (r, m')) (hissued : (⟨c, r⟩ : Event).issued = some session) :
    m.isActive session.userId = some true := by
  have hopened : ∀ out, m.Opens out m' → r = .opened out → m.isActive session.userId = some true := by
    rintro out hout rfl
    cases out with
    | error e => cases hissued
    | ok s =>
      cases hissued
      exact (hout.opened session rfl).1
  cases c with
  | login username password now lockedAt openedAt bytes =>
    obtain ⟨out, hout, heq⟩ := map_eq_some_iff.mp h
    cases heq
    exact hopened out.1 (login_spec hout) rfl
  | loginApiKey apiKeyHex now openedAt bytes =>
    obtain ⟨out, hout, heq⟩ := map_eq_some_iff.mp h
    cases heq
    exact hopened out.1 (loginApiKey_spec hout) rfl
  | revokeApiKey apiKeyHex =>
    obtain ⟨out, -, heq⟩ := map_eq_some_iff.mp h
    cases heq
    cases hissued
  | _ =>
    cases h
    cases hissued

end AuthManager

/-! ### Runs -/

variable {token : TokenString} {session : Session} {events : List Event}

theorem openSession_token (h : openSession token events = some session) : session.token = token := by
  induction events with
  | nil => cases h
  | cons e older ih =>
    rw [openSession, Event.sessionAfter, or_eq_some_iff] at h
    rcases h with hissued | ⟨-, hbefore⟩
    · exact of_decide_eq_true (filter_eq_some_iff.mp hissued).2
    · split at hbefore
      · cases hbefore
      · exact ih hbefore

/-- An open session was issued by a login, with no logout since. -/
theorem openSession_issued (h : openSession token events = some session) :
    ∃ newer e older, events = newer ++ e :: older ∧ e.issued = some session ∧
      ∀ e' ∈ newer, e'.call ≠ .logout token := by
  induction events with
  | nil => cases h
  | cons e older ih =>
    rw [openSession, Event.sessionAfter, or_eq_some_iff] at h
    rcases h with hissued | ⟨-, hbefore⟩
    · have hcall := (filter_eq_some_iff.mp hissued).1
      exact ⟨[], e, older, rfl, hcall, List.forall_mem_nil _⟩
    · split at hbefore
      · cases hbefore
      · rename_i hopen
        obtain ⟨newer, e₁, older₁, rfl, hissued, hnewer⟩ := ih hbefore
        refine ⟨e :: newer, e₁, older₁, rfl, hissued, ?_⟩
        intro e' he' hlogout
        cases List.mem_cons.mp he' with
        | inl heq => exact hopen (by rw [Event.closes, ← heq, hlogout]; exact decide_eq_true rfl)
        | inr hmem => exact hnewer e' hmem hlogout

namespace AuthRun

variable {crypto : Crypto} {w w' : AuthRun} {c : Call} {token : TokenString} {now : UInt64} {u : UserId}

/-- The maps of the manager agree with the record of the run. -/
structure Recorded (w : AuthRun) : Prop where
  synced : w.manager.Synced
  sessions : ∀ token, w.manager.sessions.lookup token = openSession token w.events
  accounts : ∀ u, w.manager.isActive u = lastStatus u w.events
  /-- A session belongs to an account. -/
  known : ∀ token session, w.manager.sessions.lookup token = some session →
    (w.manager.isActive session.userId).isSome

theorem recorded_start (withStore : Bool) : Recorded (start withStore) := by
  cases withStore with
  | false => exact ⟨nofun, fun _ => rfl, fun _ => rfl, nofun⟩
  | true =>
    refine ⟨?_, fun _ => rfl, fun _ => rfl, nofun⟩
    intro store hstore token
    cases hstore
    rfl

theorem Recorded.step (hw : w.Recorded) (h : w.step crypto c = some w') : w'.Recorded := by
  obtain ⟨⟨r, m'⟩, hcall, rfl⟩ := map_eq_some_iff.mp h
  obtain ⟨hsynced, hsessions⟩ := AuthManager.call_sessions hcall hw.synced
  have haccounts := AuthManager.call_isActive hcall
  refine ⟨hsynced, ?_, ?_, ?_⟩
  · intro token
    rw [hsessions, hw.sessions]
    rfl
  · intro u
    rw [haccounts, hw.accounts]
    rfl
  · intro token session hsession
    rw [hsessions, Event.sessionAfter, or_eq_some_iff] at hsession
    have hknown : (w.manager.isActive session.userId).isSome := by
      rcases hsession with hissued | ⟨-, hbefore⟩
      · rw [AuthManager.call_issued hcall (filter_eq_some_iff.mp hissued).1]
        rfl
      · split at hbefore
        · cases hbefore
        · exact hw.known token session hbefore
    rw [haccounts, isSome_or, hknown, Bool.or_true]

/-- A validation accepts the open sessions that have not expired. -/
theorem Recorded.validateSession_ok (hw : w.Recorded) : (w.manager.validateSession token now).1 = .ok u ↔
      ∃ session, openSession token w.events = some session ∧ session.userId = u ∧ now ≤ session.expiresAt := by
  rw [AuthManager.validateSession_spec hw.synced, hw.sessions]
  cases openSession token w.events with
  | none => simp
  | some session =>
    dsimp only
    by_cases hexpired : session.expiresAt < now
    · simp [hexpired]
    · rw [if_neg hexpired]
      simp [UInt64.not_lt.mp hexpired]

/-- If the call is a validation that returns an account, then its token was issued by a login of the
account, has not expired, was not logged out since, and the account is active. -/
def SafeValidation (w : AuthRun) (c : Call) : Prop :=
  ∀ token now u, c = .validateSession token now → (w.manager.validateSession token now).1 = .ok u →
    ∃ session newer e older, w.events = newer ++ e :: older ∧ e.issued = some session ∧
      session.token = token ∧ session.userId = u ∧ now ≤ session.expiresAt ∧
      (∀ e' ∈ newer, e'.call ≠ .logout token) ∧ w.manager.isActive u = some true

/-- The call does not validate an open, unexpired session of an account that has been deactivated. -/
def NotDeactivated (w : AuthRun) (c : Call) : Prop :=
  ∀ token now session, c = .validateSession token now → openSession token w.events = some session →
    now ≤ session.expiresAt → lastStatus session.userId w.events ≠ some false

theorem Recorded.safeValidation_iff (hw : w.Recorded) : w.SafeValidation c ↔ w.NotDeactivated c := by
  constructor
  · intro hsafe token now session hc hopen hlive hstatus
    obtain ⟨-, -, -, -, -, -, -, -, -, -, hactive⟩ := hsafe token now session.userId hc
      (hw.validateSession_ok.mpr ⟨session, hopen, rfl, hlive⟩)
    rw [hw.accounts, hstatus] at hactive
    cases hactive
  · intro hstatus token now u hc hvalid
    obtain ⟨session, hopen, rfl, hlive⟩ := hw.validateSession_ok.mp hvalid
    obtain ⟨newer, e, older, hevents, hissued, hnewer⟩ := openSession_issued hopen
    refine ⟨session, newer, e, older, hevents, hissued, openSession_token hopen, rfl, hlive, hnewer, ?_⟩
    have hknown := hw.known token session ((hw.sessions token).trans hopen)
    have hflag := hstatus token now session hc hopen hlive
    rw [hw.accounts] at hknown ⊢
    cases hlast : lastStatus session.userId w.events with
    | none => rw [hlast] at hknown; cases hknown
    | some flag =>
      cases flag with
      | false => exact absurd hlast hflag
      | true => rfl

/-- The validations of a run are safe if and only if none is of an open session whose account has
been deactivated. -/
theorem validations_safe_iff (crypto : Crypto) (withStore : Bool) (calls : List Call) :
    Along (step crypto) SafeValidation (start withStore) calls ↔
      Along (step crypto) NotDeactivated (start withStore) calls :=
  along_iff_along (fun _ _ _ hw h => hw.step h) (fun _ _ hw => hw.safeValidation_iff)
    (recorded_start withStore) calls


/-- A digest that mixes the password and the salt. -/
def mixing : Crypto where
  argon2 password salt := some (.ofFn fun i => password.getD i 0 ^^^ salt.getD i 0)
  blake3 data := .ofFn fun i => data.getD i 0

def draw (b : UInt8) : Vector UInt8 32 := .replicate 32 b

/-- A user logs in and is deactivated. -/
def deactivated : List Call :=
  [.createUser "ann" "pw" (.replicate 16 3), .login "ann" "pw" 1000 1001 1001 (draw 7), .deactivateUser 1]

/-- The session of a deactivated account is still accepted. -/
theorem deactivated_session_accepted : ¬Along (step mixing) SafeValidation (start false)
      (deactivated ++ [.validateSession (bytesToHex (draw 7).toList) 1002]) := by
  have hrun : ((run (step mixing) (start false) deactivated).map fun w =>
      ((w.manager.validateSession (bytesToHex (draw 7).toList) 1002).1, w.manager.isActive 1)) =
        some (.ok 1, some false) := by
    decide +kernel
  obtain ⟨w, hw, heq⟩ := Option.map_eq_some_iff.mp hrun
  obtain ⟨hvalid, hflag⟩ := Prod.mk.inj heq
  intro hsafe
  obtain ⟨-, -, -, -, -, -, -, -, -, -, hactive⟩ := ((along_snoc hw _).mp hsafe).2 _ _ 1 rfl hvalid
  rw [hflag] at hactive
  cases hactive

end AuthRun
end CenDB.Security
