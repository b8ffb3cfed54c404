import CenDB.Security.AuthSessions

/-! # Lockout

The documentation has every failed attempt on a locked account refresh the timer.  `Failures` follows the
attempts of a user by that rule: how many have failed since the last success or expired lockout, and when
the last one did.  A login only looks at the entry of its user (`LockEntry`), changes no other, and leaves
the entry of a locked account as it is (`login_effect`).  So the lockout in the manager runs out
`lockout_duration` after the attempt that began it, whatever comes later.

The two agree (`Synced`) as long as no attempt comes after the lockout in the manager has run out and
within `lockout_duration` of an attempt that was refused (`InTime`). -/

namespace CenDB.Security

open Transition Option UInt32 UInt64 Nat

/-- A login with its readings of the clock and the bytes of the session it may open. -/
structure LoginAttempt where
  username : String
  password : String
  now : UInt64
  lockedAt : UInt64
  openedAt : UInt64
  bytes : Vector UInt8 32

/-- What the manager keeps for the lockout of a user. -/
structure LockEntry where
  failedAttempts : Option UInt32
  lockedUntil : Option UInt64
  deriving DecidableEq

namespace LockEntry

def clear : LockEntry := ⟨none, none⟩

/-- The account is locked. -/
def Locked (e : LockEntry) (now : UInt64) : Prop := ∃ t, e.lockedUntil = some t ∧ now < t

/-- A lockout that has run out is cleared. -/
def expire (e : LockEntry) : LockEntry := if e.lockedUntil.isSome then clear else e

/-- One more failure. -/
def fail (e : LockEntry) (maxFailed : UInt32) (duration lockedAt : UInt64) : LockEntry :=
  let attempts := e.failedAttempts.getD 0 + 1
  ⟨some attempts, if maxFailed ≤ attempts then some (lockedAt + duration) else e.lockedUntil⟩

/-- The entry after a login with some result. -/
def after (maxFailed : UInt32) (duration : UInt64) (a : LoginAttempt) (e : LockEntry) :
    Except AuthError Session → LockEntry
  | .ok _ => clear
  | .error .invalidPassword => e.expire.fail maxFailed duration a.lockedAt
  | .error (.databaseLocked _) => e
  | .error _ => e.expire

end LockEntry

namespace AuthManager

def lockEntry (m : AuthManager) (username : String) : LockEntry :=
  ⟨m.failedAttempts.lookup username, m.lockedUntil.lookup username⟩

def loginAttempt (crypto : Crypto) (a : LoginAttempt) (m : AuthManager) :
    Option (Except AuthError Session × AuthManager) :=
  m.login crypto a.username a.password a.now a.lockedAt a.openedAt a.bytes

/-- What a login reads besides the entry of its user. -/
structure SameAccounts (m m' : AuthManager) : Prop where
  users : m'.users = m.users
  usernames : m'.usernames = m.usernames
  maxFailedAttempts : m'.maxFailedAttempts = m.maxFailedAttempts
  lockoutDuration : m'.lockoutDuration = m.lockoutDuration

/-- A login was refused because the account is locked. -/
def Refused (out : Except AuthError Session) : Prop := ∃ remaining, out = .error (.databaseLocked remaining)

/-- What a login does to the lockouts. -/
structure LoginEffect (m : AuthManager) (a : LoginAttempt) (out : Except AuthError Session) (m' : AuthManager) :
    Prop where
  refused : Refused out ↔ (m.lockEntry a.username).Locked a.now
  entry : m'.lockEntry a.username = (m.lockEntry a.username).after m.maxFailedAttempts m.lockoutDuration a out
  others : ∀ other, other ≠ a.username → m'.lockEntry other = m.lockEntry other
  accounts : m.SameAccounts m'

variable {crypto : Crypto} {m m' m₁ : AuthManager} {a : LoginAttempt}

variable {username : String} {now : UInt64} {out : Except AuthError Session}

theorem checkLockout_error {e : AuthError} (h : m.checkLockout username now = .error e) :
    ∃ t, (m.lockEntry username).lockedUntil = some t ∧ now < t ∧ e = .databaseLocked (t - now) := by
  unfold checkLockout at h
  split at h
  · cases h
  · rename_i t ht
    split at h
    · rename_i hlt
      cases h
      exact ⟨t, ht, hlt, rfl⟩
    · cases h

theorem checkLockout_eq_ok (h : m.checkLockout username now = .ok m₁) :
    ¬(m.lockEntry username).Locked now ∧ m.SameAccounts m₁ ∧
      m₁.lockEntry username = (m.lockEntry username).expire ∧
      ∀ other, other ≠ username → m₁.lockEntry other = m.lockEntry other := by
  unfold checkLockout at h
  split at h
  · rename_i hnone
    cases h
    have hentry : (m.lockEntry username).lockedUntil = none := hnone
    refine ⟨?_, ⟨rfl, rfl, rfl, rfl⟩, ?_, fun _ _ => rfl⟩
    · rintro ⟨t, ht, -⟩
      rw [hentry] at ht
      cases ht
    · rw [LockEntry.expire, hentry]
      rfl
  · rename_i t ht
    have hentry : (m.lockEntry username).lockedUntil = some t := ht
    split at h
    · cases h
    · rename_i hle
      cases h
      refine ⟨?_, ⟨rfl, rfl, rfl, rfl⟩, ?_, fun other hother => ?_⟩
      · rintro ⟨t', ht', hlt⟩
        rw [hentry] at ht'
        cases ht'
        exact hle hlt
      · rw [LockEntry.expire, hentry]
        simp [lockEntry, LockEntry.clear]
      · simp [lockEntry, AList.lookup_erase_ne hother]

theorem lockEntry_recordFailure (username other : String) (lockedAt : UInt64) :
    (m.recordFailure username lockedAt).lockEntry other =
      if other = username then (m.lockEntry username).fail m.maxFailedAttempts m.lockoutDuration lockedAt
      else m.lockEntry other := by
  unfold recordFailure lockEntry LockEntry.fail
  dsimp only
  by_cases hother : other = username
  · subst hother
    rw [if_pos rfl, AList.lookup_insert]
    split_ifs
    · simp
    · rfl
  · rw [if_neg hother, AList.lookup_insert_ne hother]
    split_ifs
    · simp [hother]
    · rfl

theorem not_refused (h : ∀ remaining, out ≠ .error (.databaseLocked remaining)) :
    ¬Refused out := fun ⟨remaining, hout⟩ => h remaining hout

/-- A login looks at the entry of its user only, and leaves it as it is while the account is locked. -/
theorem login_effect (h : m.loginAttempt crypto a = some (out, m')) : m.LoginEffect a out m' := by
  unfold loginAttempt login at h
  split at h
  case h_1 e hlock =>
    cases h
    obtain ⟨t, ht, hlt, rfl⟩ := checkLockout_error hlock
    exact ⟨iff_of_true ⟨_, rfl⟩ ⟨t, ht, hlt⟩, rfl, fun _ _ => rfl, ⟨rfl, rfl, rfl, rfl⟩⟩
  case h_2 m₁ hlock =>
    obtain ⟨hnot, hsame, hentry, hother⟩ := checkLockout_eq_ok hlock
    split at h
    case h_1 =>
      cases h
      exact ⟨iff_of_false (not_refused nofun) hnot, hentry, hother, hsame⟩
    case h_2 userId _ =>
      obtain ⟨user, huser, h⟩ := bind_eq_some_iff.mp h
      split at h
      case isFalse =>
        cases h
        exact ⟨iff_of_false (not_refused nofun) hnot, hentry, hother, hsame⟩
      case isTrue =>
        obtain ⟨correct, -, h⟩ := bind_eq_some_iff.mp h
        split at h
        · cases h
          refine ⟨iff_of_false (not_refused nofun) hnot, ?_, fun other hne => ?_,
            ⟨hsame.users, hsame.usernames, hsame.maxFailedAttempts, hsame.lockoutDuration⟩⟩
          · simp [lockEntry, cacheAndPersistSession, LockEntry.after, LockEntry.clear]
          · rw [← hother other hne]
            simp [lockEntry, cacheAndPersistSession, AList.lookup_erase_ne hne]
        · cases h
          refine ⟨iff_of_false (not_refused nofun) hnot, ?_, fun other hne => ?_,
            ⟨hsame.users, hsame.usernames, hsame.maxFailedAttempts, hsame.lockoutDuration⟩⟩
          · rw [lockEntry_recordFailure, if_pos rfl, hentry, hsame.maxFailedAttempts, hsame.lockoutDuration]
            rfl
          · rw [lockEntry_recordFailure, if_neg hne, hother other hne]

/-- The result of a login, from the accounts and the lockout of its user. -/
def outcome (crypto : Crypto) (users : Table UserId User) (usernames : Table String UserId)
    (lockedUntil : Option UInt64) (a : LoginAttempt) : Option (Except AuthError Session) :=
  match lockedUntil.filter fun t => a.now < t with
  | some t => some (.error (.databaseLocked (t - a.now)))
  | none =>
    match usernames.lookup a.username with
    | none => some (.error .userNotFound)
    | some userId => do
      let user ← users.lookup userId
      if user.active then
        if ← crypto.verifyPassword a.password user.passwordHash then
          some (.ok (buildSession userId a.openedAt a.bytes))
        else some (.error .invalidPassword)
      else some (.error .userInactive)

theorem loginAttempt_fst : (m.loginAttempt crypto a).map Prod.fst =
    outcome crypto m.users m.usernames (m.lockEntry a.username).lockedUntil a := by
  unfold loginAttempt login
  cases hlock : m.checkLockout a.username a.now with
  | error e =>
    obtain ⟨t, ht, hlt, rfl⟩ := checkLockout_error hlock
    have hfilter : ((m.lockEntry a.username).lockedUntil.filter fun t => a.now < t) = some t :=
      filter_eq_some_iff.mpr ⟨ht, decide_eq_true hlt⟩
    rw [outcome, hfilter]
    rfl
  | ok m₁ =>
    obtain ⟨hnot, hsame, -, -⟩ := checkLockout_eq_ok hlock
    have hfilter : ((m.lockEntry a.username).lockedUntil.filter fun t => a.now < t) = none := by
      rw [filter_eq_none_iff]
      exact fun t ht hlt => hnot ⟨t, ht, of_decide_eq_true hlt⟩
    rw [outcome, hfilter, ← hsame.users, ← hsame.usernames]
    dsimp only
    cases m₁.usernames.lookup a.username with
    | none => rfl
    | some userId =>
      cases hlookup : m₁.users.lookup userId with
      | none => simp [hlookup]
      | some user =>
        cases hactive : user.active with
        | false => simp [hlookup, hactive]
        | true =>
          cases hverify : crypto.verifyPassword a.password user.passwordHash with
          | none => simp [hlookup, hactive, hverify]
          | some correct => cases correct <;> simp [hlookup, hactive, hverify]

theorem SameAccounts.symm (h : m.SameAccounts m') : m'.SameAccounts m :=
  ⟨h.users.symm, h.usernames.symm, h.maxFailedAttempts.symm, h.lockoutDuration.symm⟩

theorem SameAccounts.trans (h : m.SameAccounts m₁) (h' : m₁.SameAccounts m') : m.SameAccounts m' :=
  ⟨h'.users.trans h.users, h'.usernames.trans h.usernames, h'.maxFailedAttempts.trans h.maxFailedAttempts,
    h'.lockoutDuration.trans h.lockoutDuration⟩

/-- Two managers with the same accounts and the same entry of the user go on alike. -/
theorem loginAttempt_congr {n : AuthManager} (hsame : m.SameAccounts n)
    (hentry : n.lockEntry a.username = m.lockEntry a.username) (h : m.loginAttempt crypto a = some (out, m')) :
    ∃ n', n.loginAttempt crypto a = some (out, n') ∧ m'.SameAccounts n' ∧
      n'.lockEntry a.username = m'.lockEntry a.username := by
  have hfst := @loginAttempt_fst crypto n a
  rw [hsame.users, hsame.usernames, hentry, ← loginAttempt_fst, h] at hfst
  obtain ⟨⟨out', n'⟩, hn, hout⟩ := map_eq_some_iff.mp hfst
  cases hout
  have hm' := login_effect h
  have hn' := login_effect hn
  refine ⟨n', hn, hm'.accounts.symm.trans (hsame.trans hn'.accounts), ?_⟩
  rw [hn'.entry, hm'.entry, hentry, hsame.maxFailedAttempts, hsame.lockoutDuration]

end AuthManager

/-! ### The documented lockout -/

/-- The failed attempts of a user since the last success or expired lockout. -/
structure Failures where
  count : ℕ
  /-- The time of the last one. -/
  last : ℕ
  deriving DecidableEq

namespace Failures

/-- Too many attempts have failed, the last one less than the lockout duration ago. -/
def Locked (maxFailed duration : ℕ) (f : Failures) (now : ℕ) : Prop :=
  0 < f.count ∧ maxFailed ≤ f.count ∧ now < f.last + duration

/-- Nothing is left of a lockout that has expired. -/
def expire (maxFailed duration now : ℕ) (f : Failures) : Failures :=
  if maxFailed ≤ f.count ∧ f.last + duration ≤ now then ⟨0, 0⟩ else f

/-- One more attempt.  One that was refused on a locked account counts as failed. -/
def after (maxFailed duration : ℕ) (f : Failures) (a : LoginAttempt) : Except AuthError Session → Failures
  | .ok _ => ⟨0, 0⟩
  | .error .invalidPassword => ⟨(f.expire maxFailed duration a.now.toNat).count + 1, a.lockedAt.toNat⟩
  | .error (.databaseLocked _) => ⟨(f.expire maxFailed duration a.now.toNat).count + 1, a.now.toNat⟩
  | .error _ => f.expire maxFailed duration a.now.toNat

/-- The failures of a user after some attempts, the newest one first. -/
def ofEvents (maxFailed duration : ℕ) (username : String) :
    List (LoginAttempt × Except AuthError Session) → Failures
  | [] => ⟨0, 0⟩
  | e :: older =>
    if e.1.username = username then
      (ofEvents maxFailed duration username older).after maxFailed duration e.1 e.2
    else ofEvents maxFailed duration username older

end Failures

/-- A manager in a run of logins, with the time and the attempts so far, newest first. -/
structure LoginRun where
  manager : AuthManager
  clock : UInt64
  events : List (LoginAttempt × Except AuthError Session)

namespace LoginRun

/-- Any accounts and settings, before the first failure. -/
def start (m : AuthManager) : LoginRun where
  manager := { m with failedAttempts := ∅, lockedUntil := ∅ }
  clock := 0
  events := []

/-- A login; `none` where it panics or the clock would run backwards. -/
def step (crypto : Crypto) (w : LoginRun) (a : LoginAttempt) : Option LoginRun :=
  if w.clock ≤ a.now ∧ a.now ≤ a.lockedAt ∧ a.lockedAt ≤ a.openedAt then
    (w.manager.loginAttempt crypto a).map fun out => ⟨out.2, a.openedAt, (a, out.1) :: w.events⟩
  else none

def maxFailed (w : LoginRun) : ℕ := w.manager.maxFailedAttempts.toNat

def duration (w : LoginRun) : ℕ := w.manager.lockoutDuration.toNat

def failures (w : LoginRun) (username : String) : Failures := .ofEvents w.maxFailed w.duration username w.events

/-- A login that succeeds does not come during a documented lockout. -/
def Refuses (crypto : Crypto) (w : LoginRun) (a : LoginAttempt) : Prop :=
  ∀ w' session, step crypto w a = some w' → w'.events.head? = some (a, .ok session) →
    ¬(w.failures a.username).Locked w.maxFailed w.duration a.now.toNat

/-- Once the lockout in the manager has run out, the attempt is at least the lockout duration later than
any that was refused as locked; and the end of a new lockout is a 64-bit number. -/
structure InTime (w : LoginRun) (a : LoginAttempt) : Prop where
  late : ¬(w.manager.lockEntry a.username).Locked a.now → ∀ e ∈ w.events, e.1.username = a.username →
    ∀ remaining, e.2 = .error (.databaseLocked remaining) → e.1.now.toNat + w.duration ≤ a.now.toNat
  noWrap : a.lockedAt.toNat + w.duration < 2 ^ 64

end LoginRun

/-! ### One user -/

/-- The entry of a user in the manager agrees with the failures that the documentation counts, where
`refusals` are the times of the attempts that were refused as locked. -/
structure Tracks (maxFailed duration clock : ℕ) (refusals : Set ℕ) (e : LockEntry) (f : Failures) : Prop where
  unlocked : e.lockedUntil = none → (e.failedAttempts.getD 0).toNat = f.count ∧ (f.count = 0 ∨ f.count < maxFailed)
  locked : ∀ t, e.lockedUntil = some t → 0 < f.count ∧ maxFailed ≤ f.count ∧ f.last ≤ clock ∧
    t.toNat ≤ f.last + duration ∧ (t.toNat = f.last + duration ∨ f.last ∈ refusals)

section tracks

variable {maxFailed : UInt32} {duration : UInt64} {clock : ℕ} {refusals : Set ℕ} {e : LockEntry} {f : Failures}
  {a : LoginAttempt}

variable {clock' : ℕ} {refusals' : Set ℕ}

theorem Tracks.mono (h : Tracks maxFailed.toNat duration.toNat clock refusals e f) (hclock : clock ≤ clock')
    (hsub : refusals ⊆ refusals') :
    Tracks maxFailed.toNat duration.toNat clock' refusals' e f where
  unlocked := h.unlocked
  locked t ht := by
    obtain ⟨hpos, hmax, hlast, hle, hor⟩ := h.locked t ht
    exact ⟨hpos, hmax, hlast.trans hclock, hle, hor.imp_right fun hmem => hsub hmem⟩

theorem tracks_clear (maxFailed : UInt32) (duration : UInt64) (clock : ℕ) (refusals : Set ℕ) :
    Tracks maxFailed.toNat duration.toNat clock refusals .clear ⟨0, 0⟩ where
  unlocked _ := ⟨rfl, Or.inl rfl⟩
  locked t ht := by cases ht

/-- Where the lockout in the manager has run out, the documented one has too. -/
theorem Tracks.last_add_le (h : Tracks maxFailed.toNat duration.toNat clock refusals e f) (hnot : ¬e.Locked a.now)
    (hlate : ∀ t ∈ refusals, t + duration.toNat ≤ a.now.toNat) {t : UInt64} (ht : e.lockedUntil = some t) :
    f.last + duration.toNat ≤ a.now.toNat := by
  have hle : t.toNat ≤ a.now.toNat := Nat.le_of_not_lt fun hlt => hnot ⟨t, ht, lt_iff_toNat_lt.mpr hlt⟩
  obtain ⟨-, -, -, -, hlast | hlast⟩ := h.locked t ht
  · omega
  · exact hlate _ hlast

/-- Both forget a lockout that has run out. -/
theorem Tracks.expire (h : Tracks maxFailed.toNat duration.toNat clock refusals e f) (hnot : ¬e.Locked a.now)
    (hlate : ∀ t ∈ refusals, t + duration.toNat ≤ a.now.toNat) :
    e.expire.lockedUntil = none ∧ Tracks maxFailed.toNat duration.toNat clock refusals e.expire
      (f.expire maxFailed.toNat duration.toNat a.now.toNat) := by
  cases hentry : e.lockedUntil with
  | none =>
    have hsame : e.expire = e := by simp [LockEntry.expire, hentry]
    rw [hsame, Failures.expire]
    refine ⟨hentry, ?_⟩
    split_ifs with hexpired
    · obtain ⟨hcount, hzero | hlt⟩ := h.unlocked hentry
      · refine ⟨fun _ => ⟨hcount.trans hzero, Or.inl rfl⟩, fun t ht => ?_⟩
        rw [hentry] at ht
        cases ht
      · omega
    · exact h
  | some t =>
    have hclear : e.expire = .clear := by simp [LockEntry.expire, hentry]
    obtain ⟨-, hmax, -⟩ := h.locked t hentry
    rw [hclear, Failures.expire, if_pos ⟨hmax, h.last_add_le hnot hlate hentry⟩]
    exact ⟨rfl, tracks_clear maxFailed duration clock refusals⟩

/-- Both count one more failure, and begin a lockout at the same one. -/
theorem Tracks.fail (h : Tracks maxFailed.toNat duration.toNat clock refusals e f)
    (hnone : e.lockedUntil = none) (hwrap : a.lockedAt.toNat + duration.toNat < 2 ^ 64)
    (hclock : a.lockedAt.toNat ≤ clock') :
    Tracks maxFailed.toNat duration.toNat clock' refusals (e.fail maxFailed duration a.lockedAt)
      ⟨f.count + 1, a.lockedAt.toNat⟩ := by
  obtain ⟨hcount, hfew⟩ := h.unlocked hnone
  have hbound := maxFailed.toNat_lt
  have hattempts : (e.failedAttempts.getD 0 + 1).toNat = f.count + 1 := by
    rw [UInt32.toNat_add, hcount]
    exact Nat.mod_eq_of_lt (by rw [UInt32.toNat_one]; omega)
  have hend : (a.lockedAt + duration).toNat = a.lockedAt.toNat + duration.toNat := by
    rw [UInt64.toNat_add]
    exact Nat.mod_eq_of_lt hwrap
  have hle : maxFailed ≤ e.failedAttempts.getD 0 + 1 ↔ maxFailed.toNat ≤ f.count + 1 := by
    rw [UInt32.le_iff_toNat_le, hattempts]
  unfold LockEntry.fail
  dsimp only
  split_ifs with hmax
  · refine ⟨nofun, fun t ht => ?_⟩
    cases ht
    exact ⟨Nat.succ_pos _, hle.mp hmax, hclock, hend.le, Or.inl hend⟩
  · refine ⟨fun _ => ⟨hattempts, Or.inr (Nat.lt_of_not_le (mt hle.mpr hmax))⟩, fun t ht => ?_⟩
    rw [hnone] at ht
    cases ht

/-- An attempt on a locked account: the manager keeps the entry, the documentation starts the time again. -/
theorem Tracks.refuse (h : Tracks maxFailed.toNat duration.toNat clock refusals e f) (hlocked : e.Locked a.now)
    (hclock : clock ≤ a.now.toNat) (hnow : a.now.toNat ≤ clock') (hmem : a.now.toNat ∈ refusals') :
    Tracks maxFailed.toNat duration.toNat clock' refusals' e
      ⟨(f.expire maxFailed.toNat duration.toNat a.now.toNat).count + 1, a.now.toNat⟩ := by
  obtain ⟨t, ht, hlt⟩ := hlocked
  rw [UInt64.lt_iff_toNat_lt] at hlt
  obtain ⟨hpos, hmax, hlast, hle, -⟩ := h.locked t ht
  have hkeep : f.expire maxFailed.toNat duration.toNat a.now.toNat = f := by
    rw [Failures.expire, if_neg]
    omega
  rw [hkeep]
  refine ⟨fun hnone => ?_, fun t' ht' => ?_⟩
  · rw [ht] at hnone
    cases hnone
  · rw [ht] at ht'
    cases ht'
    have hend : t.toNat ≤ a.now.toNat + duration.toNat := by omega
    exact ⟨Nat.succ_pos _, hmax.trans (Nat.le_succ _), hnow, hend, Or.inr hmem⟩

/-- **One attempt of the user.** -/
theorem Tracks.after (h : Tracks maxFailed.toNat duration.toNat clock refusals e f)
    {out : Except AuthError Session} (hrefused : AuthManager.Refused out ↔ e.Locked a.now)
    (hclock : clock ≤ a.now.toNat) (hnow : a.now ≤ a.lockedAt) (hopened : a.lockedAt ≤ a.openedAt)
    (hlate : ¬e.Locked a.now → ∀ t ∈ refusals, t + duration.toNat ≤ a.now.toNat)
    (hwrap : a.lockedAt.toNat + duration.toNat < 2 ^ 64) (hsub : refusals ⊆ refusals')
    (hmem : AuthManager.Refused out → a.now.toNat ∈ refusals') :
    Tracks maxFailed.toNat duration.toNat a.openedAt.toNat refusals' (e.after maxFailed duration a out)
      (f.after maxFailed.toNat duration.toNat a out) := by
  rw [UInt64.le_iff_toNat_le] at hnow hopened
  have hend : clock ≤ a.openedAt.toNat := hclock.trans (hnow.trans hopened)
  cases out with
  | ok session => exact tracks_clear maxFailed duration _ _
  | error err =>
    cases err with
    | databaseLocked remaining =>
      exact h.refuse (hrefused.mp ⟨remaining, rfl⟩) hclock (hnow.trans hopened) (hmem ⟨remaining, rfl⟩)
    | invalidPassword =>
      have hnot := mt hrefused.mpr (AuthManager.not_refused nofun)
      obtain ⟨hnone, hexpired⟩ := h.expire hnot (hlate hnot)
      exact (hexpired.fail hnone hwrap hopened).mono le_rfl hsub
    | _ =>
      have hnot := mt hrefused.mpr (AuthManager.not_refused nofun)
      exact (h.expire hnot (hlate hnot)).2.mono hend hsub

end tracks

namespace LoginRun

variable {crypto : Crypto} {w w' : LoginRun} {a : LoginAttempt} {username : String}

theorem step_eq_some : step crypto w a = some w' ↔
    (w.clock ≤ a.now ∧ a.now ≤ a.lockedAt ∧ a.lockedAt ≤ a.openedAt) ∧
      ∃ out m', w.manager.loginAttempt crypto a = some (out, m') ∧ w' = ⟨m', a.openedAt, (a, out) :: w.events⟩ := by
  unfold step
  split_ifs with htimes
  · rw [and_iff_right htimes, map_eq_some_iff]
    constructor
    · rintro ⟨⟨out, m'⟩, hlogin, rfl⟩
      exact ⟨out, m', hlogin, rfl⟩
    · rintro ⟨out, m', hlogin, rfl⟩
      exact ⟨(out, m'), hlogin, rfl⟩
  · exact iff_of_false nofun fun h => htimes h.1

/-- The times of the attempts of a user that were refused as locked. -/
def refusals (w : LoginRun) (username : String) : Set ℕ :=
  { t | ∃ e ∈ w.events, e.1.username = username ∧ AuthManager.Refused e.2 ∧ e.1.now.toNat = t }

/-- The manager agrees with the documentation. -/
def Synced (w : LoginRun) : Prop :=
  ∀ username, Tracks w.maxFailed w.duration w.clock.toNat (w.refusals username) (w.manager.lockEntry username)
    (w.failures username)

theorem InTime.late_refusals (h : w.InTime a) (hnot : ¬(w.manager.lockEntry a.username).Locked a.now) :
    ∀ t ∈ w.refusals a.username, t + w.duration ≤ a.now.toNat := by
  rintro t ⟨e, he, hname, ⟨remaining, hout⟩, rfl⟩
  exact h.late hnot e he hname remaining hout

/-- The failures of a user after one more attempt. -/
theorem failures_cons {m' : AuthManager} (hsame : w.manager.SameAccounts m') (clock : UInt64)
    (out : Except AuthError Session) : failures ⟨m', clock, (a, out) :: w.events⟩ username =
      if a.username = username then (w.failures username).after w.maxFailed w.duration a out
      else w.failures username := by
  unfold failures maxFailed duration
  rw [hsame.maxFailedAttempts, hsame.lockoutDuration]
  rfl

theorem Synced.step (h : w.Synced) (htime : w.InTime a) (hstep : step crypto w a = some w') : w'.Synced := by
  obtain ⟨⟨hclock, hnow, hopened⟩, out, m', hlogin, rfl⟩ := step_eq_some.mp hstep
  have heffect := AuthManager.login_effect hlogin
  have hsub (username : String) : w.refusals username ⊆ refusals ⟨m', a.openedAt, (a, out) :: w.events⟩ username :=
    fun t ⟨e, he, hrest⟩ => ⟨e, List.mem_cons_of_mem _ he, hrest⟩
  intro username
  rw [failures_cons heffect.accounts]
  have hmax : maxFailed ⟨m', a.openedAt, (a, out) :: w.events⟩ = w.maxFailed :=
    congrArg UInt32.toNat heffect.accounts.maxFailedAttempts
  have hduration : duration ⟨m', a.openedAt, (a, out) :: w.events⟩ = w.duration :=
    congrArg UInt64.toNat heffect.accounts.lockoutDuration
  rw [hmax, hduration]
  split_ifs with hname
  · subst hname
    dsimp only
    rw [heffect.entry]
    refine (h a.username).after heffect.refused (UInt64.le_iff_toNat_le.mp hclock) hnow hopened
      htime.late_refusals htime.noWrap (hsub a.username) fun hout => ?_
    exact ⟨(a, out), List.mem_cons_self, rfl, hout, rfl⟩
  · dsimp only
    rw [heffect.others username (Ne.symm hname)]
    have hend := UInt64.le_iff_toNat_le.mp (UInt64.le_trans hclock (UInt64.le_trans hnow hopened))
    exact (h username).mono hend (hsub username)

variable {attempts : List LoginAttempt} {v : LoginRun}

/-- Two runs in which a user is in the same situation. -/
structure Alike (username : String) (w w' : LoginRun) : Prop where
  accounts : w.manager.SameAccounts w'.manager
  entry : w'.manager.lockEntry username = w.manager.lockEntry username
  clock : w'.clock ≤ w.clock

/-- An attempt of somebody else. -/
theorem Alike.step_other (h : Alike username w v) (hname : a.username ≠ username)
    (hstep : LoginRun.step crypto w a = some w') : Alike username w' v := by
  obtain ⟨⟨hclock, hnow, hopened⟩, out, m', hlogin, rfl⟩ := step_eq_some.mp hstep
  have heffect := AuthManager.login_effect hlogin
  refine ⟨heffect.accounts.symm.trans h.accounts, ?_, ?_⟩
  · rw [h.entry]
    exact (heffect.others username (Ne.symm hname)).symm
  · exact UInt64.le_trans h.clock (UInt64.le_trans hclock (UInt64.le_trans hnow hopened))

theorem Alike.step (h : Alike username w v) (hname : a.username = username)
    (hstep : LoginRun.step crypto w a = some w') :
    ∃ v', LoginRun.step crypto v a = some v' ∧ Alike username w' v' := by
  obtain ⟨⟨hclock, hnow, hopened⟩, out, m', hlogin, rfl⟩ := step_eq_some.mp hstep
  subst hname
  obtain ⟨n', hn', hsame, hentry⟩ := AuthManager.loginAttempt_congr h.accounts h.entry hlogin
  exact ⟨⟨n', a.openedAt, (a, out) :: v.events⟩,
    step_eq_some.mpr ⟨⟨UInt64.le_trans h.clock hclock, hnow, hopened⟩, out, n', hn', rfl⟩,
    hsame, hentry, UInt64.le_refl _⟩

theorem Alike.run (h : Alike username w v) (hrun : run (LoginRun.step crypto) w attempts = some w') :
    ∃ v', Transition.run (LoginRun.step crypto) v (attempts.filter fun a => a.username = username) = some v' ∧
      Alike username w' v' := by
  induction attempts generalizing w v with
  | nil =>
    cases hrun
    exact ⟨v, rfl, h⟩
  | cons a attempts ih =>
    obtain ⟨w₁, hstep, hrest⟩ := run_cons_some.mp hrun
    by_cases hname : a.username = username
    · obtain ⟨v₁, hv₁, h₁⟩ := h.step hname hstep
      obtain ⟨v', hv', h'⟩ := ih h₁ hrest
      have hfilter : (a :: attempts).filter (fun a => a.username = username) =
          a :: attempts.filter fun a => a.username = username := List.filter_cons_of_pos (by simpa using hname)
      rw [hfilter]
      exact ⟨v', run_cons_some.mpr ⟨v₁, hv₁, hv'⟩, h'⟩
    · obtain ⟨v', hv', h'⟩ := ih (h.step_other hname hstep) hrest
      refine ⟨v', ?_, h'⟩
      rwa [List.filter_cons_of_neg (by simpa using hname)]

end LoginRun

end CenDB.Security
