import CenDB.Security.SessionStores

/-! # Threads that share a file store

Each lock-protected part of a call is one step: a whole `save`, and for the two removals the reading of
the file and the later rewriting of it.  A removal that finds nothing to remove returns after its
first step.  The log has the effects of the calls that have returned, newest first, and `sessionOf`
is the session that it leaves under a token.

A rewrite is harmless exactly if it writes what removing from the file as it is now would leave
(`updates_kept_iff`); a save or another rewrite since the reading is what makes the difference. -/

namespace CenDB.Security

open Transition FileSessionStore List Option Table

inductive Removal
  | token (t : TokenString)
  | expiredBefore (ts : UInt64)
  deriving DecidableEq

namespace Removal

def removes (r : Removal) (s : Session) : Bool :=
  match r with
  | token t => s.token = t
  | expiredBefore ts => s.expiresAt < ts

/-- The sessions that the call keeps of those it has read. -/
def kept (r : Removal) (all : Table TokenString Session) : Table TokenString Session :=
  match r with
  | token t => all.erase t
  | expiredBefore ts => Table.retain (fun _ s => ts ≤ s.expiresAt) all

/-- Does the call go on to rewrite the file? -/
def found (r : Removal) (all : Table TokenString Session) : Bool :=
  match r with
  | token t => (all.lookup t).isSome
  | expiredBefore _ => 0 < Table.size all - Table.size (r.kept all)

end Removal

/-- A call between its two steps, with the sessions it will write. -/
structure Pending where
  removal : Removal
  kept : Table TokenString Session

/-- The effect of a call that has returned. -/
inductive Effect
  | saved (s : Session)
  | removed (r : Removal)
  deriving DecidableEq

structure SharedStore where
  file : FileSessionStore
  pending : Table ℕ Pending
  log : List Effect

inductive ThreadStep
  | save (s : Session)
  | read (thread : ℕ) (r : Removal)
  | rewrite (thread : ℕ) (order : IterOrder)

namespace SharedStore

def start : SharedStore := ⟨.new none, ∅, []⟩

def step (w : SharedStore) : ThreadStep → Option SharedStore
  | .save s => some { w with file := w.file.save s, log := .saved s :: w.log }
  | .read thread r =>
    if (w.pending.lookup thread).isSome then none
    else
      match w.file.readAll with
      | .error _ => some w
      | .ok all =>
        if r.found all then some { w with pending := w.pending.insert thread ⟨r, r.kept all⟩ }
        else some { w with log := .removed r :: w.log }
  | .rewrite thread order =>
    (w.pending.lookup thread).map fun p =>
      ⟨rewrite order p.kept, w.pending.erase thread, .removed p.removal :: w.log⟩

variable {all : Table TokenString Session}

/-- The two steps of a deletion, one right after the other, are the method. -/
theorem delete_steps (w : SharedStore) (thread : ℕ) (t : TokenString) (order : IterOrder)
    (hall : w.file.readAll = .ok all) (hfound : (all.lookup t).isSome) (hidle : w.pending.lookup thread = none) :
    (run step w [.read thread (.token t), .rewrite thread order]).map SharedStore.file =
      some (w.file.delete t order).2 := by
  have hread : step w (.read thread (.token t)) =
      some { w with pending := w.pending.insert thread ⟨.token t, all.erase t⟩ } := by
    rw [step, hidle, if_neg (by simp), hall]
    exact if_pos hfound
  rw [run_cons, hread, bind_some, run_cons, step, lookup_insert_if, if_pos rfl,
    FileSessionStore.delete, hall]
  dsimp only
  rw [if_pos hfound]
  rfl

/-! ### What the log leaves -/

/-- The session that the effects leave under a token. -/
def sessionOf (token : TokenString) : List Effect → Option Session
  | [] => none
  | .saved s :: older => if token = s.token then some s else sessionOf token older
  | .removed r :: older => (sessionOf token older).filter fun s => !r.removes s

/-- Every session that was saved, and neither removed nor replaced since, is found. -/
def Kept (w : SharedStore) : Prop :=
  ∀ newer s older, w.log = newer ++ .saved s :: older → (∀ s', Effect.saved s' ∈ newer → s'.token ≠ s.token) →
    (∀ r, Effect.removed r ∈ newer → r.removes s = false) → w.file.load s.token = .ok (some s)

/-- A session that was removed, with nothing saved under its token since, does not come back. -/
def Gone (w : SharedStore) : Prop :=
  ∀ newer r mid s older, w.log = newer ++ .removed r :: (mid ++ .saved s :: older) →
    (∀ s', Effect.saved s' ∈ newer ++ mid → s'.token ≠ s.token) → r.removes s = true →
    w.file.load s.token = .ok none

variable {w w' : SharedStore} {token : TokenString} {s : Session} {log older : List Effect}

theorem sessionOf_token (h : sessionOf token log = some s) : s.token = token := by
  induction log with
  | nil => cases h
  | cons e older ih =>
    cases e with
    | saved s' =>
      rw [sessionOf] at h
      split_ifs at h with htoken
      · cases h
        exact htoken.symm
      · exact ih h
    | removed r =>
      rw [sessionOf, filter_eq_some_iff] at h
      exact ih h.1

/-- A session that the log leaves was saved, and neither replaced nor removed since. -/
theorem sessionOf_some (h : sessionOf token log = some s) : ∃ newer older, log = newer ++ .saved s :: older ∧
      (∀ s', Effect.saved s' ∈ newer → s'.token ≠ s.token) ∧
      ∀ r, Effect.removed r ∈ newer → r.removes s = false := by
  induction log with
  | nil => cases h
  | cons e older ih =>
    cases e with
    | saved s' =>
      rw [sessionOf] at h
      split_ifs at h with htoken
      · cases h
        exact ⟨[], older, rfl, nofun, nofun⟩
      · obtain ⟨newer, rest, rfl, hsaved, hremoved⟩ := ih h
        refine ⟨.saved s' :: newer, rest, rfl, ?_, ?_⟩
        · intro s'' hs''
          cases mem_cons.mp hs'' with
          | inl heq =>
            cases heq
            rw [sessionOf_token h]
            exact Ne.symm htoken
          | inr hmem => exact hsaved s'' hmem
        · intro r hr
          cases mem_cons.mp hr with
          | inl heq => cases heq
          | inr hmem => exact hremoved r hmem
    | removed r =>
      rw [sessionOf, filter_eq_some_iff] at h
      obtain ⟨newer, rest, rfl, hsaved, hremoved⟩ := ih h.1
      refine ⟨.removed r :: newer, rest, rfl, ?_, ?_⟩
      · intro s' hs'
        cases mem_cons.mp hs' with
        | inl heq => cases heq
        | inr hmem => exact hsaved s' hmem
      · intro r' hr'
        cases mem_cons.mp hr' with
        | inl heq =>
          cases heq
          simpa using h.2
        | inr hmem => exact hremoved r' hmem

variable {newer : List Effect} {r : Removal} {thread : ℕ} {a : ThreadStep}

/-- Effects that save nothing under a token leave its session or nothing. -/
theorem sessionOf_append (h : ∀ s', Effect.saved s' ∈ newer → s'.token ≠ token) :
    sessionOf token (newer ++ older) = none ∨ sessionOf token (newer ++ older) = sessionOf token older := by
  induction newer with
  | nil => exact .inr rfl
  | cons e newer ih =>
    have hrest := ih fun s' hs' => h s' (mem_cons_of_mem e hs')
    cases e with
    | saved s' =>
      rw [cons_append, sessionOf, if_neg (Ne.symm (h s' mem_cons_self))]
      exact hrest
    | removed r =>
      rw [cons_append, sessionOf]
      rcases hrest with hnone | hsame
      · simp [hnone]
      · rw [hsame]
        cases sessionOf token older with
        | none => exact .inl rfl
        | some s =>
          cases hr : r.removes s with
          | false => exact .inr (by simp [Option.filter, hr])
          | true => exact .inl (by simp [Option.filter, hr])

/-- Effects that neither replace nor remove a session leave it. -/
theorem sessionOf_append_some (hold : sessionOf token older = some s)
    (hsaved : ∀ s', Effect.saved s' ∈ newer → s'.token ≠ token)
    (hremoved : ∀ r, Effect.removed r ∈ newer → r.removes s = false) :
    sessionOf token (newer ++ older) = some s := by
  induction newer with
  | nil => exact hold
  | cons e newer ih =>
    have hrest := ih (fun s' hs' => hsaved s' (mem_cons_of_mem e hs'))
      (fun r hr => hremoved r (mem_cons_of_mem e hr))
    cases e with
    | saved s' =>
      rw [cons_append, sessionOf, if_neg (Ne.symm (hsaved s' mem_cons_self))]
      exact hrest
    | removed r =>
      rw [cons_append, sessionOf, hrest]
      simp [Option.filter, hremoved r mem_cons_self]

/-- A saved session that the log does not leave was removed, with nothing saved under its token
since. -/
theorem sessionOf_none (h : sessionOf token log = none) (hs : Effect.saved s ∈ log) (hkey : s.token = token) :
    ∃ newer r mid s' older, log = newer ++ .removed r :: (mid ++ .saved s' :: older) ∧
      (∀ s'', Effect.saved s'' ∈ newer ++ mid → s''.token ≠ s'.token) ∧ r.removes s' = true ∧
      s'.token = token := by
  induction log with
  | nil => cases hs
  | cons e older ih =>
    cases e with
    | saved s₁ =>
      rw [sessionOf] at h
      split_ifs at h with htoken
      have hold : Effect.saved s ∈ older := by
        cases mem_cons.mp hs with
        | inl heq =>
          cases heq
          exact absurd hkey.symm htoken
        | inr hmem => exact hmem
      obtain ⟨newer, r, mid, s', rest, rfl, hsaved, hremoves, htoken'⟩ := ih h hold
      refine ⟨.saved s₁ :: newer, r, mid, s', rest, rfl, ?_, hremoves, htoken'⟩
      intro s'' hs''
      cases mem_cons.mp hs'' with
      | inl heq =>
        cases heq
        exact htoken' ▸ Ne.symm htoken
      | inr hmem => exact hsaved s'' hmem
    | removed r =>
      have hold : Effect.saved s ∈ older := (mem_cons.mp hs).resolve_left nofun
      cases hleft : sessionOf token older with
      | none =>
        obtain ⟨newer, r', mid, s', rest, rfl, hsaved, hremoves, htoken'⟩ := ih hleft hold
        refine ⟨.removed r :: newer, r', mid, s', rest, rfl, ?_, hremoves, htoken'⟩
        intro s'' hs''
        exact hsaved s'' ((mem_cons.mp hs'').resolve_left nofun)
      | some s₁ =>
        rw [sessionOf, hleft] at h
        obtain ⟨newer, rest, rfl, hsaved, -⟩ := sessionOf_some hleft
        refine ⟨[], r, newer, s₁, rest, rfl, hsaved, ?_, sessionOf_token hleft⟩
        simpa [Option.filter] using h

/-! ### The file and the log -/

/-- The file holds what the log leaves; a call in progress will write sessions that have been saved. -/
structure Recorded (w : SharedStore) : Prop where
  holds : ∃ sessions, w.file.Holds sessions ∧ ∀ token, sessions.lookup token = sessionOf token w.log
  pending : ∀ thread p, w.pending.lookup thread = some p → ∀ token s, p.kept.lookup token = some s →
    s.token = token ∧ s.Plain ∧ Effect.saved s ∈ w.log

/-- The step saves no token outside ASCII. -/
def SavesPlain (_ : SharedStore) (a : ThreadStep) : Prop := ∀ s, a = .save s → s.Plain

/-- A rewrite writes what its call would keep of the file as it is now. -/
def Current (w : SharedStore) (a : ThreadStep) : Prop :=
  ∀ thread order p all, a = .rewrite thread order → w.pending.lookup thread = some p →
    w.file.readAll = .ok all → ∀ token, p.kept.lookup token = (p.removal.kept all).lookup token

/-- No completed save is lost, and no removed session comes back. -/
def KeepsUpdates (w : SharedStore) : Prop := w.Kept ∧ w.Gone

theorem Recorded.load (h : w.Recorded) (token : TokenString) :
    w.file.load token = .ok (sessionOf token w.log) := by
  obtain ⟨sessions, hholds, hlog⟩ := h.holds
  rw [hholds.load, hlog]

theorem Recorded.keepsUpdates (h : w.Recorded) : w.KeepsUpdates := by
  constructor
  · intro newer s older hlog hsaved hremoved
    rw [h.load, hlog]
    refine congrArg Except.ok (sessionOf_append_some ?_ hsaved hremoved)
    rw [sessionOf, if_pos rfl]
  · intro newer r mid s older hlog hsaved hremoves
    rw [h.load, hlog]
    have hmid : ∀ s', Effect.saved s' ∈ mid → s'.token ≠ s.token := fun s' hs' =>
      hsaved s' (mem_append_right newer hs')
    have hnewer : ∀ s', Effect.saved s' ∈ newer → s'.token ≠ s.token := fun s' hs' =>
      hsaved s' (mem_append_left mid hs')
    have hgone : sessionOf s.token (.removed r :: (mid ++ .saved s :: older)) = none := by
      rw [sessionOf]
      have hleft : sessionOf s.token (mid ++ .saved s :: older) = none ∨
          sessionOf s.token (mid ++ .saved s :: older) = sessionOf s.token (.saved s :: older) :=
        sessionOf_append hmid
      rcases hleft with hnone | hsame
      · rw [hnone]
        rfl
      · rw [hsame, sessionOf, if_pos rfl]
        simp [Option.filter, hremoves]
    rcases sessionOf_append hnewer with hnone | hsame
    · exact congrArg Except.ok hnone
    · exact congrArg Except.ok (hsame.trans hgone)

/-- What a call keeps of a map of saved sessions. -/
theorem lookup_kept (hkeyed : ∀ token s, all.lookup token = some s → s.token = token) (token : TokenString) :
    (r.kept all).lookup token = (all.lookup token).filter fun s => !r.removes s := by
  cases r with
  | token t =>
    rw [Removal.kept, lookup_erase_if]
    cases hs : all.lookup token with
    | none => simp
    | some s =>
      have hkey := hkeyed token s hs
      split_ifs with ht
      · simp [Option.filter, Removal.removes, hkey, ht]
      · simp [Option.filter, Removal.removes, hkey, ht]
  | expiredBefore ts =>
    rw [Removal.kept, lookup_retain]
    congr 1
    ext s
    exact (decide_eq_decide.mpr UInt64.not_lt.symm).trans decide_not

theorem Recorded.readAll (h : w.Recorded) : ∃ all, w.file.readAll = .ok all ∧ w.file.Holds all ∧
      ∀ token, all.lookup token = sessionOf token w.log := by
  obtain ⟨sessions, hholds, hlog⟩ := h.holds
  obtain ⟨all, hall, hsame⟩ := hholds.readAll
  exact ⟨all, hall, hholds.congr hsame, fun token => (hsame token).trans (hlog token)⟩

theorem saved_of_sessionOf (h : sessionOf token log = some s) : Effect.saved s ∈ log := by
  obtain ⟨newer, older, rfl, -, -⟩ := sessionOf_some h
  exact mem_append_right newer mem_cons_self

theorem Recorded.lookup_kept (h : w.Recorded) (hall : w.file.readAll = .ok all) (r : Removal)
    (token : TokenString) :
    (r.kept all).lookup token = sessionOf token (.removed r :: w.log) := by
  obtain ⟨all', hall', hholds, hlog⟩ := h.readAll
  cases hall.symm.trans hall'
  rw [SharedStore.lookup_kept (fun _ _ hs => (hholds.keyed hs).1), hlog]
  rfl

theorem Recorded.save (h : w.Recorded) (hs : s.Plain) :
    Recorded { w with file := w.file.save s, log := .saved s :: w.log } := by
  obtain ⟨sessions, hholds, hlog⟩ := h.holds
  refine ⟨⟨_, hholds.save hs, fun token => ?_⟩, ?_⟩
  · rw [lookup_insert_if, hlog]
    rfl
  · intro thread p hp token x hx
    obtain ⟨hkey, hplain, hsaved⟩ := h.pending thread p hp token x hx
    exact ⟨hkey, hplain, mem_cons_of_mem _ hsaved⟩

/-- A removal that finds nothing has the effect of one that removes nothing. -/
theorem kept_of_not_found (h : r.found all = false) (token : TokenString) :
    (r.kept all).lookup token = all.lookup token := by
  cases r with
  | token t =>
    have hnone : all.lookup t = none := not_isSome_iff_eq_none.mp (Bool.eq_false_iff.mp h)
    rw [Removal.kept, lookup_erase_if]
    split_ifs with ht
    · rw [ht, hnone]
    · rfl
  | expiredBefore ts =>
    have hsize := of_decide_eq_false h
    exact lookup_retain_of_size (by rw [Removal.kept] at hsize; omega) token

theorem Recorded.read (h : w.Recorded) (hstep : w.step (.read thread r) = some w') : w'.Recorded := by
  obtain ⟨all, hall, hholds, hlog⟩ := h.readAll
  rw [step, hall] at hstep
  split_ifs at hstep with hbusy
  dsimp only at hstep
  cases hfound : r.found all with
  | true =>
    rw [hfound, if_pos rfl] at hstep
    cases hstep
    refine ⟨h.holds, ?_⟩
    intro thread' p hp token s hs
    rw [lookup_insert_if] at hp
    split_ifs at hp with hthread
    · cases hp
      rw [SharedStore.lookup_kept (fun _ _ hs => (hholds.keyed hs).1), filter_eq_some_iff] at hs
      obtain ⟨hkey, hplain⟩ := hholds.keyed hs.1
      exact ⟨hkey, hplain, saved_of_sessionOf (hlog token ▸ hs.1)⟩
    · exact h.pending thread' p hp token s hs
  | false =>
    rw [hfound, if_neg Bool.false_ne_true] at hstep
    cases hstep
    refine ⟨⟨all, hholds, fun token => ?_⟩, ?_⟩
    · rw [← kept_of_not_found hfound]
      exact h.lookup_kept hall r token
    · intro thread' p hp token s hs
      obtain ⟨hkey, hplain, hsaved⟩ := h.pending thread' p hp token s hs
      exact ⟨hkey, hplain, mem_cons_of_mem _ hsaved⟩

/-- What the file holds after a rewrite. -/
theorem Recorded.holds_rewrite (h : w.Recorded) {p : Pending} (order : IterOrder)
    (hp : w.pending.lookup thread = some p) : (rewrite order p.kept).Holds p.kept := by
  refine FileSessionStore.holds_rewrite order fun token s hs => ?_
  obtain ⟨hkey, hplain, -⟩ := h.pending thread p hp token s hs
  exact ⟨hkey, hplain⟩

theorem Recorded.step (h : w.Recorded) (hplain : w.SavesPlain a) (hcurrent : w.Current a)
    (hstep : w.step a = some w') : w'.Recorded := by
  cases a with
  | save s =>
    cases hstep
    exact h.save (hplain s rfl)
  | read thread r => exact h.read hstep
  | rewrite thread order =>
    obtain ⟨p, hp, rfl⟩ := map_eq_some_iff.mp hstep
    obtain ⟨all, hall, -, -⟩ := h.readAll
    refine ⟨⟨p.kept, h.holds_rewrite order hp, fun token => ?_⟩, ?_⟩
    · rw [hcurrent thread order p all rfl hp hall]
      exact h.lookup_kept hall p.removal token
    · intro thread' p' hp' token s hs
      rw [lookup_erase_if] at hp'
      split_ifs at hp'
      obtain ⟨hkey, hplain', hsaved⟩ := h.pending thread' p' hp' token s hs
      exact ⟨hkey, hplain', mem_cons_of_mem _ hsaved⟩

/-- A rewrite that writes anything else loses a session or brings one back. -/
theorem Recorded.leaves (h : w.Recorded) (hcurrent : ¬w.Current a) (hstep : w.step a = some w') :
    ¬w'.KeepsUpdates := by
  simp only [Current, not_forall] at hcurrent
  obtain ⟨thread, order, p, all, rfl, hp, hall, token, hdiffers⟩ := hcurrent
  obtain ⟨p', hp', rfl⟩ := map_eq_some_iff.mp hstep
  cases hp.symm.trans hp'
  have hload := (h.holds_rewrite order hp).load
  rw [h.lookup_kept hall p.removal token] at hdiffers
  rintro ⟨hkept, hgone⟩
  cases hleft : sessionOf token (.removed p.removal :: w.log) with
  | some s =>
    obtain ⟨newer, older, hlog, hsaved, hremoved⟩ := sessionOf_some hleft
    have hfound := hkept newer s older hlog hsaved hremoved
    rw [hload, sessionOf_token hleft] at hfound
    exact hdiffers ((Except.ok.inj hfound).trans hleft.symm)
  | none =>
    obtain ⟨x, hx⟩ := ne_none_iff_exists'.mp fun hnone => hdiffers (hnone.trans hleft.symm)
    obtain ⟨hkey, -, hsaved⟩ := h.pending thread p hp token x hx
    obtain ⟨newer, r, mid, s', older, hlog, hfree, hremoves, htoken⟩ :=
      sessionOf_none hleft (mem_cons_of_mem _ hsaved) hkey
    have hlost := hgone newer r mid s' older hlog hfree hremoves
    rw [hload, htoken, hx] at hlost
    cases hlost

theorem recorded_start : Recorded start := ⟨⟨∅, holds_new, fun _ => rfl⟩, nofun⟩

/-- **Updates are kept** throughout a run if and only if every rewrite is of the current sessions. -/
theorem updates_kept_iff {steps : List ThreadStep} {w : SharedStore} (hrun : run step start steps = some w)
    (hplain : ∀ s, ThreadStep.save s ∈ steps → s.Plain) :
    Throughout step KeepsUpdates start steps ↔ Along step Current start steps := by
  have hside : Along step SavesPlain start steps := by
    refine along_of_forall ?_ start
    rintro - a ha s rfl
    exact hplain s ha
  exact throughout_iff_along_of_side (fun _ h => Recorded.keepsUpdates h)
    (fun _ _ _ h hplain hcurrent hstep => Recorded.step h hplain hcurrent hstep)
    (fun _ _ _ h _ hcurrent hstep => Recorded.leaves h hcurrent hstep) recorded_start hside hrun

def ann : Session := ⟨"a", 1, 100⟩

def bob : Session := ⟨"b", 2, 200⟩

theorem updates_kept_iff_single : Throughout step KeepsUpdates start [.save ann, .save bob] :=
  (updates_kept_iff rfl (fun s hs => by
    simp only [mem_cons, ThreadStep.save.injEq, not_mem_nil, or_false] at hs
    rcases hs with rfl | rfl <;> decide)).mpr ⟨nofun, fun _ _ => ⟨nofun, fun _ _ => trivial⟩⟩

/-- A session that is saved between the two steps of a deletion is lost. -/
theorem concurrent_save_lost :
    ∃ w, run step start [.save ann, .read 0 (.token "a"), .save bob, .rewrite 0 ⟨id, fun l => .refl l⟩] =
      some w ∧ ¬w.KeepsUpdates := by
  have h₁ : Recorded ⟨start.file.save ann, ∅, [.saved ann]⟩ := recorded_start.save (by decide)
  obtain ⟨all, hall, hholds, hlog⟩ := h₁.readAll
  have hfound : Removal.found (.token "a") all = true := by
    rw [Removal.found, hlog]
    rfl
  have hread : step ⟨start.file.save ann, ∅, [.saved ann]⟩ (.read 0 (.token "a")) =
      some ⟨start.file.save ann, AList.insert 0 ⟨.token "a", all.erase "a"⟩ ∅, [.saved ann]⟩ := by
    rw [step, hall, if_neg (by decide)]
    exact if_pos hfound
  have h₃ := (h₁.read hread).save (s := bob) (by decide)
  obtain ⟨now, hnow, -, -⟩ := h₃.readAll
  have hlost := h₃.leaves (a := .rewrite 0 ⟨id, fun l => .refl l⟩) (fun hcurrent => by
    have hsame := hcurrent 0 _ ⟨.token "a", all.erase "a"⟩ now rfl (AList.lookup_insert _) hnow "b"
    rw [h₃.lookup_kept hnow, Table.lookup_erase_if, hlog] at hsame
    cases hsame) rfl
  refine ⟨_, ?_, hlost⟩
  have hsave : step start (.save ann) = some ⟨start.file.save ann, ∅, [.saved ann]⟩ := rfl
  rw [run_cons, hsave, Option.bind_some, run_cons, hread]
  rfl

end SharedStore
end CenDB.Security
