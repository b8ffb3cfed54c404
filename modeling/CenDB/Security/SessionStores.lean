import CenDB.Lib.Transition
import CenDB.Security.SessionFile

/-! # Two session stores side by side

The same operations on a file store and on an in-memory one.  The file holds what the memory holds as
long as the saved tokens are ASCII text (`Mirrors.step`); the file loses track of any other token as
soon as it is saved (`Mirrors.save_leaves`), because the parser takes each of its bytes for a
character. -/

namespace CenDB.Security

open Transition List

inductive StoreOp
  | save (session : Session)
  | load (token : TokenString)
  | delete (token : TokenString) (order : IterOrder)
  | deleteExpired (beforeTs : UInt64) (order : IterOrder)
  /-- The file store is opened again on its file. -/
  | reopen

inductive Answer
  | done
  | session (s : Option Session)
  | removed (n : ℕ)
  deriving DecidableEq

def InMemorySessionStore.perform (st : InMemorySessionStore) : StoreOp → Answer × InMemorySessionStore
  | .save s => (.done, st.save s)
  | .load token => (.session (st.load token), st)
  | .delete token _ => (.done, st.delete token)
  | .deleteExpired beforeTs _ => (st.deleteExpired beforeTs).map .removed id
  | .reopen => (.done, st)

def FileSessionStore.perform (st : FileSessionStore) : StoreOp → Except StoreError Answer × FileSessionStore
  | .save s => (.ok .done, st.save s)
  | .load token => ((st.load token).map .session, st)
  | .delete token order => (st.delete token order).map (Except.map fun _ => .done) id
  | .deleteExpired beforeTs order => (st.deleteExpired beforeTs order).map (Except.map .removed) id
  | .reopen => (.ok .done, .new st.file)

/-- A file store and an in-memory store after the same operations, with their answers. -/
structure Stores where
  file : FileSessionStore
  memory : InMemorySessionStore
  answers : List (Except StoreError Answer × Answer)

namespace Stores

def start : Stores := ⟨.new none, .new, []⟩

def step (w : Stores) (op : StoreOp) : Option Stores :=
  some ⟨(w.file.perform op).2, (w.memory.perform op).2,
    ((w.file.perform op).1, (w.memory.perform op).1) :: w.answers⟩

/-- All answers so far are the same, and so is the session of every token. -/
def Agree (w : Stores) : Prop :=
  (∀ a ∈ w.answers, a.1 = .ok a.2) ∧ ∀ token, w.file.load token = .ok (w.memory.load token)

/-- The operation saves no token outside ASCII. -/
def SavesPlain (op : StoreOp) : Prop := ∀ s, op = .save s → s.Plain

structure Mirrors (w : Stores) : Prop where
  holds : w.file.Holds w.memory.sessions
  answers : ∀ a ∈ w.answers, a.1 = .ok a.2

variable {w w' : Stores} {op : StoreOp} {s : Session}

theorem mirrors_start : Mirrors start := ⟨FileSessionStore.holds_new, fun _ h => absurd h List.not_mem_nil⟩

theorem Mirrors.agree (h : w.Mirrors) : w.Agree := ⟨h.answers, h.holds.load⟩

theorem Mirrors.perform (h : w.Mirrors) (hop : SavesPlain op) :
    (w.file.perform op).1 = .ok (w.memory.perform op).1 ∧
      (w.file.perform op).2.Holds (w.memory.perform op).2.sessions := by
  cases op with
  | save s => exact ⟨rfl, h.holds.save (hop s rfl)⟩
  | load token => exact ⟨congrArg (Except.map Answer.session) (h.holds.load token), h.holds⟩
  | delete token order =>
    obtain ⟨hanswer, hholds⟩ := h.holds.delete token order
    exact ⟨congrArg (Except.map fun _ => Answer.done) hanswer, hholds⟩
  | deleteExpired beforeTs order =>
    obtain ⟨hanswer, hholds⟩ := h.holds.deleteExpired beforeTs order
    exact ⟨congrArg (Except.map Answer.removed) hanswer, hholds⟩
  | reopen => exact ⟨rfl, h.holds⟩

theorem Mirrors.step (h : w.Mirrors) (hop : SavesPlain op) (hstep : w.step op = some w') : w'.Mirrors := by
  cases hstep
  obtain ⟨hanswer, hholds⟩ := h.perform hop
  exact ⟨hholds, forall_mem_cons.mpr ⟨hanswer, h.answers⟩⟩

/-- A token outside ASCII is not found in the file. -/
theorem Mirrors.load_save (h : w.Mirrors) (hs : ¬s.Plain) : (w.file.save s).load s.token = .ok none := by
  obtain ⟨ss, hplain, hfile, -⟩ := h.holds
  have hfile' : (w.file.save s).file.getD [] = (ss ++ [s]).flatMap FileSessionStore.entry := by
    simp [FileSessionStore.save, hfile]
  have hmissing : (FileSessionStore.readEntries (ss ++ [s]) ∅).lookup s.token = none := by
    rw [FileSessionStore.lookup_readEntries, Table.lastOf_eq_none, map_map]
    intro hmem
    obtain ⟨s', hs', htoken⟩ := List.mem_map.mp hmem
    cases mem_append.mp hs' with
    | inl hold =>
      have hp := hplain s' hold
      rw [Function.comp_apply, hp.asRead] at htoken
      have htoken' : s'.token = s.token := htoken
      rw [Session.Plain, ← htoken'] at hs
      exact hs hp
    | inr hnew =>
      rw [mem_singleton.mp hnew] at htoken
      exact hs (Session.asRead_token.mp htoken)
  rw [FileSessionStore.load, FileSessionStore.readAll_of_entries hfile']
  exact congrArg Except.ok hmissing

theorem Mirrors.save_leaves (h : w.Mirrors) (hop : ¬SavesPlain op) (hstep : w.step op = some w') :
    ¬w'.Agree := by
  simp only [SavesPlain, not_forall] at hop
  obtain ⟨s, rfl, hs⟩ := hop
  cases hstep
  intro hagree
  have hload := (hagree.2 s.token).symm.trans (h.load_save hs)
  rw [show (w.memory.perform (.save s)).2 = w.memory.save s from rfl, InMemorySessionStore.load_save,
    if_pos rfl] at hload
  cases hload

/-- **The stores are interchangeable** throughout a run if and only if every token it saves is ASCII
text. -/
theorem interchangeable_iff (ops : List StoreOp) :
    Throughout step Agree start ops ↔ ∀ s, StoreOp.save s ∈ ops → s.Plain := by
  have hrun : Throughout step Agree start ops ↔ Along step (fun _ op => SavesPlain op) start ops :=
    throughout_iff_along_of_leaves (fun _ h => h.agree) (fun _ _ h => nomatch h)
      (fun _ _ _ h hop hstep => h.step hop hstep) (fun _ _ _ h hop hstep => h.save_leaves hop hstep)
      mirrors_start ops
  have htotal : ∀ w op, ∃ w', step w op = some w' := fun _ _ => ⟨_, rfl⟩
  rw [hrun, along_iff_forall htotal]
  constructor
  · intro hall s hs
    exact hall _ hs s rfl
  · rintro hall op hop s rfl
    exact hall s hop

/-- A session with a token outside ASCII is not found in the file. -/
theorem accented_token_lost :
    ∃ w, run step start [.save ⟨"é", 1, 100⟩, .load "é"] = some w ∧ ¬∀ a ∈ w.answers, a.1 = .ok a.2 := by
  refine ⟨_, rfl, fun hall => ?_⟩
  have hlost : ¬Session.Plain ⟨"é", 1, 100⟩ := by decide
  have hload := (forall_mem_cons.mp hall).1
  have hnone := congrArg (Except.map Answer.session) (mirrors_start.load_save hlost)
  cases hnone.symm.trans hload

end Stores
end CenDB.Security
