import CenDB.Raft.LogMatching

/-! # Snapshots of the Raft log

A snapshot removes entries from the front of the log, but every other operation goes on taking the
index of an entry for its place in the log plus one.

`Usable` says what holds of a leader's log in a state of a run.  It survives exactly the snapshots
that remove nothing: one taken before anything is committed, and an installed one that is not newer
than what is committed (`Keeps`). -/

namespace CenDB.Raft

open Transition List Option

structure RaftSnapshot where
  lastIncludedIndex : ℕ
  lastIncludedTerm : ℕ
  data : List UInt8
  deriving DecidableEq, Repr

namespace RaftNode

/-- The loop of `apply_committed` for so many rounds. -/
def applyFrom (log : List LogEntry) (lastApplied : ℕ) : ℕ → List LogEntry
  | 0 => []
  | n + 1 => log[lastApplied]?.toList ++ applyFrom log (lastApplied + 1) n

def applyCommitted (node : RaftNode) : List LogEntry × RaftNode :=
  (applyFrom node.log node.lastApplied (node.commitIndex - node.lastApplied),
    { node with lastApplied := max node.lastApplied node.commitIndex })

/-- Snapshot at the commit index; `none` where draining the log panics. -/
def createSnapshot (node : RaftNode) : Option (RaftSnapshot × RaftNode) :=
  let lastIdx := node.commitIndex
  let lastTerm := if 0 < lastIdx then (node.log[lastIdx - 1]?.map LogEntry.term).getD 0 else 0
  let data := (node.log.take lastIdx).flatMap fun entry => entry.data ++ [10]
  if node.log.length < lastIdx then none
  else some (⟨lastIdx, lastTerm, data⟩, { node with log := node.log.drop lastIdx })

def installSnapshot (snapshot : RaftSnapshot) (node : RaftNode) : RaftNode :=
  if snapshot.lastIncludedIndex ≤ node.commitIndex then node
  else
    { node with
      log :=
        if snapshot.lastIncludedIndex ≤ node.log.length then node.log.drop snapshot.lastIncludedIndex
        else node.log
      commitIndex := snapshot.lastIncludedIndex
      lastApplied := snapshot.lastIncludedIndex }

end RaftNode

/-- The calls on a leader. -/
inductive LeaderCall where
  | appendEntry (data : List UInt8)
  | acknowledge (index follower : ℕ)
  | applyCommitted
  | createSnapshot
  | installSnapshot (snapshot : RaftSnapshot)

/-- A leader with what happened to its entries. -/
structure LeaderRun where
  node : RaftNode
  /-- The indices of all entries there were. -/
  used : List ℕ
  /-- The entries that were appended, with the peers that acknowledged them since. -/
  appended : List (LogEntry × Finset ℕ)
  /-- What `apply_committed` returned. -/
  applied : List LogEntry

namespace LeaderRun

def start (node : RaftNode) : LeaderRun := ⟨node, node.log.map LogEntry.index, [], []⟩

/-- An acknowledged index stands for all entries up to it. -/
def acknowledged (index follower : ℕ) (p : LogEntry × Finset ℕ) : LogEntry × Finset ℕ :=
  if p.1.index ≤ index then (p.1, insert follower p.2) else p

/-- A call; `none` where it panics. -/
def step (s : LeaderRun) : LeaderCall → Option LeaderRun
  | .appendEntry data =>
    let (index, node) := s.node.appendEntry data
    some { s with
      node := node
      used := s.used ++ [index]
      appended := s.appended ++ (node.log.drop s.node.log.length).map fun entry => (entry, ∅) }
  | .acknowledge index follower =>
    some { s with
      node := s.node.acknowledge index follower
      appended := s.appended.map (acknowledged index follower) }
  | .applyCommitted =>
    let (entries, node) := s.node.applyCommitted
    some { s with node := node, applied := s.applied ++ entries }
  | .createSnapshot => s.node.createSnapshot.map fun (_, node) => { s with node := node }
  | .installSnapshot snapshot => some { s with node := s.node.installSnapshot snapshot }

/-- A majority of the members, the leader among them, acknowledged the entry. -/
def ByMajority (node : RaftNode) (acks : Finset ℕ) : Prop := acks.Nonempty ∧ node.majority ≤ 1 + acks.card

/-- What is expected of the log of a leader. -/
structure Usable (s : LeaderRun) : Prop where
  noPanic : ∀ call, ∃ s', s.step call = some s'
  /-- The next index is above all indices there were. -/
  fresh : ∀ data, ∀ index ∈ s.used, index < (s.node.appendEntry data).1
  /-- Acknowledged entries are committed, and returned by `apply_committed` the next time at the
  latest. -/
  returned : ∀ entry acks, (entry, acks) ∈ s.appended → ByMajority s.node acks →
    entry.index ≤ s.node.commitIndex ∧ entry ∈ s.applied ++ s.node.applyCommitted.1
  /-- No entry is returned twice, and they are returned in the order of their indices. -/
  inOrder : (s.applied ++ s.node.applyCommitted.1).Pairwise fun e f => e.index < f.index

/-- The snapshot removes nothing. -/
def Keeps (s : LeaderRun) : LeaderCall → Prop
  | .createSnapshot => s.node.commitIndex = 0
  | .installSnapshot snapshot => snapshot.lastIncludedIndex ≤ s.node.commitIndex
  | _ => True

/-- No follower goes back behind what it acknowledged. -/
def Monotone (s : LeaderRun) : LeaderCall → Prop
  | .acknowledge index follower =>
    ∀ earlier, s.node.matchIndex.lookup follower = some earlier → earlier ≤ index
  | _ => True

/-- A leader none of whose entries went into a snapshot. -/
structure Ready (node : RaftNode) : Prop where
  role : node.role = .leader
  indexed : Indexed node.log
  applied_le : node.lastApplied ≤ node.commitIndex
  commit_le : node.commitIndex ≤ node.log.length

/-- An entry of the leader's term, like all behind it. -/
structure InLog (node : RaftNode) (entry : LogEntry) : Prop where
  index_pos : 0 < entry.index
  place : node.log[entry.index - 1]? = some entry
  term : ∀ e ∈ node.log, entry.index ≤ e.index → e.term = node.currentTerm

structure Inv (s : LeaderRun) : Prop where
  ready : Ready s.node
  used_le : ∀ index ∈ s.used, index ≤ s.node.log.length
  used_last : 0 < s.node.log.length → s.node.log.length ∈ s.used
  inLog : ∀ p ∈ s.appended, InLog s.node p.1
  acks : ∀ p ∈ s.appended, ∀ follower ∈ p.2,
    ∃ index, s.node.matchIndex.lookup follower = some index ∧ p.1.index ≤ index
  committed : ∀ p ∈ s.appended, ByMajority s.node p.2 → p.1.index ≤ s.node.commitIndex
  applied : ∃ first ≤ s.node.lastApplied, (∀ p ∈ s.appended, first < p.1.index) ∧
    s.applied = (s.node.log.take s.node.lastApplied).drop first

end LeaderRun

/-! ### Indexed logs -/

theorem Indexed.pairwise {log : List LogEntry} (h : Indexed log) :
    log.Pairwise fun e f => e.index < f.index := by
  refine pairwise_iff_getElem.mpr fun i j hi hj hij => ?_
  rw [h i _ (getElem?_eq_getElem hi), h j _ (getElem?_eq_getElem hj)]
  omega

theorem applyFrom_eq {log : List LogEntry} {lastApplied n : ℕ} (h : lastApplied + n ≤ log.length) :
    RaftNode.applyFrom log lastApplied n = (log.drop lastApplied).take n := by
  induction n generalizing lastApplied with
  | zero => rw [take_zero]; rfl
  | succ n ih =>
    have hlt : lastApplied < log.length := by omega
    rw [RaftNode.applyFrom, ih (by omega), getElem?_eq_getElem hlt, toList_some,
      drop_eq_getElem_cons hlt, take_succ_cons]
    rfl

/-! ### Committing -/

section commit
variable {node : RaftNode}

theorem advanceCommit_le (n : ℕ) : node.advanceCommit n ≤ max node.commitIndex n := by
  induction n with
  | zero => exact le_max_left _ _
  | succ n ih =>
    unfold RaftNode.advanceCommit
    split_ifs <;> omega

theorem le_advanceCommit (n : ℕ) : node.commitIndex ≤ node.advanceCommit n := by
  induction n with
  | zero => exact le_rfl
  | succ n ih =>
    unfold RaftNode.advanceCommit
    split_ifs <;> omega

/-- An index that a majority has is committed, if all entries from there on are of the term. -/
theorem le_advanceCommit_of_replicas {i n : ℕ} (hi : 0 < i) (hn : i ≤ n)
    (hmajority : node.majority ≤ node.replicas i)
    (hterm : ∀ p, i ≤ p + 1 → p < n → node.log[p]?.map LogEntry.term = some node.currentTerm) :
    i ≤ node.advanceCommit n := by
  induction n with
  | zero => omega
  | succ n ih =>
    unfold RaftNode.advanceCommit
    split_ifs with hcommit hreplicas hcurrent
    · omega
    · exact hn
    · exact absurd (hterm n hn (by omega)) hcurrent
    · have hne : i ≠ n + 1 := by
        rintro rfl
        exact hreplicas hmajority
      exact ih (by omega) fun p hp hlt => hterm p hp (by omega)

/-- Peers that acknowledged an index or a later one count as its replicas. -/
theorem card_le_replicas {acks : Finset ℕ} {i : ℕ}
    (h : ∀ follower ∈ acks, ∃ index, node.matchIndex.lookup follower = some index ∧ i ≤ index) :
    1 + acks.card ≤ node.replicas i := by
  rw [RaftNode.replicas, Table.length_filter_values]
  refine Nat.add_le_add_left (Table.card_le_count fun follower hf => ?_) 1
  obtain ⟨index, hindex, hle⟩ := h follower hf
  exact ⟨index, hindex, decide_eq_true hle⟩

end commit

namespace LeaderRun

variable {s s' : LeaderRun}

/-! ### What holds of every usable leader -/

theorem Inv.start {node : RaftNode} (h : Ready node) : Inv (start node) where
  ready := h
  used_le := by
    intro index hindex
    obtain ⟨entry, hentry, rfl⟩ := List.mem_map.mp hindex
    exact h.indexed.le_length hentry
  used_last := by
    intro hpos
    have hlast := getElem?_eq_getElem (Nat.sub_one_lt_of_lt hpos)
    have hindex := h.indexed _ _ hlast
    refine List.mem_map.mpr ⟨_, getElem_mem (Nat.sub_one_lt_of_lt hpos), ?_⟩
    rw [hindex]
    exact Nat.sub_add_cancel hpos
  inLog := nofun
  acks := nofun
  committed := nofun
  applied := ⟨node.lastApplied, le_rfl, nofun, by simp [LeaderRun.start]⟩

theorem Inv.appendEntry (h : Inv s) (data : List UInt8) (hstep : s.step (.appendEntry data) = some s') :
    Inv s' := by
  obtain ⟨⟨hrole, hindexed, happlied, hcommit⟩, hused, hlast, hlog, hacks, hcommitted, first, hfirst,
    hafter, hreturned⟩ := h
  set entry : LogEntry := ⟨s.node.currentTerm, s.node.log.length + 1, data⟩ with hentry
  have hnode : s.node.appendEntry data =
      (s.node.log.length + 1, { s.node with log := s.node.log ++ [entry] }) := by
    rw [RaftNode.appendEntry, if_neg (not_not.mpr hrole)]
  simp only [step, hnode, drop_left, map_singleton, some_inj] at hstep
  subst hstep
  have hnew : InLog { s.node with log := s.node.log ++ [entry] } entry := by
    refine ⟨Nat.succ_pos _, getElem?_concat_length, fun e he hle => ?_⟩
    cases mem_append.mp he with
    | inl hold =>
      have hbound := hindexed.le_length hold
      have hle' : s.node.log.length + 1 ≤ e.index := hle
      omega
    | inr hmem => rw [mem_singleton.mp hmem]
  refine ⟨⟨hrole, hindexed.concat rfl, happlied, ?_⟩, ?_, ?_, ?_, ?_, ?_, first, hfirst, ?_, ?_⟩
  · simp only [length_append]
    omega
  · simp only [length_append, length_singleton, mem_append, mem_singleton]
    rintro index (hold | rfl)
    · exact (hused index hold).trans (Nat.le_succ _)
    · exact le_rfl
  · simp
  · intro p hp
    cases mem_append.mp hp with
    | inl hold =>
      obtain ⟨hpos, hplace, hterm⟩ := hlog p hold
      refine ⟨hpos, ?_, fun e he hle => ?_⟩
      · rwa [getElem?_append_left (List.getElem?_eq_some_iff.mp hplace).1]
      · cases mem_append.mp he with
        | inl hmem => exact hterm e hmem hle
        | inr hmem => rw [mem_singleton.mp hmem]
    | inr hmem =>
      rw [mem_singleton.mp hmem]
      exact hnew
  · intro p hp
    cases mem_append.mp hp with
    | inl hold => exact hacks p hold
    | inr hmem =>
      rw [mem_singleton.mp hmem]
      intro f hf
      exact absurd hf (Finset.notMem_empty f)
  · intro p hp hmajority
    cases mem_append.mp hp with
    | inl hold => exact hcommitted p hold hmajority
    | inr hmem =>
      rw [mem_singleton.mp hmem] at hmajority
      exact absurd hmajority.1 Finset.not_nonempty_empty
  · intro p hp
    cases mem_append.mp hp with
    | inl hold => exact hafter p hold
    | inr hmem =>
      rw [mem_singleton.mp hmem]
      show first < s.node.log.length + 1
      omega
  · rw [hreturned, take_append_of_le_length (happlied.trans hcommit)]

theorem Inv.acknowledge (h : Inv s) {index follower : ℕ} (hmono : Monotone s (.acknowledge index follower))
    (hstep : s.step (.acknowledge index follower) = some s') : Inv s' := by
  have hnode : s.node.acknowledge index follower =
      { s.node with
        matchIndex := AList.insert follower index s.node.matchIndex
        nextIndex := AList.insert follower (index + 1) s.node.nextIndex
        commitIndex := RaftNode.advanceCommit { s.node with
          matchIndex := AList.insert follower index s.node.matchIndex
          nextIndex := AList.insert follower (index + 1) s.node.nextIndex } s.node.log.length } := by
    rw [RaftNode.acknowledge, if_neg (not_not.mpr h.ready.role)]
  set table := AList.insert follower index s.node.matchIndex
  set next := AList.insert follower (index + 1) s.node.nextIndex
  rw [step, hnode, some_inj] at hstep
  subst hstep
  have hle : s.node.commitIndex ≤ RaftNode.advanceCommit
      { s.node with matchIndex := table, nextIndex := next } s.node.log.length :=
    @le_advanceCommit { s.node with matchIndex := table, nextIndex := next } s.node.log.length
  have hacks : ∀ p ∈ s.appended, ∀ f ∈ (acknowledged index follower p).2,
      ∃ i, table.lookup f = some i ∧ p.1.index ≤ i := by
    intro p hp f hf
    by_cases hsame : f = follower
    · subst hsame
      refine ⟨index, AList.lookup_insert _, ?_⟩
      by_contra hgt
      rw [acknowledged, if_neg hgt] at hf
      obtain ⟨earlier, hearlier, hge⟩ := h.acks p hp f hf
      exact hgt (hge.trans (hmono earlier hearlier))
    · have hold : f ∈ p.2 := by
        unfold acknowledged at hf
        split_ifs at hf
        · exact Finset.mem_of_mem_insert_of_ne hf hsame
        · exact hf
      obtain ⟨i, hi, hge⟩ := h.acks p hp f hold
      exact ⟨i, by rw [AList.lookup_insert_ne hsame, hi], hge⟩
  have hfst (p : LogEntry × Finset ℕ) : (acknowledged index follower p).1 = p.1 := by
    unfold acknowledged
    split_ifs <;> rfl
  refine ⟨⟨h.ready.role, h.ready.indexed, h.ready.applied_le.trans hle, ?_⟩, h.used_le, h.used_last,
    ?_, ?_, ?_, ?_⟩
  · exact (advanceCommit_le _).trans (max_le h.ready.commit_le le_rfl)
  · intro q hq
    obtain ⟨p, hp, rfl⟩ := List.mem_map.mp hq
    rw [hfst]
    obtain ⟨hpos, hplace, hterm⟩ := h.inLog p hp
    exact ⟨hpos, hplace, hterm⟩
  · intro q hq
    obtain ⟨p, hp, rfl⟩ := List.mem_map.mp hq
    rw [hfst]
    exact hacks p hp
  · intro q hq hmajority
    obtain ⟨p, hp, rfl⟩ := List.mem_map.mp hq
    rw [hfst]
    obtain ⟨hpos, hplace, hterm⟩ := h.inLog p hp
    have hlen := h.ready.indexed.le_length (mem_of_getElem? hplace)
    refine le_advanceCommit_of_replicas hpos hlen ?_ fun i hi hlt => ?_
    · exact hmajority.2.trans (card_le_replicas (hacks p hp))
    · have hget := getElem?_eq_getElem hlt
      rw [hget, map_some, hterm _ (getElem_mem hlt) (by rw [h.ready.indexed i _ hget]; exact hi)]
  · obtain ⟨first, hfirst, hafter, hreturned⟩ := h.applied
    refine ⟨first, hfirst, fun q hq => ?_, hreturned⟩
    obtain ⟨p, hp, rfl⟩ := List.mem_map.mp hq
    rw [hfst]
    exact hafter p hp

/-- What was returned, and what is returned next. -/
theorem Inv.returned_eq (h : Inv s) : ∃ first ≤ s.node.lastApplied,
    (∀ p ∈ s.appended, first < p.1.index) ∧ s.applied ++ s.node.applyCommitted.1 = (s.node.log.take s.node.commitIndex).drop first := by
  obtain ⟨first, hfirst, hafter, hreturned⟩ := h.applied
  have happlied := h.ready.applied_le
  have hcommit := h.ready.commit_le
  refine ⟨first, hfirst, hafter, ?_⟩
  have hsplit : s.node.commitIndex = s.node.lastApplied + (s.node.commitIndex - s.node.lastApplied) := by
    omega
  rw [RaftNode.applyCommitted, applyFrom_eq (by omega), hreturned]
  conv_rhs => rw [hsplit, take_add]
  rw [drop_append_of_le_length]
  rw [length_take]
  omega

theorem Inv.applyCommitted (h : Inv s) (hstep : s.step .applyCommitted = some s') : Inv s' := by
  obtain ⟨first, hle, hafter, hreturned⟩ := h.returned_eq
  have hmax : max s.node.lastApplied s.node.commitIndex = s.node.commitIndex := max_eq_right h.ready.applied_le
  rw [step, some_inj] at hstep
  subst hstep
  refine ⟨⟨h.ready.role, h.ready.indexed, ?_, h.ready.commit_le⟩, h.used_le, h.used_last,
    fun p hp => ?_, h.acks, h.committed, ?_⟩
  · exact hmax.le
  · obtain ⟨hpos, hplace, hterm⟩ := h.inLog p hp
    exact ⟨hpos, hplace, hterm⟩
  · refine ⟨first, hle.trans (le_max_left _ _), hafter, ?_⟩
    show _ = (s.node.log.take (max s.node.lastApplied s.node.commitIndex)).drop first
    rw [hmax, ← hreturned]

theorem Inv.usable (h : Inv s) : Usable s := by
  obtain ⟨first, hle, hafter, hreturned⟩ := h.returned_eq
  refine ⟨fun call => ?_, fun data index hindex => ?_, fun entry acks hmem hmajority => ?_, ?_⟩
  · cases call with
    | createSnapshot =>
      simp only [step, RaftNode.createSnapshot]
      rw [if_neg (not_lt.mpr h.ready.commit_le)]
      exact ⟨_, rfl⟩
    | _ => exact ⟨_, rfl⟩
  · rw [RaftNode.appendEntry, if_neg (not_not.mpr h.ready.role)]
    exact Nat.lt_succ_of_le (h.used_le index hindex)
  · have hcommitted : entry.index ≤ s.node.commitIndex := h.committed _ hmem hmajority
    refine ⟨hcommitted, ?_⟩
    have hfirst : first < entry.index := hafter _ hmem
    have hplace : s.node.log[entry.index - 1]? = some entry := (h.inLog _ hmem).place
    rw [hreturned]
    refine mem_iff_getElem?.mpr ⟨entry.index - 1 - first, ?_⟩
    rw [getElem?_drop, Nat.add_sub_of_le (by omega), getElem?_take_of_lt (by omega), hplace]
  · rw [hreturned]
    exact h.ready.indexed.pairwise.sublist ((drop_sublist _ _).trans (take_sublist _ _))

/-- A snapshot that removes nothing changes nothing. -/
theorem Inv.step (h : Inv s) {call : LeaderCall} (hmono : Monotone s call) (hkeeps : Keeps s call)
    (hstep : s.step call = some s') : Inv s' := by
  cases call with
  | appendEntry data => exact h.appendEntry data hstep
  | acknowledge index follower => exact h.acknowledge hmono hstep
  | applyCommitted => exact h.applyCommitted hstep
  | createSnapshot =>
    have hzero : s.node.commitIndex = 0 := hkeeps
    have hlog : s.node.log.drop s.node.commitIndex = s.node.log := by rw [hzero, drop_zero]
    simp only [LeaderRun.step, RaftNode.createSnapshot, hlog] at hstep
    rw [if_neg (not_lt.mpr h.ready.commit_le), map_some, some_inj] at hstep
    exact hstep ▸ h
  | installSnapshot snapshot =>
    simp only [LeaderRun.step, RaftNode.installSnapshot] at hstep
    rw [if_pos (show snapshot.lastIncludedIndex ≤ s.node.commitIndex from hkeeps), some_inj] at hstep
    exact hstep ▸ h

end LeaderRun

end CenDB.Raft
