import CenDB.Raft.Cluster

/-! # Log matching and durability

The logs of a cluster agree, and an elected leader has what was committed before, as long as
there is one log that all members follow.  `LogInv` states it: every member's log is a prefix of
one global log, the acting leader has all of it, and some member has all that was committed.

Three kinds of steps lose the global log, and `UpToDate` forbids exactly these: the election of
a candidate with a shorter log than some member (voting compares terms only), a replication
while some member's log is shorter than the leader's (the new entry is pushed to the end of
that log, whatever is missing before it), and the loss of the last member that has everything
committed. -/

namespace CenDB.Raft

open Transition RaftCluster List Table

/-- Two logs that hold an entry with the same index and term agree on every earlier position. -/
def LogMatching (s : Sys) : Prop :=
  ∀ x nodeX y nodeY, s.cluster.nodes.lookup x = some nodeX →
    s.cluster.nodes.lookup y = some nodeY → ∀ a ∈ nodeX.log, ∀ b ∈ nodeY.log,
      a.index = b.index → a.term = b.term → ∀ p, p + 1 < a.index → nodeX.log[p]? = nodeY.log[p]?

/-- An elected leader has every entry committed before, at its index. -/
def Durable (s : Sys) : Prop :=
  ∀ e ∈ s.elections, ∀ committed ∈ e.committed, ∀ (p : ℕ) (entry : LogEntry),
    committed[p]? = some entry → e.log[p]? = some entry

/-- A member other than `id` has everything that was committed. -/
def SurvivesLossOf (id : ℕ) (s : Sys) : Prop :=
  (∀ committed ∈ s.committed, committed = []) ∨
    ∃ other node, other ≠ id ∧ s.cluster.nodes.lookup other = some node ∧
      ∀ committed ∈ s.committed, committed <+: node.log

/-- The condition on the state before a step. -/
def UpToDate (s : Sys) : Act → Prop
  | .electLeader candidateId => ∀ candidate, s.cluster.nodes.lookup candidateId = some candidate →
    Wins candidateId (candidate.currentTerm + 1) s.cluster.nodes →
      ∀ id node, s.cluster.nodes.lookup id = some node → node.log.length ≤ candidate.log.length
  | .replicateEntry _ _ => ∀ leaderId leader, s.cluster.leader = some leaderId →
    s.cluster.nodes.lookup leaderId = some leader →
      ∀ id node, s.cluster.nodes.lookup id = some node → leader.log.length ≤ node.log.length
  | .addNode nodeId => ∀ node, s.cluster.nodes.lookup nodeId = some node → SurvivesLossOf nodeId s
  | .removeNode nodeId =>
    ∀ node, s.cluster.nodes.lookup nodeId = some node → SurvivesLossOf nodeId s

/-! ### One log -/

/-- Entries carry their position plus one as their index. -/
def Indexed (log : List LogEntry) : Prop :=
  ∀ (p : ℕ) (entry : LogEntry), log[p]? = some entry → entry.index = p + 1

/-- Every log of the cluster is a prefix of the global log, and the acting leader has all of
it. -/
structure GlobalLog (s : Sys) (log : List LogEntry) : Prop where
  indexed : Indexed log
  members : ∀ id node, s.cluster.nodes.lookup id = some node → node.log <+: log
  committed : ∀ committed ∈ s.committed, committed <+: log
  leader : ∀ id node, s.cluster.leader = some id → s.cluster.nodes.lookup id = some node →
    node.role = .leader → node.log = log

structure LogInv (s : Sys) : Prop where
  global : ∃ log, GlobalLog s log
  /-- Some member has everything that was committed. -/
  survives : (∀ committed ∈ s.committed, committed = []) ∨ ∃ id node, s.cluster.nodes.lookup id = some node ∧
      ∀ committed ∈ s.committed, committed <+: node.log
  durable : Durable s

variable {s s' : Sys}

variable {log log' : List LogEntry} {e : LogEntry} {candidateId id : ℕ} {node : RaftNode} {data : List UInt8}
  {order : List ℕ}

theorem getElem?_initial (h : log <+: log') {p : ℕ} (hp : p < log.length) : log'[p]? = log[p]? := by
  obtain ⟨rest, rfl⟩ := h
  exact getElem?_append_left hp

theorem Indexed.initial (h : log <+: log') (hindexed : Indexed log') : Indexed log := by
  intro p entry hentry
  have hp : p < log.length := (List.getElem?_eq_some_iff.mp hentry).1
  exact hindexed p entry ((getElem?_initial h hp).trans hentry)

theorem Indexed.concat (h : Indexed log) (he : e.index = log.length + 1) : Indexed (log ++ [e]) := by
  intro p entry hentry
  by_cases hp : p < log.length
  · rw [getElem?_append_left hp] at hentry
    exact h p entry hentry
  · have hlast : p < (log ++ [e]).length := (List.getElem?_eq_some_iff.mp hentry).1
    rw [length_append, length_singleton] at hlast
    have hpos : p = log.length := by omega
    rw [hpos, getElem?_concat_length] at hentry
    rw [← Option.some.inj hentry, he, hpos]

/-- An indexed log that holds an entry is at least as long as the entry's index. -/
theorem Indexed.le_length (h : Indexed log) (he : e ∈ log) : e.index ≤ log.length := by
  obtain ⟨p, hp⟩ := mem_iff_getElem?.mp he
  have hlt : p < log.length := (List.getElem?_eq_some_iff.mp hp).1
  rw [h p e hp]
  omega

theorem LogInv.logMatching (hs : LogInv s) : LogMatching s := by
  obtain ⟨log, hlog⟩ := hs.global
  intro x nodeX y nodeY hx hy a ha b hb hindex _ p hp
  have hpx := hlog.members x nodeX hx
  have hpy := hlog.members y nodeY hy
  have hlenX := (hlog.indexed.initial hpx).le_length ha
  have hlenY := (hlog.indexed.initial hpy).le_length hb
  have hX : log[p]? = nodeX.log[p]? := getElem?_initial hpx (by omega)
  have hY : log[p]? = nodeY.log[p]? := getElem?_initial hpy (by omega)
  rw [← hX, hY]

/-- A leader whose log extends everything committed keeps durability. -/
theorem durable_concat (hs : Durable s) {e : Election} (h : s'.elections = s.elections ++ [e])
    (he : ∀ committed ∈ e.committed, committed <+: e.log) : Durable s' := by
  intro e' he' committed hcommitted p entry hentry
  rw [h, mem_append, mem_singleton] at he'
  cases he' with
  | inl hold => exact hs e' hold committed hcommitted p entry hentry
  | inr hnew =>
    rw [hnew] at hcommitted ⊢
    have hp : p < committed.length := (List.getElem?_eq_some_iff.mp hentry).1
    rw [getElem?_initial (he committed hcommitted) hp]
    exact hentry

theorem Durable.of_elections (hs : Durable s) (h : s'.elections = s.elections) : Durable s' := by
  unfold Durable
  rw [h]
  exact hs

/-! ### Elections -/

theorem afterElection_log (candidateId term : ℕ) (won : Bool) (id : ℕ) (node : RaftNode) :
    (afterElection candidateId term won id node).log = node.log := by
  unfold afterElection
  split_ifs
  · rfl
  · rfl
  · rfl
  · rfl

theorem afterElection_role {term : ℕ} (won : Bool) (h : id ≠ candidateId) :
    (afterElection candidateId term won id node).role = node.role := by
  unfold afterElection
  rw [if_neg h]
  split_ifs
  · rfl
  · rfl

/-- A lost election leaves the candidate without the leader's role. -/
theorem afterElection_lost (candidateId term : ℕ) (node : RaftNode) :
    (afterElection candidateId term false candidateId node).role = .candidate := by
  unfold afterElection
  rw [if_pos rfl, if_neg Bool.false_ne_true]
  rfl

theorem LogInv.electLeader (hs : LogInv s) (hok : UpToDate s (.electLeader candidateId))
    (hstep : step s (.electLeader candidateId) = some s') : LogInv s' := by
  obtain ⟨log, hlog⟩ := hs.global
  obtain ⟨candidate, won, hl, hwon, hnodes, hleader, hcommitted, helections⟩ := step_electLeader hstep
  -- a member afterwards is a member before, with the same log
  have hmember (id : ℕ) (node' : RaftNode) (h : s'.cluster.nodes.lookup id = some node') :
      ∃ node, s.cluster.nodes.lookup id = some node ∧ node'.log = node.log ∧
        node' = afterElection candidateId (candidate.currentTerm + 1) won id node := by
    rw [hnodes, lookup_mapWithKey] at h
    obtain ⟨node, hnode, rfl⟩ := Option.map_eq_some_iff.mp h
    exact ⟨node, hnode, afterElection_log _ _ _ _ _, rfl⟩
  have hsurvives : (∀ committed ∈ s'.committed, committed = []) ∨
      ∃ id node, s'.cluster.nodes.lookup id = some node ∧
        ∀ committed ∈ s'.committed, committed <+: node.log := by
    rw [hcommitted]
    refine hs.survives.imp_right ?_
    rintro ⟨id, node, hnode, hpre⟩
    refine ⟨id, afterElection candidateId (candidate.currentTerm + 1) won id node, ?_, ?_⟩
    · rw [hnodes, lookup_mapWithKey, hnode, Option.map_some]
    · rw [afterElection_log]
      exact hpre
  cases won with
  | false =>
    refine ⟨⟨log, hlog.indexed, ?_, ?_, ?_⟩, hsurvives, hs.durable.of_elections helections⟩
    · intro id node' h
      obtain ⟨node, hnode, hsame, -⟩ := hmember id node' h
      rw [hsame]
      exact hlog.members id node hnode
    · rw [hcommitted]
      exact hlog.committed
    · intro id node' hid h hrole
      obtain ⟨node, hnode, hsame, hafter⟩ := hmember id node' h
      have hne : id ≠ candidateId := by
        rintro rfl
        rw [hafter, afterElection_lost] at hrole
        cases hrole
      rw [hafter, afterElection_role false hne] at hrole
      rw [hsame]
      rw [hleader, if_neg Bool.false_ne_true] at hid
      exact hlog.leader id node hid hnode hrole
  | true =>
    have hlongest := hok candidate hl (hwon.mp rfl)
    have hpre (id : ℕ) (node : RaftNode) (hnode : s.cluster.nodes.lookup id = some node) :
        node.log <+: candidate.log :=
      prefix_of_prefix_length_le (hlog.members id node hnode)
        (hlog.members candidateId candidate hl) (hlongest id node hnode)
    -- the candidate's log becomes the global log
    have hall : ∀ committed ∈ s.committed, committed <+: candidate.log := by
      intro committed hmem
      cases hs.survives with
      | inl hnil =>
        rw [hnil committed hmem]
        exact nil_prefix
      | inr hsome =>
        obtain ⟨id, node, hnode, hcover⟩ := hsome
        exact (hcover committed hmem).trans (hpre id node hnode)
    refine ⟨⟨candidate.log, hlog.indexed.initial (hlog.members candidateId candidate hl), ?_,
      ?_, ?_⟩, hsurvives, durable_concat hs.durable helections hall⟩
    · intro id node' h
      obtain ⟨node, hnode, hsame, -⟩ := hmember id node' h
      rw [hsame]
      exact hpre id node hnode
    · rw [hcommitted]
      exact hall
    · intro id node' hid h _
      rw [hleader, if_pos rfl] at hid
      obtain ⟨node, hnode, hsame, -⟩ := hmember id node' h
      rw [← Option.some.inj hid, hl] at hnode
      rw [hsame, ← Option.some.inj hnode]

/-! ### Replication -/

/-- Members with the leader's log get the entry at its place. -/
theorem afterReplication_log {leaderId : ℕ} {leader : RaftNode} (hrole : leader.role = .leader)
    (hid : id = leaderId → node = leader) (hlog : node.log = leader.log) :
    (afterReplication leaderId data ⟨leader.currentTerm, leader.log.length + 1, data⟩ order id
      node).log = leader.log ++ [⟨leader.currentTerm, leader.log.length + 1, data⟩] := by
  unfold afterReplication
  split_ifs with hleader hshort
  · rw [(RaftNode.acknowledgeAll_sameCore _ _ _).log, hid hleader]
    unfold RaftNode.appendEntry
    rw [if_neg (not_not.mpr hrole)]
  · rw [hlog]
  · rw [hlog] at hshort
    exact absurd (Nat.lt_succ_self _) hshort

theorem LogInv.replicateEntry (hs : LogInv s) (hok : UpToDate s (.replicateEntry data order))
    (hstep : step s (.replicateEntry data order) = some s') : LogInv s' := by
  obtain ⟨log, hlog⟩ := hs.global
  obtain ⟨helections, hkeep, hcommitted, hcase⟩ := step_replicateEntry hstep
  have hmem (committed : List LogEntry) (h : committed ∈ s'.committed) :
      committed ∈ s.committed ∨ committed = s'.cluster.committedLog := by
    rwa [hcommitted, mem_append, mem_singleton] at h
  cases hcase with
  | inl hidle =>
    obtain ⟨hnone, hsame⟩ := hidle
    -- without a leader nothing is committed
    have hnil : s'.cluster.committedLog = [] := by
      unfold committedLog
      rw [hsame, hnone, Option.bind_none]
    have hold (committed : List LogEntry) (h : committed ∈ s'.committed) :
        committed ∈ s.committed ∨ committed = [] := hnil ▸ hmem committed h
    refine ⟨⟨log, hlog.indexed, ?_, ?_, ?_⟩, ?_, hs.durable.of_elections helections⟩
    · rw [hsame]
      exact hlog.members
    · intro committed h
      cases hold committed h with
      | inl h => exact hlog.committed committed h
      | inr h => rw [h]; exact nil_prefix
    · rw [hsame]
      exact hlog.leader
    · rw [hsame]
      refine hs.survives.imp (fun hall committed h => ?_) ?_
      · exact (hold committed h).elim (hall committed) id
      · rintro ⟨id, node, hnode, hcover⟩
        refine ⟨id, node, hnode, fun committed h => ?_⟩
        cases hold committed h with
        | inl h => exact hcover committed h
        | inr h => rw [h]; exact nil_prefix
  | inr hpush =>
    obtain ⟨leaderId, leader, hleader, hl, hrole, hnodes⟩ := hpush
    have hfull : leader.log = log := hlog.leader leaderId leader hleader hl hrole
    -- all members have the global log, and all get the entry
    have hmember (id : ℕ) (node' : RaftNode) (h : s'.cluster.nodes.lookup id = some node') :
        node'.log = log ++ [⟨leader.currentTerm, log.length + 1, data⟩] := by
      rw [hnodes, lookup_mapWithKey] at h
      obtain ⟨node, hnode, rfl⟩ := Option.map_eq_some_iff.mp h
      have hequal : node.log = log :=
        (hlog.members id node hnode).eq_of_length_le (hfull ▸ hok leaderId leader hleader hl id node hnode)
      rw [← hfull]
      refine afterReplication_log hrole ?_ (hequal.trans hfull.symm)
      intro hid
      rw [hid, hl] at hnode
      exact (Option.some.inj hnode).symm
    have hall : ∀ committed ∈ s'.committed,
        committed <+: log ++ [⟨leader.currentTerm, log.length + 1, data⟩] := by
      intro committed h
      cases hmem committed h with
      | inl h => exact (hlog.committed committed h).trans (prefix_append _ _)
      | inr h =>
        rw [h, committedLog]
        cases hlead : s'.cluster.leader.bind s'.cluster.nodes.lookup with
        | none => exact nil_prefix
        | some node' =>
          obtain ⟨id, -, hnode'⟩ := Option.bind_eq_some_iff.mp hlead
          dsimp only
          rw [hmember id node' hnode']
          exact take_prefix _ _
    refine ⟨⟨log ++ [⟨leader.currentTerm, log.length + 1, data⟩], hlog.indexed.concat rfl, ?_,
      hall, ?_⟩, .inr ?_, hs.durable.of_elections helections⟩
    · intro id node' h
      rw [hmember id node' h]
    · intro id node' _ h _
      exact hmember id node' h
    · obtain ⟨node', hnode'⟩ : ∃ node', s'.cluster.nodes.lookup leaderId = some node' := by
        rw [hnodes, lookup_mapWithKey, hl]
        exact ⟨_, rfl⟩
      refine ⟨leaderId, node', hnode', ?_⟩
      rw [hmember leaderId node' hnode']
      exact hall

/-! ### Membership -/

/-- A membership change: nobody but `nodeId` leaves, everybody else keeps role and log, and
whoever is new has an empty log and follows. -/
structure Reconfigured (nodeId : ℕ) (s s' : Sys) : Prop where
  elections : s'.elections = s.elections
  committed : s'.committed = s.committed
  leader : s'.cluster.leader = s.cluster.leader
  stays : ∀ id node, id ≠ nodeId → s.cluster.nodes.lookup id = some node →
    ∃ node', s'.cluster.nodes.lookup id = some node' ∧ node'.log = node.log
  members : ∀ id node', s'.cluster.nodes.lookup id = some node' → (node'.log = [] ∧ node'.role = .follower) ∨
      ∃ node, s.cluster.nodes.lookup id = some node ∧ node'.role = node.role ∧ node'.log = node.log

theorem reconfigured_addNode (s : Sys) (nodeId : ℕ) :
    Reconfigured nodeId s { s with cluster := s.cluster.addNode nodeId } where
  elections := rfl
  committed := rfl
  leader := rfl
  stays := by
    intro id node hne hl
    refine ⟨node.addPeer nodeId, ?_, (RaftNode.addPeer_sameCore nodeId node).log⟩
    simp only [addNode, lookup_insert_if, if_neg hne, lookup_mapWithKey, hl, Option.map_some]
  members := by
    intro id node' h
    cases addNode_lookup h with
    | inl hnew =>
      rw [hnew.2]
      exact .inl ⟨rfl, rfl⟩
    | inr hold =>
      obtain ⟨-, node, hnode, hcore⟩ := hold
      exact .inr ⟨node, hnode, hcore.role, hcore.log⟩

theorem reconfigured_removeNode (s : Sys) (nodeId : ℕ) :
    Reconfigured nodeId s { s with cluster := s.cluster.removeNode nodeId } where
  elections := rfl
  committed := rfl
  leader := rfl
  stays := by
    intro id node hne hl
    refine ⟨node.removePeer nodeId, ?_, rfl⟩
    simp only [removeNode, lookup_mapWithKey, lookup_erase_if, if_neg hne, hl, Option.map_some]
  members := by
    intro id node' h
    obtain ⟨-, node, hnode, hcore⟩ := removeNode_lookup h
    exact .inr ⟨node, hnode, hcore.role, hcore.log⟩

theorem LogInv.reconfigure (hs : LogInv s) {nodeId : ℕ} (hstep : Reconfigured nodeId s s')
    (hok : ∀ node, s.cluster.nodes.lookup nodeId = some node → SurvivesLossOf nodeId s) :
    LogInv s' := by
  obtain ⟨log, hlog⟩ := hs.global
  have hother : SurvivesLossOf nodeId s := by
    cases hs.survives with
    | inl hnil => exact .inl hnil
    | inr hsome =>
      obtain ⟨id, node, hnode, hcover⟩ := hsome
      by_cases hid : id = nodeId
      · exact hok node (hid ▸ hnode)
      · exact .inr ⟨id, node, hid, hnode, hcover⟩
  refine ⟨⟨log, hlog.indexed, ?_, ?_, ?_⟩, ?_, hs.durable.of_elections hstep.elections⟩
  · intro id node' h
    cases hstep.members id node' h with
    | inl hnew =>
      rw [hnew.1]
      exact nil_prefix
    | inr hold =>
      obtain ⟨node, hnode, -, hsame⟩ := hold
      rw [hsame]
      exact hlog.members id node hnode
  · rw [hstep.committed]
    exact hlog.committed
  · intro id node' hid h hrole
    cases hstep.members id node' h with
    | inl hnew =>
      rw [hnew.2] at hrole
      cases hrole
    | inr hold =>
      obtain ⟨node, hnode, hsameRole, hsame⟩ := hold
      rw [hsame]
      exact hlog.leader id node (hstep.leader ▸ hid) hnode (hsameRole ▸ hrole)
  · rw [hstep.committed]
    refine hother.imp_right ?_
    rintro ⟨id, node, hne, hnode, hcover⟩
    obtain ⟨node', hnode', hsame⟩ := hstep.stays id node hne hnode
    exact ⟨id, node', hnode', hsame ▸ hcover⟩

/-! ### Every run -/

theorem logInv_init : LogInv Sys.init where
  global := by
    refine ⟨[], ?_, ?_, ?_, ?_⟩
    · intro p entry h
      cases h
    · intro id node hl
      obtain ⟨peers, rfl⟩ := new3Node_lookup hl
      exact nil_prefix
    · intro committed h
      cases h
    · intro id node hid
      cases hid
  survives := by
    left
    intro committed h
    cases h
  durable := by
    intro e he
    cases he

theorem LogInv.step (hs : LogInv s) {a : Act} (hok : UpToDate s a)
    (hstep : step s a = some s') : LogInv s' := by
  cases a with
  | electLeader candidateId => exact hs.electLeader hok hstep
  | replicateEntry data order => exact hs.replicateEntry hok hstep
  | addNode nodeId =>
    cases hstep
    exact hs.reconfigure (reconfigured_addNode s nodeId) hok
  | removeNode nodeId =>
    cases hstep
    exact hs.reconfigure (reconfigured_removeNode s nodeId) hok

/-- **Logs match and committed entries survive in a run of up-to-date steps.** -/
theorem logMatching_durable_of_upToDate {acts : List Act} (hok : Along step UpToDate Sys.init acts) :
    Throughout step (fun s => LogMatching s ∧ Durable s) Sys.init acts :=
  throughout_of_along (fun _ _ _ (hs : LogInv _) hok hstep => hs.step hok hstep)
    (fun _ hs => ⟨hs.logMatching, hs.durable⟩) logInv_init hok

theorem upToDate_electLeader
    (h : ((s.cluster.nodes.lookup candidateId).all fun candidate => (Table.values s.cluster.nodes).all fun node => decide (node.log.length ≤ candidate.log.length)) = true) :
    UpToDate s (.electLeader candidateId) := by
  intro candidate hl _ id node hnode
  rw [hl, Option.all_some, all_eq_true] at h
  exact of_decide_eq_true (h node (mem_values.mpr ⟨id, hnode⟩))

theorem upToDate_replicateEntry
    (h : ((s.cluster.leader.bind s.cluster.nodes.lookup).all fun leader => (Table.values s.cluster.nodes).all fun node => decide (leader.log.length ≤ node.log.length)) = true) :
    UpToDate s (.replicateEntry data order) := by
  intro leaderId leader hleader hl id node hnode
  rw [hleader, Option.bind_some, hl, Option.all_some, all_eq_true] at h
  exact of_decide_eq_true (h node (mem_values.mpr ⟨id, hnode⟩))

/-- Two leaders in a row replicate one entry each. -/
def handover : List Act :=
  [.electLeader 1, .replicateEntry [97] [3, 2], .electLeader 2, .replicateEntry [98] [3, 1]]

theorem logMatching_durable_of_upToDate_handover :
    Throughout step (fun s => LogMatching s ∧ Durable s) Sys.init handover ∧
      (run step Sys.init handover).map (fun s => s.committed) =
        some [[⟨1, 1, [97]⟩], [⟨1, 1, [97]⟩, ⟨2, 2, [98]⟩]] := by
  refine ⟨logMatching_durable_of_upToDate ?_, by decide⟩
  refine along_cons_of (upToDate_electLeader (by decide)) rfl ?_
  refine along_cons_of (upToDate_replicateEntry (by decide)) rfl ?_
  refine along_cons_of (upToDate_electLeader (by decide)) rfl ?_
  refine along_cons_of (upToDate_replicateEntry (by decide)) rfl ?_
  trivial

/-- Member 4 joins after the first entry, receives the second one, and is elected. -/
def lateJoiner : List Act :=
  [.electLeader 1, .replicateEntry [97] [3, 2], .addNode 4, .replicateEntry [98] [4, 3, 2],
    .electLeader 4, .electLeader 4]

/-- The new member holds the second entry at the first position, and leads without the first
one, which was committed. -/
theorem lateJoiner_loses_committed :
    ¬ Throughout step (fun s => LogMatching s ∧ Durable s) Sys.init lateJoiner ∧
      (∃ s, run step Sys.init lateJoiner = some s ∧ ¬ LogMatching s ∧ ¬ Durable s) := by
  have hlogs : (run step Sys.init lateJoiner).map (fun s =>
      ((s.cluster.nodes.lookup 1).map RaftNode.log, (s.cluster.nodes.lookup 4).map RaftNode.log, s.elections)) =
      some (some [⟨1, 1, [97]⟩, ⟨1, 2, [98]⟩], some [⟨1, 2, [98]⟩], [⟨1, 1, [], []⟩, ⟨4, 2, [⟨1, 2, [98]⟩],
          [[⟨1, 1, [97]⟩], [⟨1, 1, [97]⟩, ⟨1, 2, [98]⟩]]⟩]) := by
    decide
  obtain ⟨s, hrun, heq⟩ := Option.map_eq_some_iff.mp hlogs
  obtain ⟨hone, heq⟩ := Prod.mk.inj heq
  obtain ⟨hfour, helections⟩ := Prod.mk.inj heq
  obtain ⟨one, hl₁, hlog₁⟩ := Option.map_eq_some_iff.mp hone
  obtain ⟨four, hl₄, hlog₄⟩ := Option.map_eq_some_iff.mp hfour
  have hmatching : ¬ LogMatching s := by
    intro h
    have hfirst := h 1 one 4 four hl₁ hl₄ ⟨1, 2, [98]⟩ (by simp [hlog₁]) ⟨1, 2, [98]⟩
      (by simp [hlog₄]) rfl rfl 0 (by decide)
    rw [hlog₁, hlog₄] at hfirst
    exact absurd hfirst (by decide)
  have hdurable : ¬ Durable s := by
    intro h
    have hfirst := h ⟨4, 2, [⟨1, 2, [98]⟩], [[⟨1, 1, [97]⟩], [⟨1, 1, [97]⟩, ⟨1, 2, [98]⟩]]⟩
      (by simp [helections]) [⟨1, 1, [97]⟩] (by simp) 0 ⟨1, 1, [97]⟩ rfl
    exact absurd hfirst (by decide)
  exact ⟨fun h => hmatching (h _ s (prefix_refl _) hrun).1, s, hrun, hmatching, hdurable⟩

end CenDB.Raft
