import CenDB.Lib.Transition
import CenDB.Raft.Node

/-! # A Raft cluster

`RaftCluster` is a single-process simulation: an election and a replication are one call each,
which visits every member.  The voting loop and the push to the followers treat each member by
itself, so a call rewrites the member table in place; `electLeader_some` and
`replicateEntry_some` say how.

A call that panics (the candidate or the leader is not a member, or the leader has lost its
role) returns `none`.

`Sys` adds what an observer of a run knows: the elections that were won, with the winner's log
and what was committed before, and the logs that leaders have committed. -/

namespace CenDB.Raft

open List Option Table

structure RaftCluster where
  nodes : Table ℕ RaftNode
  leader : Option ℕ

namespace RaftCluster

/-- Create a 3-node cluster. -/
def new3Node : RaftCluster :=
  let peerIds := [1, 2, 3]
  { nodes := peerIds.foldl
      (fun nodes id => AList.insert id (RaftNode.new id (peerIds.filter fun p => p ≠ id)) nodes) ∅
    leader := none }

/-- The candidate's own vote and those of the members that grant one. -/
def votes (candidateId term : ℕ) (nodes : Table ℕ RaftNode) : ℕ :=
  1 + nodes.count fun id node => decide (id ≠ candidateId) && node.grantsVote term

/-- The voting loop of `elect_leader`. -/
def collectVotes (candidateId term : ℕ) (nodes : Table ℕ RaftNode) : ℕ × Table ℕ RaftNode :=
  (votes candidateId term nodes, nodes.mapWithKey fun id node =>
      if id ≠ candidateId ∧ node.grantsVote term then node.vote term candidateId else node)

/-- Elect a leader: the candidate starts an election and collects votes. -/
def electLeader (candidateId : ℕ) (c : RaftCluster) : Option (Bool × RaftCluster) :=
  match c.nodes.lookup candidateId with
  | none => none
  | some candidate =>
    let term := candidate.startElection.currentTerm
    let (votes, nodes) := collectVotes candidateId term (c.nodes.update candidateId RaftNode.startElection)
    let majority := nodes.size / 2 + 1
    if majority ≤ votes then
      some (true, ⟨nodes.update candidateId RaftNode.becomeLeader, some candidateId⟩)
    else some (false, { c with nodes := nodes })

/-- The members other than the leader. -/
def followerIds (c : RaftCluster) : List ℕ := c.nodes.keys.filter fun id => some id ≠ c.leader

/-- Replicate an entry from the leader to the followers; returns its index, or 0 when there is
no leader.  The followers acknowledge in the order in which the map lists them, which is given. -/
def replicateEntry (data : List UInt8) (order : List ℕ) (c : RaftCluster) : Option (ℕ × RaftCluster) :=
  match c.leader with
  | none => some (0, c)
  | some leaderId =>
    match c.nodes.lookup leaderId with
    | none => none
    | some leader =>
      let (index, leader) := leader.appendEntry data
      -- without an appended entry `index - 1` is no position
      if index = 0 then none
      else
        match leader.log[index - 1]? with
        | none => none
        | some entry =>
          let nodes := c.nodes.update leaderId fun node => (node.appendEntry data).2
          let nodes := nodes.mapWithKey fun id node =>
            if id ≠ leaderId ∧ node.log.length < index then
              { node with log := node.log ++ [entry] }
            else node
          let nodes := nodes.update leaderId (RaftNode.acknowledgeAll index order)
          some (index, { c with nodes := nodes })

/-- Add a new node to the cluster; a member with this id is replaced. -/
def addNode (nodeId : ℕ) (c : RaftCluster) : RaftCluster :=
  let peers := c.nodes.keys
  { c with
    nodes := AList.insert nodeId (RaftNode.new nodeId peers)
      (c.nodes.mapWithKey fun _ => RaftNode.addPeer nodeId) }

/-- Remove a node from the cluster. -/
def removeNode (nodeId : ℕ) (c : RaftCluster) : RaftCluster :=
  { c with
    nodes := Table.mapWithKey (fun _ => RaftNode.removePeer nodeId) (AList.erase nodeId c.nodes) }

/-- The committed part of the leader's log. -/
def committedLog (c : RaftCluster) : List LogEntry :=
  match c.leader.bind c.nodes.lookup with
  | none => []
  | some leader => leader.log.take leader.commitIndex

/-! ### What a call does to the members -/

theorem new3Node_lookup {id : ℕ} {node : RaftNode} (h : new3Node.nodes.lookup id = some node) :
    ∃ peers, node = RaftNode.new id peers := by
  simp only [new3Node, foldl_cons, foldl_nil, lookup_insert_if] at h
  split_ifs at h with h₃ h₂ h₁
  · exact ⟨_, h₃ ▸ (Option.some.inj h).symm⟩
  · exact ⟨_, h₂ ▸ (Option.some.inj h).symm⟩
  · exact ⟨_, h₁ ▸ (Option.some.inj h).symm⟩
  · cases h

/-- A member after an election. -/
def afterElection (candidateId term : ℕ) (won : Bool) (id : ℕ) (node : RaftNode) : RaftNode :=
  if id = candidateId then
    if won then node.startElection.becomeLeader else node.startElection
  else if node.grantsVote term then node.vote term candidateId else node

/-- A majority of the members, the candidate included, votes for it. -/
def Wins (candidateId term : ℕ) (nodes : Table ℕ RaftNode) : Prop :=
  nodes.size / 2 + 1 ≤ votes candidateId term nodes

instance (candidateId term : ℕ) (nodes : Table ℕ RaftNode) : Decidable (Wins candidateId term nodes) :=
  inferInstanceAs (Decidable (_ ≤ _))

variable {c c' : RaftCluster}

/-- The candidate's own record does not matter for the votes. -/
theorem votes_update (candidateId term : ℕ) (f : RaftNode → RaftNode) (nodes : Table ℕ RaftNode) :
    votes candidateId term (nodes.update candidateId f) = votes candidateId term nodes := by
  unfold votes Table.update
  rw [count_mapWithKey]
  congr 2
  funext id node
  by_cases hid : id = candidateId
  · simp [hid]
  · simp [hid]

variable {candidateId : ℕ}

theorem electLeader_eq {candidate : RaftNode} (h : c.nodes.lookup candidateId = some candidate) :
    c.electLeader candidateId = let term := candidate.currentTerm + 1
      let won := decide (Wins candidateId term c.nodes)
      some (won, ⟨c.nodes.mapWithKey (afterElection candidateId term won),
        if won then some candidateId else c.leader⟩) := by
  have hwins : (collectVotes candidateId (candidate.currentTerm + 1)
      (c.nodes.update candidateId RaftNode.startElection)).2.size / 2 + 1 ≤
      (collectVotes candidateId (candidate.currentTerm + 1)
        (c.nodes.update candidateId RaftNode.startElection)).1 ↔
      Wins candidateId (candidate.currentTerm + 1) c.nodes := by
    unfold collectVotes Wins
    rw [votes_update, size_mapWithKey, Table.update, size_mapWithKey]
  -- the passes over the table, one after the other
  have hvoted : (collectVotes candidateId (candidate.currentTerm + 1)
      (c.nodes.update candidateId RaftNode.startElection)).2 =
      c.nodes.mapWithKey (afterElection candidateId (candidate.currentTerm + 1) false) := by
    unfold collectVotes Table.update
    rw [mapWithKey_mapWithKey]
    dsimp only
    congr 1
    funext id node
    unfold afterElection
    by_cases hid : id = candidateId
    · simp [hid]
    · simp [hid]
  have hcrowned : (c.nodes.mapWithKey (afterElection candidateId (candidate.currentTerm + 1)
      false)).update candidateId RaftNode.becomeLeader =
      c.nodes.mapWithKey (afterElection candidateId (candidate.currentTerm + 1) true) := by
    unfold Table.update
    rw [mapWithKey_mapWithKey]
    congr 1
    funext id node
    unfold afterElection
    by_cases hid : id = candidateId
    · simp [hid]
    · simp [hid]
  have hterm : candidate.startElection.currentTerm = candidate.currentTerm + 1 := rfl
  unfold electLeader
  simp only [h, hterm]
  by_cases hw : Wins candidateId (candidate.currentTerm + 1) c.nodes
  · rw [if_pos (hwins.mpr hw), decide_eq_true hw, hvoted, hcrowned]
    rfl
  · rw [if_neg fun hle => hw (hwins.mp hle), decide_eq_false hw, hvoted]
    rfl

/-- An election that returns is one of a member, which wins with a majority of the votes. -/
theorem electLeader_some {won : Bool} (h : c.electLeader candidateId = some (won, c')) :
    ∃ candidate, c.nodes.lookup candidateId = some candidate ∧
      (won = true ↔ Wins candidateId (candidate.currentTerm + 1) c.nodes) ∧
      c'.nodes = c.nodes.mapWithKey (afterElection candidateId (candidate.currentTerm + 1) won) ∧
      c'.leader = if won then some candidateId else c.leader := by
  cases hl : c.nodes.lookup candidateId with
  | none =>
    unfold electLeader at h
    rw [hl] at h
    cases h
  | some candidate =>
    rw [electLeader_eq hl] at h
    cases h
    exact ⟨candidate, rfl, decide_eq_true_iff, rfl, rfl⟩

/-- A member after a replication. -/
def afterReplication (leaderId : ℕ) (data : List UInt8) (entry : LogEntry)
    (order : List ℕ) (id : ℕ) (node : RaftNode) : RaftNode :=
  if id = leaderId then (node.appendEntry data).2.acknowledgeAll entry.index order
  else if node.log.length < entry.index then { node with log := node.log ++ [entry] }
  else node

/-- A replication that returns does nothing without a leader; otherwise the leader appends an
entry and pushes it to every shorter log. -/
theorem replicateEntry_some {data : List UInt8} {order : List ℕ} {index : ℕ}
    (h : c.replicateEntry data order = some (index, c')) :
    (c.leader = none ∧ c' = c) ∨
    ∃ leaderId leader, c.leader = some leaderId ∧ c.nodes.lookup leaderId = some leader ∧
      leader.role = .leader ∧ c'.leader = c.leader ∧
      c'.nodes = c.nodes.mapWithKey (afterReplication leaderId data
        ⟨leader.currentTerm, leader.log.length + 1, data⟩ order) := by
  unfold replicateEntry at h
  cases hleader : c.leader with
  | none =>
    rw [hleader] at h
    exact .inl ⟨rfl, (Prod.mk.inj (Option.some.inj h)).2.symm⟩
  | some leaderId =>
    rw [hleader] at h
    right
    cases hl : c.nodes.lookup leaderId with
    | none =>
      simp only [hl] at h
      cases h
    | some leader =>
      simp only [hl] at h
      by_cases hrole : leader.role = .leader
      · have happend : leader.appendEntry data = (leader.log.length + 1, { leader with
            log := leader.log ++ [⟨leader.currentTerm, leader.log.length + 1, data⟩] }) := by
          simp [RaftNode.appendEntry, hrole]
        simp only [happend, Nat.succ_ne_zero, if_false, Nat.add_sub_cancel, getElem?_concat_length] at h
        obtain ⟨-, rfl⟩ := Prod.mk.inj (Option.some.inj h)
        refine ⟨leaderId, leader, rfl, hl, hrole, rfl, ?_⟩
        simp only [Table.update, mapWithKey_mapWithKey]
        congr 1
        funext id node
        unfold afterReplication
        by_cases hid : id = leaderId
        · simp [hid]
        · simp [hid]
      · simp [RaftNode.appendEntry, hrole] at h

end RaftCluster

/-! ### Runs -/

/-- A won election: the leader's log at that time, and what was committed before. -/
structure Election where
  node : ℕ
  term : ℕ
  log : List LogEntry
  committed : List (List LogEntry)
  deriving DecidableEq, Repr

structure Sys where
  cluster : RaftCluster
  /-- The elections won so far. -/
  elections : List Election
  /-- The committed part of the leader's log after each replication. -/
  committed : List (List LogEntry)

namespace Sys

def init : Sys := ⟨.new3Node, [], []⟩

/-- The election is recorded when the candidate has won. -/
def recordElection (candidateId : ℕ) (won : Bool) (s : Sys) : Sys :=
  match s.cluster.nodes.lookup candidateId with
  | none => s
  | some leader =>
    if won then
      { s with
        elections := s.elections ++ [⟨candidateId, leader.currentTerm, leader.log, s.committed⟩] }
    else s

end Sys

inductive Act where
  | electLeader (candidateId : ℕ)
  /-- `order` is the order in which the map lists the followers. -/
  | replicateEntry (data : List UInt8) (order : List ℕ)
  | addNode (nodeId : ℕ)
  | removeNode (nodeId : ℕ)
  deriving DecidableEq, Repr

def step (s : Sys) : Act → Option Sys
  | .electLeader candidateId =>
    (s.cluster.electLeader candidateId).map fun r =>
      Sys.recordElection candidateId r.1 { s with cluster := r.2 }
  | .replicateEntry data order =>
    if order.Perm s.cluster.followerIds then
      (s.cluster.replicateEntry data order).map fun r =>
        { s with cluster := r.2, committed := s.committed ++ [r.2.committedLog] }
    else none
  | .addNode nodeId => some { s with cluster := s.cluster.addNode nodeId }
  | .removeNode nodeId => some { s with cluster := s.cluster.removeNode nodeId }

open RaftCluster

variable {s s' : Sys}

/-- What an election does: every member is rewritten, and a win is recorded with the candidate's
log. -/
theorem step_electLeader {candidateId : ℕ} (h : step s (.electLeader candidateId) = some s') :
    ∃ candidate won, s.cluster.nodes.lookup candidateId = some candidate ∧
      (won = true ↔ Wins candidateId (candidate.currentTerm + 1) s.cluster.nodes) ∧
      s'.cluster.nodes = s.cluster.nodes.mapWithKey
        (afterElection candidateId (candidate.currentTerm + 1) won) ∧
      s'.cluster.leader = (if won then some candidateId else s.cluster.leader) ∧
      s'.committed = s.committed ∧
      s'.elections = if won then
        s.elections ++ [⟨candidateId, candidate.currentTerm + 1, candidate.log, s.committed⟩]
      else s.elections := by
  obtain ⟨⟨won, c'⟩, hcall, rfl⟩ := map_eq_some_iff.mp h
  obtain ⟨candidate, hl, hwon, hnodes, hleader⟩ := electLeader_some hcall
  have hnew : c'.nodes.lookup candidateId =
      some (afterElection candidateId (candidate.currentTerm + 1) won candidateId candidate) := by
    rw [hnodes, lookup_mapWithKey, hl, map_some]
  refine ⟨candidate, won, hl, hwon, ?_⟩
  unfold Sys.recordElection
  simp only [hnew]
  cases won with
  | true =>
    rw [if_pos rfl, if_pos rfl]
    refine ⟨hnodes, hleader, rfl, ?_⟩
    simp [afterElection, RaftNode.becomeLeader, RaftNode.startElection]
  | false =>
    rw [if_neg Bool.false_ne_true, if_neg Bool.false_ne_true]
    exact ⟨hnodes, hleader, rfl, rfl⟩

/-- What a replication does: nothing without a leader; otherwise it appends and pushes an entry,
and records the committed part of the leader's log. -/
theorem step_replicateEntry {data : List UInt8} {order : List ℕ}
    (h : step s (.replicateEntry data order) = some s') :
    s'.elections = s.elections ∧ s'.cluster.leader = s.cluster.leader ∧
      s'.committed = s.committed ++ [s'.cluster.committedLog] ∧
      ((s.cluster.leader = none ∧ s'.cluster = s.cluster) ∨
      ∃ leaderId leader, s.cluster.leader = some leaderId ∧
        s.cluster.nodes.lookup leaderId = some leader ∧ leader.role = .leader ∧
        s'.cluster.nodes = s.cluster.nodes.mapWithKey (afterReplication leaderId data
          ⟨leader.currentTerm, leader.log.length + 1, data⟩ order)) := by
  simp only [step] at h
  split_ifs at h
  obtain ⟨⟨index, c'⟩, hcall, rfl⟩ := map_eq_some_iff.mp h
  cases replicateEntry_some hcall with
  | inl hnone =>
    obtain ⟨hleader, rfl⟩ := hnone
    exact ⟨rfl, rfl, rfl, .inl ⟨hleader, rfl⟩⟩
  | inr hsome =>
    obtain ⟨leaderId, leader, hleader, hl, hrole, hkeep, hnodes⟩ := hsome
    exact ⟨rfl, hkeep, rfl, .inr ⟨leaderId, leader, hleader, hl, hrole, hnodes⟩⟩

variable {c : RaftCluster} {nodeId id : ℕ} {node' : RaftNode}

theorem addNode_lookup (h : (c.addNode nodeId).nodes.lookup id = some node') :
    (id = nodeId ∧ node' = RaftNode.new nodeId c.nodes.keys) ∨
      (id ≠ nodeId ∧ ∃ node, c.nodes.lookup id = some node ∧ RaftNode.SameCore node node') := by
  simp only [addNode, lookup_insert_if, lookup_mapWithKey] at h
  split_ifs at h with hid
  · exact .inl ⟨hid, (Option.some.inj h).symm⟩
  · obtain ⟨node, hl, rfl⟩ := map_eq_some_iff.mp h
    exact .inr ⟨hid, node, hl, RaftNode.addPeer_sameCore nodeId node⟩

theorem removeNode_lookup (h : (c.removeNode nodeId).nodes.lookup id = some node') :
    id ≠ nodeId ∧ ∃ node, c.nodes.lookup id = some node ∧ RaftNode.SameCore node node' := by
  simp only [removeNode, lookup_mapWithKey, lookup_erase_if] at h
  split_ifs at h with hid
  · cases h
  · obtain ⟨node, hl, rfl⟩ := map_eq_some_iff.mp h
    exact ⟨hid, node, hl, RaftNode.removePeer_sameCore nodeId node⟩

end CenDB.Raft
