import CenDB.Lib.Table

/-! # Raft nodes

`RaftNode` and its operations.  Terms, log indices and node ids are natural numbers; a log
index is a position plus one.

An election touches the role, the term and the vote, and `append_entry` the log; `SameCore` says
that acknowledgements and membership changes leave these four alone. -/

namespace CenDB.Raft

/-- A replicated command. -/
structure LogEntry where
  term : ℕ
  index : ℕ
  data : List UInt8
  deriving DecidableEq, Repr

/-- Node role in the Raft cluster. -/
inductive NodeRole where
  | follower
  | candidate
  | leader
  deriving DecidableEq, Repr

structure RaftNode where
  id : ℕ
  role : NodeRole
  currentTerm : ℕ
  votedFor : Option ℕ
  log : List LogEntry
  commitIndex : ℕ
  lastApplied : ℕ
  /-- For leaders: next log index to send to each follower. -/
  nextIndex : Table ℕ ℕ
  /-- For leaders: highest log index replicated on each follower. -/
  matchIndex : Table ℕ ℕ
  votesReceived : ℕ
  peers : List ℕ

namespace RaftNode

def new (id : ℕ) (peers : List ℕ) : RaftNode :=
  { id := id, role := .follower, currentTerm := 0, votedFor := none, log := [], commitIndex := 0,
    lastApplied := 0, nextIndex := ∅, matchIndex := ∅, votesReceived := 0, peers := peers }

/-! ### Elections -/

/-- Become a candidate, vote for self, increment the term. -/
def startElection (node : RaftNode) : RaftNode :=
  { node with
    role := .candidate, currentTerm := node.currentTerm + 1, votedFor := some node.id,
    votesReceived := 1 }

/-- The test of the voting loop: the node has not voted in this term.  It does not look at the
candidate's log. -/
def grantsVote (term : ℕ) (node : RaftNode) : Bool := decide (node.currentTerm < term) || node.votedFor.isNone

/-- The body of the voting loop. -/
def vote (term candidateId : ℕ) (node : RaftNode) : RaftNode :=
  { node with currentTerm := term, votedFor := some candidateId }

/-- Enters the same value for every peer. -/
def fillPeers (peers : List ℕ) (value : ℕ) (table : Table ℕ ℕ) : Table ℕ ℕ :=
  peers.foldl (fun t peer => AList.insert peer value t) table

def becomeLeader (node : RaftNode) : RaftNode :=
  { node with
    role := .leader
    nextIndex := fillPeers node.peers (node.log.length + 1) node.nextIndex
    matchIndex := fillPeers node.peers 0 node.matchIndex }

/-! ### Replication -/

/-- Append a new entry to the log (leader only); returns its index, or 0. -/
def appendEntry (data : List UInt8) (node : RaftNode) : ℕ × RaftNode :=
  if node.role ≠ .leader then (0, node)
  else
    let index := node.log.length + 1
    (index, { node with log := node.log ++ [⟨node.currentTerm, index, data⟩] })

def majority (node : RaftNode) : ℕ := (node.peers.length + 1) / 2 + 1

/-- The members that have acknowledged index `n`, the leader included. -/
def replicas (n : ℕ) (node : RaftNode) : ℕ := 1 + ((Table.values node.matchIndex).filter fun i => i ≥ n).length

/-- The loop of `acknowledge` from `n` downwards: it stops at the first index that a majority
has, and commits it if its entry is from the current term. -/
def advanceCommit (node : RaftNode) : ℕ → ℕ
  | 0 => node.commitIndex
  | n + 1 =>
    if n + 1 ≤ node.commitIndex then node.commitIndex
    else if node.majority ≤ node.replicas (n + 1) then
      if node.log[n]?.map LogEntry.term = some node.currentTerm then n + 1
      else node.commitIndex
    else node.advanceCommit n

/-- A follower acknowledges replication of `index`. -/
def acknowledge (index follower : ℕ) (node : RaftNode) : RaftNode :=
  if node.role ≠ .leader then node
  else
    let node := { node with
      matchIndex := AList.insert follower index node.matchIndex
      nextIndex := AList.insert follower (index + 1) node.nextIndex }
    { node with commitIndex := node.advanceCommit node.log.length }

/-! ### Membership -/

/-- Add a peer (dynamic membership). -/
def addPeer (peerId : ℕ) (node : RaftNode) : RaftNode :=
  if peerId ∈ node.peers then node
  else
    let node := { node with peers := node.peers ++ [peerId] }
    if node.role = .leader then
      { node with
        nextIndex := AList.insert peerId (node.log.length + 1) node.nextIndex
        matchIndex := AList.insert peerId 0 node.matchIndex }
    else node

/-- Remove a peer (dynamic membership). -/
def removePeer (peerId : ℕ) (node : RaftNode) : RaftNode :=
  { node with
    peers := node.peers.filter fun p => p ≠ peerId
    nextIndex := AList.erase peerId node.nextIndex
    matchIndex := AList.erase peerId node.matchIndex }

/-! ### What replication bookkeeping and membership leave alone -/

/-- The node keeps its role, its term, its vote and its log. -/
structure SameCore (node node' : RaftNode) : Prop where
  role : node'.role = node.role
  currentTerm : node'.currentTerm = node.currentTerm
  votedFor : node'.votedFor = node.votedFor
  log : node'.log = node.log

theorem acknowledge_sameCore (index follower : ℕ) (node : RaftNode) :
    SameCore node (node.acknowledge index follower) := by
  unfold acknowledge
  split_ifs
  · exact ⟨rfl, rfl, rfl, rfl⟩
  · exact ⟨rfl, rfl, rfl, rfl⟩

theorem addPeer_sameCore (peerId : ℕ) (node : RaftNode) : SameCore node (node.addPeer peerId) := by
  unfold addPeer
  dsimp only
  split_ifs
  · exact ⟨rfl, rfl, rfl, rfl⟩
  · exact ⟨rfl, rfl, rfl, rfl⟩
  · exact ⟨rfl, rfl, rfl, rfl⟩

theorem removePeer_sameCore (peerId : ℕ) (node : RaftNode) :
    SameCore node (node.removePeer peerId) := ⟨rfl, rfl, rfl, rfl⟩

/-- The acknowledgements of the followers, one after the other. -/
def acknowledgeAll (index : ℕ) (followerIds : List ℕ) (node : RaftNode) : RaftNode :=
  followerIds.foldl (fun leader id => leader.acknowledge index id) node

theorem acknowledgeAll_sameCore (index : ℕ) (followerIds : List ℕ) (node : RaftNode) :
    SameCore node (node.acknowledgeAll index followerIds) := by
  induction followerIds generalizing node with
  | nil => exact ⟨rfl, rfl, rfl, rfl⟩
  | cons id ids ih =>
    have hhead := acknowledge_sameCore index id node
    have htail := ih (node.acknowledge index id)
    exact ⟨htail.role.trans hhead.role, htail.currentTerm.trans hhead.currentTerm,
      htail.votedFor.trans hhead.votedFor, htail.log.trans hhead.log⟩

end RaftNode

end CenDB.Raft
