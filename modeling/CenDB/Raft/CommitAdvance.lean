import CenDB.Raft.Snapshots

/-! # Commit advance

The calls on one node, from a follower with any log on: elections, votes, entries from a leader,
appended entries, acknowledgements from peers in any order, and membership changes.

Since a node became leader, what it has matched for a peer is 0 or an index that the peer acknowledged
(`Matched`).  So the replicas that it counts are members with an acknowledgement of their own
(`replicas_le_holders`), and the commit index only moves up, to an entry of the current term that a
majority of the members holds (`commit_advances`). -/

namespace CenDB.Raft

open Transition List Table Finset

namespace RaftNode

/-- Receive a vote from a peer; true if this node becomes leader. -/
def receiveVote (node : RaftNode) : Bool × RaftNode :=
  if node.role ≠ .candidate then (false, node)
  else
    let node := { node with votesReceived := node.votesReceived + 1 }
    if node.majority ≤ node.votesReceived then (true, node.becomeLeader) else (false, node)

/-- The node and its peers. -/
def members (node : RaftNode) : Finset ℕ := insert node.id node.peers.toFinset

end RaftNode

/-- A call on a node, or what a cluster does to it. -/
inductive NodeCall where
  | startElection
  | receiveVote
  | vote (term candidateId : ℕ)
  /-- An entry from a leader. -/
  | receiveEntry (entry : LogEntry)
  | appendEntry (data : List UInt8)
  | acknowledge (index follower : ℕ)
  | applyCommitted
  | addPeer (peerId : ℕ)
  | removePeer (peerId : ℕ)

/-- A node with the acknowledgements since it became leader the last time. -/
structure Tenure where
  node : RaftNode
  /-- Followers with the indices that they acknowledged. -/
  acks : List (ℕ × ℕ)

namespace Tenure

/-- A follower that has never led. -/
def start (id : ℕ) (peers : List ℕ) (currentTerm : ℕ) (log : List LogEntry) (commitIndex lastApplied : ℕ) :
    Tenure where
  node := { RaftNode.new id peers with
    currentTerm := currentTerm, log := log, commitIndex := commitIndex, lastApplied := lastApplied }
  acks := []

/-- A call; `none` for an acknowledgement that does not come from a peer. -/
def step (w : Tenure) : NodeCall → Option Tenure
  | .startElection => some { w with node := w.node.startElection }
  | .receiveVote =>
    let (elected, node) := w.node.receiveVote
    some ⟨node, if elected then [] else w.acks⟩
  | .vote term candidateId =>
    some { w with node := if w.node.grantsVote term then w.node.vote term candidateId else w.node }
  | .receiveEntry entry => some { w with node := { w.node with log := w.node.log ++ [entry] } }
  | .appendEntry data => some { w with node := (w.node.appendEntry data).2 }
  | .acknowledge index follower =>
    if follower ∈ w.node.peers ∧ follower ≠ w.node.id then
      some ⟨w.node.acknowledge index follower, (follower, index) :: w.acks⟩
    else none
  | .applyCommitted => some { w with node := w.node.applyCommitted.2 }
  | .addPeer peerId => some { w with node := w.node.addPeer peerId }
  | .removePeer peerId => some { w with node := w.node.removePeer peerId }

/-- The members that have acknowledged index `n` or a later one, the node itself among them. -/
def holders (w : Tenure) (n : ℕ) : Finset ℕ :=
  w.node.members.filter fun m => m = w.node.id ∨ ∃ a ∈ w.acks, a.1 = m ∧ n ≤ a.2

/-- The entry at `n` is of the current term, and a majority of the members holds it. -/
structure Committable (w : Tenure) (n : ℕ) : Prop where
  current : ∃ entry, w.node.log[n - 1]? = some entry ∧ entry.term = w.node.currentTerm
  pos : 0 < n
  majority : w.node.members.card < 2 * (w.holders n).card

/-- The commit index stays where it is or moves up to an entry that may be committed. -/
def Advances (w w' : Tenure) : Prop :=
  w'.node.commitIndex = w.node.commitIndex ∨
    w.node.commitIndex < w'.node.commitIndex ∧ w'.Committable w'.node.commitIndex

/-- What is matched for a peer is 0 or was acknowledged by it. -/
def Matched (w : Tenure) : Prop :=
  ∀ follower index, w.node.matchIndex.lookup follower = some index →
    follower ∈ w.node.peers ∧ (0 < index → follower ≠ w.node.id ∧ (follower, index) ∈ w.acks)

end Tenure

/-! ### Counting replicas -/

namespace RaftNode

variable {node : RaftNode}

/-- A vote that is not counted, one too few, or the last one that was missing. -/
theorem receiveVote_cases (node : RaftNode) :
    ∃ votes, node.receiveVote = (false, { node with votesReceived := votes }) ∨
      node.receiveVote = (true, becomeLeader { node with votesReceived := votes }) := by
  unfold receiveVote
  dsimp only
  split_ifs
  · exact ⟨node.votesReceived, Or.inl rfl⟩
  · exact ⟨node.votesReceived + 1, Or.inr rfl⟩
  · simp

/-- Where the loop stops. -/
theorem advanceCommit_cases (n : ℕ) : node.advanceCommit n = node.commitIndex ∨
      node.commitIndex < node.advanceCommit n ∧ node.majority ≤ node.replicas (node.advanceCommit n) ∧
        node.log[node.advanceCommit n - 1]?.map LogEntry.term = some node.currentTerm := by
  induction n with
  | zero => exact Or.inl rfl
  | succ n ih =>
    unfold advanceCommit
    split_ifs with hcommit hreplicas hcurrent
    · exact Or.inl rfl
    · exact Or.inr ⟨Nat.lt_of_not_le hcommit, hreplicas, hcurrent⟩
    · exact Or.inl rfl
    · exact ih

theorem lookup_fillPeers (peers : List ℕ) (value : ℕ) (table : Table ℕ ℕ) (a : ℕ) :
    (fillPeers peers value table).lookup a = if a ∈ peers then some value else table.lookup a := by
  induction peers generalizing table with
  | nil => simp [fillPeers]
  | cons peer peers ih =>
    have hfold : fillPeers (peer :: peers) value table = fillPeers peers value (AList.insert peer value table) := rfl
    rw [hfold, ih, lookup_insert_if]
    by_cases ha : a = peer <;> simp [ha]

theorem card_members_le (node : RaftNode) : node.members.card ≤ node.peers.length + 1 :=
  (card_insert_le _ _).trans (Nat.add_le_add_right (toFinset_card_le _) 1)

end RaftNode

namespace Tenure

variable {w w' : Tenure}

variable {n index follower : ℕ} {c : NodeCall}

/-- The replicas of an index are members that hold it. -/
theorem Matched.replicas_le_holders (h : w.Matched) (hn : 0 < n) :
    w.node.replicas n ≤ (w.holders n).card := by
  have hself : w.node.id ∈ w.holders n := Finset.mem_filter.mpr ⟨Finset.mem_insert_self _ _, Or.inl rfl⟩
  have hcount : (Table.values w.node.matchIndex |>.filter fun i => i ≥ n).length ≤
      ((w.holders n).erase w.node.id).card := by
    rw [Table.length_filter_values]
    refine Table.count_le_card fun follower index hindex hle => ?_
    have hle' : n ≤ index := of_decide_eq_true hle
    obtain ⟨hpeer, hacked⟩ := h follower index hindex
    obtain ⟨hother, hack⟩ := hacked (hn.trans_le hle')
    refine Finset.mem_erase.mpr ⟨hother, Finset.mem_filter.mpr ⟨?_, Or.inr ⟨_, hack, rfl, hle'⟩⟩⟩
    exact Finset.mem_insert_of_mem (mem_toFinset.mpr hpeer)
  rw [Finset.card_erase_of_mem hself] at hcount
  have hpos : 0 < (w.holders n).card := Finset.card_pos.mpr ⟨_, hself⟩
  unfold RaftNode.replicas
  omega

/-- A majority by the count of the node is one of its members. -/
theorem Matched.majority (h : w.Matched) (hn : 0 < n) (hcount : w.node.majority ≤ w.node.replicas n) :
    w.node.members.card < 2 * (w.holders n).card := by
  have hholders := h.replicas_le_holders hn
  have hmembers := w.node.card_members_le
  unfold RaftNode.majority at hcount
  omega

/-! ### The calls -/

theorem acknowledge_eq_some :
    w.step (.acknowledge index follower) = some w' ↔ (follower ∈ w.node.peers ∧ follower ≠ w.node.id) ∧
      w' = ⟨w.node.acknowledge index follower, (follower, index) :: w.acks⟩ := by
  rw [step]
  split_ifs with hpeer
  · rw [Option.some.injEq, and_iff_right hpeer, eq_comm]
  · exact iff_of_false nofun fun h => hpeer h.1

/-- A call that changes neither the peers nor what is matched. -/
theorem Matched.of_eq (h : w.Matched) (hid : w'.node.id = w.node.id) (hpeers : w'.node.peers = w.node.peers)
    (hmatch : w'.node.matchIndex = w.node.matchIndex) (hacks : w'.acks = w.acks) : w'.Matched := by
  unfold Matched
  rw [hid, hpeers, hmatch, hacks]
  exact h

/-- A new leader has matched nothing yet. -/
theorem Matched.becomeLeader (h : w.Matched) {node : RaftNode} (hpeers : node.peers = w.node.peers)
    (hmatch : node.matchIndex = w.node.matchIndex) : Matched ⟨node.becomeLeader, []⟩ := by
  intro follower index hindex
  have hlookup := RaftNode.lookup_fillPeers node.peers 0 node.matchIndex follower
  rw [show (RaftNode.fillPeers node.peers 0 node.matchIndex).lookup follower = some index from hindex] at hlookup
  split at hlookup
  · rename_i hmem
    cases hlookup
    exact ⟨hmem, fun hlt => absurd hlt (Nat.lt_irrefl 0)⟩
  · rename_i hmem
    rw [hmatch] at hlookup
    exact absurd (hpeers ▸ (h follower index hlookup.symm).1) hmem

theorem Matched.receiveVote (h : w.Matched) (hstep : w.step .receiveVote = some w') : w'.Matched := by
  obtain ⟨votes, hvote | hvote⟩ := w.node.receiveVote_cases
  · rw [step, hvote] at hstep
    cases hstep
    exact h.of_eq rfl rfl rfl rfl
  · rw [step, hvote] at hstep
    cases hstep
    exact h.becomeLeader rfl rfl

theorem Matched.acknowledge (h : w.Matched) (hstep : w.step (.acknowledge index follower) = some w') :
    w'.Matched := by
  obtain ⟨hpeer, rfl⟩ := acknowledge_eq_some.1 hstep
  unfold RaftNode.acknowledge
  split_ifs with hrole
  · exact fun f i hi => (h f i hi).imp_right fun hack hlt =>
      (hack hlt).imp_right (mem_cons_of_mem _)
  · intro f i hi
    change (AList.insert follower index w.node.matchIndex).lookup f = some i at hi
    rw [lookup_insert_if] at hi
    split at hi
    · rename_i hf
      cases hi
      exact ⟨hf ▸ hpeer.1, fun _ => ⟨hf ▸ hpeer.2, hf ▸ mem_cons_self⟩⟩
    · exact (h f i hi).imp_right fun hack hlt => (hack hlt).imp_right (mem_cons_of_mem _)

theorem Matched.addPeer (h : w.Matched) (peerId : ℕ) : Matched ⟨w.node.addPeer peerId, w.acks⟩ := by
  unfold RaftNode.addPeer
  dsimp only
  split_ifs with hmem hrole
  · exact h
  · intro f i hi
    change (AList.insert peerId 0 w.node.matchIndex).lookup f = some i at hi
    rw [lookup_insert_if] at hi
    split at hi
    · rename_i hf
      cases hi
      exact ⟨hf ▸ mem_append_right _ mem_cons_self, fun hlt => absurd hlt (Nat.lt_irrefl 0)⟩
    · exact (h f i hi).imp_left (mem_append_left _)
  · exact fun f i hi => (h f i hi).imp_left (mem_append_left _)

theorem Matched.removePeer (h : w.Matched) (peerId : ℕ) : Matched ⟨w.node.removePeer peerId, w.acks⟩ := by
  intro f i hi
  change (AList.erase peerId w.node.matchIndex).lookup f = some i at hi
  rw [lookup_erase_if] at hi
  split at hi
  · cases hi
  · rename_i hf
    exact (h f i hi).imp_left fun hpeer => mem_filter.mpr ⟨hpeer, decide_eq_true hf⟩

theorem Matched.step (h : w.Matched) (hstep : w.step c = some w') : w'.Matched := by
  cases c with
  | receiveVote => exact h.receiveVote hstep
  | acknowledge index follower => exact h.acknowledge hstep
  | addPeer peerId =>
    cases hstep
    exact h.addPeer peerId
  | removePeer peerId =>
    cases hstep
    exact h.removePeer peerId
  | startElection | receiveEntry entry | applyCommitted =>
    cases hstep
    exact h.of_eq rfl rfl rfl rfl
  | vote term candidateId =>
    cases hstep
    refine h.of_eq ?_ ?_ ?_ rfl
    all_goals
      dsimp only
      split <;> rfl
  | appendEntry data =>
    cases hstep
    unfold RaftNode.appendEntry
    split_ifs
    · exact h
    · exact h.of_eq rfl rfl rfl rfl

theorem matched_start (id : ℕ) (peers : List ℕ) (currentTerm : ℕ) (log : List LogEntry)
    (commitIndex lastApplied : ℕ) : (start id peers currentTerm log commitIndex lastApplied).Matched := by
  intro follower index h
  cases h

/-- An acknowledgement commits what a majority holds. -/
theorem Matched.advances_acknowledge (h : w.Matched) (hstep : w.step (.acknowledge index follower) = some w') :
    w.Advances w' := by
  have hmatched := h.acknowledge hstep
  obtain ⟨-, rfl⟩ := acknowledge_eq_some.1 hstep
  by_cases hrole : w.node.role ≠ .leader
  · refine Or.inl ?_
    rw [RaftNode.acknowledge, if_pos hrole]
  · set node : RaftNode := { w.node with
      matchIndex := AList.insert follower index w.node.matchIndex
      nextIndex := AList.insert follower (index + 1) w.node.nextIndex } with hnode
    have hresult : w.node.acknowledge index follower =
        { node with commitIndex := node.advanceCommit node.log.length } := if_neg hrole
    rw [hresult] at hmatched ⊢
    rcases node.advanceCommit_cases node.log.length with hsame | ⟨hlt, hcount, hterm⟩
    · exact Or.inl hsame
    · obtain ⟨entry, hentry, hcurrent⟩ := Option.map_eq_some_iff.mp hterm
      exact Or.inr ⟨hlt, ⟨entry, hentry, hcurrent⟩, Nat.zero_lt_of_lt hlt,
        hmatched.majority (Nat.zero_lt_of_lt hlt) hcount⟩

theorem Matched.advances (h : w.Matched) (hstep : w.step c = some w') : w.Advances w' := by
  cases c with
  | acknowledge index follower => exact h.advances_acknowledge hstep
  | receiveVote =>
    refine Or.inl ?_
    obtain ⟨votes, hvote | hvote⟩ := w.node.receiveVote_cases
    all_goals
      rw [Tenure.step, hvote] at hstep
      cases hstep
      rfl
  | vote term candidateId =>
    cases hstep
    refine Or.inl ?_
    dsimp only
    split <;> rfl
  | appendEntry data =>
    cases hstep
    refine Or.inl ?_
    unfold RaftNode.appendEntry
    split_ifs <;> rfl
  | addPeer peerId =>
    cases hstep
    refine Or.inl ?_
    unfold RaftNode.addPeer
    dsimp only
    split_ifs <;> rfl
  | startElection | receiveEntry entry | applyCommitted | removePeer peerId =>
    cases hstep
    exact Or.inl rfl

/-- **Whatever the log and whatever the order of the calls, every step leaves the commit index or moves it up
to an entry of the current term that a majority of the members holds.** -/
theorem commit_advances (id : ℕ) (peers : List ℕ) (currentTerm : ℕ) (log : List LogEntry)
    (commitIndex lastApplied : ℕ) (calls : List NodeCall) :
    Along step (fun w c => ∀ w', w.step c = some w' → w.Advances w')
      (start id peers currentTerm log commitIndex lastApplied) calls := by
  have hnothing : Along step (fun _ _ => True) (start id peers currentTerm log commitIndex lastApplied) calls :=
    along_of_forall (fun _ _ _ => trivial) _
  refine (along_iff_along (I := Matched) (fun w c w' hw => hw.step) (fun w c hw => ?_)
    (matched_start id peers currentTerm log commitIndex lastApplied) calls).mpr hnothing
  exact iff_of_true (fun w' => hw.advances) trivial

end Tenure

end CenDB.Raft
