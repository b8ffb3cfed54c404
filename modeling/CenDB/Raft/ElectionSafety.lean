import CenDB.Raft.Cluster

/-! # Election safety

At most one node is elected in a term, as long as no election is decided by members that have
not reached the term yet.

A member grants its vote to a term above its own, so an election leaves no member behind its
term (`afterElection_reaches`), and a later election for the same term finds no votes among
these members.  Members that join later start at term 0 without a vote.  Once they outnumber
the others they elect one of their own for a term that has a leader already:
`electionSafety_iff` says that nothing else goes wrong, and `electionSafety_of_quorum` that
nothing does while every membership change leaves a quorum at each term that was won. -/

namespace CenDB.Raft

open Transition RaftCluster List Option Table

/-- At most one node is elected in a term. -/
def ElectionSafety (s : Sys) : Prop :=
  ∀ e ∈ s.elections, ∀ e' ∈ s.elections, e.term = e'.term → e.node = e'.node

/-- The number of members that have not reached the term. -/
def behind (term : ℕ) (nodes : Table ℕ RaftNode) : ℕ :=
  nodes.count fun _ node => decide (node.currentTerm < term)

/-- The condition on the state before a step: a candidate does not stand for a term that another
node has won while the members behind that term are a majority. -/
def Uncontested (s : Sys) : Act → Prop
  | .electLeader candidateId => ∀ candidate, s.cluster.nodes.lookup candidateId = some candidate →
    ∀ e ∈ s.elections, e.term = candidate.currentTerm + 1 → e.node ≠ candidateId →
      2 * behind e.term s.cluster.nodes ≤ s.cluster.nodes.size
  | _ => True

/-! ### Votes and terms -/

/-- A member that has not voted is at term 0. -/
def Unvoted (s : Sys) : Prop :=
  ∀ id node, s.cluster.nodes.lookup id = some node → node.votedFor = none → node.currentTerm = 0

variable {s s' : Sys}

theorem unvoted_init : Unvoted Sys.init := by
  intro id node hl _
  obtain ⟨peers, rfl⟩ := new3Node_lookup hl
  rfl

variable {node : RaftNode} {term candidateId id : ℕ} {won : Bool} {a : Act}

theorem grantsVote_iff (hterm : 0 < term) (h : node.votedFor = none → node.currentTerm = 0) :
    node.grantsVote term = true ↔ node.currentTerm < term := by
  unfold RaftNode.grantsVote
  rw [Bool.or_eq_true, decide_eq_true_iff, isNone_iff_eq_none]
  constructor
  · intro hgrant
    cases hgrant with
    | inl hlt => exact hlt
    | inr hnone =>
      have hzero := h hnone
      omega
  · exact Or.inl

/-- The candidate gets the votes of the members behind its new term, its own among them. -/
theorem wins_iff (hs : Unvoted s) {candidate : RaftNode}
    (hl : s.cluster.nodes.lookup candidateId = some candidate) :
    Wins candidateId (candidate.currentTerm + 1) s.cluster.nodes ↔
      s.cluster.nodes.size < 2 * behind (candidate.currentTerm + 1) s.cluster.nodes := by
  have hvotes : votes candidateId (candidate.currentTerm + 1) s.cluster.nodes =
      behind (candidate.currentTerm + 1) s.cluster.nodes := by
    have hcount : s.cluster.nodes.count (fun id node =>
        decide (id ≠ candidateId) && node.grantsVote (candidate.currentTerm + 1)) =
        s.cluster.nodes.count fun id node =>
          decide (id ≠ candidateId) && decide (node.currentTerm < candidate.currentTerm + 1) := by
      apply count_congr
      intro id node hnode
      congr 1
      rw [Bool.eq_iff_iff, decide_eq_true_iff]
      exact grantsVote_iff (Nat.succ_pos _) (hs id node hnode)
    have hself := count_of_lookup hl fun _ node =>
      decide (node.currentTerm < candidate.currentTerm + 1)
    rw [if_pos (decide_eq_true (Nat.lt_succ_self _))] at hself
    unfold votes behind
    rw [hcount, hself, Nat.add_comm]
  unfold Wins
  rw [hvotes]
  omega

/-- An election lowers no term, and no member stays behind it. -/
theorem afterElection_reaches (hterm : 0 < term) (hid : id = candidateId → node.currentTerm + 1 = term)
    (h : node.votedFor = none → node.currentTerm = 0) :
    node.currentTerm ≤ (afterElection candidateId term won id node).currentTerm ∧
      term ≤ (afterElection candidateId term won id node).currentTerm := by
  have hgrant := grantsVote_iff hterm h
  unfold afterElection
  split_ifs with hc hwon hvote
  · have hnew : node.startElection.becomeLeader.currentTerm = node.currentTerm + 1 := rfl
    have hnext := hid hc
    omega
  · have hnew : node.startElection.currentTerm = node.currentTerm + 1 := rfl
    have hnext := hid hc
    omega
  · have hnew : (node.vote term candidateId).currentTerm = term := rfl
    have hlt := hgrant.mp hvote
    omega
  · have hge : ¬ node.currentTerm < term := fun hlt => hvote (hgrant.mpr hlt)
    omega

theorem afterElection_voted (h : node.votedFor = none → node.currentTerm = 0)
    (hnone : (afterElection candidateId term won id node).votedFor = none) :
    (afterElection candidateId term won id node).currentTerm = 0 := by
  unfold afterElection at hnone ⊢
  split_ifs at hnone ⊢
  · cases hnone
  · cases hnone
  · cases hnone
  · exact h hnone

/-- A replication changes no ballot. -/
theorem afterReplication_ballot (leaderId : ℕ) (data : List UInt8) (entry : LogEntry)
    (order : List ℕ) (id : ℕ) (node : RaftNode) :
    (afterReplication leaderId data entry order id node).currentTerm = node.currentTerm ∧
      (afterReplication leaderId data entry order id node).votedFor = node.votedFor := by
  unfold afterReplication
  split_ifs
  · have hcore := RaftNode.acknowledgeAll_sameCore entry.index order (node.appendEntry data).2
    rw [hcore.currentTerm, hcore.votedFor]
    unfold RaftNode.appendEntry
    split_ifs
    · simp
    · simp
  · simp
  · simp

theorem Unvoted.step (hs : Unvoted s) (hstep : step s a = some s') : Unvoted s' := by
  intro id node' hl hnone
  cases a with
  | electLeader candidateId =>
    obtain ⟨candidate, won, -, -, hnodes, -⟩ := step_electLeader hstep
    rw [hnodes, lookup_mapWithKey] at hl
    obtain ⟨node, hnode, rfl⟩ := map_eq_some_iff.mp hl
    exact afterElection_voted (hs id node hnode) hnone
  | replicateEntry data order =>
    obtain ⟨-, -, -, hcase⟩ := step_replicateEntry hstep
    cases hcase with
    | inl hidle =>
      rw [hidle.2] at hl
      exact hs id node' hl hnone
    | inr hpush =>
      obtain ⟨leaderId, leader, -, -, -, hnodes⟩ := hpush
      rw [hnodes, lookup_mapWithKey] at hl
      obtain ⟨node, hnode, rfl⟩ := map_eq_some_iff.mp hl
      obtain ⟨hterm, hvote⟩ := afterReplication_ballot leaderId data
        ⟨leader.currentTerm, leader.log.length + 1, data⟩ order id node
      rw [hterm]
      exact hs id node hnode (hvote ▸ hnone)
  | addNode nodeId =>
    cases hstep
    cases addNode_lookup hl with
    | inl hnew => rw [hnew.2, RaftNode.new]
    | inr hold =>
      obtain ⟨-, node, hnode, hcore⟩ := hold
      rw [hcore.currentTerm]
      exact hs id node hnode (hcore.votedFor ▸ hnone)
  | removeNode nodeId =>
    cases hstep
    obtain ⟨-, node, hnode, hcore⟩ := removeNode_lookup hl
    rw [hcore.currentTerm]
    exact hs id node hnode (hcore.votedFor ▸ hnone)

/-! ### Every run -/

/-- One more election keeps the property if no other node had won its term. -/
theorem electionSafety_concat {s : Sys} (hsafe : ElectionSafety s) {e : Election}
    (helections : s'.elections = s.elections ++ [e]) :
    ElectionSafety s' ↔ ∀ e' ∈ s.elections, e'.term = e.term → e'.node = e.node := by
  have hmem (e' : Election) : e' ∈ s'.elections ↔ e' ∈ s.elections ∨ e' = e := by simp [helections]
  constructor
  · intro h e' he' hterm
    exact h e' ((hmem e').mpr (.inl he')) e ((hmem e).mpr (.inr rfl)) hterm
  · intro h e₁ he₁ e₂ he₂ hterm
    cases (hmem e₁).mp he₁ with
    | inl hold₁ =>
      cases (hmem e₂).mp he₂ with
      | inl hold₂ => exact hsafe e₁ hold₁ e₂ hold₂ hterm
      | inr hnew₂ =>
        rw [hnew₂] at hterm ⊢
        exact h e₁ hold₁ hterm
    | inr hnew₁ =>
      cases (hmem e₂).mp he₂ with
      | inl hold₂ =>
        rw [hnew₁] at hterm ⊢
        exact (h e₂ hold₂ hterm.symm).symm
      | inr hnew₂ => rw [hnew₁, hnew₂]

theorem electionSafety_step (hs : Unvoted s) (hsafe : ElectionSafety s) (hstep : step s a = some s') :
    ElectionSafety s' ↔ Uncontested s a := by
  have hkeep (h : s'.elections = s.elections) : ElectionSafety s' := by
    unfold ElectionSafety
    rw [h]
    exact hsafe
  cases a with
  | electLeader candidateId =>
    obtain ⟨candidate, won, hl, hwon, -, -, -, helections⟩ := step_electLeader hstep
    have hwins := wins_iff hs hl
    simp only [Uncontested, hl, Option.some.injEq, forall_eq']
    cases won with
    | true =>
      have hmajority := hwins.mp (hwon.mp rfl)
      rw [electionSafety_concat hsafe helections]
      refine forall₃_congr fun e he hterm => ?_
      constructor
      · intro hsame hother
        exact absurd hsame hother
      · intro hquorum
        by_contra hother
        have hnext : e.term = candidate.currentTerm + 1 := hterm
        have hle := hquorum hother
        rw [hnext] at hle
        omega
    | false =>
      have hminority : ¬ s.cluster.nodes.size < 2 * behind (candidate.currentTerm + 1) s.cluster.nodes := by
        intro hlt
        cases hwon.mpr (hwins.mpr hlt)
      refine iff_of_true (hkeep helections) ?_
      intro e he hterm hother
      rw [hterm]
      omega
  | replicateEntry data order =>
    exact iff_of_true (hkeep (step_replicateEntry hstep).1) trivial
  | addNode nodeId | removeNode nodeId =>
    cases hstep
    exact iff_of_true (hkeep rfl) trivial

/-- An election that panics has no candidate. -/
theorem uncontested_of_stuck (s : Sys) (a : Act) (h : step s a = none) : Uncontested s a := by
  cases a with
  | electLeader candidateId =>
    intro candidate hl
    have hcall := map_eq_none_iff.mp h
    rw [electLeader_eq hl] at hcall
    cases hcall
  | _ => trivial

/-- **At most one leader in each term, exactly in the runs without a contested election.** -/
theorem electionSafety_iff (acts : List Act) :
    Throughout step ElectionSafety Sys.init acts ↔ Along step Uncontested Sys.init acts := by
  refine throughout_iff_along uncontested_of_stuck (fun _ _ _ hs hstep => hs.step hstep)
    (fun _ _ _ hs hsafe hstep => electionSafety_step hs hsafe hstep) unvoted_init ?_ acts
  intro e he
  cases he

/-- Four members join a cluster of three whose first member leads in term 1. -/
def outnumbered : List Act := [.electLeader 1, .addNode 4, .addNode 5, .addNode 6, .addNode 7, .electLeader 4]

/-- The new members elect a second leader for term 1. -/
theorem outnumbered_elects_twice : ¬ Throughout step ElectionSafety Sys.init outnumbered := by
  intro h
  have hfinal : (run step Sys.init outnumbered).map (fun s => s.elections) =
      some [⟨1, 1, [], []⟩, ⟨4, 1, [], []⟩] := by
    decide
  obtain ⟨s, hrun, helections⟩ := Option.map_eq_some_iff.mp hfinal
  have hsafe := h _ s (prefix_refl _) hrun
  have hsame := hsafe ⟨1, 1, [], []⟩ (by simp [helections]) ⟨4, 1, [], []⟩ (by simp [helections]) rfl
  exact absurd hsame (by decide)

/-! ### Quorums -/

/-- A membership change leaves, for every term that was won, half of the members or more at or
above that term. -/
def KeepsQuorum (s : Sys) : Act → Prop
  | .addNode nodeId => ∀ e ∈ s.elections,
    2 * behind e.term (s.cluster.addNode nodeId).nodes ≤ (s.cluster.addNode nodeId).nodes.size
  | .removeNode nodeId => ∀ e ∈ s.elections,
    2 * behind e.term (s.cluster.removeNode nodeId).nodes ≤ (s.cluster.removeNode nodeId).nodes.size
  | _ => True

/-- Every term that was won has a quorum. -/
structure Quorate (s : Sys) : Prop where
  unvoted : Unvoted s
  safe : ElectionSafety s
  quorum : ∀ e ∈ s.elections, 2 * behind e.term s.cluster.nodes ≤ s.cluster.nodes.size

theorem behind_mapWithKey_le {nodes : Table ℕ RaftNode} {g : ℕ → RaftNode → RaftNode} (term : ℕ)
    (h : ∀ id node, nodes.lookup id = some node → node.currentTerm ≤ (g id node).currentTerm) :
    behind term (nodes.mapWithKey g) ≤ behind term nodes := by
  unfold behind
  rw [count_mapWithKey]
  apply count_mono
  intro id node hl hlt
  have hle := h id node hl
  rw [decide_eq_true_iff] at hlt ⊢
  omega

theorem Quorate.step (hs : Quorate s) (hok : KeepsQuorum s a) (hstep : step s a = some s') : Quorate s' := by
  have huncontested : Uncontested s a := by
    cases a with
    | electLeader candidateId =>
      intro candidate hl e he hterm hother
      exact hs.quorum e he
    | _ => trivial
  refine ⟨hs.unvoted.step hstep, (electionSafety_step hs.unvoted hs.safe hstep).mpr huncontested, ?_⟩
  cases a with
  | electLeader candidateId =>
    obtain ⟨candidate, won, hl, -, hnodes, -, -, helections⟩ := step_electLeader hstep
    have hreach (id : ℕ) (node : RaftNode) (hnode : s.cluster.nodes.lookup id = some node) :
        node.currentTerm ≤ (afterElection candidateId (candidate.currentTerm + 1) won id node).currentTerm ∧
          candidate.currentTerm + 1 ≤
            (afterElection candidateId (candidate.currentTerm + 1) won id node).currentTerm := by
      refine afterElection_reaches (Nat.succ_pos _) ?_ (hs.unvoted id node hnode)
      intro hid
      rw [hid, hl] at hnode
      rw [Option.some.inj hnode]
    have hold (e : Election) (he : e ∈ s.elections) :
        2 * behind e.term s'.cluster.nodes ≤ s'.cluster.nodes.size := by
      have hmono := behind_mapWithKey_le e.term fun id node hnode => (hreach id node hnode).1
      have hquorum := hs.quorum e he
      rw [hnodes, Table.size_mapWithKey]
      omega
    -- nobody is behind the new term
    have hnew : behind (candidate.currentTerm + 1) s'.cluster.nodes = 0 := by
      unfold behind
      rw [hnodes, Table.count_mapWithKey]
      apply Table.count_eq_zero
      intro id node hnode
      rw [decide_eq_false_iff_not, not_lt]
      exact (hreach id node hnode).2
    intro e he
    rw [helections] at he
    split_ifs at he
    · cases mem_append.mp he with
      | inl hmem => exact hold e hmem
      | inr hmem =>
        have hterm : e.term = candidate.currentTerm + 1 := by rw [mem_singleton.mp hmem]
        rw [hterm, hnew]
        exact Nat.zero_le _
    · exact hold e he
  | replicateEntry data order =>
    obtain ⟨helections, -, -, hcase⟩ := step_replicateEntry hstep
    rw [helections]
    cases hcase with
    | inl hidle =>
      rw [hidle.2]
      exact hs.quorum
    | inr hpush =>
      obtain ⟨leaderId, leader, -, -, -, hnodes⟩ := hpush
      intro e he
      have hmono : behind e.term s'.cluster.nodes ≤ behind e.term s.cluster.nodes := by
        rw [hnodes]
        apply behind_mapWithKey_le
        intro id node _
        exact (afterReplication_ballot leaderId data _ order id node).1.ge
      have hsize : s'.cluster.nodes.size = s.cluster.nodes.size := by simp [hnodes]
      have hquorum := hs.quorum e he
      omega
  | addNode nodeId | removeNode nodeId =>
    cases hstep
    exact hok

/-- **Quorums are enough.**  While every membership change leaves a quorum at each term that was
won, no term has two leaders. -/
theorem electionSafety_of_quorum {acts : List Act} (hok : Along step KeepsQuorum Sys.init acts) :
    Throughout step ElectionSafety Sys.init acts := by
  have hnone : Sys.init.elections = [] := rfl
  refine throughout_of_along (fun _ _ _ (hs : Quorate _) hok hstep => hs.step hok hstep) (fun _ hs => hs.safe)
    ⟨unvoted_init, ?_, ?_⟩ hok
  · intro e he
    rw [hnone] at he
    cases he
  · simp [hnone]

/-- A fourth member joins below the term of the leader, and still the old members are a quorum. -/
theorem electionSafety_of_quorum_joined :
    Throughout step ElectionSafety Sys.init [.electLeader 1, .addNode 4, .electLeader 2] := by
  have hjoin : (step Sys.init (.electLeader 1)).map (fun s => ((s.cluster.addNode 4).nodes.size,
      s.elections.map fun e => behind e.term (s.cluster.addNode 4).nodes)) = some (4, [1]) := by
    decide
  refine electionSafety_of_quorum ⟨trivial, fun s hs => ⟨?_, fun _ _ => ⟨trivial, fun _ _ => trivial⟩⟩⟩
  rw [hs, Option.map_some, Option.some.injEq, Prod.mk.injEq] at hjoin
  intro e he
  have hone : behind e.term (s.cluster.addNode 4).nodes ∈
      s.elections.map fun e => behind e.term (s.cluster.addNode 4).nodes := mem_map_of_mem he
  rw [hjoin.2, mem_singleton] at hone
  rw [hjoin.1, hone]
  decide

end CenDB.Raft
