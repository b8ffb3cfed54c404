import CenDB.Lib.Chains
import CenDB.Lib.Joins
import CenDB.Storage.Header

/-! # Hybrid hash join

Tuples of both sides are spread over partitions by a hash of their keys, and the partitions are joined one by
one through a hash table.  Both sides use the same hash, so tuples that match are in partitions of the same
number: `Holds` says where the tuples are, and the joined partitions are the join by two loops
(`hybridJoin_nested`). -/

namespace CenDB.Executor

open List

open Storage (Halt)

/-- A key and a value. -/
abbrev KeyValue := Int64 × Int64

structure HybridHashJoin where
  partitionCount : ℕ
  buildPartitions : List (List KeyValue)
  probePartitions : List (List KeyValue)

namespace HybridHashJoin

/-- The most partitions that can be allocated, of three words each. -/
def maxPartitions : ℕ := (2 ^ 63 - 1) / 24

def new (partitionCount : ℕ) : Except Halt HybridHashJoin :=
  if maxPartitions < partitionCount then .error .panic
  else .ok ⟨partitionCount, List.replicate partitionCount [], List.replicate partitionCount []⟩

def keyHash (key : Int64) : UInt64 := (key * (0x9E3779B97F4A7C15 : UInt64).toInt64).toUInt64

/-- The partition of a key; the remainder by zero panics. -/
def hashPartition (s : HybridHashJoin) (key : Int64) : Except Halt ℕ :=
  if s.partitionCount = 0 then .error .panic else .ok ((keyHash key).toNat % s.partitionCount)

/-- `partitions[partition].push(tuple)`. -/
def pushTo (partitions : List (List KeyValue)) (partition : ℕ) (tuple : KeyValue) :
    Except Halt (List (List KeyValue)) :=
  if partition < partitions.length then .ok (partitions.modify partition (· ++ [tuple])) else .error .panic

def addBuild (s : HybridHashJoin) (key value : Int64) : Except Halt HybridHashJoin :=
  match s.hashPartition key with
  | .error e => .error e
  | .ok partition =>
    (pushTo s.buildPartitions partition (key, value)).map fun ps => { s with buildPartitions := ps }

def addProbe (s : HybridHashJoin) (key value : Int64) : Except Halt HybridHashJoin :=
  match s.hashPartition key with
  | .error e => .error e
  | .ok partition =>
    (pushTo s.probePartitions partition (key, value)).map fun ps => { s with probePartitions := ps }

/-- The pairs of values of a partition. -/
def joinPartition (build probe : List KeyValue) : List (Int64 × Int64) :=
  let hashTable := Table.pushAll ∅ build
  probe.flatMap fun e =>
    match hashTable.lookup e.1 with
    | none => []
    | some buildValues => buildValues.map fun buildValue => (buildValue, e.2)

/-- The joined pairs; the partitions are taken. -/
def execute (s : HybridHashJoin) : List (Int64 × Int64) × HybridHashJoin :=
  ((List.range s.partitionCount).flatMap fun p =>
      joinPartition (s.buildPartitions.getD p []) (s.probePartitions.getD p []),
    { s with buildPartitions := s.buildPartitions.map fun _ => []
             probePartitions := s.probePartitions.map fun _ => [] })

/-! ### Calls -/

inductive Call where
  | addBuild (key value : Int64)
  | addProbe (key value : Int64)

def call (s : HybridHashJoin) : Call → Except Halt HybridHashJoin
  | .addBuild key value => s.addBuild key value
  | .addProbe key value => s.addProbe key value

def run (s : HybridHashJoin) : List Call → Except Halt HybridHashJoin
  | [] => .ok s
  | c :: cs =>
    match s.call c with
    | .error e => .error e
    | .ok s => run s cs

def Call.build : Call → List KeyValue
  | .addBuild key value => [(key, value)]
  | .addProbe _ _ => []

def Call.probe : Call → List KeyValue
  | .addBuild _ _ => []
  | .addProbe key value => [(key, value)]

/-- Every pair of a build and a probe tuple with the same key. -/
def plainJoin (builds probes : List KeyValue) : List (Int64 × Int64) :=
  Joins.nested (fun b p => b.1 = p.1) (fun b p => (b.2, p.2)) builds probes

/-! ### The partitions -/

variable {s s' : HybridHashJoin} {builds probes : List KeyValue}

/-- Tuples spread over partitions. -/
def spread (n : ℕ) (tuples : List KeyValue) : List (List KeyValue) :=
  (List.range n).map fun p => tuples.filter fun t => (keyHash t.1).toNat % n = p

theorem spread_nil (n : ℕ) : spread n [] = List.replicate n [] := by
  rw [spread, eq_replicate_iff, length_map, length_range]
  refine ⟨rfl, fun partition hpartition => ?_⟩
  obtain ⟨p, -, rfl⟩ := List.mem_map.mp hpartition
  rfl

theorem take_spread (n : ℕ) (tuples : List KeyValue) : (spread n tuples).map (fun _ => []) = spread n [] := by
  rw [spread_nil, map_const', spread, length_map, length_range]

theorem getD_spread {n p : ℕ} (hp : p < n) (tuples : List KeyValue) :
    (spread n tuples).getD p [] = tuples.filter fun t => (keyHash t.1).toNat % n = p := by simp [spread, hp]

/-- A tuple is pushed to the partition of its key. -/
theorem pushTo_spread {n : ℕ} (hn : 0 < n) (tuples : List KeyValue) (tuple : KeyValue) :
    pushTo (spread n tuples) ((keyHash tuple.1).toNat % n) tuple = .ok (spread n (tuples ++ [tuple])) := by
  have hlt := Nat.mod_lt (keyHash tuple.1).toNat hn
  rw [pushTo, if_pos (by rwa [spread, length_map, length_range])]
  congr 1
  apply ext_getElem?
  intro p
  rw [getElem?_modify, spread, spread, getElem?_map, getElem?_map]
  by_cases hp : p < n
  · rw [getElem?_range hp]
    by_cases heq : (keyHash tuple.1).toNat % n = p
    · simp [heq]
    · simp [heq]
  · rw [getElem?_eq_none (by rw [length_range]; omega)]
    rfl

/-- The tuples that are added so far are spread over the partitions. -/
structure Holds (s : HybridHashJoin) (builds probes : List KeyValue) : Prop where
  pos : 0 < s.partitionCount
  build : s.buildPartitions = spread s.partitionCount builds
  probe : s.probePartitions = spread s.partitionCount probes

theorem holds_new {n : ℕ} (hn : 0 < n) (h : new n = .ok s) : Holds s [] [] := by
  unfold new at h
  split_ifs at h
  cases h
  exact ⟨hn, (spread_nil n).symm, (spread_nil n).symm⟩

theorem Holds.call (h : Holds s builds probes) (c : Call) :
    ∃ s', s.call c = .ok s' ∧ Holds s' (builds ++ c.build) (probes ++ c.probe) := by
  have hpartition (key : Int64) : s.hashPartition key = .ok ((keyHash key).toNat % s.partitionCount) :=
    if_neg h.pos.ne'
  cases c with
  | addBuild key value =>
    have hpush := pushTo_spread h.pos builds (key, value)
    refine ⟨{ s with buildPartitions := spread s.partitionCount (builds ++ [(key, value)]) }, ?_, h.pos, rfl, ?_⟩
    · rw [HybridHashJoin.call, addBuild, hpartition, h.build]
      dsimp only
      rw [hpush]
      rfl
    · rw [Call.probe, append_nil]
      exact h.probe
  | addProbe key value =>
    have hpush := pushTo_spread h.pos probes (key, value)
    refine ⟨{ s with probePartitions := spread s.partitionCount (probes ++ [(key, value)]) }, ?_, h.pos, ?_, rfl⟩
    · rw [HybridHashJoin.call, addProbe, hpartition, h.probe]
      dsimp only
      rw [hpush]
      rfl
    · rw [Call.build, append_nil]
      exact h.build

theorem Holds.run (h : Holds s builds probes) (calls : List Call) : ∃ s', s.run calls = .ok s' ∧
      Holds s' (builds ++ calls.flatMap Call.build) (probes ++ calls.flatMap Call.probe) := by
  induction calls generalizing s builds probes with
  | nil => exact ⟨s, rfl, by rwa [flatMap_nil, flatMap_nil, append_nil, append_nil]⟩
  | cons c calls ih =>
    obtain ⟨mid, hcall, hmid⟩ := h.call c
    rw [HybridHashJoin.run, hcall, flatMap_cons, flatMap_cons, ← append_assoc, ← append_assoc]
    exact ih hmid

/-- A partition is joined through its hash table. -/
theorem joinPartition_perm (build probe : List KeyValue) :
    (joinPartition build probe).Perm (plainJoin build probe) := by
  have hprobe : joinPartition build probe =
      Joins.nested (fun (p b : KeyValue) => decide (b.1 = p.1)) (fun p b => (b.2, p.2)) probe build := by
    unfold joinPartition Joins.nested
    dsimp only
    congr 1
    funext e
    have hchain := Table.chain_pushAll ∅ build e.1
    rw [Table.chain_empty, List.nil_append] at hchain
    have hpairs : ((build.filter fun b => decide (b.1 = e.1)).map fun b => (b.2, e.2)) =
        ((build.filter fun b => decide (b.1 = e.1)).map Prod.snd).map fun buildValue => (buildValue, e.2) := by
      simp
    rw [hpairs, ← hchain]
    unfold Table.chain
    cases (Table.pushAll ∅ build).lookup e.1 with
    | none | some buildValues => rfl
  rw [hprobe]
  exact (Joins.nested_swap _ _ build probe).symm

/-- The joined partitions are the join of all tuples, and no tuple is left. -/
theorem Holds.execute (h : Holds s builds probes) :
    s.execute.1.Perm (plainJoin builds probes) ∧ Holds s.execute.2 [] [] := by
  constructor
  · have hparts : s.execute.1 = (List.range s.partitionCount).flatMap fun p =>
        joinPartition (builds.filter fun t => (keyHash t.1).toNat % s.partitionCount = p)
          (probes.filter fun t => (keyHash t.1).toNat % s.partitionCount = p) := by
      unfold HybridHashJoin.execute
      dsimp only
      rw [flatMap_def, flatMap_def]
      congr 1
      refine map_congr_left fun p hp => ?_
      rw [h.build, h.probe, getD_spread (mem_range.mp hp), getD_spread (mem_range.mp hp)]
    rw [hparts]
    refine (List.Perm.flatMap_left _ fun p _ => joinPartition_perm _ _).trans ?_
    exact Joins.nested_parts _ (fun a b hmatch => by rw [of_decide_eq_true hmatch]) fun a _ =>
      Nat.mod_lt _ h.pos
  · refine ⟨h.pos, ?_, ?_⟩
    · exact (congrArg _ h.build).trans (take_spread s.partitionCount builds)
    · exact (congrArg _ h.probe).trans (take_spread s.partitionCount probes)

/-- **The hybrid join has the pairs of the plain join**, for every number of partitions that can be allocated and
every order of the calls that add tuples. -/
theorem hybridJoin_nested (partitionCount : ℕ) (calls : List Call) :
    (new partitionCount = .error .panic ↔ maxPartitions < partitionCount) ∧
      ∀ s, new partitionCount = .ok s → 1 ≤ partitionCount → ∃ s', s.run calls = .ok s' ∧
          s'.execute.1.Perm (plainJoin (calls.flatMap Call.build) (calls.flatMap Call.probe)) := by
  constructor
  · unfold new
    split_ifs with hlarge
    · exact iff_of_true rfl hlarge
    · exact iff_of_false nofun hlarge
  · intro s hs hone
    obtain ⟨s', hrun, hholds⟩ := (holds_new hone hs).run calls
    exact ⟨s', hrun, hholds.execute.1⟩

/-- A count of partitions that cannot be allocated. -/
theorem new_largest : ¬∃ s, new (2 ^ 64 - 1) = .ok s ∧ ∃ s', s.run [.addBuild 1 2, .addProbe 1 3] = .ok s' ∧
    s'.execute.1.Perm (plainJoin [(1, 2)] [(1, 3)]) := by
  have hpanic : new (2 ^ 64 - 1) = .error .panic := if_pos (by decide)
  rw [hpanic]
  rintro ⟨s, hs, -⟩
  cases hs

end HybridHashJoin

end CenDB.Executor
