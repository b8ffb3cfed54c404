import Mathlib.Tactic

/-! # Control-flow graphs

The intermediate code of a compiler: basic blocks `β` of instructions over registers `ρ`, which hold words of
64 bits, and over mutable variables `ν`.  A register is written by the instruction that names it; narrower
values stand in a register without their upper bits.  The memory `μ` says which loads and stores it allows
(`Memory`); any other is a `fault`.

`Code.run` executes blocks, at most `fuel` of them.  `Code.Reaches` counts the blocks from one point of a run
to another, `Code.run_of_reaches` skips them, and `Code.Reaches.iterate` is the rule for a loop that is counted
by its invariant. -/

namespace Ssa

open List

inductive Stop
  | fault
  | fuel
  deriving DecidableEq

inductive IntCC
  | equal
  | notEqual
  | signedGreaterThan
  | signedGreaterThanOrEqual
  | signedLessThan
  | signedLessThanOrEqual
  deriving DecidableEq

def IntCC.holds : IntCC → BitVec 64 → BitVec 64 → Bool
  | equal, a, b => a == b
  | notEqual, a, b => a != b
  | signedGreaterThan, a, b => b.slt a
  | signedGreaterThanOrEqual, a, b => b.sle a
  | signedLessThan, a, b => a.slt b
  | signedLessThanOrEqual, a, b => a.sle b

/-- Loads of 64 bits and stores of 32, if the address is one of the memory's own. -/
class Memory (μ : Type) where
  load : μ → BitVec 64 → Option (BitVec 64)
  store : μ → BitVec 64 → BitVec 32 → Option μ

inductive Inst (ρ ν : Type)
  | iconst (dst : ρ) (c : BitVec 64)
  | iadd (dst a b : ρ)
  | imul (dst a b : ρ)
  | icmp (cc : IntCC) (dst a b : ρ)
  /-- The low 32 bits. -/
  | ireduce (dst a : ρ)
  | load (dst addr : ρ)
  | store (a addr : ρ)
  | useVar (dst : ρ) (v : ν)
  | defVar (v : ν) (a : ρ)

inductive Terminator (β ρ : Type)
  | jump (b : β)
  | brif (c : ρ) (nonzero zero : β)
  | ret (a : ρ)

structure Block (β ρ ν : Type) where
  insts : List (Inst ρ ν)
  terminator : Terminator β ρ

structure Code (β ρ ν : Type) where
  entry : β
  block : β → Block β ρ ν

structure State (ρ ν μ : Type) where
  regs : ρ → BitVec 64
  vars : ν → BitVec 64
  mem : μ

/-- Where a block leads. -/
inductive Next (β : Type)
  | block (b : β)
  | returned (x : BitVec 64)

variable {β ρ ν μ : Type}

def Terminator.next : Terminator β ρ → State ρ ν μ → Next β
  | jump b, _ => .block b
  | brif c nonzero zero, s => .block (if s.regs c = 0 then zero else nonzero)
  | ret a, s => .returned (s.regs a)

variable {s : State ρ ν μ}

/-- A branch on a comparison. -/
theorem Terminator.next_brif {c : ρ} {p : Bool} (h : s.regs c = if p then 1 else 0) (nonzero zero : β) :
    (brif c nonzero zero).next s = .block (if p then nonzero else zero) := by
  rw [next, h]
  cases p <;> rfl

variable [DecidableEq ρ] [DecidableEq ν] [Memory μ]

def State.set (s : State ρ ν μ) (r : ρ) (x : BitVec 64) : State ρ ν μ :=
  { s with regs := Function.update s.regs r x }

def Inst.exec : Inst ρ ν → State ρ ν μ → Except Stop (State ρ ν μ)
  | iconst dst c, s => .ok (s.set dst c)
  | iadd dst a b, s => .ok (s.set dst (s.regs a + s.regs b))
  | imul dst a b, s => .ok (s.set dst (s.regs a * s.regs b))
  | icmp cc dst a b, s => .ok (s.set dst (if cc.holds (s.regs a) (s.regs b) then 1 else 0))
  | ireduce dst a, s => .ok (s.set dst (((s.regs a).setWidth 32).setWidth 64))
  | load dst addr, s =>
    match Memory.load s.mem (s.regs addr) with
    | some x => .ok (s.set dst x)
    | none => .error .fault
  | store a addr, s =>
    match Memory.store s.mem (s.regs addr) ((s.regs a).setWidth 32) with
    | some mem => .ok { s with mem := mem }
    | none => .error .fault
  | useVar dst v, s => .ok (s.set dst (s.vars v))
  | defVar v a, s => .ok { s with vars := Function.update s.vars v (s.regs a) }

def execAll : List (Inst ρ ν) → State ρ ν μ → Except Stop (State ρ ν μ)
  | [], s => .ok s
  | inst :: insts, s => do
    let s ← inst.exec s
    execAll insts s

variable {addr : ρ} {inst : Inst ρ ν} {t u : State ρ ν μ}

theorem Inst.exec_load {dst : ρ} {x : BitVec 64} (h : Memory.load s.mem (s.regs addr) = some x) :
    (load dst addr).exec s = .ok (s.set dst x) := by
  rw [exec, h]

theorem Inst.exec_store {a : ρ} {mem : μ} (h : Memory.store s.mem (s.regs addr) ((s.regs a).setWidth 32) = some mem) :
    (store a addr).exec s = .ok { s with mem := mem } := by
  rw [exec, h]

theorem execAll_append_cons {before after : List (Inst ρ ν)} (hbefore : execAll before s = .ok t)
    (h : inst.exec t = .ok u) :
    execAll (before ++ inst :: after) s = execAll after u := by
  induction before generalizing s with
  | nil =>
    cases hbefore
    rw [List.nil_append, execAll, h]
    rfl
  | cons first before ih =>
    rw [execAll] at hbefore
    rw [cons_append, execAll]
    cases hs : first.exec s with
    | error e =>
      rw [hs] at hbefore
      cases hbefore
    | ok s' =>
      rw [hs] at hbefore
      exact ih hbefore

/-- The `n`-th instruction of a block, and those around it. -/
theorem execAll_at (n : ℕ) {insts : List (Inst ρ ν)} (hbefore : execAll (insts.take n) s = .ok t)
    (hinst : insts[n]? = some inst) (h : inst.exec t = .ok u) :
    execAll insts s = execAll (insts.drop (n + 1)) u := by
  obtain ⟨hlt, rfl⟩ := List.getElem?_eq_some_iff.mp hinst
  have hsplit : insts.take n ++ insts[n] :: insts.drop (n + 1) = insts := by simp
  calc execAll insts s = execAll (insts.take n ++ insts[n] :: insts.drop (n + 1)) s := by rw [hsplit]
    _ = execAll (insts.drop (n + 1)) u := execAll_append_cons hbefore h

namespace Code

variable (f : Code β ρ ν)

def step (b : β) (s : State ρ ν μ) : Except Stop (Next β × State ρ ν μ) := do
  let s ← execAll (f.block b).insts s
  return ((f.block b).terminator.next s, s)

/-- Execute from a block on, up to the result and the memory it leaves. -/
def run : ℕ → β → State ρ ν μ → Except Stop (BitVec 64 × μ)
  | 0, _, _ => .error .fuel
  | fuel + 1, b, s =>
    match f.step b s with
    | .ok (.block b', s') => run fuel b' s'
    | .ok (.returned x, s') => .ok (x, s'.mem)
    | .error e => .error e

/-- `f.Reaches b s n c t`: the execution of `n` blocks leads from block `b` in state `s` to `c` in `t`. -/
inductive Reaches (f : Code β ρ ν) : β → State ρ ν μ → ℕ → β → State ρ ν μ → Prop
  | refl (b : β) (s : State ρ ν μ) : Reaches f b s 0 b s
  | step {b b' c : β} {s s' t : State ρ ν μ} {n : ℕ} :
    f.step b s = .ok (.block b', s') → Reaches f b' s' n c t → Reaches f b s (n + 1) c t

variable {f}

variable {b : β} {s : State ρ ν μ}

variable {t s' : State ρ ν μ} {c : β} {n : ℕ}

theorem step_of_execAll (h : execAll (f.block b).insts s = .ok t) :
    f.step b s = .ok ((f.block b).terminator.next t, t) := by
  rw [step, h]
  rfl

theorem Reaches.single {b' : β} (h : f.step b s = .ok (.block b', s')) :
    f.Reaches b s 1 b' s' := .step h (.refl b' s')

theorem Reaches.trans {d : β} {u : State ρ ν μ} {m : ℕ} (h : f.Reaches b s n c t) (h' : f.Reaches c t m d u) :
    f.Reaches b s (n + m) d u := by
  induction h with
  | refl b s => rwa [Nat.zero_add]
  | step hs _ ih =>
    rw [Nat.add_right_comm]
    exact .step hs (ih h')

/-- The blocks of a path cost one unit of fuel each. -/
theorem run_of_reaches (h : f.Reaches b s n c t) (fuel : ℕ) : f.run (n + fuel) b s = f.run fuel c t := by
  induction h with
  | refl b s => rw [Nat.zero_add]
  | step hs _ ih =>
    rw [Nat.add_right_comm, run, hs]
    exact ih

theorem run_of_returned {x : BitVec 64} (h : f.step b s = .ok (.returned x, s')) (fuel : ℕ) :
    f.run (fuel + 1) b s = .ok (x, s'.mem) := by
  rw [run, h]

/-- More fuel does not change a result. -/
theorem run_of_le {fuel fuel' : ℕ} (hle : fuel ≤ fuel') {r : BitVec 64 × μ} (h : f.run fuel b s = .ok r) :
    f.run fuel' b s = .ok r := by
  induction fuel generalizing fuel' b s with
  | zero => cases h
  | succ fuel ih =>
    obtain ⟨fuel', rfl⟩ : ∃ m, fuel' = m + 1 := ⟨fuel' - 1, by omega⟩
    rw [run] at h ⊢
    cases hs : f.step b s with
    | error e =>
      rw [hs] at h
      cases h
    | ok next =>
      obtain ⟨next, s'⟩ := next
      rw [hs] at h
      cases next with
      | block b' => exact ih (by omega) h
      | returned x => exact h

/-- **Counted loops**: if an iteration leads back to the head of the loop with the next instance of the
invariant, by at most `bound` blocks, then `n` iterations do by at most `bound * n`. -/
theorem Reaches.iterate {head : β} {Inv : ℕ → State ρ ν μ → Prop} {bound : ℕ}
    (hbody : ∀ i < n, ∀ s, Inv i s → ∃ k ≤ bound, ∃ t, f.Reaches head s k head t ∧ Inv (i + 1) t) (h : Inv 0 s) :
    ∃ k ≤ bound * n, ∃ t, f.Reaches head s k head t ∧ Inv n t := by
  induction n with
  | zero => exact ⟨0, Nat.zero_le _, s, .refl head s, h⟩
  | succ n ih =>
    obtain ⟨k, hk, t, hst, ht⟩ := ih fun i hi => hbody i (Nat.lt_succ_of_lt hi)
    obtain ⟨k', hk', u, htu, hu⟩ := hbody n (Nat.lt_succ_self n) t ht
    exact ⟨k + k', by rw [Nat.mul_succ]; omega, u, hst.trans htu, hu⟩

end Code

/-! ### Arrays -/

/-- The number of the element at an address, in an array of elements of `size` bytes. -/
def elementAt (size : ℕ) (base addr : BitVec 64) : Option ℕ :=
  if (addr - base).toNat % size = 0 then some ((addr - base).toNat / size) else none

/-- The address of an element, if the offset fits in 64 bits. -/
theorem elementAt_add_mul {size i : ℕ} (hsize : 0 < size) (h : i * size < 2 ^ 64) (base : BitVec 64) :
    elementAt size base (base + BitVec.ofNat 64 i * BitVec.ofNat 64 size) = some i := by
  have hoffset : (base + BitVec.ofNat 64 i * BitVec.ofNat 64 size - base).toNat = i * size := by
    rw [BitVec.add_comm, BitVec.add_sub_cancel, ← BitVec.ofNat_mul, BitVec.toNat_ofNat, Nat.mod_eq_of_lt h]
  rw [elementAt, hoffset, Nat.mul_mod_left, if_pos rfl, Nat.mul_div_cancel i hsize]

end Ssa
