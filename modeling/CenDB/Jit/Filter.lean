import CenDB.Executor.Vector
import CenDB.Lib.Ssa

/-! # Compiled filters

`compile_filter` emits one loop of six blocks for every comparison.  It reads the column at `col_ptr` and
stores the numbers of the rows that pass one after the other at `out_ptr`; its result is how many there are.
After `n` rows, it has stored what the interpreted filter selects in the first `n` rows, and has left the rest
of the output as it was (`AtRow`). -/

namespace CenDB.Jit

open Executor Ssa List

inductive JitOp
  | eq
  | ne
  | gt
  | ge
  | lt
  | le
  | sum
  deriving DecidableEq

/-! ### The code -/

inductive Label
  | entryBlock
  | loopHeader
  | loopBody
  | matchBlock
  | nextBlock
  | exitBlock

/-- The values of the function, `i_val` and `one` once for each block that defines them. -/
inductive Value
  | colPtr | colLen | outPtr
  | zero
  | headerI | isEnd
  | bodyI | scale | offset | addr | val | constVal | condition
  | countVal | scaleOut | offsetOut | addrOut | iU32 | matchOne | nextCount
  | nextIVal | nextOne | nextI
  | finalCount
  deriving DecidableEq

inductive Variable
  | i
  | count
  deriving DecidableEq

/-- The comparison of the loop's body. -/
def JitOp.intCC : JitOp → Option IntCC
  | eq => some .equal
  | ne => some .notEqual
  | gt => some .signedGreaterThan
  | ge => some .signedGreaterThanOrEqual
  | lt => some .signedLessThan
  | le => some .signedLessThanOrEqual
  | sum => none

def filterBlock (cc : IntCC) (value : Int64) : Label → Block Label Value Variable
  | .entryBlock => {
    insts := [ .iconst .zero 0, .defVar .i .zero, .defVar .count .zero]
    terminator := .jump .loopHeader }
  | .loopHeader => {
    insts := [ .useVar .headerI .i, .icmp .equal .isEnd .headerI .colLen]
    terminator := .brif .isEnd .exitBlock .loopBody }
  | .loopBody => {
    insts := [ .useVar .bodyI .i, .iconst .scale 8, .imul .offset .bodyI .scale, .iadd .addr .colPtr .offset,
      .load .val .addr,
      .iconst .constVal value.toBitVec,
      .icmp cc .condition .val .constVal]
    terminator := .brif .condition .matchBlock .nextBlock }
  | .matchBlock => {
    insts := [ .useVar .countVal .count, .iconst .scaleOut 4, .imul .offsetOut .countVal .scaleOut,
      .iadd .addrOut .outPtr .offsetOut,
      .ireduce .iU32 .bodyI,
      .store .iU32 .addrOut,
      .iconst .matchOne 1,
      .iadd .nextCount .countVal .matchOne,
      .defVar .count .nextCount]
    terminator := .jump .nextBlock }
  | .nextBlock => {
    insts := [ .useVar .nextIVal .i, .iconst .nextOne 1, .iadd .nextI .nextIVal .nextOne, .defVar .i .nextI]
    terminator := .jump .loopHeader }
  | .exitBlock => {
    insts := [.useVar .finalCount .count]
    terminator := .ret .finalCount }

abbrev FilterCode := Code Label Value Variable

abbrev filterCode (cc : IntCC) (value : Int64) : FilterCode := ⟨.entryBlock, filterBlock cc value⟩

/-- `native` says whether the code generator supports the machine and accepts the function. -/
def compileFilter (native : Bool) (op : JitOp) (value : Int64) : Option FilterCode :=
  if op = .sum then none
  else if native then op.intCC.map fun cc => filterCode cc value
  else none

/-! ### Calls -/

/-- `&[i64]`: a column and its address.  No slice has more than `isize::MAX` bytes. -/
structure Slice where
  ptr : BitVec 64
  values : List Int64
  fits : 8 * values.length < 2 ^ 63

/-- The memory that a call may use: the column, which it reads, and the indices, which it writes. -/
structure Buffers where
  col : Slice
  outPtr : BitVec 64
  indices : List UInt32

instance : Memory Buffers where
  load m addr := do
    let i ← elementAt 8 m.col.ptr addr
    let v ← m.col.values[i]?
    return v.toBitVec
  store m addr x := do
    let i ← elementAt 4 m.outPtr addr
    if i < m.indices.length then
      return { m with indices := m.indices.set i ⟨x⟩ }
    else none

/-- The arguments `col_ptr`, `col_len` and `out_ptr` in their registers; `s` is what stands in the others and
in the variables. -/
def entryState (s : State Value Variable Unit) (m : Buffers) : State Value Variable Buffers where
  regs
    | .colPtr => m.col.ptr
    | .colLen => BitVec.ofNat 64 m.col.values.length
    | .outPtr => m.outPtr
    | r => s.regs r
  vars := s.vars
  mem := m

/-- `f(col_ptr, col_len, out_ptr)`. -/
def call (f : FilterCode) (fuel : ℕ) (s : State Value Variable Unit) (m : Buffers) :
    Except Stop (BitVec 64 × Buffers) :=
  f.run fuel f.entry (entryState s m)

/-! ### The loop -/

/-- The arguments of the call stand in their registers. -/
structure Args (col : Slice) (outPtr : BitVec 64) (regs : Value → BitVec 64) : Prop where
  colPtr : regs .colPtr = col.ptr
  colLen : regs .colLen = BitVec.ofNat 64 col.values.length
  outPtr : regs .outPtr = outPtr

section blocks

variable (cc : IntCC) (value : Int64) {s : State Value Variable Buffers} {col : Slice} {outPtr : BitVec 64}

section

variable (h : Args col outPtr s.regs)
include h

theorem step_entryBlock : ∃ t, (filterCode cc value).step .entryBlock s = .ok (.block .loopHeader, t) ∧
      Args col outPtr t.regs ∧ t.vars .i = 0 ∧ t.vars .count = 0 ∧ t.mem = s.mem :=
  ⟨_, rfl, ⟨h.colPtr, h.colLen, h.outPtr⟩, rfl, rfl, rfl⟩

theorem step_loopHeader : ∃ t, (filterCode cc value).step .loopHeader s =
        .ok (.block (if s.vars .i == s.regs .colLen then .exitBlock else .loopBody), t) ∧
      Args col outPtr t.regs ∧ t.vars = s.vars ∧ t.mem = s.mem := by
  obtain ⟨t, ht, hargs, hvars, hmem, hend⟩ : ∃ t, execAll (filterBlock cc value .loopHeader).insts s = .ok t ∧
      Args col outPtr t.regs ∧ t.vars = s.vars ∧ t.mem = s.mem ∧
      t.regs .isEnd = if s.vars .i == s.regs .colLen then 1 else 0 :=
    ⟨_, rfl, ⟨h.colPtr, h.colLen, h.outPtr⟩, rfl, rfl, rfl⟩
  refine ⟨t, ?_, hargs, hvars, hmem⟩
  rw [Code.step_of_execAll ht]
  exact congrArg (fun next => Except.ok (next, t)) (Terminator.next_brif hend _ _)

theorem step_loopBody {x : BitVec 64} (hload : Memory.load s.mem (s.regs .colPtr + s.vars .i * 8) = some x) :
    ∃ t, (filterCode cc value).step .loopBody s =
        .ok (.block (if cc.holds x value.toBitVec then .matchBlock else .nextBlock), t) ∧
      Args col outPtr t.regs ∧ t.regs .bodyI = s.vars .i ∧ t.vars = s.vars ∧ t.mem = s.mem := by
  obtain ⟨t, ht, hargs, hi, hvars, hmem, hcond⟩ :
      ∃ t, execAll (filterBlock cc value .loopBody).insts s = .ok t ∧ Args col outPtr t.regs ∧
        t.regs .bodyI = s.vars .i ∧ t.vars = s.vars ∧ t.mem = s.mem ∧
        t.regs .condition = if cc.holds x value.toBitVec then 1 else 0 :=
    ⟨_, execAll_at 4 rfl rfl (Inst.exec_load hload), ⟨h.colPtr, h.colLen, h.outPtr⟩, rfl, rfl, rfl, rfl⟩
  refine ⟨t, ?_, hargs, hi, hvars, hmem⟩
  rw [Code.step_of_execAll ht]
  exact congrArg (fun next => Except.ok (next, t)) (Terminator.next_brif hcond _ _)

theorem step_matchBlock {mem : Buffers}
    (hstore : Memory.store s.mem (s.regs .outPtr + s.vars .count * 4) ((s.regs .bodyI).setWidth 32) = some mem) :
    ∃ t, (filterCode cc value).step .matchBlock s = .ok (.block .nextBlock, t) ∧
      Args col outPtr t.regs ∧ t.vars .i = s.vars .i ∧ t.vars .count = s.vars .count + 1 ∧ t.mem = mem := by
  have hlow : (((s.regs .bodyI).setWidth 32).setWidth 64).setWidth 32 = (s.regs .bodyI).setWidth 32 := by simp
  rw [← hlow] at hstore
  exact ⟨_, Code.step_of_execAll (execAll_at 5 rfl rfl (Inst.exec_store hstore)),
    ⟨h.colPtr, h.colLen, h.outPtr⟩, rfl, rfl, rfl⟩

theorem step_nextBlock : ∃ t, (filterCode cc value).step .nextBlock s = .ok (.block .loopHeader, t) ∧
      Args col outPtr t.regs ∧ t.vars .i = s.vars .i + 1 ∧ t.vars .count = s.vars .count ∧ t.mem = s.mem :=
  ⟨_, rfl, ⟨h.colPtr, h.colLen, h.outPtr⟩, rfl, rfl, rfl⟩

end

theorem step_exitBlock :
    ∃ t, (filterCode cc value).step .exitBlock s = .ok (.returned (s.vars .count), t) ∧ t.mem = s.mem :=
  ⟨_, rfl, rfl⟩

end blocks

/-! ### Runs -/

variable {m : Buffers} {n : ℕ} {v value : Int64} {cc : IntCC}

/-- The row of a column that a load reads. -/
theorem load_row (h : m.col.values[n]? = some v) :
    Memory.load m (m.col.ptr + BitVec.ofNat 64 n * 8) = some v.toBitVec := by
  have hlt : n < m.col.values.length := (List.getElem?_eq_some_iff.mp h).1
  have hfits : n * 8 < 2 ^ 64 := by
    have := m.col.fits
    omega
  have hat : elementAt 8 m.col.ptr (m.col.ptr + BitVec.ofNat 64 n * 8) = some n :=
    elementAt_add_mul (by omega) hfits m.col.ptr
  simp only [Memory.load, hat, h, Option.bind_eq_bind, Option.bind_some, Option.pure_def]

/-- The index that a store writes. -/
theorem store_index {k : ℕ} (hfits : k * 4 < 2 ^ 64) (h : k < m.indices.length) (x : BitVec 32) :
    Memory.store m (m.outPtr + BitVec.ofNat 64 k * 4) x = some { m with indices := m.indices.set k ⟨x⟩ } := by
  have hat : elementAt 4 m.outPtr (m.outPtr + BitVec.ofNat 64 k * 4) = some k :=
    elementAt_add_mul (by omega) hfits m.outPtr
  simp only [Memory.store, hat, Option.bind_eq_bind, Option.bind_some, if_pos h, Option.pure_def]

/-- The output begins with `indices` and has not changed after them. -/
def Buffers.filled (m : Buffers) (indices : List UInt32) : Buffers :=
  { m with indices := indices ++ m.indices.drop indices.length }

theorem Buffers.filled_push {indices : List UInt32} (h : indices.length < m.indices.length) (idx : UInt32) :
    { m.filled indices with indices := (m.filled indices).indices.set indices.length idx } =
      m.filled (indices ++ [idx]) := by
  have hset : (indices ++ m.indices.drop indices.length).set indices.length idx =
      indices ++ [idx] ++ m.indices.drop (indices.length + 1) := by
    rw [set_append_right _ _ le_rfl, Nat.sub_self, drop_eq_getElem_cons h, set_cons_zero, append_assoc]
    rfl
  rw [filled, filled, hset, length_append, length_singleton]

/-- What the interpreted filter selects in the first `n` rows. -/
def selected (cc : IntCC) (value : Int64) (col : Slice) (n : ℕ) : List UInt32 :=
  (filterI64 (fun v => cc.holds v.toBitVec value.toBitVec) (col.values.take n)).indices

theorem length_selected_le (cc : IntCC) (value : Int64) (col : Slice) (n : ℕ) :
    (selected cc value col n).length ≤ min n col.values.length := by
  have hle := length_filterI64_le (fun v => cc.holds v.toBitVec value.toBitVec) (col.values.take n)
  rwa [length_take] at hle

theorem selected_succ (cc : IntCC) (value : Int64) {col : Slice} (h : col.values[n]? = some v) :
    selected cc value col (n + 1) =
      selected cc value col n ++ if cc.holds v.toBitVec value.toBitVec then [UInt32.ofNat n] else [] := by
  rw [selected, filterI64_take_succ _ h]
  split
  · rfl
  · rw [append_nil, selected]

/-- The loop's invariant, at its header after `n` rows of the call on `m`. -/
structure AtRow (cc : IntCC) (value : Int64) (m : Buffers) (n : ℕ) (s : State Value Variable Buffers) : Prop where
  args : Args m.col m.outPtr s.regs
  i : s.vars .i = BitVec.ofNat 64 n
  count : s.vars .count = BitVec.ofNat 64 (selected cc value m.col n).length
  mem : s.mem = m.filled (selected cc value m.col n)

section runs

variable {cc : IntCC} {value : Int64} {m : Buffers}

variable {n fuel : ℕ} {s : State Value Variable Buffers}

/-- The step to the next row, once the output is right for it. -/
theorem atRow_of_nextBlock (hargs : Args m.col m.outPtr s.regs) (hi : s.vars .i = BitVec.ofNat 64 n)
    (hcount : s.vars .count = BitVec.ofNat 64 (selected cc value m.col (n + 1)).length)
    (hmem : s.mem = m.filled (selected cc value m.col (n + 1))) :
    ∃ t, (filterCode cc value).step .nextBlock s = .ok (.block .loopHeader, t) ∧ AtRow cc value m (n + 1) t := by
  obtain ⟨t, ht, hargs', hi', hcount', hmem'⟩ := step_nextBlock cc value hargs
  refine ⟨t, ht, hargs', ?_, hcount'.trans hcount, hmem'.trans hmem⟩
  rw [hi', hi, BitVec.ofNat_add]
  rfl

/-- One row: its load, the store if it passes, and the step to the next. -/
theorem AtRow.next (hlen : m.col.values.length ≤ m.indices.length) (hn : n < m.col.values.length)
    (h : AtRow cc value m n s) :
    ∃ k ≤ 4, ∃ t, (filterCode cc value).Reaches .loopHeader s k .loopHeader t ∧ AtRow cc value m (n + 1) t := by
  obtain ⟨v, hv⟩ : ∃ v, m.col.values[n]? = some v := ⟨_, getElem?_eq_getElem hn⟩
  have hfits := m.col.fits
  have hle := length_selected_le cc value m.col n
  have hne : (s.vars .i == s.regs .colLen) = false := by
    rw [h.i, h.args.colLen, beq_eq_false_iff_ne, ne_eq, ← BitVec.toNat_inj, BitVec.toNat_ofNat, BitVec.toNat_ofNat]
    omega
  obtain ⟨s₁, hs₁, hargs₁, hvars₁, hmem₁⟩ := step_loopHeader cc value h.args
  rw [hne] at hs₁
  have hload : Memory.load s₁.mem (s₁.regs .colPtr + s₁.vars .i * 8) = some v.toBitVec := by
    rw [hmem₁, h.mem, hargs₁.colPtr, hvars₁, h.i]
    exact load_row hv
  obtain ⟨s₂, hs₂, hargs₂, hi₂, hvars₂, hmem₂⟩ := step_loopBody cc value hargs₁ hload
  have hcount : s₂.vars .count = BitVec.ofNat 64 (selected cc value m.col n).length := by
    rw [hvars₂, hvars₁, h.count]
  have hmem : s₂.mem = m.filled (selected cc value m.col n) := by
    rw [hmem₂, hmem₁, h.mem]
  have hi : s₂.vars .i = BitVec.ofNat 64 n := by
    rw [hvars₂, hvars₁, h.i]
  have hsucc := selected_succ cc value hv
  cases hpass : cc.holds v.toBitVec value.toBitVec with
  | false =>
    rw [hpass] at hs₂ hsucc
    have hsame : selected cc value m.col (n + 1) = selected cc value m.col n := hsucc.trans (append_nil _)
    rw [← hsame] at hcount hmem
    obtain ⟨t, ht, hrow⟩ := atRow_of_nextBlock hargs₂ hi hcount hmem
    exact ⟨3, by omega, t, .step hs₁ (.step hs₂ (.single ht)), hrow⟩
  | true =>
    rw [hpass] at hs₂ hsucc
    have hpush : selected cc value m.col (n + 1) = selected cc value m.col n ++ [UInt32.ofNat n] := hsucc
    have hstore : Memory.store s₂.mem (s₂.regs .outPtr + s₂.vars .count * 4) ((s₂.regs .bodyI).setWidth 32) =
        some (m.filled (selected cc value m.col (n + 1))) := by
      have hroom : (selected cc value m.col n).length < m.indices.length := by omega
      have hroom' : (selected cc value m.col n).length < (m.filled (selected cc value m.col n)).indices.length := by
        rw [Buffers.filled, length_append, length_drop]
        omega
      have hidx : (s₂.regs .bodyI).setWidth 32 = BitVec.ofNat 32 n := by
        rw [hi₂, hvars₁, h.i, BitVec.setWidth_ofNat_of_le (by omega)]
      rw [hmem, hargs₂.outPtr, hcount, hidx, hpush, ← Buffers.filled_push hroom]
      exact store_index (by omega) hroom' _
    obtain ⟨s₃, hs₃, hargs₃, hi₃, hcount₃, hmem₃⟩ := step_matchBlock cc value hargs₂ hstore
    have hcount' : s₃.vars .count = BitVec.ofNat 64 (selected cc value m.col (n + 1)).length := by
      rw [hcount₃, hcount, hpush, length_append, length_singleton, BitVec.ofNat_add]
      rfl
    obtain ⟨t, ht, hrow⟩ := atRow_of_nextBlock hargs₃ (hi₃.trans hi) hcount' hmem₃
    exact ⟨4, le_rfl, t, .step hs₁ (.step hs₂ (.step hs₃ (.single ht))), hrow⟩

/-- From the header on, before the first row. -/
theorem AtRow.run (hlen : m.col.values.length ≤ m.indices.length) (h : AtRow cc value m 0 s)
    (hfuel : 4 * m.col.values.length + 2 ≤ fuel) :
    (filterCode cc value).run fuel .loopHeader s =
      .ok (BitVec.ofNat 64 (selected cc value m.col m.col.values.length).length,
        m.filled (selected cc value m.col m.col.values.length)) := by
  obtain ⟨k, hk, t, hreach, hrow⟩ := Code.Reaches.iterate (fun n hn s hs => AtRow.next hlen hn hs) h
  have hend : (t.vars .i == t.regs .colLen) = true := by simp [hrow.i, hrow.args.colLen]
  obtain ⟨u, hu, -, hvars, hmem⟩ := step_loopHeader cc value hrow.args
  rw [hend, if_pos rfl] at hu
  obtain ⟨w, hw, hmem'⟩ := step_exitBlock cc value (s := u)
  have hrun := Code.run_of_reaches (hreach.trans (.single hu)) 1
  rw [Code.run_of_returned hw 0, hvars, hrow.count, hmem', hmem, hrow.mem] at hrun
  exact Code.run_of_le (by omega) hrun

/-- **The compiled loop**: whatever the registers and variables hold before, a call on an output with room for
every row stores what the interpreted filter selects, leaves the rest of the output and the column as they
were, and returns the number of the stored indices. -/
theorem call_filterCode (cc : IntCC) (value : Int64) (m : Buffers)
    (hlen : m.col.values.length ≤ m.indices.length) (s : State Value Variable Unit)
    (hfuel : 4 * m.col.values.length + 3 ≤ fuel) :
    call (filterCode cc value) fuel s m = .ok (BitVec.ofNat 64 (selected cc value m.col m.col.values.length).length,
        m.filled (selected cc value m.col m.col.values.length)) := by
  obtain ⟨fuel, rfl⟩ : ∃ n, fuel = n + 1 := ⟨fuel - 1, by omega⟩
  obtain ⟨t, ht, hargs, hi, hcount, hmem⟩ :
      ∃ t, (filterCode cc value).step .entryBlock (entryState s m) = .ok (.block .loopHeader, t) ∧
        Args m.col m.outPtr t.regs ∧ t.vars .i = 0 ∧ t.vars .count = 0 ∧ t.mem = m :=
    step_entryBlock cc value ⟨rfl, rfl, rfl⟩
  have hrow : AtRow cc value m 0 t := ⟨hargs, hi, hcount, hmem⟩
  rw [call, Nat.add_comm, Code.run_of_reaches (.single ht)]
  exact hrow.run hlen (by omega)

end runs

/-! ### Filters -/

/-- How an execution stops short. -/
inductive Halt
  | native (stop : Stop)
  | outOfBounds
  | overflow
  deriving DecidableEq

/-- `x as u32`. -/
def toU32 (x : Int64) : UInt32 := x.toUInt64.toUInt32

/-- The fallback to the interpreted executor. -/
def interpreted (op : JitOp) (value : Int64) (col : List Int64) : SelectionVector :=
  match op with
  | .eq => filterI64Eq col value
  | .ne => filterI64Ne col value
  | .gt => filterI64Gt col value
  | .ge => filterI64Ge col value
  | .lt => filterI64Lt col value
  | .le => filterI64Le col value
  | .sum => SelectionVector.new.push (toU32 (sumI64 col))

/-- A filter; nothing but `new` makes one. -/
structure JitFilter where
  op : JitOp
  value : Int64
  funcPtr : Option FilterCode
  compiled : ∃ native, funcPtr = compileFilter native op value

namespace JitFilter

def new (native : Bool) (op : JitOp) (value : Int64) : JitFilter :=
  ⟨op, value, compileFilter native op value, native, rfl⟩

/-- `outPtr` is where the indices are allocated. -/
def execute (filter : JitFilter) (outPtr : BitVec 64) (col : Slice) : Except Halt SelectionVector :=
  match filter.funcPtr with
  | some f =>
    let indices := List.replicate col.values.length 0
    -- four blocks for a row that passes
    match call f (4 * col.values.length + 3) ⟨fun _ => 0, fun _ => 0, ()⟩ ⟨col, outPtr, indices⟩ with
    | .ok (count, m) => .ok ⟨m.indices.take count.toNat⟩
    | .error stop => .error (.native stop)
  | none => .ok (interpreted filter.op filter.value col.values)

end JitFilter

/-- The values that a comparison lets pass. -/
def JitOp.pass (op : JitOp) (value : Int64) : Option (Int64 → Bool) :=
  match op with
  | eq => some fun v => v == value
  | ne => some fun v => v != value
  | gt => some fun v => decide (v > value)
  | ge => some fun v => decide (v ≥ value)
  | lt => some fun v => decide (v < value)
  | le => some fun v => decide (v ≤ value)
  | sum => none

variable {op : JitOp}

theorem interpreted_of_pass {p : Int64 → Bool} (h : op.pass value = some p) (col : List Int64) :
    interpreted op value col = filterI64 p col := by
  cases op <;> cases h <;> rfl

theorem interpreted_of_pass_none (h : op.pass value = none) (col : List Int64) :
    interpreted op value col = ⟨[toU32 (sumI64 col)]⟩ := by
  cases op <;> cases h
  rfl

/-- The comparison of the code is that of the interpreter. -/
theorem JitOp.pass_of_intCC (h : op.intCC = some cc) (value : Int64) :
    op.pass value = some fun v => cc.holds v.toBitVec value.toBitVec := by
  cases op <;> cases h <;> refine congrArg some (funext fun v => ?_) <;> rw [Bool.eq_iff_iff]
  case eq => rw [IntCC.holds, beq_iff_eq, beq_iff_eq, Int64.toBitVec_inj]
  case ne => rw [IntCC.holds, bne_iff_ne, bne_iff_ne, ne_eq, ne_eq, Int64.toBitVec_inj]
  all_goals exact decide_eq_true_iff

theorem selected_length (h : op.intCC = some cc) (value : Int64) (col : Slice) :
    selected cc value col col.values.length = (interpreted op value col.values).indices := by
  rw [selected, take_length, interpreted_of_pass (JitOp.pass_of_intCC h value)]

theorem compileFilter_eq_some {native : Bool} {f : FilterCode} (h : compileFilter native op value = some f) :
    ∃ cc, op.intCC = some cc ∧ f = filterCode cc value := by
  rw [compileFilter] at h
  split at h
  · cases h
  · split at h
    · obtain ⟨cc, hcc, rfl⟩ := Option.map_eq_some_iff.mp h
      exact ⟨cc, hcc, rfl⟩
    · cases h

/-- **Filters**: compiled or not, a filter selects what the interpreted one does. -/
theorem JitFilter.execute_eq (filter : JitFilter) (outPtr : BitVec 64) (col : Slice) :
    filter.execute outPtr col = .ok (interpreted filter.op filter.value col.values) := by
  obtain ⟨native, hcompiled⟩ := filter.compiled
  rw [execute]
  cases hptr : filter.funcPtr with
  | none => rfl
  | some f =>
    obtain ⟨cc, hcc, rfl⟩ := compileFilter_eq_some (hcompiled.symm.trans hptr)
    have hfits := col.fits
    have hle := length_selected_le cc filter.value col col.values.length
    have hcount : (BitVec.ofNat 64 (selected cc filter.value col col.values.length).length).toNat =
        (selected cc filter.value col col.values.length).length := by
      rw [BitVec.toNat_ofNat, Nat.mod_eq_of_lt (by omega)]
    have hcall := call_filterCode cc filter.value ⟨col, outPtr, List.replicate col.values.length 0⟩
      (by rw [length_replicate]) ⟨fun _ => 0, fun _ => 0, ()⟩ le_rfl
    simp only [hcall, hcount, Buffers.filled, take_left]
    rw [selected_length hcc]

example : (JitFilter.new true .gt 50).execute 4096 ⟨64, [10, 20, 60, 80, 30, 90], by decide⟩ =
    .ok ⟨[2, 3, 5]⟩ := by rfl

end CenDB.Jit
