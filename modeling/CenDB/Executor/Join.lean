import CenDB.Lib.Chains
import CenDB.Lib.Joins
import CenDB.Storage.Header

/-! # Joins

Hash join, nested loops and sort-merge join of two lists of rows on a key column.  The three of them
go by different notions of equal keys: the hash and `valueEq`, `valueEq` alone, and `valueCmp`.  A NULL
equals nothing, and values of two kinds are never equal.

`valueCmp` is a total order that finds equal just the values that are the same (`lawful_valueCmp`), so
all methods return the rows of the nested loops (`joins_agree`). -/

namespace CenDB.Executor

open List Option

open Storage (Value)

abbrev Row := List Value

/-! ### Values -/

def kindTag (v : Value) : UInt8 := v.kind.toU8

/-- SQL equality: NULL is not even equal to itself. -/
def valueEq : Value → Value → Bool
  | .null, _ => false
  | _, .null => false
  | .bool x, .bool y => x == y
  | .i64 x, .i64 y => x == y
  | .u64 x, .u64 y => x == y
  | .f64 x, .f64 y => x == y
  | .bytes x, .bytes y => x == y
  | .timestamp x, .timestamp y => x == y
  | _, _ => false

/-- The rank of an `f64` among all: the greater the bits of a negative one, the smaller it is. -/
def totalRank (bits : UInt64) : ℤ :=
  if bits.toNat < 2 ^ 63 then bits.toNat else 2 ^ 63 - 1 - bits.toNat

def valueCmp : Value → Value → Ordering
  | .null, .null => .eq
  | .null, _ => .lt
  | _, .null => .gt
  | .bool x, .bool y => compare x y
  | .i64 x, .i64 y => compare x y
  | .u64 x, .u64 y => compare x y
  | .f64 x, .f64 y => compare (totalRank x) (totalRank y)
  | .bytes x, .bytes y => compare x y
  | .timestamp x, .timestamp y => compare x y
  | a, b => compare (kindTag a) (kindTag b)

variable {a b : Value}

theorem valueEq_iff : valueEq a b = true ↔ a = b ∧ a ≠ .null := by
  cases a <;> cases b <;> simp [valueEq]

theorem totalRank_inj {x y : UInt64} (h : totalRank x = totalRank y) : x = y := by
  have hx := x.toNat_lt
  have hy := y.toNat_lt
  unfold totalRank at h
  apply UInt64.toNat_inj.mp
  split at h <;> split at h <;> omega

/-- Values of two kinds are ordered by their kinds. -/
theorem valueCmp_of_ne (h : a.kind ≠ b.kind) : valueCmp a b = compare (kindTag a) (kindTag b) := by
  cases a <;> cases b <;> first | exact absurd rfl h | rfl

theorem kindTag_inj (h : kindTag a = kindTag b) : a.kind = b.kind := by
  rw [← Storage.ValueKind.fromU8_toU8 a.kind, ← Storage.ValueKind.fromU8_toU8 b.kind]
  exact congrArg Storage.ValueKind.fromU8 h

/-- Two values of one kind, kind by kind. -/
theorem sameKind_cases {P : Value → Value → Prop} (hnull : P .null .null) (hbool : ∀ x y, P (.bool x) (.bool y))
    (hi64 : ∀ x y, P (.i64 x) (.i64 y)) (hu64 : ∀ x y, P (.u64 x) (.u64 y)) (hf64 : ∀ x y, P (.f64 x) (.f64 y))
    (hbytes : ∀ x y, P (.bytes x) (.bytes y)) (htimestamp : ∀ x y, P (.timestamp x) (.timestamp y))
    (h : a.kind = b.kind) : P a b := by
  cases a <;> cases b <;> first | cases h; done | apply_assumption

instance oriented_valueCmp : Std.OrientedCmp valueCmp where
  eq_swap {a b} := by
    by_cases hkind : a.kind = b.kind
    · refine sameKind_cases (P := fun a b => valueCmp a b = (valueCmp b a).swap) rfl ?_ ?_ ?_ ?_ ?_ ?_ hkind
      all_goals exact fun _ _ => Std.OrientedOrd.eq_swap
    · rw [valueCmp_of_ne hkind, valueCmp_of_ne (Ne.symm hkind)]
      exact Std.OrientedOrd.eq_swap

theorem kindTag_le (h : (valueCmp a b).isLE) : kindTag a ≤ kindTag b := by
  by_cases hkind : a.kind = b.kind
  · exact UInt8.le_of_eq (congrArg Storage.ValueKind.toU8 hkind)
  · rw [valueCmp_of_ne hkind] at h
    exact Std.isLE_compare.mp h

instance trans_valueCmp : Std.TransCmp valueCmp where
  isLE_trans {a b c} hab hbc := by
    have hle := kindTag_le hab
    have hle' := kindTag_le hbc
    by_cases hkind : a.kind = c.kind
    · have hmid : a.kind = b.kind := by
        have htags : kindTag a = kindTag c := congrArg Storage.ValueKind.toU8 hkind
        apply kindTag_inj
        apply UInt8.le_antisymm hle
        rw [htags]
        exact hle'
      have hmid' : b.kind = c.kind := hmid.symm.trans hkind
      revert hab hbc hmid'
      refine sameKind_cases (P := fun a b => (valueCmp a b).isLE → (valueCmp b c).isLE → b.kind = c.kind →
        (valueCmp a c).isLE) ?_ ?_ ?_ ?_ ?_ ?_ ?_ hmid
      · exact fun _ h _ => h
      all_goals
        intro x y hab hbc hkind'
        cases c <;> first | cases hkind'; done | exact Std.TransOrd.isLE_trans hab hbc
    · rw [valueCmp_of_ne hkind]
      exact Std.isLE_compare.mpr (UInt8.le_trans hle hle')

instance lawful_valueCmp : Std.LawfulEqCmp valueCmp where
  compare_self {a} := by
    cases a <;> exact Std.ReflCmp.compare_self
  eq_of_compare {a b} h := by
    by_cases hkind : a.kind = b.kind
    · revert h
      refine sameKind_cases (P := fun a b => valueCmp a b = .eq → a = b) (fun _ => rfl) ?_ ?_ ?_ ?_ ?_ ?_ hkind
      · exact fun x y h => congrArg Value.bool (Std.LawfulEqOrd.eq_of_compare h)
      · exact fun x y h => congrArg Value.i64 (Std.LawfulEqOrd.eq_of_compare h)
      · exact fun x y h => congrArg Value.u64 (Std.LawfulEqOrd.eq_of_compare h)
      · exact fun x y h => congrArg Value.f64 (totalRank_inj (Std.LawfulEqOrd.eq_of_compare h))
      · exact fun x y h => congrArg Value.bytes (Std.LawfulEqOrd.eq_of_compare h)
      · exact fun x y h => congrArg Value.timestamp (Std.LawfulEqOrd.eq_of_compare h)
    · rw [valueCmp_of_ne hkind] at h
      exact absurd (kindTag_inj (Std.LawfulEqOrd.eq_of_compare h)) hkind

/-! ### The methods -/

/-- The key of a row that can be joined. -/
def joinKey (col : ℕ) (row : Row) : Option Value := row[col]?.filter fun v => v ≠ .null

section hash

-- the standard library's hash of the kind and the content
variable (valueHash : Value → UInt64)

/-- For each hash, the places of its rows. -/
def hashTable (build : List Row) (buildCol : ℕ) : Table UInt64 (List ℕ) :=
  Table.pushAll ∅ (build.zipIdx.filterMap fun e =>
    (joinKey buildCol e.1).map fun key => (valueHash key, e.2))

/-- The joined row, if the keys are equal and not just their hashes. -/
def matchRow (build : List Row) (buildCol : ℕ) (emit : Row → Row → Row) (probeRow : Row)
    (probeKey : Value) (bi : ℕ) : Option (List Row) := do
  let buildRow ← build[bi]?
  let buildKey ← buildRow[buildCol]?
  some (if valueEq buildKey probeKey then [emit buildRow probeRow] else [])

def probeRow (build : List Row) (buildCol probeCol : ℕ) (emit : Row → Row → Row) (row : Row) :
    Option (List Row) :=
  match joinKey probeCol row with
  | none => some []
  | some key => do
    let buildIndices := Table.chain (hashTable valueHash build buildCol) (valueHash key)
    let rows ← buildIndices.mapM (matchRow build buildCol emit row key)
    some rows.flatten

/-- The smaller side is built, the other one probes.  `none` is a row or a key that is not there. -/
def hashJoin (left right : List Row) (leftCol rightCol : ℕ) : Option (List Row) :=
  if left.length ≤ right.length then
    (right.mapM (probeRow valueHash left leftCol rightCol fun build probe => build ++ probe)).map List.flatten
  else
    (left.mapM (probeRow valueHash right rightCol leftCol fun build probe => probe ++ build)).map List.flatten

end hash

def nestedLoopJoin (left right : List Row) (predicate : Row → Row → Bool) : List Row :=
  Joins.nested predicate (fun l r => l ++ r) left right

def mergeJoin (left right : List Row) (leftCol rightCol : ℕ) : List Row :=
  Joins.merge valueCmp (joinKey leftCol) (joinKey rightCol) (fun l r => l ++ r) left right

inductive JoinMethod where
  | hash
  | nestedLoop
  | merge
deriving DecidableEq

/-- The predicate of an equi-join. -/
def keysEqual (leftCol rightCol : ℕ) (l r : Row) : Bool :=
  match l[leftCol]?, r[rightCol]? with
  | some a, some b => valueEq a b
  | _, _ => false

def join (valueHash : Value → UInt64) (left right : List Row) (leftCol rightCol : ℕ) :
    JoinMethod → Option (List Row)
  | .hash => hashJoin valueHash left right leftCol rightCol
  | .nestedLoop => some (nestedLoopJoin left right (keysEqual leftCol rightCol))
  | .merge => some (mergeJoin left right leftCol rightCol)

def autoSelectMethod (leftSorted rightSorted : Bool) (leftRows rightRows : ℕ) : JoinMethod :=
  if leftSorted && rightSorted then .merge
  else if leftRows < 10000 || rightRows < 10000 then .hash
  else .nestedLoop

def autoJoin (valueHash : Value → UInt64) (left right : List Row) (leftCol rightCol : ℕ)
    (leftSorted rightSorted : Bool) : Option (List Row) :=
  join valueHash left right leftCol rightCol (autoSelectMethod leftSorted rightSorted left.length right.length)

/-! ### Keys -/

variable {col : ℕ} {row : Row} {v : Value}

theorem joinKey_eq_some :
    joinKey col row = some v ↔ row[col]? = some v ∧ v ≠ .null := by simp [joinKey]

theorem keysEqual_eq (leftCol rightCol : ℕ) :
    keysEqual leftCol rightCol = Joins.matching (joinKey leftCol) (joinKey rightCol) := by
  funext l r
  rw [Bool.eq_iff_iff, Joins.matching_iff]
  simp only [joinKey_eq_some]
  unfold keysEqual
  constructor
  · intro h
    split at h
    · rename_i a b ha hb
      obtain ⟨rfl, hne⟩ := valueEq_iff.mp h
      exact ⟨a, ⟨ha, hne⟩, hb, hne⟩
    · cases h
  · rintro ⟨v, ⟨hl, hne⟩, hr, -⟩
    rw [hl, hr]
    exact valueEq_iff.mpr ⟨rfl, hne⟩

/-- In ascending order of the key column; a row that is too short counts as NULL. -/
def SortedBy (col : ℕ) (rows : List Row) : Prop :=
  rows.Pairwise fun a b => (valueCmp (a[col]?.getD .null) (b[col]?.getD .null)).isLE

theorem joinKey_eq_none (h : joinKey col row = none) : row[col]?.getD .null = .null := by
  cases hv : row[col]? with
  | none => rfl
  | some v =>
    by_contra hne
    have hsome := joinKey_eq_some.mpr ⟨hv, hne⟩
    rw [h] at hsome
    cases hsome

theorem valueCmp_null (h : v ≠ .null) : valueCmp v .null = .gt := by
  cases v with
  | null => exact absurd rfl h
  | _ => rfl

theorem SortedBy.ascending {rows : List Row} (h : SortedBy col rows) :
    Joins.Ascending valueCmp (joinKey col) rows := by
  refine List.Pairwise.imp (fun {a b} hab => ?_) h
  cases hx : joinKey col a with
  | none => trivial
  | some x =>
    obtain ⟨ha, hne⟩ := joinKey_eq_some.mp hx
    rw [ha, getD_some] at hab
    cases hy : joinKey col b with
    | none =>
      rw [joinKey_eq_none hy, valueCmp_null hne] at hab
      cases hab
    | some y =>
      obtain ⟨hb, -⟩ := joinKey_eq_some.mp hy
      rwa [hb, getD_some] at hab

/-! ### Agreement -/

/-- The places of a hash lead to the rows with a key of the hash; those with the key itself match. -/
theorem matchRows_spec (valueHash : Value → UInt64) {build : List Row} (buildCol : ℕ)
    (emit : Row → Row → Row) (row : Row) {key : Value} (hkey : key ≠ .null) (es : List (Row × ℕ))
    (hes : ∀ e ∈ es, build[e.2]? = some e.1) :
    ∃ rows, ((((es.filterMap fun e => (joinKey buildCol e.1).map fun k => (valueHash k, e.2)).filter
        fun e => e.1 = valueHash key).map Prod.snd).mapM (matchRow build buildCol emit row key)) = some rows ∧
      rows.flatten = ((es.map Prod.fst).filter fun r => joinKey buildCol r = some key).map
        fun r => emit r row := by
  induction es with
  | nil => exact ⟨[], rfl, rfl⟩
  | cons e es ih =>
    obtain ⟨rows, hrows, hflat⟩ := ih fun e' he' => hes e' (mem_cons_of_mem e he')
    rw [map_cons, filter_cons]
    cases hk : joinKey buildCol e.1 with
    | none =>
      rw [filterMap_cons, hk]
      exact ⟨rows, hrows, hflat⟩
    | some k =>
      obtain ⟨hget, -⟩ := joinKey_eq_some.mp hk
      rw [filterMap_cons, hk, map_some, filter_cons]
      dsimp only
      by_cases hhash : valueHash k = valueHash key
      · have hmatch : matchRow build buildCol emit row key e.2 =
            some (if valueEq k key then [emit e.1 row] else []) := by
          rw [matchRow, hes e mem_cons_self, bind_eq_bind, bind_some, hget]
          rfl
        rw [if_pos (decide_eq_true hhash), map_cons, mapM_cons, hmatch, hrows]
        refine ⟨_, rfl, ?_⟩
        rw [flatten_cons, hflat]
        by_cases heq : k = key
        · rw [if_pos (valueEq_iff.mpr ⟨heq, heq ▸ hkey⟩), if_pos (by simp [heq])]
          rfl
        · rw [if_neg fun h => heq (valueEq_iff.mp h).1, if_neg (by simp [heq])]
          rfl
      · have hne : k ≠ key := fun h => hhash (congrArg valueHash h)
        rw [if_neg (by simp [hhash]), if_neg (by simp [hne])]
        exact ⟨rows, hrows, hflat⟩

theorem probeRow_spec (valueHash : Value → UInt64) (build : List Row) (buildCol probeCol : ℕ)
    (emit : Row → Row → Row) (row : Row) :
    probeRow valueHash build buildCol probeCol emit row =
      some ((build.filter fun r => Joins.matching (joinKey probeCol) (joinKey buildCol) row r).map
        fun r => emit r row) := by
  unfold probeRow
  cases hkey : joinKey probeCol row with
  | none =>
    rw [filter_eq_nil_iff.mpr]
    · rfl
    · simp [Joins.matching, hkey]
  | some key =>
    obtain ⟨-, hne⟩ := joinKey_eq_some.mp hkey
    obtain ⟨rows, hrows, hflat⟩ := matchRows_spec valueHash buildCol emit row hne build.zipIdx
      fun e he => mk_mem_zipIdx_iff_getElem?.mp he
    dsimp only
    rw [hashTable, Table.chain_pushAll, Table.chain_empty, List.nil_append, hrows, bind_eq_bind,
      bind_some, hflat, zipIdx_map_fst]
    congr 2
    apply filter_congr
    intro r _
    rw [Joins.matching, hkey, isSome_some, Bool.true_and]
    simp [eq_comm]

/-- Every row of the probe side is joined with the rows of the build side. -/
theorem mapM_probeRow (valueHash : Value → UInt64) (build probe : List Row) (buildCol probeCol : ℕ)
    (emit : Row → Row → Row) :
    ((probe.mapM (probeRow valueHash build buildCol probeCol emit)).map List.flatten) =
      some (Joins.nested (Joins.matching (joinKey probeCol) (joinKey buildCol)) (fun p b => emit b p)
        probe build) := by
  have hrow : probeRow valueHash build buildCol probeCol emit = fun row => pure
      ((build.filter fun r => Joins.matching (joinKey probeCol) (joinKey buildCol) row r).map
        fun r => emit r row) := funext (probeRow_spec valueHash build buildCol probeCol emit)
  rw [hrow, mapM_pure]
  rfl

theorem hashJoin_spec (valueHash : Value → UInt64) (left right : List Row) (leftCol rightCol : ℕ) :
    ∃ rows, hashJoin valueHash left right leftCol rightCol = some rows ∧
      rows.Perm (nestedLoopJoin left right (keysEqual leftCol rightCol)) := by
  rw [nestedLoopJoin, keysEqual_eq]
  unfold hashJoin
  split
  · refine ⟨_, mapM_probeRow valueHash left right leftCol rightCol _, ?_⟩
    have hswap := Joins.nested_swap (Joins.matching (joinKey rightCol) (joinKey leftCol))
      (fun probe build => build ++ probe) right left
    rwa [Joins.matching_swap] at hswap
  · exact ⟨_, mapM_probeRow valueHash right left rightCol leftCol _, List.Perm.refl _⟩

theorem mergeJoin_eq {left right : List Row} {leftCol rightCol : ℕ} (hleft : SortedBy leftCol left)
    (hright : SortedBy rightCol right) :
    mergeJoin left right leftCol rightCol = nestedLoopJoin left right (keysEqual leftCol rightCol) := by
  rw [mergeJoin, nestedLoopJoin, keysEqual_eq]
  exact Joins.merge_eq_nested _ left right hleft.ascending hright.ascending

/-- **All methods return the same rows**: the hash join of any inputs, the merge join of the inputs in
any ascending order, and the automatic join of inputs that are sorted if they are said to be. -/
theorem joins_agree (valueHash : Value → UInt64) (left right : List Row) (leftCol rightCol : ℕ) :
    (∃ rows, hashJoin valueHash left right leftCol rightCol = some rows ∧
        rows.Perm (nestedLoopJoin left right (keysEqual leftCol rightCol))) ∧
      (∀ left' right', left'.Perm left → right'.Perm right → SortedBy leftCol left' →
        SortedBy rightCol right' → (mergeJoin left' right' leftCol rightCol).Perm
          (nestedLoopJoin left right (keysEqual leftCol rightCol))) ∧
        ∀ leftSorted rightSorted, (leftSorted = true → SortedBy leftCol left) →
          (rightSorted = true → SortedBy rightCol right) →
            ∃ rows, autoJoin valueHash left right leftCol rightCol leftSorted rightSorted = some rows ∧
              rows.Perm (nestedLoopJoin left right (keysEqual leftCol rightCol)) := by
  refine ⟨hashJoin_spec valueHash left right leftCol rightCol, ?_, ?_⟩
  · intro left' right' hpermL hpermR hsortedL hsortedR
    rw [mergeJoin_eq hsortedL hsortedR]
    exact Joins.nested_perm _ _ hpermL hpermR
  · intro leftSorted rightSorted hleft hright
    unfold autoJoin autoSelectMethod
    split
    · rename_i hsorted
      rw [Bool.and_eq_true] at hsorted
      refine ⟨_, rfl, ?_⟩
      rw [mergeJoin_eq (hleft hsorted.1) (hright hsorted.2)]
    · split
      · exact hashJoin_spec valueHash left right leftCol rightCol
      · exact ⟨_, rfl, List.Perm.refl _⟩

example : hashJoin (fun _ => 0) [[.null], [.i64 1], [.u64 1]] [[.i64 1], [.null], [.i64 1], [.i64 2]] 0 0 =
    some [[.i64 1, .i64 1], [.i64 1, .i64 1]] := by decide

end CenDB.Executor
