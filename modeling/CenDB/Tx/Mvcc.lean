import CenDB.Lib.Table

/-! # MVCC data model

The version header with its visibility test, the timestamp oracle and the transaction
record, shared by the sequential and the concurrent transaction manager.

Timestamps and transaction ids are natural numbers: both counters start at 1 and advance by
one for each call, so the 64-bit wrap-around is out of reach of a run. -/

namespace CenDB.Tx

open Table

/-- A row key. -/
abbrev Key := List UInt8

/-- Header carried by every row version. -/
structure VersionHeader where
  beginTs : ℕ
  endTs : ℕ
  txnId : ℕ
  prevVersionOff : ℕ
  deriving DecidableEq, Repr

namespace VersionHeader

/-- `u64::MAX`: the version has not been superseded. -/
def LIVE : ℕ := 2 ^ 64 - 1

def new (txnId : ℕ) : VersionHeader :=
  { beginTs := 0, endTs := LIVE, txnId := txnId, prevVersionOff := 0 }

/-- Is this version visible to a transaction with snapshot `readTs` and id `readerTxnId`? -/
def isVisibleTo (v : VersionHeader) (readTs readerTxnId : ℕ) (committed : ℕ → Bool) : Bool :=
  if v.txnId = readerTxnId then true
  else if v.beginTs > readTs then false
  else if v.endTs ≤ readTs then false
  else committed v.beginTs

/-- Another transaction's version is visible exactly inside its lifetime, and only while
its begin timestamp counts as committed. -/
theorem isVisibleTo_iff {v : VersionHeader} {readTs reader : ℕ} {committed : ℕ → Bool}
    (hother : v.txnId ≠ reader) :
    v.isVisibleTo readTs reader committed = true ↔
      v.beginTs ≤ readTs ∧ readTs < v.endTs ∧ committed v.beginTs = true := by
  unfold isVisibleTo
  rw [if_neg hother]
  split_ifs with hbegin hend
  · simp [hbegin]
  · simp [hend]
  · simp [Nat.not_lt.mp hbegin, Nat.not_le.mp hend]

end VersionHeader

/-- The timestamp source; `current` is a load and `next` a fetch-and-add. -/
structure TimestampOracle where
  current : ℕ
  deriving DecidableEq, Repr

namespace TimestampOracle

def new (start : ℕ) : TimestampOracle := ⟨start⟩

/-- Advances the counter; the new value is the allocated timestamp. -/
def next (o : TimestampOracle) : ℕ × TimestampOracle := (o.current + 1, ⟨o.current + 1⟩)

end TimestampOracle

inductive IsolationLevel where
  | readOnly
  | snapshot
  | serializable
  deriving DecidableEq, Repr

inductive TransactionState where
  | active
  | validation
  | committed
  | aborted
  deriving DecidableEq, Repr

/-- What the manager keeps about a transaction. -/
structure Transaction where
  txnId : ℕ
  readTs : ℕ
  commitTs : Option ℕ
  state : TransactionState
  isolation : IsolationLevel
  /-- The keys this transaction has modified. -/
  writeSet : List Key
  deriving DecidableEq, Repr

namespace Transaction

def new (txnId readTs : ℕ) (isolation : IsolationLevel) : Transaction :=
  { txnId := txnId, readTs := readTs, commitTs := none, state := .active,
    isolation := isolation, writeSet := [] }

/-- `write_set.push(key)`. -/
def pushWrite (key : Key) (t : Transaction) : Transaction :=
  { t with writeSet := t.writeSet ++ [key] }

def markAborted (t : Transaction) : Transaction := { t with state := .aborted }

def markCommitted (commitTs : ℕ) (t : Transaction) : Transaction :=
  { t with commitTs := some commitTs, state := .committed }

/-- `commit` and `abort` still accept the transaction. -/
def IsOpen (t : Transaction) : Prop := t.state = .active ∨ t.state = .validation

theorem IsOpen.ne_committed {t : Transaction} (h : t.IsOpen) : t.state ≠ .committed := by
  rcases h with h | h <;> simp [h]

end Transaction

inductive MvccError where
  | conflict
  | aborted
  | alreadyCommitted
  | alreadyAborted
  | notFound
  | other (msg : String)
  deriving DecidableEq, Repr

/-! ### The transaction table

`record_write` and `abort` touch the transaction table only, and both managers have the same
text for them. -/

/-- The body of `record_write` on the transaction table. -/
def recordWriteIn (txns : Table ℕ Transaction) (txnId : ℕ) (key : Key) :
    Except MvccError Unit × Table ℕ Transaction :=
  match txns.lookup txnId with
  | none => (.error .notFound, txns)
  | some txn =>
    if txn.state ≠ .active then (.error .aborted, txns)
    else (.ok (), txns.update txnId (Transaction.pushWrite key))

/-- The body of `abort` on the transaction table. -/
def abortIn (txns : Table ℕ Transaction) (txnId : ℕ) : Except MvccError Unit × Table ℕ Transaction :=
  match txns.lookup txnId with
  | none => (.error .notFound, txns)
  | some txn =>
    match txn.state with
    | .committed => (.error .alreadyCommitted, txns)
    | .aborted => (.error .alreadyAborted, txns)
    | .active | .validation => (.ok (), txns.update txnId Transaction.markAborted)

/-- A write that is recorded goes to an active transaction; one that is not changes nothing. -/
theorem recordWriteIn_cases (txns : Table ℕ Transaction) (txnId : ℕ) (key : Key) :
    (∃ e, recordWriteIn txns txnId key = (.error e, txns)) ∨
    ∃ txn, txns.lookup txnId = some txn ∧ txn.state = .active ∧
      recordWriteIn txns txnId key = (.ok (), txns.update txnId (Transaction.pushWrite key)) := by
  unfold recordWriteIn
  cases txns.lookup txnId with
  | none => exact .inl ⟨_, rfl⟩
  | some txn =>
    dsimp only
    split_ifs with hstate
    · simp
    · exact .inr ⟨txn, rfl, not_not.mp hstate, rfl⟩

/-- An abort is refused without effect, or marks an open transaction aborted. -/
theorem abortIn_cases (txns : Table ℕ Transaction) (txnId : ℕ) : (∃ e, abortIn txns txnId = (.error e, txns)) ∨
    ∃ txn, txns.lookup txnId = some txn ∧ txn.IsOpen ∧
      abortIn txns txnId = (.ok (), txns.update txnId Transaction.markAborted) := by
  unfold abortIn
  cases txns.lookup txnId with
  | none => exact .inl ⟨_, rfl⟩
  | some txn =>
    cases hs : txn.state with
    | committed => exact .inl ⟨.alreadyCommitted, by simp only [hs]⟩
    | aborted => exact .inl ⟨.alreadyAborted, by simp only [hs]⟩
    | active => exact .inr ⟨txn, rfl, .inl hs, by simp only [hs]⟩
    | validation => exact .inr ⟨txn, rfl, .inr hs, by simp only [hs]⟩

/-! ### Tables without new transactions -/

/-- The new table has no new record, no record was reopened, and none lost a write. -/
def Shrinks (txns txns' : Table ℕ Transaction) : Prop :=
  ∀ id txn', txns'.lookup id = some txn' → ∃ txn, txns.lookup id = some txn ∧
    txn.readTs = txn'.readTs ∧ txn.writeSet ⊆ txn'.writeSet ∧ (txn'.IsOpen → txn.IsOpen)

namespace Shrinks

theorem refl (txns : Table ℕ Transaction) : Shrinks txns txns :=
  fun _ txn' hl => ⟨txn', hl, rfl, List.Subset.refl _, id⟩

theorem update (txns : Table ℕ Transaction) (id : ℕ) {f : Transaction → Transaction}
    (hread : ∀ x, (f x).readTs = x.readTs) (hwrites : ∀ x, x.writeSet ⊆ (f x).writeSet)
    (hopen : ∀ x, (f x).IsOpen → x.IsOpen) : Shrinks txns (txns.update id f) := by
  intro id' txn' hl
  rw [lookup_update] at hl
  split_ifs at hl with hid
  · obtain ⟨x, hx, rfl⟩ := Option.map_eq_some_iff.mp hl
    exact ⟨x, hx, (hread x).symm, hwrites x, hopen x⟩
  · exact ⟨txn', hl, rfl, List.Subset.refl _, fun h => h⟩

theorem retain (txns : Table ℕ Transaction) (p : ℕ → Transaction → Bool) : Shrinks txns (txns.retain p) := by
  intro id txn' hl
  rw [lookup_retain, Option.filter_eq_some_iff] at hl
  exact ⟨txn', hl.1, rfl, List.Subset.refl _, fun h => h⟩

theorem pushWrite (txns : Table ℕ Transaction) (id : ℕ) (key : Key) :
    Shrinks txns (txns.update id (Transaction.pushWrite key)) :=
  update txns id (fun _ => rfl) (fun _ => List.subset_append_left _ _) fun _ h => h

theorem markAborted (txns : Table ℕ Transaction) (id : ℕ) :
    Shrinks txns (txns.update id Transaction.markAborted) :=
  update txns id (fun _ => rfl) (fun _ => List.Subset.refl _) (fun _ h => by rcases h with h | h <;> cases h)

theorem markCommitted (txns : Table ℕ Transaction) (id commitTs : ℕ) :
    Shrinks txns (txns.update id (Transaction.markCommitted commitTs)) :=
  update txns id (fun _ => rfl) (fun _ => List.Subset.refl _) (fun _ h => by rcases h with h | h <;> cases h)

theorem abortIn (txns : Table ℕ Transaction) (id : ℕ) : Shrinks txns (CenDB.Tx.abortIn txns id).2 := by
  rcases abortIn_cases txns id with ⟨e, hr⟩ | ⟨txn, -, -, hr⟩
  · rw [hr]
    exact refl txns
  · rw [hr]
    exact markAborted txns id

end Shrinks

/-! ### Validation and publication -/

/-- The OCC test: some key of the write set has a committed write newer than the snapshot. -/
def hasConflict (latestWrites : Table Key ℕ) (readTs : ℕ) (writeSet : List Key) : Bool :=
  writeSet.any fun key =>
    match latestWrites.lookup key with
    | some latest => decide (latest > readTs)
    | none => false

theorem hasConflict_eq_false {latestWrites : Table Key ℕ} {readTs : ℕ} {writeSet : List Key} :
    hasConflict latestWrites readTs writeSet = false ↔
      ∀ key ∈ writeSet, ∀ latest, latestWrites.lookup key = some latest → latest ≤ readTs := by
  simp only [hasConflict, List.any_eq_false]
  refine forall₂_congr fun key _ => ?_
  cases latestWrites.lookup key with
  | none | some l => simp

/-- Publication: every key of the write set gets the commit timestamp as its latest write. -/
def publish (commitTs : ℕ) (writeSet : List Key) (latestWrites : Table Key ℕ) : Table Key ℕ :=
  writeSet.foldl (fun latest key => AList.insert key commitTs latest) latestWrites

theorem lookup_publish (commitTs : ℕ) (writeSet : List Key) (latestWrites : Table Key ℕ) (key : Key) :
    (publish commitTs writeSet latestWrites).lookup key =
      if key ∈ writeSet then some commitTs else latestWrites.lookup key := by
  induction writeSet generalizing latestWrites with
  | nil => simp [publish]
  | cons k ks ih =>
    have hcons : publish commitTs (k :: ks) latestWrites =
        publish commitTs ks (AList.insert k commitTs latestWrites) := rfl
    rw [hcons, ih, lookup_insert_if]
    by_cases hks : key ∈ ks
    · simp [hks]
    · simp [hks]

end CenDB.Tx
