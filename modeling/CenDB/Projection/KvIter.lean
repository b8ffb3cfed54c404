import CenDB.Projection.KvCompact

/-! # Iteration, length and delete

Iteration yields the pending entries and then every row with a value; the length counts pending and
indexed keys.  Neither looks for the newest version of a key, so they are exact only for a tidy log
(`exact_of_tidy`).

A log stays tidy exactly as long as no sealed key is put again and no key that is there is deleted
(`tidy_call`, `fresh_of_exact`); a compaction makes it tidy again (`iter_run`). -/

namespace CenDB.Projection

open CenDB.Storage List Table Transition

namespace KvStore

/-- The entries that the iterator yields, in order. -/
def iter (s : KvStore) : List (Bytes × Bytes) := s.ordered ++ s.sealedRows.filter fun e => !e.2.isEmpty

def len (s : KvStore) : ℕ := Table.size s.pending + Table.size s.index

/-- Any call that changes the store. -/
inductive Call where
  | op (op : Op)
  | compact

/-- The store after a successful call. -/
def call (fmt : TextFormat) (s : KvStore) : Call → Option KvStore
  | .op o => step fmt s o
  | .compact => (s.compact fmt).toOption.map Prod.fst

def Call.writes : Call → List (Write Bytes Bytes)
  | .op o => o.writes
  | .compact => []

/-- Iteration, length and delete are exact for a map. -/
structure Exact (fmt : TextFormat) (s : KvStore) (m : Bytes → Option Bytes) : Prop where
  once : (s.iter.map Prod.fst).Nodup
  newest : ∀ k v, (k, v) ∈ s.iter ↔ m k = some v
  len : s.len = Set.ncard {k | m k ≠ none}
  delete : ∀ key s' existed, s.delete fmt key = .ok (s', existed) → (existed = true ↔ m key ≠ none)

/-- A call that supersedes no sealed row and writes no tombstone. -/
def Fresh (s : KvStore) : Call → Prop
  | .op (.put key _) => s.index.lookup key = none
  | .op (.delete key) => s.index.lookup key = none ∧ s.pending.lookup key = none
  | .op .flush => True
  | .compact => True

/-- A call that leaves at most `2 ^ 32` blocks, so that every block has its own id. -/
def Few (fmt : TextFormat) (s : KvStore) (c : Call) : Prop :=
  (∀ s', call fmt s c = some s' → s'.blocks.length ≤ 2 ^ 32) ∧
    (c = .compact → ∀ flushed, s.flushPending fmt = .ok flushed → flushed.blocks.length ≤ 2 ^ 32)

variable {fmt : TextFormat} {s s' : KvStore} {rows : List (List (Bytes × Bytes))} {m : Bytes → Option Bytes}

/-! ### Keys -/

theorem keys_places (rows : List (List (Bytes × Bytes))) :
    (places rows).map Prod.fst = rows.flatten.map Prod.fst := by
  induction rows using List.reverseRecOn with
  | nil => rfl
  | append_singleton rows es ih =>
    rw [places_append, map_append, ih, keys_placesIn, flatten_append, map_append, flatten_singleton]

variable {k key : Bytes} {calls : List Call}

/-- The keys of the log are the pending and the indexed ones. -/
theorem Stored.mem_keys_log (h : Stored s rows) :
    k ∈ (s.log rows).map Prod.fst ↔ (s.index.lookup k).isSome ∨ (s.pending.lookup k).isSome := by
  rw [log, map_append, mem_append, h.keys_ordered, h.order, ← keys_places]
  have hplaces : k ∈ (places rows).map Prod.fst ↔ (Table.lastOf (places rows) k).isSome := by
    rw [← not_iff_not, ← lastOf_eq_none, Option.not_isSome_iff_eq_none]
  rw [hplaces]
  cases h.index k with
  | inl heq => rw [heq]
  | inr hdeleted =>
    rw [hdeleted.2]
    simp

theorem Stored.size_pending (h : Stored s rows) : Table.size s.pending = s.ordered.length := by
  rw [← length_map (f := Prod.fst), h.keys_ordered]
  exact size_eq_length h.nodup h.order

/-- The indexed keys of a tidy store are the keys of its rows. -/
theorem Stored.size_index (h : Stored s rows) (hnodup : ((s.log rows).map Prod.fst).Nodup) :
    Table.size s.index = rows.flatten.length := by
  rw [log, map_append, nodup_append] at hnodup
  obtain ⟨hrows, -, hdisjoint⟩ := hnodup
  rw [← length_map (f := Prod.fst)]
  refine size_eq_length hrows fun k => ?_
  have hindex : s.index.lookup k = Table.lastOf (places rows) k := by
    cases h.index k with
    | inl heq => exact heq
    | inr hdeleted =>
      rw [hdeleted.1, eq_comm, lastOf_eq_none, keys_places]
      intro hk
      have hpending : k ∈ s.ordered.map Prod.fst := by
        rw [h.keys_ordered, h.order]
        exact hdeleted.2
      exact hdisjoint k hk k hpending rfl
  rw [hindex, ← keys_places, ← not_iff_not, ← lastOf_eq_none, Option.not_isSome_iff_eq_none]

/-! ### A tidy log -/

/-- Without tombstones, iteration yields the log. -/
theorem Stored.iter_perm (h : Stored s rows) (hvalue : ∀ e ∈ s.log rows, e.2 ≠ []) :
    s.iter.Perm (s.log rows) := by
  have hall : ∀ e ∈ rows.flatten, (!e.2.isEmpty) = true := by
    intro e he
    have hne := hvalue e (mem_append_left _ he)
    simp [hne]
  rw [iter, log, h.sealedRows_eq, filter_eq_self.mpr hall]
  exact perm_append_comm

/-- A put of a value writes no tombstone. -/
theorem value_bufferPut {value : Bytes} (h : Stored s rows) (hlog : ∀ e ∈ s.log rows, e.2 ≠ [])
    (hvalue : value ≠ []) :
    ∀ e ∈ (s.bufferPut key value).log rows, e.2 ≠ [] := by
  rintro ⟨k, v⟩ he
  cases mem_append.mp he with
  | inl hrow => exact hlog _ (mem_append_left _ hrow)
  | inr hordered =>
    have hlookup := (lookup_insert_if s.pending key k value).symm.trans
      ((h.bufferPut key value).mem_ordered_iff.mp hordered)
    by_cases hkey : k = key
    · rw [if_pos hkey] at hlookup
      rw [← Option.some.inj hlookup]
      exact hvalue
    · rw [if_neg hkey] at hlookup
      exact hlog (k, v) (mem_append_right _ (h.mem_ordered_iff.mpr hlookup))

/-- A put of a key without a sealed row adds no second entry of it. -/
theorem nodup_bufferPut (h : Stored s rows) (hnodup : ((s.log rows).map Prod.fst).Nodup)
    (hindex : s.index.lookup key = none) (value : Bytes) :
    (((s.bufferPut key value).log rows).map Prod.fst).Nodup := by
  cases hpending : s.pending.lookup key with
  | none =>
    have hnew : key ∉ (s.log rows).map Prod.fst := by
      rw [h.mem_keys_log, hindex, hpending]
      simp
    rw [log, h.ordered_bufferPut value hpending, ← append_assoc, map_append, nodup_append]
    refine ⟨hnodup, nodup_singleton key, ?_⟩
    intro k hk k' hk' heq
    rw [map_singleton, mem_singleton] at hk'
    rw [heq, hk'] at hk
    exact hnew hk
  | some v =>
    have horder : (s.bufferPut key value).pendingOrder = s.pendingOrder := by simp [bufferPut, hpending]
    rw [log, map_append, h.keys_ordered] at hnodup
    rw [log, map_append, (h.bufferPut key value).keys_ordered, horder]
    exact hnodup

/-- **Iteration, length and delete are exact for a tidy log.** -/
theorem exact_of_tidy (h : Stored s rows) (hm : ∀ k, s.get k = .ok (m k))
    (hfew : s.blocks.length ≤ 2 ^ 32) (hsize : s.blockSize.toNat + minipageAlign ≤ 2 ^ 32)
    (htidy : Tidy (s.log rows)) : Exact fmt s m := by
  have hperm := h.iter_perm htidy.value
  have hmem (k v : Bytes) : (k, v) ∈ s.log rows ↔ m k = some v := by
    rw [h.mem_log_iff hfew htidy, hm, Except.ok.injEq]
  have hkeys (k : Bytes) : k ∈ (s.log rows).map Prod.fst ↔ m k ≠ none := by
    rw [Option.ne_none_iff_exists', List.mem_map]
    constructor
    · rintro ⟨e, he, rfl⟩
      exact ⟨e.2, (hmem e.1 e.2).mp he⟩
    · rintro ⟨v, hv⟩
      exact ⟨(k, v), (hmem k v).mpr hv, rfl⟩
  refine ⟨(hperm.map Prod.fst).nodup_iff.mpr htidy.nodup, fun k v => ?_, ?_, fun key s' existed hdelete => ?_⟩
  · rw [hperm.mem_iff, hmem]
  · have hset : {k | m k ≠ none} = ↑((s.log rows).map Prod.fst).toFinset := by simp [hkeys]
    rw [hset, Set.ncard_coe_finset, toFinset_card_of_nodup htidy.nodup, length_map, len,
      h.size_pending, h.size_index htidy.nodup, log, length_append, Nat.add_comm]
  · rw [← hkeys, h.mem_keys_log]
    obtain ⟨rows', -, -, ⟨rfl, hthere, -⟩ | ⟨rfl, hindex, hpending, -⟩⟩ := h.delete hdelete hsize
    · exact iff_of_true rfl hthere
    · rw [hindex, hpending]
      simp

/-! ### Calls -/

variable {c : Call} {blockSize : UInt32}

/-- What a successful call is. -/
theorem call_cases (h : call fmt s c = some s') : (∃ op, c = .op op ∧ step fmt s op = some s') ∨
      (∃ stats, c = .compact ∧ s.compact fmt = .ok (s', stats)) := by
  cases c with
  | op op => exact Or.inl ⟨op, rfl, h⟩
  | compact =>
    obtain ⟨⟨next, stats⟩, hcompact, rfl⟩ := Option.map_eq_some_iff.mp h
    exact Or.inr ⟨stats, rfl, toOption_eq_some.mp hcompact⟩

theorem Stored.call (h : Stored s rows) (hcall : call fmt s c = some s')
    (hsize : s.blockSize.toNat + minipageAlign ≤ 2 ^ 32) :
    ∃ rows', Stored s' rows' ∧ s'.config = s.config := by
  obtain ⟨op, rfl, hstep⟩ | ⟨stats, rfl, hcompact⟩ := call_cases hcall
  · exact h.step hstep hsize
  · obtain ⟨flushed, found, hflushed, hfound, hbuild⟩ := compact_cases hcompact
    obtain ⟨rows₁, hstored, -, hconfig, hpending⟩ := h.flush hflushed hsize
    obtain ⟨rows', hstored', -, hconfig', -⟩ := hstored.survivors hpending hfound hbuild
      (by rw [blockSize_of_config hconfig]; exact hsize)
    exact ⟨rows', hstored', hconfig'.trans hconfig⟩

/-- Calls without a compaction. -/
theorem run_map_op (s : KvStore) (ops : List Op) :
    Transition.run (KvStore.call fmt) s (ops.map Call.op) = Transition.run (step fmt) s ops := run_map Call.op s ops

theorem stored_calls {segmentId : UInt64}
    (hrun : Transition.run (KvStore.call fmt) (new segmentId blockSize) calls = some s)
    (hsize : blockSize.toNat + minipageAlign ≤ 2 ^ 32) :
    ∃ rows, Stored s rows ∧ s.blockSize = blockSize := by
  refine run_preserves (I := fun t => ∃ rows, Stored t rows ∧ t.blockSize = blockSize)
    ?_ ⟨[], stored_new segmentId blockSize, rfl⟩ hrun
  rintro t c t' ⟨rows, hstored, hblockSize⟩ hcall
  obtain ⟨rows', hstored', hconfig⟩ := hstored.call hcall (by rw [hblockSize]; exact hsize)
  exact ⟨rows', hstored', (blockSize_of_config hconfig).trans hblockSize⟩

/-- **A call makes its writes to the map.** -/
theorem Stored.call_writes (h : Stored s rows) (hm : ∀ k, s.get k = .ok (m k))
    (hcall : KvStore.call fmt s c = some s') (hput : ∀ key, c ≠ .op (.put key []))
    (hsize : s.blockSize.toNat + minipageAlign ≤ 2 ^ 32) (hfew : Few fmt s c) (k : Bytes) :
    s'.get k = .ok (Write.applyAll m c.writes k) := by
  obtain ⟨op, rfl, hstep⟩ | ⟨stats, rfl, hcompact⟩ := call_cases hcall
  · have hrep : Represents s m := ⟨fun k v hk => (h.order k).mpr (by rw [hk]; rfl), hm⟩
    exact (represents_step hrep hstep (fun key heq => hput key (by rw [heq])) hsize (hfew.1 s' hcall)).1.get k
  · rw [get_compact h hcompact hsize (hfew.2 rfl) (hfew.1 s' hcall)]
    exact hm k

/-- **A fresh call keeps the log tidy.** -/
theorem tidy_call (h : Stored s rows) (htidy : Tidy (s.log rows)) (hcall : call fmt s c = some s')
    (hput : ∀ key, c ≠ .op (.put key [])) (hsize : s.blockSize.toNat + minipageAlign ≤ 2 ^ 32)
    (hfew : Few fmt s c) (hfresh : Fresh s c) :
    ∃ rows', Stored s' rows' ∧ Tidy (s'.log rows') := by
  obtain ⟨op, rfl, hstep⟩ | ⟨stats, rfl, hcompact⟩ := call_cases hcall
  · obtain ⟨key, value, rfl, hput'⟩ | ⟨key, existed, rfl, hdelete⟩ | ⟨rfl, hflush⟩ := step_cases hstep
    · obtain ⟨rows', hstored, hlog, -⟩ := h.put hput' hsize
      refine ⟨rows', hstored, ?_⟩
      rw [hlog]
      exact ⟨nodup_bufferPut h htidy.nodup hfresh value,
        value_bufferPut h htidy.value fun heq => hput key (by rw [heq])⟩
    · obtain ⟨rows', hstored, -, ⟨-, hthere, -⟩ | ⟨-, -, -, hlog⟩⟩ := h.delete hdelete hsize
      · rw [hfresh.1, hfresh.2] at hthere
        simp at hthere
      · exact ⟨rows', hstored, by rw [hlog]; exact htidy⟩
    · obtain ⟨rows', hstored, hlog, -⟩ := h.flush hflush hsize
      exact ⟨rows', hstored, by rw [hlog]; exact htidy⟩
  · obtain ⟨rows', hstored, hpending, -, htidy', -⟩ := h.compact hcompact hsize (hfew.2 rfl)
    exact ⟨rows', hstored, by rw [hstored.log_eq hpending]; exact htidy'⟩

/-- Where the length is exact, every pending or indexed key is visible. -/
theorem visible_of_len (h : Stored s rows) (hm : ∀ k, s.get k = .ok (m k))
    (hlen : s.len = Set.ncard {k | m k ≠ none}) (hk : k ∈ (s.log rows).map Prod.fst) : m k ≠ none := by
  let keys := s.pending.keys.toFinset ∪ s.index.keys.toFinset
  have hmem (k : Bytes) : k ∈ keys ↔ (s.index.lookup k).isSome ∨ (s.pending.lookup k).isSome := by
    rw [Finset.mem_union, mem_toFinset, mem_toFinset, ← AList.mem_keys, ← AList.mem_keys,
      ← AList.lookup_isSome, ← AList.lookup_isSome, or_comm]
  have hvisible : {k | m k ≠ none} ⊆ ↑keys := by
    intro k hne
    rw [Finset.mem_coe, hmem]
    by_contra hnone
    rw [not_or, Option.not_isSome_iff_eq_none, Option.not_isSome_iff_eq_none] at hnone
    have hget : s.get k = .ok none := by rw [get, hnone.2, hnone.1]
    rw [hm, Except.ok.injEq] at hget
    exact hne hget
  have hcard : keys.card ≤ Set.ncard {k | m k ≠ none} := by
    rw [← hlen, len, size_eq_card, size_eq_card]
    exact Finset.card_union_le _ _
  have hall : {k | m k ≠ none} = ↑keys :=
    Set.eq_of_subset_of_ncard_le hvisible (by rw [Set.ncard_coe_finset]; exact hcard)
  have hin : k ∈ {k | m k ≠ none} := by
    rw [hall, Finset.mem_coe, hmem, ← h.mem_keys_log]
    exact hk
  exact hin

/-- **Only a fresh call keeps iteration and length exact.** -/
theorem fresh_of_exact (h : Stored s rows) (htidy : Tidy (s.log rows)) (hm : ∀ k, s.get k = .ok (m k))
    (hcall : call fmt s c = some s') (hput : ∀ key, c ≠ .op (.put key []))
    (hsize : s.blockSize.toNat + minipageAlign ≤ 2 ^ 32) (hfew : Few fmt s c)
    (hexact : Exact fmt s' (Write.applyAll m c.writes)) : Fresh s c := by
  obtain ⟨op, rfl, hstep⟩ | ⟨stats, rfl, hcompact⟩ := call_cases hcall
  · obtain ⟨key, value, rfl, hput'⟩ | ⟨key, existed, rfl, hdelete⟩ | ⟨rfl, hflush⟩ := step_cases hstep
    · -- a sealed key would have a second entry
      show s.index.lookup key = none
      obtain ⟨rows', hstored, hlog, -⟩ := h.put hput' hsize
      have hvalue : ∀ e ∈ (s.bufferPut key value).log rows, e.2 ≠ [] :=
        value_bufferPut h htidy.value fun heq => hput key (by rw [heq])
      have hnodup : (((s.bufferPut key value).log rows).map Prod.fst).Nodup := by
        rw [← hlog] at hvalue ⊢
        exact ((hstored.iter_perm hvalue).map Prod.fst).nodup_iff.mp hexact.once
      rw [log, map_append, nodup_append] at hnodup
      have hpending : key ∈ (s.bufferPut key value).ordered.map Prod.fst := by
        rw [(h.bufferPut key value).keys_ordered, (h.bufferPut key value).order]
        have hlookup : (s.bufferPut key value).pending.lookup key = some value := AList.lookup_insert s.pending
        rw [hlookup]
        rfl
      cases h.index key with
      | inr hdeleted => exact hdeleted.1
      | inl heq =>
        rw [heq, lastOf_eq_none, keys_places]
        exact fun hrow => hnodup.2.2 key hrow key hpending rfl
    · -- a key that is there would leave a tombstone
      obtain ⟨rows', hstored, -, ⟨-, -, hlog⟩ | ⟨-, hindex, hpending, -⟩⟩ := h.delete hdelete hsize
      · have hrewrite := h.rewrite key []
        have hkey : key ∈ (s'.log rows').map Prod.fst := by
          rw [hlog, log, map_append, mem_append, hrewrite.keys_ordered, hrewrite.order]
          have hlookup : ((s.forget key).bufferPut key []).pending.lookup key = some [] := AList.lookup_insert _
          rw [hlookup]
          exact Or.inr rfl
        have hget := h.call_writes hm hcall hput hsize hfew
        have hgone := visible_of_len hstored hget hexact.len hkey
        have hnone : Write.applyAll m (Call.op (Op.delete key)).writes key = none := by
          refine (Write.apply_delete m key key).trans ?_
          rw [if_pos rfl]
        exact absurd hnone hgone
      · exact ⟨hindex, hpending⟩
    · trivial
  · trivial

/-! ### Runs -/

/-- A store of few blocks whose gets return the values of a map. -/
structure Kept (blockSize : UInt32) (s : KvStore) (m : Bytes → Option Bytes) : Prop where
  blockSize_eq : s.blockSize = blockSize
  stored : ∃ rows, Stored s rows
  few : s.blocks.length ≤ 2 ^ 32
  get : ∀ k, s.get k = .ok (m k)

theorem kept_new (segmentId : UInt64) (blockSize : UInt32) :
    Kept blockSize (new segmentId blockSize) fun _ => none where
  blockSize_eq := rfl
  stored := ⟨[], stored_new segmentId blockSize⟩
  few := Nat.zero_le _
  get _ := rfl

theorem Kept.call (h : Kept blockSize s m) (hcall : KvStore.call fmt s c = some s')
    (hput : ∀ key, c ≠ .op (.put key [])) (hsize : blockSize.toNat + minipageAlign ≤ 2 ^ 32)
    (hfew : Few fmt s c) :
    Kept blockSize s' (Write.applyAll m c.writes) := by
  obtain ⟨hblockSize, ⟨rows, hstored⟩, -, hget⟩ := h
  rw [← hblockSize] at hsize
  obtain ⟨rows', hstored', hconfig⟩ := hstored.call hcall hsize
  exact ⟨(blockSize_of_config hconfig).trans hblockSize, ⟨rows', hstored'⟩, hfew.1 s' hcall,
    hstored.call_writes hget hcall hput hsize hfew⟩

theorem Kept.run (h : Kept blockSize s m) (hrun : Transition.run (KvStore.call fmt) s calls = some s')
    (hput : ∀ key, Call.op (.put key []) ∉ calls) (hsize : blockSize.toNat + minipageAlign ≤ 2 ^ 32)
    (hfew : Transition.Along (KvStore.call fmt) (Few fmt) s calls) :
    Kept blockSize s' (Write.applyAll m (calls.flatMap Call.writes)) := by
  induction calls generalizing s m with
  | nil =>
    rw [run_nil, Option.some.injEq] at hrun
    rw [← hrun]
    exact h
  | cons c calls ih =>
    obtain ⟨mid, hmid, hrest⟩ := run_cons_some.mp hrun
    have hcall := h.call hmid (fun key heq => hput key (heq ▸ mem_cons_self)) hsize hfew.1
    rw [flatMap_cons, Write.applyAll_append]
    exact ih hcall hrest (fun key hmem => hput key (mem_cons_of_mem c hmem)) (hfew.2 mid hmid)

/-- **From a tidy store on.** -/
theorem along_fresh_iff (h : Kept blockSize s m) (hstored : Stored s rows) (htidy : Tidy (s.log rows))
    (hrun : Transition.run (call fmt) s calls = some s') (hput : ∀ key, Call.op (.put key []) ∉ calls)
    (hsize : blockSize.toNat + minipageAlign ≤ 2 ^ 32) (hfew : Transition.Along (call fmt) (Few fmt) s calls) :
    Transition.Along (call fmt) Fresh s calls ↔
      ∀ first, first <+: calls → ∀ t, Transition.run (call fmt) s first = some t →
        Exact fmt t (Write.applyAll m (first.flatMap Call.writes)) := by
  have hsize' {s : KvStore} {m : Bytes → Option Bytes} (h : Kept blockSize s m) :
      s.blockSize.toNat + minipageAlign ≤ 2 ^ 32 := by
    rw [h.blockSize_eq]
    exact hsize
  have hwrites (done : List Call) (c : Call) : Write.applyAll m ((done ++ [c]).flatMap Call.writes) =
        Write.applyAll (Write.applyAll m (done.flatMap Call.writes)) c.writes := by simp [Write.applyAll_append]
  have hside : Transition.Along (call fmt) (fun s c => Few fmt s c ∧ ∀ key, c ≠ .op (.put key [])) s calls := by
    refine hfew.and (along_of_forall ?_ s)
    intro s c hc key heq
    exact hput key (heq ▸ hc)
  let I (s : KvStore) (done : List Call) : Prop :=
    Kept blockSize s (Write.applyAll m (done.flatMap Call.writes)) ∧ ∃ rows, Stored s rows ∧ Tidy (s.log rows)
  refine along_iff_prefixes (I := I)
    (P := fun s done => Exact fmt s (Write.applyAll m (done.flatMap Call.writes)))
    ?_ ?_ ?_ [] ⟨h, rows, hstored, htidy⟩ hside hrun
  · rintro s done ⟨h, rows, hstored, htidy⟩
    exact exact_of_tidy hstored h.get h.few (hsize' h) htidy
  · rintro s done c s' ⟨h, rows, hstored, htidy⟩ ⟨hfew, hne⟩ hfresh hs'
    have hcall := h.call hs' hne hsize hfew
    rw [← hwrites] at hcall
    exact ⟨hcall, tidy_call hstored htidy hs' hne (hsize' h) hfew hfresh⟩
  · rintro s done c s' ⟨h, rows, hstored, htidy⟩ ⟨hfew, hne⟩ hstale hs' hexact
    rw [hwrites] at hexact
    exact hstale (fresh_of_exact hstored htidy h.get hs' hne (hsize' h) hfew hexact)

/-- **From a new or a compacted store on, iteration, length and delete are exact after every call
exactly as long as every call is fresh.** -/
theorem iter_run (segmentId : UInt64) (blockSize : UInt32)
    (hsize : blockSize.toNat + minipageAlign ≤ 2 ^ 32) (before after : List Call) (t s : KvStore)
    (hbefore : Transition.run (call fmt) (new segmentId blockSize) before = some t)
    (hstart : before = [] ∨ ∃ calls, before = calls ++ [.compact])
    (hafter : Transition.run (call fmt) t after = some s)
    (hput : ∀ key, Call.op (.put key []) ∉ before ++ after)
    (hfew : Transition.Along (call fmt) (Few fmt) (new segmentId blockSize) (before ++ after)) :
    Transition.Along (call fmt) Fresh t after ↔
      ∀ first, first <+: after → ∀ s', Transition.run (call fmt) t first = some s' →
        Exact fmt s' (Write.lastWrite ((before ++ first).flatMap Call.writes)) := by
  obtain ⟨hfewBefore, hfewAfter⟩ := (Transition.along_append hbefore after).mp hfew
  have hputBefore : ∀ key, Call.op (.put key []) ∉ before := fun key hmem =>
    hput key (mem_append_left _ hmem)
  have hputAfter : ∀ key, Call.op (.put key []) ∉ after := fun key hmem =>
    hput key (mem_append_right _ hmem)
  have hkept := (kept_new segmentId blockSize).run hbefore hputBefore hsize hfewBefore
  -- the store is tidy at the start
  have htidy : ∃ rows, Stored t rows ∧ Tidy (t.log rows) := by
    obtain rfl | ⟨calls, rfl⟩ := hstart
    · rw [Transition.run_nil, Option.some.injEq] at hbefore
      rw [← hbefore]
      exact ⟨[], stored_new segmentId blockSize, nodup_nil, by simp [log, ordered, new]⟩
    · rw [Transition.run_append, Option.bind_eq_some_iff] at hbefore
      obtain ⟨u, hu, hlast⟩ := hbefore
      obtain ⟨hfewCalls, hfewLast⟩ := (Transition.along_append hu _).mp hfewBefore
      obtain ⟨hblockSize, ⟨rows, hstored⟩, -, -⟩ := (kept_new segmentId blockSize).run hu
        (fun key hmem => hputBefore key (mem_append_left _ hmem)) hsize hfewCalls
      obtain ⟨v, hv, hnil⟩ := Transition.run_cons_some.mp hlast
      rw [Transition.run_nil, Option.some.injEq] at hnil
      rw [hnil] at hv
      obtain ⟨⟨next, stats⟩, hcompact, rfl⟩ := Option.map_eq_some_iff.mp hv
      obtain ⟨rows', hstored', hpending, -, htidy, -⟩ := hstored.compact
        (toOption_eq_some.mp hcompact) (by rw [hblockSize]; exact hsize) (hfewLast.1.2 rfl)
      exact ⟨rows', hstored', by rw [hstored'.log_eq hpending]; exact htidy⟩
  obtain ⟨rows, hstored, htidy⟩ := htidy
  rw [along_fresh_iff hkept hstored htidy hafter hputAfter hsize hfewAfter]
  have hwrites (first : List Call) :
      Write.applyAll (Write.applyAll (fun _ => none) (before.flatMap Call.writes)) (first.flatMap Call.writes) =
      Write.lastWrite ((before ++ first).flatMap Call.writes) := by
    funext k
    rw [← Write.applyAll_empty, flatMap_append, Write.applyAll_append]
  simp only [hwrites]

theorem iter_run_round :
    ∃ s, Transition.run (call plainFormat) (new 1 512) [.op (.put [1] [2]), .op .flush] = some s ∧
      Exact plainFormat s (Write.lastWrite [.put [1] [2]]) := by
  obtain ⟨block, hblock⟩ := exists_build plainFormat 512 ([1], [2]) (by decide)
  let pending : KvStore := ⟨1, 512, [], ∅, AList.insert [1] [2] ∅, [[1]], 1024⟩
  let sealed : KvStore := ⟨1, 512, [block], AList.insert [1] (0, 0) ∅, ∅, [], 1024⟩
  have hput : call plainFormat (new 1 512) (.op (.put [1] [2])) = some pending := rfl
  have hflush : call plainFormat pending (.op .flush) = some sealed := by
    have hsingle := flush_single ∅ [] hblock
    exact congrArg Except.toOption hsingle
  have hrun : Transition.run (call plainFormat) (new 1 512) [.op (.put [1] [2]), .op .flush] = some sealed := by
    rw [Transition.run_cons, hput]
    show Transition.run (call plainFormat) pending [.op .flush] = _
    rw [Transition.run_cons, hflush]
    rfl
  have hfew {s s' : KvStore} {op : Op} (h : call plainFormat s (.op op) = some s')
      (hlen : s'.blocks.length ≤ 2 ^ 32) : Few plainFormat s (.op op) := by
    refine ⟨fun t ht => ?_, fun heq => by cases heq⟩
    rw [h, Option.some.injEq] at ht
    rw [← ht]
    exact hlen
  refine ⟨sealed, hrun, ?_⟩
  refine (iter_run 1 512 (by decide) [] [.op (.put [1] [2]), .op .flush] (new 1 512) sealed rfl
    (Or.inl rfl) hrun (by simp) ?_).mp ?_ _ (prefix_refl _) sealed hrun
  · exact Transition.along_cons_of (hfew hput (by decide)) hput
      (Transition.along_cons_of (hfew hflush (by simp [sealed])) hflush trivial)
  · exact Transition.along_cons_of rfl hput (Transition.along_cons_of trivial hflush trivial)

/-- **An overwritten row is yielded again, and its key is counted twice.** -/
theorem iter_overwritten : ∃ s, Transition.run (call plainFormat) (new 1 512)
        [.op (.put [1] [2]), .op .flush, .op (.put [1] [3])] = some s ∧
      s.iter = [([1], [3]), ([1], [2])] ∧ s.len = 2 ∧
      ¬ Exact plainFormat s (Write.lastWrite [.put [1] [2], .put [1] [3]]) := by
  obtain ⟨block, hblock⟩ := exists_build plainFormat 512 ([1], [2]) (by decide)
  have hrows : blockRows block = [([1], [2])] :=
    (show HoldsRows block [([1], [2])] from holdsRows_of_build hblock (by decide)).blockRows_eq
  have hflush : call plainFormat ⟨1, 512, [], ∅, AList.insert [1] [2] ∅, [[1]], 1024⟩ (.op .flush) =
      some ⟨1, 512, [block], AList.insert [1] (0, 0) ∅, ∅, [], 1024⟩ :=
    congrArg Except.toOption (flush_single ∅ [] hblock)
  have hrun : Transition.run (call plainFormat) (new 1 512)
      [.op (.put [1] [2]), .op .flush, .op (.put [1] [3])] =
        some ⟨1, 512, [block], AList.insert [1] (0, 0) ∅, AList.insert [1] [3] ∅, [[1]], 1024⟩ := by
    have hput : call plainFormat (new 1 512) (.op (.put [1] [2])) =
        some ⟨1, 512, [], ∅, AList.insert [1] [2] ∅, [[1]], 1024⟩ := rfl
    rw [Transition.run_cons, hput, Option.bind_some, Transition.run_cons, hflush]
    rfl
  have hiter : iter ⟨1, 512, [block], AList.insert [1] (0, 0) ∅, AList.insert [1] [3] ∅, [[1]], 1024⟩ =
      [([1], [3]), ([1], [2])] := by
    rw [iter, sealedRows, flatMap_singleton, hrows]
    rfl
  refine ⟨_, hrun, hiter, rfl, fun hexact => ?_⟩
  have honce := hexact.once
  rw [hiter] at honce
  exact absurd honce (by decide)

end KvStore

end CenDB.Projection
