import CenDB.Projection.KvStore

/-! # The store refines a map

`Represents s m` says that every `get` of a store returns the value of a map.  Every call keeps it
(`represents_put`, `represents_delete`, `represents_flush`), so a run of calls leaves the map of its
writes (`run_represents`, `get_run`).

A block id has 32 bits, so this holds for up to `2 ^ 32` blocks; the block after that takes the id
of the first one (`get_wraps`). -/

namespace CenDB.Projection

open CenDB.Storage List Option Transition

namespace KvStore

variable {fmt : TextFormat} {s s' s₁ : KvStore}

/-! ### Flushing -/

variable {k key : Bytes} {e : Bytes × Bytes} {m : Bytes → Option Bytes} {block : PaxBlock}

variable {v value : Bytes} {es : List (Bytes × Bytes)} {usable : ℕ} {existed : Bool}

theorem Leads.of_blocks (h : Leads s k v) (hblocks : s.blocks <+: s'.blocks)
    (hindex : s'.index.lookup k = s.index.lookup k) : Leads s' k v := by
  obtain ⟨id, slot, block, hlookup, hblock, hvalue⟩ := h
  refine ⟨id, slot, block, hindex.trans hlookup, ?_, hvalue⟩
  obtain ⟨more, hmore⟩ := hblocks
  obtain ⟨hlt, -⟩ := List.getElem?_eq_some_iff.mp hblock
  rw [← hmore, getElem?_append_left hlt, hblock]

/-- Sealing entries in two parts. -/
theorem Sealed.append {us : List (Bytes × Bytes)} (h : Sealed es s s₁) (h' : Sealed us s₁ s') :
    Sealed (es ++ us) s s' := by
  refine ⟨h'.blockSize.trans h.blockSize, h'.pending.trans h.pending,
    h'.pendingOrder.trans h.pendingOrder, h'.pendingCapacity.trans h.pendingCapacity,
    h.blocks.trans h'.blocks, ?_, ?_⟩
  · intro k hother
    rw [forall_mem_append] at hother
    rw [h'.others k hother.2, h.others k hother.1]
  · intro e he
    by_cases hlater : ∃ v, (e.1, v) ∈ us
    · obtain ⟨v, hv⟩ := hlater
      obtain ⟨v', hv', hleads⟩ := h'.keys _ hv
      exact ⟨v', mem_append_right es hv', hleads⟩
    · rw [not_exists] at hlater
      have hfirst : e ∈ es := by
        cases mem_append.mp he with
        | inl hes => exact hes
        | inr hus => exact absurd hus (hlater e.2)
      obtain ⟨v, hv, hleads⟩ := h.keys e hfirst
      refine ⟨v, mem_append_left us hv, hleads.of_blocks h'.blocks (h'.others _ ?_)⟩
      rintro ⟨k, u⟩ hu rfl
      exact hlater u hu

theorem Sealed.nil (s : KvStore) : Sealed [] s s := ⟨rfl, rfl, rfl, rfl, prefix_refl _, fun _ _ => rfl, by simp⟩

theorem blocks_sealChunk {chunk : List (Bytes × Bytes)} (h : sealChunk fmt s chunk = .ok s') :
    s'.blocks.length = s.blocks.length + 1 := by
  unfold sealChunk at h
  split at h
  · cases h
  · split at h
    · cases h
    · split at h
      · cases h
      · rw [← Except.ok.inj h, length_append, length_singleton]

/-- Sealing in chunks never takes blocks away. -/
theorem blocks_sealChunks (h : sealChunks fmt usable s es = .ok s') : s.blocks.length ≤ s'.blocks.length := by
  induction hn : es.length using Nat.strongRecOn generalizing es s with
  | ind n ih =>
    cases es with
    | nil =>
      rw [sealChunks] at h
      rw [Except.ok.inj h]
    | cons e es =>
      rw [sealChunks] at h
      split at h
      · cases h
      · rename_i mid hmid
        have hlen := congrArg List.length (takeChunk_append usable (rowBytes e) es)
        rw [length_append] at hlen
        rw [length_cons] at hn
        have hrest := ih _ (by omega) h rfl
        have hfirst := blocks_sealChunk hmid
        omega

/-- **Sealing in chunks.** -/
theorem sealChunks_spec (h : sealChunks fmt usable s es = .ok s')
    (hsize : s.blockSize.toNat + minipageAlign ≤ 2 ^ 32) (hfew : s'.blocks.length ≤ 2 ^ 32) :
    Sealed es s s' := by
  induction hn : es.length using Nat.strongRecOn generalizing es s with
  | ind n ih =>
    cases es with
    | nil =>
      rw [sealChunks] at h
      rw [Except.ok.inj h]
      exact Sealed.nil s'
    | cons e es =>
      rw [sealChunks] at h
      split at h
      · cases h
      · rename_i mid hmid
        have hsplit := takeChunk_append usable (rowBytes e) es
        have hlen := congrArg List.length hsplit
        rw [length_append] at hlen
        rw [length_cons] at hn
        have hfirst := sealChunk_spec hmid hsize ((blocks_sealChunks h).trans hfew)
        have hrest := ih _ (by omega) h (by rw [hfirst.blockSize]; exact hsize) rfl
        have hall := hfirst.append hrest
        rw [cons_append, hsplit] at hall
        exact hall

/-! ### The map of a store -/

/-- A store represents a map: a `get` returns the value of the map, and every pending key is in the
order of the keys. -/
structure Represents (s : KvStore) (m : Bytes → Option Bytes) : Prop where
  order : ∀ k v, s.pending.lookup k = some v → k ∈ s.pendingOrder
  get : ∀ k, s.get k = .ok (m k)

theorem represents_new (segmentId : UInt64) (blockSize : UInt32) :
    Represents (new segmentId blockSize) fun _ => none where
  order k v h := by cases h
  get k := rfl

theorem mem_ordered : e ∈ s.ordered ↔ e.1 ∈ s.pendingOrder ∧ s.pending.lookup e.1 = some e.2 := by
  obtain ⟨k, v⟩ := e
  rw [ordered, mem_filterMap]
  constructor
  · rintro ⟨k', hk', hlookup⟩
    obtain ⟨v', hv', heq⟩ := map_eq_some_iff.mp hlookup
    cases heq
    exact ⟨hk', hv'⟩
  · simp

theorem get_pending (h : s.pending.lookup k = some v) : s.get k = .ok (visible v) := by
  rw [get, h]

theorem get_congr (hpending : s'.pending.lookup k = s.pending.lookup k)
    (hindex : s'.index.lookup k = s.index.lookup k) (hblocks : s'.blocks = s.blocks) :
    s'.get k = s.get k := by
  unfold get readSlot
  rw [hpending, hindex, hblocks]

theorem get_leads (hpending : s.pending.lookup k = none) (h : Leads s k v) : s.get k = .ok (visible v) := by
  obtain ⟨id, slot, block, hlookup, hblock, hvalue⟩ := h
  rw [get, hpending, hlookup]
  dsimp only
  rw [readSlot, hblock]
  dsimp only
  rw [hvalue]
  rfl

/-- A successful read of a sealed key does not see later blocks. -/
theorem get_extend {out : Option Bytes} (hpending : s.pending.lookup k = none)
    (hpending' : s'.pending.lookup k = none) (hblocks : s.blocks <+: s'.blocks)
    (hindex : s'.index.lookup k = s.index.lookup k) (h : s.get k = .ok out) : s'.get k = .ok out := by
  rw [get, hpending] at h
  rw [get, hpending', hindex]
  dsimp only at h ⊢
  split
  · rename_i id slot hslot
    rw [hslot] at h
    dsimp only at h
    unfold readSlot at h ⊢
    obtain ⟨more, hmore⟩ := hblocks
    split at h
    · cases h
    · rename_i block hblock
      obtain ⟨hlt, -⟩ := List.getElem?_eq_some_iff.mp hblock
      rw [← hmore, getElem?_append_left hlt, hblock]
      exact h
  · rename_i hnone
    rw [hnone] at h
    exact h

/-- **A flush changes no value.** -/
theorem represents_flush (hs : Represents s m) (h : s.flushPending fmt = .ok s')
    (hsize : s.blockSize.toNat + minipageAlign ≤ 2 ^ 32) (hfew : s'.blocks.length ≤ 2 ^ 32) :
    Represents s' m ∧ s'.blockSize = s.blockSize := by
  unfold flushPending at h
  split at h
  · rw [← Except.ok.inj h]
    exact ⟨hs, rfl⟩
  · dsimp only at h
    split at h
    · cases h
    · rename_i mid hmid
      have hs' := Except.ok.inj h
      rw [← hs'] at hfew ⊢
      have hsealed := sealChunks_spec hmid hsize hfew
      refine ⟨⟨fun k v hk => absurd hk (by simp), fun k => ?_⟩, hsealed.blockSize⟩
      cases hk : s.pending.lookup k with
      | some v =>
        have he : (k, v) ∈ s.ordered := mem_ordered.mpr ⟨hs.order k v hk, hk⟩
        obtain ⟨v', hv', hleads⟩ := hsealed.keys _ he
        have hsame : v' = v := Option.some.inj ((mem_ordered.mp hv').2.symm.trans hk)
        rw [hsame] at hleads
        rw [← hs.get k, get_pending hk]
        exact get_leads rfl (hleads.of_blocks (prefix_refl _) rfl)
      | none =>
        have hother : ∀ e ∈ s.ordered, e.1 ≠ k := by
          rintro e he rfl
          have hlookup := (mem_ordered.mp he).2
          rw [hk] at hlookup
          cases hlookup
        exact get_extend hk rfl hsealed.blocks (hsealed.others k hother) (hs.get k)

/-- Every pending key has a place in the order. -/
def InOrder (s : KvStore) : Prop := ∀ k v, s.pending.lookup k = some v → k ∈ s.pendingOrder

theorem InOrder.bufferPut (h : s.InOrder) (key value : Bytes) : (s.bufferPut key value).InOrder := by
  intro k v hk
  show k ∈ if (s.pending.lookup key).isSome then s.pendingOrder else s.pendingOrder ++ [key]
  have hk' : (AList.insert key value s.pending).lookup k = some v := hk
  rw [Table.lookup_insert_if] at hk'
  by_cases hkey : k = key
  · rw [hkey]
    split
    · rename_i hsome
      obtain ⟨w, hw⟩ := isSome_iff_exists.mp hsome
      exact h key w hw
    · simp
  · rw [if_neg hkey] at hk'
    have hmem := h k v hk'
    split
    · exact hmem
    · exact mem_append_left _ hmem

theorem InOrder.forget (h : s.InOrder) (key : Bytes) : (s.forget key).InOrder := by
  intro k v hk
  have hk' : (AList.erase key s.pending).lookup k = some v := hk
  rw [Table.lookup_erase_if] at hk'
  by_cases hkey : k = key
  · rw [if_pos hkey] at hk'
    cases hk'
  · rw [if_neg hkey] at hk'
    have hmem := h k v hk'
    show k ∈ if _ then _ else _
    split
    · exact mem_filter.mpr ⟨hmem, decide_eq_true hkey⟩
    · exact hmem

/-- A pending write. -/
theorem represents_bufferPut (hs : Represents s m) (key value : Bytes) :
    Represents (s.bufferPut key value) fun k => if k = key then visible value else m k := by
  refine ⟨InOrder.bufferPut hs.order key value, fun k => ?_⟩
  by_cases hkey : k = key
  · rw [if_pos hkey, hkey]
    exact get_pending (AList.lookup_insert s.pending)
  · rw [if_neg hkey, ← hs.get k]
    exact get_congr (AList.lookup_insert_ne hkey) rfl rfl

/-- A key without a pending write or an index entry. -/
theorem represents_forget (hs : Represents s m) (key : Bytes) :
    Represents (s.forget key) fun k => if k = key then none else m k := by
  refine ⟨InOrder.forget hs.order key, fun k => ?_⟩
  by_cases hkey : k = key
  · rw [if_pos hkey, hkey, get]
    have hpending : (s.forget key).pending.lookup key = none := AList.lookup_erase key s.pending
    have hindex : (s.forget key).index.lookup key = none := AList.lookup_erase key s.index
    rw [hpending, hindex]
  · rw [if_neg hkey, ← hs.get k]
    exact get_congr (AList.lookup_erase_ne hkey) (AList.lookup_erase_ne hkey) rfl

/-- **A put changes the value of its key.** -/
theorem represents_put (hs : Represents s m) (h : s.put fmt key value = .ok s')
    (hsize : s.blockSize.toNat + minipageAlign ≤ 2 ^ 32) (hfew : s'.blocks.length ≤ 2 ^ 32) :
    Represents s' (fun k => if k = key then visible value else m k) ∧ s'.blockSize = s.blockSize := by
  have hbuffer := represents_bufferPut hs key value
  unfold put at h
  dsimp only at h
  split at h
  · have hflush := represents_flush hbuffer h hsize hfew
    exact hflush
  · rw [← Except.ok.inj h]
    exact ⟨hbuffer, rfl⟩

/-- **A delete takes the value of its key away.** -/
theorem represents_delete (hs : Represents s m) (h : s.delete fmt key = .ok (s', existed))
    (hsize : s.blockSize.toNat + minipageAlign ≤ 2 ^ 32) (hfew : s'.blocks.length ≤ 2 ^ 32) :
    Represents s' (fun k => if k = key then none else m k) ∧ s'.blockSize = s.blockSize := by
  have hforget := represents_forget hs key
  unfold delete at h
  split at h
  · split at h
    · cases h
    · rename_i next hnext
      obtain ⟨rfl, -⟩ := Prod.mk.inj (Except.ok.inj h)
      obtain ⟨hput, hblockSize⟩ := represents_put hforget hnext hsize hfew
      refine ⟨⟨hput.order, fun k => ?_⟩, hblockSize⟩
      rw [hput.get k]
      by_cases hkey : k = key
      · rw [if_pos hkey, if_pos hkey]
        rfl
      · simp [hkey]
  · obtain ⟨rfl, -⟩ := Prod.mk.inj (Except.ok.inj h)
    exact ⟨hforget, rfl⟩

/-! ### Runs -/

/-- A call that changes the store. -/
inductive Op where
  | put (key value : Bytes)
  | delete (key : Bytes)
  | flush

/-- The store after a successful call. -/
def step (fmt : TextFormat) (s : KvStore) : Op → Option KvStore
  | .put key value => (s.put fmt key value).toOption
  | .delete key => (s.delete fmt key).toOption.map Prod.fst
  | .flush => (s.flushPending fmt).toOption

/-- The writes of a call. -/
def Op.writes : Op → List (Write Bytes Bytes)
  | .put key value => [.put key value]
  | .delete key => [.delete key]
  | .flush => []

theorem blocks_flush (h : s.flushPending fmt = .ok s') : s.blocks.length ≤ s'.blocks.length := by
  unfold flushPending at h
  split at h
  · rw [Except.ok.inj h]
  · dsimp only at h
    split at h
    · cases h
    · rename_i mid hmid
      rw [← Except.ok.inj h]
      have hchunks := blocks_sealChunks hmid
      exact hchunks

theorem blocks_put (h : s.put fmt key value = .ok s') : s.blocks.length ≤ s'.blocks.length := by
  unfold put at h
  dsimp only at h
  split at h
  · have hflush := blocks_flush h
    exact hflush
  · rw [← Except.ok.inj h]
    exact Nat.le_refl _

theorem blocks_delete (h : s.delete fmt key = .ok (s', existed)) : s.blocks.length ≤ s'.blocks.length := by
  unfold delete at h
  split at h
  · split at h
    · cases h
    · rename_i next hnext
      obtain ⟨rfl, -⟩ := Prod.mk.inj (Except.ok.inj h)
      have hput := blocks_put hnext
      exact hput
  · obtain ⟨rfl, -⟩ := Prod.mk.inj (Except.ok.inj h)
    exact Nat.le_refl _

theorem toOption_eq_some {α : Type*} {e : Except Halt α} {a : α} : e.toOption = some a ↔ e = .ok a := by
  cases e <;> simp [Except.toOption]

variable {op : Op} {ops : List Op}

/-- What a successful call is. -/
theorem step_cases (h : step fmt s op = some s') :
    (∃ key value, op = .put key value ∧ s.put fmt key value = .ok s') ∨
      (∃ key existed, op = .delete key ∧ s.delete fmt key = .ok (s', existed)) ∨
      (op = .flush ∧ s.flushPending fmt = .ok s') := by
  cases op with
  | put key value => exact Or.inl ⟨key, value, rfl, toOption_eq_some.mp h⟩
  | delete key =>
    obtain ⟨⟨next, existed⟩, hdelete, rfl⟩ := map_eq_some_iff.mp h
    exact Or.inr (Or.inl ⟨key, existed, rfl, toOption_eq_some.mp hdelete⟩)
  | flush => exact Or.inr (Or.inr ⟨rfl, toOption_eq_some.mp h⟩)

/-- No call takes a block away. -/
theorem blocks_step (h : step fmt s op = some s') : s.blocks.length ≤ s'.blocks.length := by
  obtain ⟨key, value, -, hput⟩ | ⟨key, existed, -, hdelete⟩ | ⟨-, hflush⟩ := step_cases h
  · exact blocks_put hput
  · exact blocks_delete hdelete
  · exact blocks_flush hflush

theorem blocks_run (h : Transition.run (step fmt) s ops = some s') : s.blocks.length ≤ s'.blocks.length :=
  run_preserves (I := fun t => s.blocks.length ≤ t.blocks.length)
    (fun _ _ _ ht hstep => ht.trans (blocks_step hstep)) (Nat.le_refl _) h

/-- **A call makes its writes to the map.** -/
theorem represents_step (hs : Represents s m) (h : step fmt s op = some s') (hput : ∀ key, op ≠ .put key [])
    (hsize : s.blockSize.toNat + minipageAlign ≤ 2 ^ 32) (hfew : s'.blocks.length ≤ 2 ^ 32) :
    Represents s' (Write.applyAll m op.writes) ∧ s'.blockSize = s.blockSize := by
  obtain ⟨key, value, rfl, hcall⟩ | ⟨key, existed, rfl, hcall⟩ | ⟨rfl, hcall⟩ := step_cases h
  · have hvisible : visible value = some value := by
      cases value with
      | nil => exact absurd rfl (hput key)
      | cons b bs => rfl
    have hmap : Write.applyAll m (Op.put key value).writes =
        fun k => if k = key then visible value else m k := by
      funext k
      rw [hvisible]
      exact Write.apply_put m key k value
    rw [hmap]
    exact represents_put hs hcall hsize hfew
  · have hmap : Write.applyAll m (Op.delete key).writes = fun k => if k = key then none else m k := by
      funext k
      exact Write.apply_delete m key k
    rw [hmap]
    exact represents_delete hs hcall hsize hfew
  · exact represents_flush hs hcall hsize hfew

/-- **A run makes the writes of its calls to the map.** -/
theorem run_represents (hs : Represents s m) (h : Transition.run (step fmt) s ops = some s')
    (hput : ∀ key, Op.put key [] ∉ ops) (hsize : s.blockSize.toNat + minipageAlign ≤ 2 ^ 32)
    (hfew : s'.blocks.length ≤ 2 ^ 32) :
    Represents s' (Write.applyAll m (ops.flatMap Op.writes)) ∧ s'.blockSize = s.blockSize := by
  induction ops generalizing s m with
  | nil =>
    rw [run_nil, Option.some.injEq] at h
    rw [← h]
    exact ⟨hs, rfl⟩
  | cons op ops ih =>
    obtain ⟨mid, hmid, hrest⟩ := run_cons_some.mp h
    obtain ⟨hstep, hblockSize⟩ := represents_step hs hmid
      (fun key heq => hput key (heq ▸ mem_cons_self)) hsize ((blocks_run hrest).trans hfew)
    obtain ⟨hrun, hblockSize'⟩ := ih hstep hrest
      (fun key hmem => hput key (mem_cons_of_mem op hmem)) (by rw [hblockSize]; exact hsize)
    rw [flatMap_cons, Write.applyAll_append]
    exact ⟨hrun, hblockSize'.trans hblockSize⟩

/-! ### Rounds -/

/-- Put and flush one entry, which makes one block. -/
def round (e : Bytes × Bytes) : List Op := [.put e.1 e.2, .flush]

theorem sealChunk_single (h : PaxBlockBuilder.build fmt s.blockSize kvSpecs [rowOf e] = .ok block) :
    sealChunk fmt s [e] = .ok { s with
      index := AList.insert e.1 (UInt32.ofNat s.blocks.length, 0) s.index
      blocks := s.blocks ++ [block] } := by
  unfold PaxBlockBuilder.build at h
  split at h
  · cases h
  · rename_i start hstart
    have hcount : start.rowCount = 0 := by
      unfold PaxBlockBuilder.new at hstart
      split_ifs at hstart
      rw [← Except.ok.inj hstart]
    rw [PaxBlockBuilder.appendRows] at h
    unfold sealChunk
    rw [hstart]
    dsimp only
    rw [appendEntries]
    cases hrow : start.appendRow fmt (rowOf e) with
    | error err =>
      rw [hrow] at h
      cases h
    | ok b =>
      rw [hrow] at h
      dsimp only at h ⊢
      rw [PaxBlockBuilder.appendRows] at h
      rw [appendEntries]
      dsimp only at h ⊢
      rw [h, hcount]
      rfl

/-- A block of 512 bytes takes no second entry. -/
theorem sealChunks_cons (hsize : s.blockSize = 512)
    (h : PaxBlockBuilder.build fmt 512 kvSpecs [rowOf e] = .ok block) (es : List (Bytes × Bytes)) :
    sealChunks fmt 0 s (e :: es) = sealChunks fmt 0 { s with
      index := AList.insert e.1 (UInt32.ofNat s.blocks.length, 0) s.index
      blocks := s.blocks ++ [block] } es := by
  have htake : takeChunk 0 (rowBytes e) es = ([], es) := by
    cases es with
    | nil => rfl
    | cons e' es => rw [takeChunk, if_pos (by unfold rowBytes; omega)]
  rw [← hsize] at h
  rw [sealChunks, htake, sealChunk_single h]

/-- A flush of blocks of 512 bytes. -/
theorem flush_of_sealChunks (hsize : s.blockSize = 512) (hne : s.pending.entries.isEmpty = false)
    (h : sealChunks fmt 0 s s.ordered = .ok s') :
    flushPending fmt s = .ok { s' with pending := ∅, pendingOrder := [] } := by
  have husable : s.blockSize.toNat - (64 + 3 * 64 + 256) = 0 := by rw [hsize]; rfl
  unfold flushPending
  rw [if_neg (by rw [hne]; exact Bool.false_ne_true)]
  dsimp only
  rw [husable, h]

/-- The flush of one pending entry. -/
theorem flush_single (index : Table Bytes (UInt32 × UInt32)) (blocks : List PaxBlock)
    (h : PaxBlockBuilder.build fmt 512 kvSpecs [rowOf e] = .ok block) :
    flushPending fmt ⟨1, 512, blocks, index, AList.insert e.1 e.2 ∅, [e.1], 1024⟩ =
      .ok ⟨1, 512, blocks ++ [block], AList.insert e.1 (UInt32.ofNat blocks.length, 0) index, ∅, [], 1024⟩ := by
  have hordered : ordered ⟨1, 512, blocks, index, AList.insert e.1 e.2 ∅, [e.1], 1024⟩ = [e] := by
    unfold ordered
    rw [filterMap_cons, AList.lookup_insert]
    rfl
  have hseal : sealChunks fmt 0 ⟨1, 512, blocks, index, AList.insert e.1 e.2 ∅, [e.1], 1024⟩ [e] = _ :=
    sealChunks_cons rfl h []
  rw [sealChunks, ← hordered] at hseal
  exact flush_of_sealChunks rfl (by simp) hseal

/-- The flush of two pending entries. -/
theorem flush_pair {index : Table Bytes (UInt32 × UInt32)} {blocks : List PaxBlock} {pending : Table Bytes Bytes}
    {order : List Bytes} {e' : Bytes × Bytes} {block' : PaxBlock} (hne : pending.entries.isEmpty = false)
    (hordered : ordered ⟨1, 512, blocks, index, pending, order, 1024⟩ = [e, e'])
    (h : PaxBlockBuilder.build fmt 512 kvSpecs [rowOf e] = .ok block)
    (h' : PaxBlockBuilder.build fmt 512 kvSpecs [rowOf e'] = .ok block') :
    flushPending fmt ⟨1, 512, blocks, index, pending, order, 1024⟩ =
      .ok ⟨1, 512, blocks ++ [block] ++ [block'], AList.insert e'.1 (UInt32.ofNat (blocks ++ [block]).length, 0)
        (AList.insert e.1 (UInt32.ofNat blocks.length, 0) index), ∅, [], 1024⟩ := by
  have hseal : sealChunks fmt 0 ⟨1, 512, blocks, index, pending, order, 1024⟩ [e, e'] = _ :=
    (sealChunks_cons rfl h [e']).trans (sealChunks_cons rfl h' [])
  rw [sealChunks, ← hordered] at hseal
  exact flush_of_sealChunks rfl hne hseal

/-- A round on a store without pending writes. -/
theorem run_round {index : Table Bytes (UInt32 × UInt32)} {blocks : List PaxBlock}
    (h : PaxBlockBuilder.build fmt 512 kvSpecs [rowOf e] = .ok block) :
    Transition.run (step fmt) ⟨1, 512, blocks, index, ∅, [], 1024⟩ (round e) = some ⟨1, 512, blocks ++ [block],
        AList.insert e.1 (UInt32.ofNat blocks.length, 0) index, ∅, [], 1024⟩ := by
  have hput : put fmt ⟨1, 512, blocks, index, ∅, [], 1024⟩ e.1 e.2 =
      .ok ⟨1, 512, blocks, index, AList.insert e.1 e.2 ∅, [e.1], 1024⟩ := rfl
  rw [round, run_cons, step, hput]
  show Transition.run _ _ [Op.flush] = _
  rw [run_cons, step, flush_single index blocks h]
  rfl

/-- Rounds of one entry. -/
theorem run_rounds (h : PaxBlockBuilder.build fmt 512 kvSpecs [rowOf e] = .ok block) (n : ℕ) :
    Transition.run (step fmt) (new 1 512) (List.replicate (n + 1) (round e)).flatten =
      some ⟨1, 512, List.replicate (n + 1) block, AList.insert e.1 (UInt32.ofNat n, 0) ∅, ∅, [], 1024⟩ := by
  induction n with
  | zero =>
    rw [replicate_one, flatten_singleton]
    exact run_round h
  | succ n ih =>
    rw [replicate_succ', flatten_append, run_append_some ih,
      flatten_singleton, run_round h, AList.insert_insert, length_replicate,
      ← replicate_succ']

/-! ### The value of a key -/

/-- **A store of at most `2 ^ 32` blocks returns the last value put, and no flush changes that**,
whether it is called or comes with a put or a delete. -/
theorem get_run (segmentId : UInt64) (blockSize : UInt32)
    (hsize : blockSize.toNat + minipageAlign ≤ 2 ^ 32) (ops : List Op) (s : KvStore)
    (hrun : Transition.run (step fmt) (new segmentId blockSize) ops = some s)
    (hput : ∀ key, Op.put key [] ∉ ops) (hfew : s.blocks.length ≤ 2 ^ 32) :
    (∀ k, s.get k = .ok (Write.lastWrite (ops.flatMap Op.writes) k)) ∧
      (∀ s', s.flushPending fmt = .ok s' → s'.blocks.length ≤ 2 ^ 32 → ∀ k, s'.get k = s.get k) ∧
      (∀ key value s', s.put fmt key value = .ok s' → s'.blocks.length ≤ 2 ^ 32 →
        ∀ k, s'.get k = (s.bufferPut key value).get k) ∧
      ∀ key s', s.delete fmt key = .ok (s', true) → s'.blocks.length ≤ 2 ^ 32 →
        ∀ k, s'.get k = ((s.forget key).bufferPut key []).get k := by
  obtain ⟨hs, hblockSize⟩ := run_represents (represents_new segmentId blockSize) hrun hput hsize hfew
  have hsize' : s.blockSize.toNat + minipageAlign ≤ 2 ^ 32 := by
    rw [hblockSize]
    exact hsize
  refine ⟨fun k => ?_, fun s' hflush hfew' k => ?_, fun key value s' hcall hfew' k => ?_,
    fun key s' hcall hfew' k => ?_⟩
  · rw [hs.get k, Write.applyAll_empty]
  · rw [(represents_flush hs hflush hsize' hfew').1.get k, hs.get k]
  · rw [(represents_put hs hcall hsize' hfew').1.get k, (represents_bufferPut hs key value).get k]
  · have hbuffer := represents_bufferPut (represents_forget hs key) key []
    rw [(represents_delete hs hcall hsize' hfew').1.get k, hbuffer.get k]
    by_cases hkey : k = key
    · rw [if_pos hkey, if_pos hkey]
      rfl
    · rw [if_neg hkey, if_neg hkey]

theorem get_run_round : ∃ s, Transition.run (step plainFormat) (new 1 512) (round ([1], [2])) = some s ∧
      s.get [1] = .ok (some [2]) := by
  obtain ⟨block, hblock⟩ := exists_build plainFormat 512 ([1], [2]) (by decide)
  have hrun : Transition.run (step plainFormat) (new 1 512) (round ([1], [2])) = some ⟨1, 512,
      [block], AList.insert [1] (0, 0) ∅, ∅, [], 1024⟩ := run_round hblock
  exact ⟨_, hrun, (get_run 1 512 (by decide) _ _ hrun (by simp [round]) (by simp)).1 [1]⟩

/-- **The block after `2 ^ 32` others takes the id of the first**, so its key reads the first
block. -/
theorem get_wraps : ∃ s, Transition.run (step plainFormat) (new 1 512)
        ((List.replicate (2 ^ 32) (round ([0], [1]))).flatten ++ round ([1], [2])) = some s ∧
      s.get [1] = .ok (some [1]) ∧
      Write.lastWrite (((List.replicate (2 ^ 32) (round ([0], [1]))).flatten ++
        round ([1], [2])).flatMap Op.writes) [1] = some [2] := by
  obtain ⟨block, hblock⟩ := exists_build plainFormat 512 ([0], [1]) (by decide)
  obtain ⟨block', hblock'⟩ := exists_build plainFormat 512 ([1], [2]) (by decide)
  have hvalue : block.varValue 2 0 = .ok (some [1]) := varValue_single hblock (by decide)
  have hwrap : UInt32.ofNat (2 ^ 32 - 1 + 1) = 0 := by decide
  have hpos : 2 ^ 32 = 2 ^ 32 - 1 + 1 := by decide
  rw [hpos]
  generalize 2 ^ 32 - 1 = n at hwrap ⊢
  have hrun := run_rounds hblock n
  rw [Transition.run_append_some hrun, run_round hblock', length_replicate, hwrap]
  refine ⟨_, rfl, ?_, ?_⟩
  · have hpending : (∅ : Table Bytes Bytes).lookup [1] = none := rfl
    rw [get, hpending]
    dsimp only
    rw [AList.lookup_insert]
    dsimp only
    rw [readSlot, UInt32.toNat_zero, getElem?_append_left (by simp),
      getElem?_replicate, if_pos (Nat.succ_pos n)]
    dsimp only
    rw [hvalue]
    rfl
  · rw [← Write.applyAll_empty, flatMap_append, Write.applyAll_append]
    rfl

end KvStore

end CenDB.Projection
