import CenDB.Cas.BlobStore

/-! # Reference counts of a blob store

A session is a store together with the calls that returned `Ok`.  A hash is live when the calls
put or retained it more often than they released it.

`Tracks env s M` is the invariant: the index is the map `M`, whose keys are the live hashes, each
with its count, its files and the bytes that were put.  Every call keeps it unless the removal of
a hash strands a part of the radix tree or a count leaves 64 bits (`Tracks.call`). -/

namespace CenDB.Cas

open CenDB.Index CenDB.Storage Words List Table UInt64

/-- A call of a store. -/
inductive Op where
  | put (data : Bytes)
  | get (hash : Hash)
  | retain (hash : Hash)
  | release (hash : Hash)
deriving DecidableEq

/-- The store after a call. -/
def BlobStore.call (env : Packages) (s : BlobStore) : Op → Except Halt BlobStore
  | .put data => .ok (s.put env data).1
  | .get hash => (s.get env hash).map fun _ => s
  | .retain hash => s.retain hash
  | .release hash => (s.release hash).map Prod.fst

/-- A store and the calls that returned `Ok` so far. -/
structure Session where
  store : BlobStore
  calls : List Op

/-- The call adds a reference to the hash. -/
def Op.adds (env : Packages) (h : Hash) : Op → Bool
  | .put data => env.hash data = h
  | .retain hash => hash = h
  | _ => false

/-- The call drops a reference to the hash. -/
def Op.drops (h : Hash) : Op → Bool
  | .release hash => hash = h
  | _ => false

theorem Op.adds_put (env : Packages) (data : Bytes) : (Op.put data).adds env (env.hash data) = true :=
  decide_eq_true rfl

theorem Op.adds_retain (env : Packages) (h : Hash) : (Op.retain h).adds env h = true := decide_eq_true rfl

namespace Session

/-- A store opened in an empty directory. -/
def init (c : CompressionKind) : Session := ⟨⟨∅, .new, c⟩, []⟩

/-- One call; one that fails changes nothing. -/
def step (env : Packages) (s : Session) (op : Op) : Option Session :=
  match s.store.call env op with
  | .ok store => some ⟨store, s.calls ++ [op]⟩
  | .error _ => some s

/-- Puts and retains of a hash. -/
def references (env : Packages) (s : Session) (h : Hash) : ℕ := s.calls.countP (Op.adds env h)

def releases (s : Session) (h : Hash) : ℕ := s.calls.countP (Op.drops h)

def Live (env : Packages) (s : Session) (h : Hash) : Prop := s.releases h < s.references env h

end Session

/-! ### Trees over hashes -/

theorem prefixFree_of_length {S : Set Key} {n : ℕ} (h : ∀ k ∈ S, k.length = n) : PrefixFree S := by
  intro k hk k' hk' hle
  exact hle.eq_of_length ((h k hk).trans (h k' hk').symm)

/-- The tree built from the pairs of a map, in any order. -/
theorem get_insertAll {ops : List (Key × BlobMeta)} {M : Table Key BlobMeta}
    (hkeys : ∀ x ∈ ops, x.1.length = 32) (hmem : ∀ k v, (k, v) ∈ ops ↔ M.lookup k = some v) :
    (∀ k, (ArtTree.new.insertAll ops).get k = M.lookup k) ∧ (ArtTree.new.insertAll ops).len = Table.size M := by
  have hfree : PrefixFree (keysOf ops) := by
    refine prefixFree_of_length (n := 32) ?_
    intro k hk
    obtain ⟨x, hx, rfl⟩ := List.mem_map.mp hk
    exact hkeys x hx
  have hrep := ArtTree.insertAll_represents hfree
  have hlookup (k : Key) : (tableOf ops).lookup k = M.lookup k := by
    rw [tableOf, lookup_foldl_insert, AList.lookup_empty, Option.or_none]
    cases hlast : Table.lastOf ops k with
    | some v => exact ((hmem k v).mp (mem_of_lastOf hlast)).symm
    | none =>
      rw [lastOf_eq_none] at hlast
      cases hk : M.lookup k with
      | none => rfl
      | some v => exact absurd (mem_map_of_mem ((hmem k v).mpr hk)) hlast
  refine ⟨fun k => (hrep.get_eq k).trans (hlookup k), ?_⟩
  have hsize := size_eq_length (t := tableOf ops) M.keys_nodup fun k => by
    rw [hlookup, AList.lookup_isSome, AList.mem_keys]
  exact hrep.len.trans (hsize.trans (length_map _))

/-! ### The invariant -/

open BlobStore Session

/-- A live hash: its metadata, its files and its references. -/
structure Held (env : Packages) (s : Session) (h : Hash) (m : BlobMeta) : Prop where
  hash : m.hash = h
  data : ∃ data stored, .put data ∈ s.calls ∧ env.hash data = h ∧
    s.store.files.lookup (blobPath h) = some stored ∧ unpack env m.compression stored = .ok data
  metaFile : s.store.files.lookup (metaPath h) = some (serializeMeta { m with refcount := 1 })
  count : s.releases h + m.refcount.toNat = s.references env h
  pos : 0 < m.refcount.toNat

/-- The index is the map of the live hashes, and the directory has their files and no other. -/
structure Tracks (env : Packages) (s : Session) (M : Table Key BlobMeta) : Prop where
  index : s.store.index.Represents M
  keys : ∀ k, k ∈ M → k.length = 32
  held : ∀ h m, M.lookup h.bytes = some m → Held env s h m
  dead : ∀ h, M.lookup h.bytes = none → s.releases h = s.references env h ∧ s.store.files.lookup (blobPath h) = none
  names : ∀ name, name ∈ s.store.files → name.extension = .blobExt → ∃ h, name = blobPath h
  indexFile : s.store.files.lookup indexPath = some (indexBytes s.store.index) ∨
    s.store.files.lookup indexPath = none ∧ s.store.index = .new

theorem tracks_init (env : Packages) (c : CompressionKind) : Tracks env (init c) ∅ := by
  refine ⟨ArtTree.Represents.new, ?_, ?_, ?_, ?_, .inr ⟨rfl, rfl⟩⟩
  · simp
  · simp
  · intro h hnone
    exact ⟨rfl, rfl⟩
  · intro name hname
    exact absurd hname (AList.notMem_empty name)

variable {env : Packages} {s : Session} {M : Table Key BlobMeta} {h : Hash} {m : BlobMeta}

theorem Tracks.get_eq (ht : Tracks env s M) (h : Hash) : s.store.index.get h.bytes = M.lookup h.bytes :=
  ht.index.get_eq h.bytes

/-- The keys of the index are hashes. -/
theorem Tracks.hash_of_lookup (ht : Tracks env s M) {k : Key} (hk : M.lookup k = some m) : k = m.hash.bytes := by
  have hmem : k ∈ M := AList.lookup_isSome.mp (by rw [hk]; rfl)
  have hheld := ht.held ⟨k, ht.keys k hmem⟩ m hk
  rw [hheld.hash]

theorem Tracks.comparable (ht : Tracks env s M) (h : Hash) {k : Key} (hk : k ∈ M)
    (hcmp : k <+: h.bytes ∨ h.bytes <+: k) : k = h.bytes := by
  have hlen : k.length = h.bytes.length := (ht.keys k hk).trans h.length_bytes.symm
  cases hcmp with
  | inl hle => exact hle.eq_of_length hlen
  | inr hle => exact (hle.eq_of_length hlen.symm).symm

/-! ### File names -/

theorem blobPath_ne_indexPath (h : Hash) : blobPath h ≠ indexPath := by
  intro heq
  cases congrArg FileName.extension heq

theorem metaPath_ne_indexPath (h : Hash) : metaPath h ≠ indexPath := by
  intro heq
  cases congrArg FileName.extension heq

theorem blobPath_ne_metaPath (h h' : Hash) : blobPath h ≠ metaPath h' := by
  intro heq
  cases congrArg FileName.extension heq

theorem blobPath_injective {h h' : Hash} (heq : blobPath h = blobPath h') : h = h' :=
  Hash.toHex_injective (congrArg FileName.stem heq)

theorem metaPath_injective {h h' : Hash} (heq : metaPath h = metaPath h') : h = h' :=
  Hash.toHex_injective (congrArg FileName.stem heq)

/-! ### One call -/

variable {t : BlobStore} {op : Op} {M' : Table Key BlobMeta}

theorem references_snoc (op : Op) :
    references env ⟨t, s.calls ++ [op]⟩ h = references env s h + if op.adds env h then 1 else 0 := by
  simp [references]

theorem releases_snoc (op : Op) :
    releases ⟨t, s.calls ++ [op]⟩ h = releases s h + if op.drops h then 1 else 0 := by simp [releases]

theorem Held.frame (hheld : Held env s h m) (hblob : t.files.lookup (blobPath h) = s.store.files.lookup (blobPath h))
    (hmeta : t.files.lookup (metaPath h) = s.store.files.lookup (metaPath h))
    (hadds : op.adds env h = false) (hdrops : op.drops h = false) :
    Held env ⟨t, s.calls ++ [op]⟩ h m := by
  obtain ⟨data, stored, hput, hhash, hfile, hunpack⟩ := hheld.data
  refine ⟨hheld.hash, ?_, hmeta.trans hheld.metaFile, ?_, hheld.pos⟩
  · exact ⟨data, stored, mem_append_left _ hput, hhash, hblob.trans hfile, hunpack⟩
  · rw [references_snoc, releases_snoc, hadds, hdrops]
    exact hheld.count

/-- A call about one hash: what has to be shown is about that hash. -/
theorem Tracks.update (ht : Tracks env s M) (h : Hash) (hindex : t.index.Represents M')
    (hlookup : ∀ k, k ≠ h.bytes → M'.lookup k = M.lookup k)
    (hfiles : ∀ name, name ≠ blobPath h → name ≠ metaPath h → name ≠ indexPath →
      t.files.lookup name = s.store.files.lookup name)
    (hfile : t.files.lookup indexPath = some (indexBytes t.index))
    (hop : ∀ h', h' ≠ h → op.adds env h' = false ∧ op.drops h' = false)
    (hheld : ∀ m, M'.lookup h.bytes = some m → Held env ⟨t, s.calls ++ [op]⟩ h m)
    (hdead : M'.lookup h.bytes = none → releases ⟨t, s.calls ++ [op]⟩ h = references env ⟨t, s.calls ++ [op]⟩ h ∧
        t.files.lookup (blobPath h) = none) :
    Tracks env ⟨t, s.calls ++ [op]⟩ M' := by
  have hother {h' : Hash} (hne : h' ≠ h) : M'.lookup h'.bytes = M.lookup h'.bytes ∧
      t.files.lookup (blobPath h') = s.store.files.lookup (blobPath h') ∧
      t.files.lookup (metaPath h') = s.store.files.lookup (metaPath h') := by
    refine ⟨hlookup _ ?_, hfiles _ ?_ ?_ ?_, hfiles _ ?_ ?_ ?_⟩
    · intro heq
      obtain ⟨b, hb⟩ := h
      obtain ⟨b', hb'⟩ := h'
      subst heq
      exact hne rfl
    · exact fun heq => hne (blobPath_injective heq)
    · exact blobPath_ne_metaPath h' h
    · exact blobPath_ne_indexPath h'
    · exact (blobPath_ne_metaPath h h').symm
    · exact fun heq => hne (metaPath_injective heq)
    · exact metaPath_ne_indexPath h'
  refine ⟨hindex, ?_, ?_, ?_, ?_, .inl hfile⟩
  · intro k hk
    by_cases heq : k = h.bytes
    · rw [heq, h.length_bytes]
    · rw [← AList.lookup_isSome, hlookup k heq, AList.lookup_isSome] at hk
      exact ht.keys k hk
  · intro h' m hm
    by_cases hne : h' = h
    · subst hne
      exact hheld m hm
    · obtain ⟨hM, hblob, hmeta⟩ := hother hne
      obtain ⟨hadds, hdrops⟩ := hop h' hne
      rw [hM] at hm
      exact (ht.held h' m hm).frame hblob hmeta hadds hdrops
  · intro h' hnone
    by_cases hne : h' = h
    · subst hne
      exact hdead hnone
    · obtain ⟨hM, hblob, -⟩ := hother hne
      obtain ⟨hadds, hdrops⟩ := hop h' hne
      rw [hM] at hnone
      rw [references_snoc, releases_snoc, hadds, hdrops]
      exact ⟨(ht.dead h' hnone).1, hblob.trans (ht.dead h' hnone).2⟩
  · intro name hname hext
    by_cases heq : name = blobPath h
    · exact ⟨h, heq⟩
    · have hmeta : name ≠ metaPath h := by
        rintro rfl
        cases hext
      have hindexPath : name ≠ indexPath := by
        rintro rfl
        cases hext
      rw [← AList.lookup_isSome, hfiles name heq hmeta hindexPath, AList.lookup_isSome] at hname
      exact ht.names name hname hext

/-- Another count for a live hash. -/
theorem Tracks.setMeta (ht : Tracks env s M) (hm : M.lookup h.bytes = some m) {r : UInt64} (hr : 0 < r.toNat)
    (hcount : releases ⟨t, s.calls ++ [op]⟩ h + r.toNat = references env ⟨t, s.calls ++ [op]⟩ h)
    (hop : ∀ h', h' ≠ h → op.adds env h' = false ∧ op.drops h' = false)
    (hset : t = s.store.setMeta h { m with refcount := r }) :
    Tracks env ⟨t, s.calls ++ [op]⟩ (AList.insert h.bytes { m with refcount := r } M) := by
  have hindex := ht.index.insert (fun k => ht.comparable h) { m with refcount := r }
  have hfiles : ∀ name, name ≠ indexPath → t.files.lookup name = s.store.files.lookup name := by
    intro name hname
    rw [hset]
    exact AList.lookup_insert_ne hname
  refine ht.update h (hset ▸ hindex.2) ?_ ?_ ?_ hop ?_ ?_
  · intro k hk
    exact AList.lookup_insert_ne hk
  · intro name _ _ hname
    exact hfiles name hname
  · rw [hset]
    exact AList.lookup_insert _
  · intro m' hm'
    rw [AList.lookup_insert, Option.some.injEq] at hm'
    have hheld := ht.held h m hm
    obtain ⟨data, stored, hput, hhash, hfile, hunpack⟩ := hheld.data
    rw [← hm']
    refine ⟨hheld.hash, ?_, ?_, hcount, hr⟩
    · exact ⟨data, stored, mem_append_left _ hput, hhash, (hfiles _ (blobPath_ne_indexPath h)).trans hfile, hunpack⟩
    · exact (hfiles _ (metaPath_ne_indexPath h)).trans hheld.metaFile
  · simp

/-- The first put of a blob. -/
theorem Tracks.put_new (hcodec : ∀ data, env.decodeAll (env.encodeAll data) = .ok data)
    (ht : Tracks env s M) {data : Bytes} (hnew : M.lookup (env.hash data).bytes = none) :
    ∃ M', Tracks env ⟨(s.store.put env data).1, s.calls ++ [.put data]⟩ M' := by
  generalize hstored : pack env s.store.defaultCompression data = stored
  generalize hh : env.hash data = h at hnew
  let m : BlobMeta := ⟨h, UInt64.ofNat data.length, UInt64.ofNat stored.1.length, stored.2, 1⟩
  have hput : (s.store.put env data).1 = BlobStore.setMeta { s.store with
        files := AList.insert (metaPath h) (serializeMeta m)
          (AList.insert (blobPath h) stored.1 s.store.files) } h m := by
    unfold BlobStore.put
    dsimp only
    rw [hh, ht.get_eq, hnew, hstored]
  have hindex := ht.index.insert (fun k => ht.comparable h) m
  refine ⟨AList.insert h.bytes m M, ?_⟩
  rw [hput]
  refine ht.update h hindex.2 ?_ ?_ (AList.lookup_insert _) ?_ ?_ ?_
  · intro k hk
    exact AList.lookup_insert_ne hk
  · intro name hblob hmeta hname
    show (AList.insert indexPath _ _).lookup name = _
    rw [AList.lookup_insert_ne hname, AList.lookup_insert_ne hmeta, AList.lookup_insert_ne hblob]
  · intro h' hne
    rw [← hh] at hne
    exact ⟨decide_eq_false fun heq => hne heq.symm, rfl⟩
  · intro m' hm'
    rw [AList.lookup_insert, Option.some.injEq] at hm'
    rw [← hm']
    refine ⟨rfl, ⟨data, stored.1, mem_append_right _ mem_cons_self, hh, ?_, ?_⟩, ?_, ?_, Nat.one_pos⟩
    · show (AList.insert indexPath _ _).lookup _ = _
      rw [AList.lookup_insert_ne (blobPath_ne_indexPath h),
        AList.lookup_insert_ne (blobPath_ne_metaPath h h), AList.lookup_insert]
    · show unpack env stored.2 stored.1 = _
      rw [← hstored]
      exact unpack_pack hcodec _ data
    · show (AList.insert indexPath _ _).lookup _ = _
      rw [AList.lookup_insert_ne (metaPath_ne_indexPath h), AList.lookup_insert]
    · rw [references_snoc, releases_snoc, (ht.dead h hnew).1]
      simp [Op.adds, Op.drops, hh, m]
  · simp

/-- The last release of a blob. -/
theorem Tracks.release_last (ht : Tracks env s M) (hm : M.lookup h.bytes = some m)
    (hlast : m.refcount ≤ 1) (hs : ¬ s.store.index.Strands h.bytes) :
    Tracks env ⟨persistIndex { s.store with
        files := AList.erase (metaPath h) (AList.erase (blobPath h) s.store.files)
        index := (s.store.index.remove h.bytes).2 }, s.calls ++ [.release h]⟩
      (AList.erase h.bytes M) := by
  have hindex := ht.index.remove hs
  refine ht.update h hindex.2 ?_ ?_ (AList.lookup_insert _) ?_ ?_ ?_
  · intro k hk
    exact AList.lookup_erase_ne hk
  · intro name hblob hmeta hname
    show (AList.insert indexPath _ _).lookup name = _
    rw [AList.lookup_insert_ne hname, AList.lookup_erase_ne hmeta, AList.lookup_erase_ne hblob]
  · intro h' hne
    exact ⟨rfl, decide_eq_false fun heq => hne heq.symm⟩
  · simp
  · intro _
    have hheld := ht.held h m hm
    have hone : m.refcount.toNat = 1 := by
      have hle : m.refcount.toNat ≤ 1 := le_iff_toNat_le.mp hlast
      have hpos := hheld.pos
      omega
    refine ⟨?_, ?_⟩
    · rw [references_snoc, releases_snoc, ← hheld.count, hone]
      simp [Op.adds, Op.drops]
    · show (AList.insert indexPath _ _).lookup _ = _
      rw [AList.lookup_insert_ne (blobPath_ne_indexPath h),
        AList.lookup_erase_ne (blobPath_ne_metaPath h h), AList.lookup_erase]

/-- A call that leaves the store and all counts as they are. -/
theorem Tracks.quiet (ht : Tracks env s M) (hadds : ∀ h, op.adds env h = false)
    (hdrops : ∀ h, op.drops h = false) : Tracks env ⟨s.store, s.calls ++ [op]⟩ M := by
  refine ⟨ht.index, ht.keys, ?_, ?_, ht.names, ht.indexFile⟩
  · intro h m hm
    exact (ht.held h m hm).frame rfl rfl (hadds h) (hdrops h)
  · intro h hnone
    rw [references_snoc, releases_snoc, hadds, hdrops]
    exact ht.dead h hnone

namespace Session

/-- The call keeps the count of its hash within 64 bits. -/
def Within (env : Packages) (s : Session) : Op → Prop
  | .put data => ∀ m, s.store.blobMeta (env.hash data) = some m → m.refcount.toNat + 1 < 2 ^ 64
  | .retain hash => ∀ m, s.store.blobMeta hash = some m → m.refcount.toNat + 1 < 2 ^ 64
  | _ => True

/-- The call deletes no blob whose key strands a part of the tree. -/
def Joins (s : Session) : Op → Prop
  | .release hash => ∀ m, s.store.blobMeta hash = some m → m.refcount ≤ 1 →
    ¬ s.store.index.Strands hash.bytes
  | _ => True

/-- The call adds no reference to a stored blob. -/
def Unshared (env : Packages) (s : Session) : Op → Prop
  | .put data => s.store.blobMeta (env.hash data) = none
  | .retain hash => s.store.blobMeta hash = none
  | _ => True

theorem Unshared.within (h : Unshared env s op) : Within env s op := by
  cases op with
  | put data =>
    intro m hm
    rw [show s.store.blobMeta (env.hash data) = none from h] at hm
    cases hm
  | retain hash =>
    intro m hm
    rw [show s.store.blobMeta hash = none from h] at hm
    cases hm
  | get hash | release hash => trivial

end Session

theorem step_of_ok (hcall : s.store.call env op = .ok t) : s.step env op = some ⟨t, s.calls ++ [op]⟩ := by
  rw [Session.step, hcall]

theorem step_of_error {e : Halt} (hcall : s.store.call env op = .error e) : s.step env op = some s := by
  rw [Session.step, hcall]

/-- A release that leaves references. -/
theorem release_of_lt {s : BlobStore} (hm : s.index.get h.bytes = some m) (hmore : ¬ m.refcount ≤ 1) :
    s.release h = .ok (s.setMeta h { m with refcount := m.refcount - 1 }, false) := by
  rw [BlobStore.release, hm]
  exact if_neg hmore

theorem release_of_le {s : BlobStore} (hm : s.index.get h.bytes = some m) (hlast : m.refcount ≤ 1) :
    s.release h = .ok (persistIndex { s with
      files := AList.erase (metaPath h) (AList.erase (blobPath h) s.files)
      index := (s.index.remove h.bytes).2 }, true) := by
  rw [BlobStore.release, hm]
  exact if_pos hlast

theorem toNat_succ {r : UInt64} (h : r.toNat + 1 < 2 ^ 64) : (r + 1).toNat = r.toNat + 1 := by
  rw [UInt64.toNat_add]
  exact Nat.mod_eq_of_lt h

/-- One more reference to a live hash. -/
theorem Tracks.add (ht : Tracks env s M) (hm : M.lookup h.bytes = some m)
    (hwithin : m.refcount.toNat + 1 < 2 ^ 64) (hadds : ∀ h', op.adds env h' = decide (h = h'))
    (hdrops : ∀ h', op.drops h' = false)
    (hset : t = s.store.setMeta h { m with refcount := m.refcount + 1 }) :
    Tracks env ⟨t, s.calls ++ [op]⟩ (AList.insert h.bytes { m with refcount := m.refcount + 1 } M) := by
  have hsucc := toNat_succ hwithin
  refine ht.setMeta hm (by omega) ?_ ?_ hset
  · rw [references_snoc, releases_snoc, hadds, hdrops, ← (ht.held h m hm).count, hsucc]
    simp
    omega
  · intro h' hne
    exact ⟨(hadds h').trans (decide_eq_false fun heq => hne heq.symm), hdrops h'⟩

/-- **One call** keeps the index the map of the live hashes. -/
theorem Tracks.call {s' : Session} (hcodec : ∀ data, env.decodeAll (env.encodeAll data) = .ok data)
    (ht : Tracks env s M) (hwithin : s.Within env op) (hjoins : s.Joins op)
    (hstep : s.step env op = some s') : ∃ M', Tracks env s' M' := by
  cases op with
  | put data =>
    rw [step_of_ok rfl] at hstep
    cases hstep
    cases hm : M.lookup (env.hash data).bytes with
    | none => exact ht.put_new hcodec hm
    | some m =>
      have hget : s.store.index.get (env.hash data).bytes = some m := (ht.get_eq _).trans hm
      refine ⟨_, ht.add hm (hwithin m hget) (fun _ => rfl) (fun _ => rfl) ?_⟩
      unfold BlobStore.put
      dsimp only
      rw [hget]
  | get hash =>
    cases hget : s.store.get env hash with
    | error e =>
      rw [step_of_error (by rw [BlobStore.call, hget]; rfl)] at hstep
      cases hstep
      exact ⟨M, ht⟩
    | ok data =>
      rw [step_of_ok (by rw [BlobStore.call, hget]; rfl)] at hstep
      cases hstep
      exact ⟨M, ht.quiet (fun _ => rfl) (fun _ => rfl)⟩
  | retain hash =>
    cases hm : M.lookup hash.bytes with
    | none =>
      rw [step_of_error (by rw [BlobStore.call, BlobStore.retain, ht.get_eq, hm])] at hstep
      cases hstep
      exact ⟨M, ht⟩
    | some m =>
      have hget := (ht.get_eq hash).trans hm
      rw [step_of_ok (by rw [BlobStore.call, BlobStore.retain, hget])] at hstep
      cases hstep
      exact ⟨_, ht.add hm (hwithin m hget) (fun _ => rfl) (fun _ => rfl) rfl⟩
  | release hash =>
    cases hm : M.lookup hash.bytes with
    | none =>
      have hrelease : s.store.release hash = .error (notFound hash) := by
        rw [BlobStore.release, ht.get_eq, hm]
      rw [step_of_error (by rw [BlobStore.call, hrelease]; rfl)] at hstep
      cases hstep
      exact ⟨M, ht⟩
    | some m =>
      have hget := (ht.get_eq hash).trans hm
      by_cases hlast : m.refcount ≤ 1
      · rw [step_of_ok (by rw [BlobStore.call, release_of_le hget hlast]; rfl)] at hstep
        cases hstep
        exact ⟨_, ht.release_last hm hlast (hjoins m hget hlast)⟩
      · rw [step_of_ok (by rw [BlobStore.call, release_of_lt hget hlast]; rfl)] at hstep
        cases hstep
        have htwo : 1 < m.refcount.toNat := by
          rw [UInt64.le_iff_toNat_le, not_le] at hlast
          exact hlast
        have hpred : (m.refcount - 1).toNat = m.refcount.toNat - 1 :=
          UInt64.toNat_sub_of_le _ _ (UInt64.le_iff_toNat_le.mpr htwo.le)
        refine ⟨_, ht.setMeta hm (r := m.refcount - 1) (by omega) ?_ ?_ rfl⟩
        · rw [references_snoc, releases_snoc, ← (ht.held hash m hm).count, hpred]
          simp [Op.adds, Op.drops]
          omega
        · intro h' hne
          exact ⟨rfl, decide_eq_false fun heq => hne heq.symm⟩

end CenDB.Cas
