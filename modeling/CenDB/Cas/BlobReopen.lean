import CenDB.Cas.BlobRefcounts

/-! # Reopening a blob store

The index file holds the whole index, so a store opened from it is the same store
(`Tracks.openDir_index`).  The metadata files keep the count of the first put: a store opened
without its index file has every live hash with the count one (`Tracks.openDir_scan`).

`kept_iff` states for every sequence of calls when a store keeps its live blobs, and when it does
so even for a directory that lost its index file. -/

namespace CenDB.Cas

open CenDB.Index CenDB.Storage Words List Table
open BlobStore Session

variable {env : Packages} {s : Session} {M : Table Key BlobMeta} {h : Hash} {m : BlobMeta}

/-- Two stores with the same metadata, contents and length. -/
structure Same (env : Packages) (s t : BlobStore) : Prop where
  blobMeta : ∀ h, t.blobMeta h = s.blobMeta h
  get : ∀ h, t.get env h = s.get env h
  len : t.len = s.len

variable {t : BlobStore} {files : Table FileName Bytes} {entries : List FileName}

theorem Same.of_get {s : BlobStore} (hget : ∀ h : Hash, t.index.get h.bytes = s.index.get h.bytes)
    (hfiles : ∀ h, t.files.lookup (blobPath h) = s.files.lookup (blobPath h)) (hlen : t.index.len = s.index.len) :
    Same env s t := by
  refine ⟨hget, ?_, hlen⟩
  intro h
  rw [BlobStore.get, BlobStore.get, hget, hfiles]

/-! ### The index file -/

/-- A store opened from its index file is the same store. -/
theorem Tracks.openDir_index (ht : Tracks env s M)
    (hfile : s.store.files.lookup indexPath = some (indexBytes s.store.index))
    (entries : List FileName) :
    ∃ t, openDir s.store.files entries = .ok t ∧ Same env s.store t := by
  have hmem (k : Key) (v : BlobMeta) : (k, v) ∈ s.store.index.iter.collect ↔ M.lookup k = some v := by
    rw [ht.index.wf.mem_collect, ht.index.holds]
  have hkeys : ∀ x ∈ s.store.index.iter.collect, x.1.length = 32 := by
    rintro ⟨k, v⟩ hx
    exact ht.keys k (AList.lookup_isSome.mp (by rw [(hmem k v).mp hx]; rfl))
  obtain ⟨hget, hlen⟩ := get_insertAll hkeys hmem
  refine ⟨⟨s.store.files, ArtTree.new.insertAll s.store.index.iter.collect, .zstd⟩, ?_, ?_⟩
  · rw [openDir, scanExisting, hfile]
    dsimp only
    rw [indexBytes, loadIndex_records hkeys]
    rfl
  · refine Same.of_get (fun h => ?_) (fun _ => rfl) (hlen.trans ht.index.len.symm)
    exact (hget h.bytes).trans (ht.get_eq h).symm

/-! ### The other files -/

/-- The metadata that the files of a live hash keep. -/
def firstCount (m : BlobMeta) : BlobMeta := { m with refcount := 1 }

/-- Scanning finds the live hashes, each with the count of its first put. -/
theorem Tracks.mem_scan (ht : Tracks env s M)
    (hfiles : ∀ name, name ≠ indexPath → files.lookup name = s.store.files.lookup name)
    (hentries : entries.Perm files.keys) (k : Key) (v : BlobMeta) :
    (k, v) ∈ (entries.filterMap (blobEntry files)).map (fun x => (x.1.bytes, x.2)) ↔
      (Table.mapWithKey (fun _ => firstCount) M).lookup k = some v := by
  have hmem (name : FileName) : name ∈ entries ↔ (files.lookup name).isSome := by
    rw [hentries.mem_iff, AList.mem_keys.symm, AList.lookup_isSome]
  have hblob (h : Hash) : files.lookup (blobPath h) = s.store.files.lookup (blobPath h) :=
    hfiles _ (blobPath_ne_indexPath h)
  -- the entry of a live hash
  have hentry {h : Hash} {m : BlobMeta} (hm : M.lookup h.bytes = some m) :
      blobEntry files (blobPath h) = some (h, firstCount m) := by
    have hmeta : files.lookup (metaPath h) = some (serializeMeta (firstCount m)) :=
      (hfiles _ (metaPath_ne_indexPath h)).trans (ht.held h m hm).metaFile
    rw [blobEntry, if_pos (show (blobPath h).extension = .blobExt from rfl)]
    show (Hash.fromHex h.toHex).bind _ = _
    rw [Hash.fromHex_toHex, Option.bind_some]
    show (files.lookup (metaPath h)).bind _ = _
    rw [hmeta, Option.bind_some, deserializeMeta_serializeMeta]
    rfl
  rw [lookup_mapWithKey, Option.map_eq_some_iff]
  constructor
  · intro hkv
    obtain ⟨⟨hash, blobMeta⟩, hfound, heq⟩ := List.mem_map.mp hkv
    cases heq
    obtain ⟨entry, hmember, hsome⟩ := mem_filterMap.mp hfound
    have hext : entry.extension = .blobExt := by
      by_contra hne
      rw [blobEntry, if_neg hne] at hsome
      cases hsome
    have hindex : entry ≠ indexPath := by
      rintro rfl
      cases hext
    have hstored := (hmem entry).mp hmember
    rw [hfiles entry hindex, AList.lookup_isSome] at hstored
    obtain ⟨h, rfl⟩ := ht.names entry hstored hext
    cases hm : M.lookup h.bytes with
    | none =>
      rw [← AList.lookup_isSome, (ht.dead h hm).2] at hstored
      cases hstored
    | some m =>
      rw [hentry hm, Option.some.injEq, Prod.mk.injEq] at hsome
      obtain ⟨rfl, rfl⟩ := hsome
      exact ⟨m, hm, rfl⟩
  · rintro ⟨m, hm, rfl⟩
    have hk := ht.hash_of_lookup hm
    rw [hk] at hm
    obtain ⟨data, stored, -, -, hfile, -⟩ := (ht.held m.hash m hm).data
    refine List.mem_map.mpr ⟨(m.hash, firstCount m), ?_, by rw [hk]⟩
    refine mem_filterMap.mpr ⟨blobPath m.hash, ?_, hentry hm⟩
    rw [hmem, hblob, hfile]
    rfl

/-- A directory without its index file opens with every count at one. -/
theorem Tracks.openDir_scan (ht : Tracks env s M)
    (hfiles : ∀ name, name ≠ indexPath → files.lookup name = s.store.files.lookup name)
    (hnone : files.lookup indexPath = none) (hentries : entries.Perm files.keys) :
    ∃ t, openDir files entries = .ok t ∧ t.files = files ∧
      (∀ h : Hash, t.blobMeta h = (M.lookup h.bytes).map firstCount) ∧
      t.len = s.store.len := by
  have hmem := ht.mem_scan hfiles hentries
  have hkeys : ∀ x ∈ (entries.filterMap (blobEntry files)).map (fun x => (x.1.bytes, x.2)), x.1.length = 32 := by
    intro x hx
    obtain ⟨y, -, rfl⟩ := List.mem_map.mp hx
    exact y.1.length_bytes
  obtain ⟨hget, hlen⟩ := get_insertAll hkeys hmem
  refine ⟨⟨files, scanDir files entries, .zstd⟩, ?_, rfl, ?_, ?_⟩
  · rw [openDir, scanExisting, hnone]
    rfl
  · intro h
    show (scanDir files entries).get h.bytes = _
    rw [scanDir_eq, hget, lookup_mapWithKey]
  · show (scanDir files entries).len = s.store.index.len
    rw [scanDir_eq, hlen, size_mapWithKey, ht.index.len]

/-! ### What a store keeps -/

/-- The live blobs are readable and counted, and the directory opens to the same store. -/
structure Kept (env : Packages) (s : Session) : Prop where
  stored : ∀ h, Live env s h → ∃ data, .put data ∈ s.calls ∧ env.hash data = h
  get : ∀ data, .put data ∈ s.calls → Live env s (env.hash data) → s.store.get env (env.hash data) = .ok data
  refcount : ∀ h, Live env s h → ∃ m, s.store.blobMeta h = some m ∧
    m.refcount.toNat = s.references env h - s.releases h
  len : s.store.len = {h | Live env s h}.ncard
  reopen : ∀ entries, entries.Perm s.store.files.keys →
    ∃ t, openDir s.store.files entries = .ok t ∧ Same env s.store t

/-- The directory opens to the same store when its index file is missing. -/
def Rescans (env : Packages) (s : Session) : Prop :=
  ∀ entries, entries.Perm (AList.erase indexPath s.store.files).keys →
    ∃ t, openDir (AList.erase indexPath s.store.files) entries = .ok t ∧ Same env s.store t

theorem Tracks.live_iff (ht : Tracks env s M) {h : Hash} : Live env s h ↔ ∃ m, M.lookup h.bytes = some m := by
  cases hm : M.lookup h.bytes with
  | none =>
    have hdead := (ht.dead h hm).1
    simp [Live, hdead]
  | some m =>
    have hheld := ht.held h m hm
    have hcount := hheld.count
    have hpos := hheld.pos
    simp [Live]
    omega

theorem Tracks.len_eq (ht : Tracks env s M) : s.store.len = {h | Live env s h}.ncard := by
  have hinj : Function.Injective Hash.bytes := by
    rintro ⟨b, hb⟩ ⟨b', hb'⟩ heq
    subst heq
    rfl
  have himage : Hash.bytes '' {h | Live env s h} = ↑M.keys.toFinset := by
    ext k
    rw [Set.mem_image, Finset.mem_coe, mem_toFinset, ← AList.mem_keys, ← AList.lookup_isSome,
      Option.isSome_iff_exists]
    constructor
    · rintro ⟨h, hlive, rfl⟩
      exact ht.live_iff.mp hlive
    · rintro ⟨m, hm⟩
      have hk := ht.hash_of_lookup hm
      exact ⟨m.hash, ht.live_iff.mpr ⟨m, hk ▸ hm⟩, hk.symm⟩
  rw [← Set.ncard_image_of_injective _ hinj, himage, Set.ncard_coe_finset, ← size_eq_card]
  exact ht.index.len

/-- An index file that was never written belongs to an empty store. -/
theorem Tracks.firstCount_of_new (ht : Tracks env s M) (hnew : s.store.index = .new) (h : Hash) :
    M.lookup h.bytes = none := by
  have hget := ht.get_eq h
  rw [hnew] at hget
  rw [← hget]
  unfold ArtTree.get ArtTree.new
  split <;> rfl

theorem Tracks.kept (ht : Tracks env s M) (hinj : Set.InjOn env.hash {data | .put data ∈ s.calls}) : Kept env s := by
  refine ⟨?_, ?_, ?_, ht.len_eq, ?_⟩
  · intro h hlive
    obtain ⟨m, hm⟩ := ht.live_iff.mp hlive
    obtain ⟨data, -, hput, hhash, -, -⟩ := (ht.held h m hm).data
    exact ⟨data, hput, hhash⟩
  · intro data hput hlive
    obtain ⟨m, hm⟩ := ht.live_iff.mp hlive
    obtain ⟨data', stored, hput', hhash, hfile, hunpack⟩ := (ht.held _ m hm).data
    obtain rfl := hinj hput' hput hhash
    rw [BlobStore.get, ht.get_eq, hm]
    dsimp only
    rw [hfile]
    exact hunpack
  · intro h hlive
    obtain ⟨m, hm⟩ := ht.live_iff.mp hlive
    refine ⟨m, (ht.get_eq h).trans hm, ?_⟩
    have hcount := (ht.held h m hm).count
    omega
  · intro entries hentries
    cases ht.indexFile with
    | inl hfile => exact ht.openDir_index hfile entries
    | inr hnew =>
      obtain ⟨t, hopen, hfiles, hmeta, hlen⟩ := ht.openDir_scan (fun _ _ => rfl) hnew.1 hentries
      refine ⟨t, hopen, Same.of_get (fun h => ?_) (fun h => by rw [hfiles]) hlen⟩
      have hnone := ht.firstCount_of_new hnew.2 h
      rw [ht.get_eq, hnone]
      exact (hmeta h).trans (by rw [hnone]; rfl)

theorem lookup_erase_index (files : Table FileName Bytes) (name : FileName) (hne : name ≠ indexPath) :
    (AList.erase indexPath files).lookup name = files.lookup name :=
  AList.lookup_erase_ne hne

/-- Without its index file a directory opens to the same store if every count is one. -/
theorem Tracks.rescans (ht : Tracks env s M)
    (hone : ∀ (h : Hash) m, M.lookup h.bytes = some m → m.refcount = 1) : Rescans env s := by
  intro entries hentries
  obtain ⟨t, hopen, hfiles, hmeta, hlen⟩ :=
    ht.openDir_scan (lookup_erase_index s.store.files) (AList.lookup_erase indexPath _) hentries
  refine ⟨t, hopen, Same.of_get (fun h => ?_) (fun h => ?_) hlen⟩
  · refine (hmeta h).trans ?_
    rw [ht.get_eq]
    cases hm : M.lookup h.bytes with
    | none => rfl
    | some m => rw [Option.map_some, firstCount, ← hone h m hm]
  · rw [hfiles]
    exact lookup_erase_index _ _ (blobPath_ne_indexPath h)

/-- … and not if a count is larger. -/
theorem Tracks.not_rescans (ht : Tracks env s M) (hm : M.lookup h.bytes = some m)
    (hmore : m.refcount ≠ 1) : ¬ Rescans env s := by
  intro hrescans
  have hscan := ht.openDir_scan (lookup_erase_index s.store.files) (AList.lookup_erase indexPath _)
    (List.Perm.refl (AList.erase indexPath s.store.files).keys)
  obtain ⟨t, hopen, -, hmeta, -⟩ := hscan
  obtain ⟨t', hopen', hsame⟩ := hrescans _ (List.Perm.refl _)
  rw [hopen, Except.ok.injEq] at hopen'
  subst hopen'
  have hcount := (hmeta h).symm.trans (hsame.blobMeta h)
  rw [BlobStore.blobMeta, ht.get_eq, hm, Option.map_some, Option.some.injEq] at hcount
  exact hmore (congrArg BlobMeta.refcount hcount).symm

/-! ### Sequences of calls -/

variable {s' : Session} {op : Op}

/-- A call that returns `Ok` is recorded, and one that fails changes nothing. -/
theorem step_cases (hstep : s.step env op = some s') :
    (∃ t, s.store.call env op = .ok t ∧ s' = ⟨t, s.calls ++ [op]⟩) ∨
      (∃ e, s.store.call env op = .error e) ∧ s' = s := by
  cases hcall : s.store.call env op with
  | ok t =>
    rw [step_of_ok hcall, Option.some.injEq] at hstep
    exact .inl ⟨t, rfl, hstep.symm⟩
  | error e =>
    rw [step_of_error hcall, Option.some.injEq] at hstep
    exact .inr ⟨⟨e, rfl⟩, hstep.symm⟩

theorem exists_step (env : Packages) (s : Session) (op : Op) : ∃ s', s.step env op = some s' := by
  cases hcall : s.store.call env op with
  | ok t => exact ⟨_, step_of_ok hcall⟩
  | error e => exact ⟨_, step_of_error hcall⟩

/-- A count that leaves 64 bits is not the number of references. -/
theorem Tracks.not_kept_of_wraps (ht : Tracks env s M) (hm : M.lookup h.bytes = some m)
    (hwraps : ¬ m.refcount.toNat + 1 < 2 ^ 64) (hadds : op.adds env h = true) (hdrops : op.drops h = false) :
    ¬ Kept env ⟨t, s.calls ++ [op]⟩ := by
  intro hkept
  have hheld := ht.held h m hm
  have hrefs : references env ⟨t, s.calls ++ [op]⟩ h = references env s h + 1 := by
    rw [references_snoc, if_pos hadds]
  have hrels : releases ⟨t, s.calls ++ [op]⟩ h = releases s h := by
    rw [releases_snoc, hdrops]
    rfl
  have hcount := hheld.count
  have hlive : Live env ⟨t, s.calls ++ [op]⟩ h := by
    rw [Live, hrefs, hrels]
    omega
  obtain ⟨m', -, hm'⟩ := hkept.refcount h hlive
  rw [hrefs, hrels] at hm'
  have hlt := m'.refcount.toNat_lt
  omega

/-- A deletion that strands a part of the tree loses a live blob. -/
theorem Tracks.not_kept_of_strands (ht : Tracks env s M) (hm : M.lookup h.bytes = some m)
    (hlast : m.refcount ≤ 1) (hs : s.store.index.Strands h.bytes)
    (hstep : s.step env (.release h) = some s') : ¬ Kept env s' := by
  intro hkept
  obtain ⟨k, m', hne, hm', hlost⟩ := ht.index.strands hs
  have hrelease := release_of_le ((ht.get_eq h).trans hm) hlast
  rw [step_of_ok (by rw [BlobStore.call, hrelease]; rfl), Option.some.injEq] at hstep
  obtain rfl := hstep
  have hk := ht.hash_of_lookup hm'
  rw [hk] at hm' hlost hne
  have hother : h ≠ m'.hash := fun heq => hne (congrArg Hash.bytes heq.symm)
  have hheld := ht.held m'.hash m' hm'
  have hlive : Live env ⟨persistIndex { s.store with
      files := AList.erase (metaPath h) (AList.erase (blobPath h) s.store.files)
      index := (s.store.index.remove h.bytes).2 }, s.calls ++ [.release h]⟩ m'.hash := by
    have hcount := hheld.count
    have hpos := hheld.pos
    rw [Live, references_snoc, releases_snoc]
    simp [Op.adds, Op.drops, hother]
    omega
  obtain ⟨m'', hfound, -⟩ := hkept.refcount _ hlive
  rw [BlobStore.blobMeta] at hfound
  rw [show (s.store.index.remove h.bytes).2.get m'.hash.bytes = some m'' from hfound] at hlost
  cases hlost

/-- A call that loses a part of the tree or a bit of a count loses what was kept. -/
theorem Tracks.not_kept (ht : Tracks env s M) (hstep : s.step env op = some s')
    (hno : ¬ (s.Joins op ∧ s.Within env op)) : ¬ Kept env s' := by
  cases op with
  | get hash => exact absurd ⟨trivial, trivial⟩ hno
  | put data =>
    have hwithin : ¬ s.Within env (.put data) := fun hwithin => hno ⟨trivial, hwithin⟩
    unfold Session.Within at hwithin
    push Not at hwithin
    obtain ⟨m, hm, hwraps⟩ := hwithin
    rw [step_of_ok rfl, Option.some.injEq] at hstep
    rw [← hstep]
    exact ht.not_kept_of_wraps ((ht.get_eq _).symm.trans hm) (by omega) (Op.adds_put env data) rfl
  | retain hash =>
    have hwithin : ¬ s.Within env (.retain hash) := fun hwithin => hno ⟨trivial, hwithin⟩
    unfold Session.Within at hwithin
    push Not at hwithin
    obtain ⟨m, hm, hwraps⟩ := hwithin
    have hcall : s.store.call env (.retain hash) =
        .ok (s.store.setMeta hash { m with refcount := m.refcount + 1 }) := by
      rw [BlobStore.call, BlobStore.retain, show s.store.index.get hash.bytes = some m from hm]
    rw [step_of_ok hcall, Option.some.injEq] at hstep
    rw [← hstep]
    exact ht.not_kept_of_wraps ((ht.get_eq _).symm.trans hm) (by omega) (Op.adds_retain env hash) rfl
  | release hash =>
    have hjoins : ¬ s.Joins (.release hash) := fun hjoins => hno ⟨hjoins, trivial⟩
    unfold Session.Joins at hjoins
    push Not at hjoins
    obtain ⟨m, hm, hlast, hs⟩ := hjoins
    exact ht.not_kept_of_strands ((ht.get_eq _).symm.trans hm) hlast hs hstep

/-- No hash has more than one reference. -/
def Single (env : Packages) (s : Session) : Prop := ∀ h, s.references env h ≤ s.releases h + 1

theorem Tracks.refcount_one (ht : Tracks env s M) (hsingle : Single env s) (h : Hash) (m : BlobMeta)
    (hm : M.lookup h.bytes = some m) : m.refcount = 1 := by
  have hheld := ht.held h m hm
  have hcount := hheld.count
  have hpos := hheld.pos
  have hle := hsingle h
  refine UInt64.toNat_inj.mp ?_
  show _ = 1
  omega

/-- A call that adds no reference to a stored blob leaves the hashes with one reference each. -/
theorem Tracks.single (ht : Tracks env s M) (hsingle : Single env s) (hunshared : s.Unshared env op)
    (hstep : s.step env op = some s') : Single env s' := by
  obtain ⟨t, hcall, rfl⟩ | ⟨-, rfl⟩ := step_cases hstep
  · intro h
    have hle := hsingle h
    rw [references_snoc, releases_snoc]
    by_cases hadds : op.adds env h = true
    · -- only the first put of a hash adds a reference
      have hdead : s.releases h = s.references env h := by
        cases op with
        | put data =>
          obtain rfl := of_decide_eq_true hadds
          exact (ht.dead _ ((ht.get_eq _).symm.trans hunshared)).1
        | retain hash =>
          rw [BlobStore.call, BlobStore.retain, show s.store.index.get hash.bytes = none from hunshared] at hcall
          cases hcall
        | get hash | release hash => cases hadds
      rw [if_pos hadds]
      omega
    · rw [if_neg hadds]
      omega
  · exact hsingle

/-- A second reference is lost without the index file. -/
theorem Tracks.not_rescans_of_shared (ht : Tracks env s M)
    (hcodec : ∀ data, env.decodeAll (env.encodeAll data) = .ok data) (hjoins : s.Joins op)
    (hstep : s.step env op = some s') (hno : ¬ s.Unshared env op) :
    ¬ (Kept env s' ∧ Rescans env s') := by
  rintro ⟨hkept, hrescans⟩
  have hwithin : s.Within env op := by
    by_contra hno
    exact ht.not_kept hstep (fun hboth => hno hboth.2) hkept
  obtain ⟨M', ht'⟩ := ht.call hcodec hwithin hjoins hstep
  -- the hash the call is about has two references
  have hshared : ∃ h m, M.lookup h.bytes = some m ∧ op.adds env h = true ∧ op.drops h = false ∧
      ∃ t, s.store.call env op = .ok t := by
    cases op with
    | put data =>
      obtain ⟨m, hm⟩ := Option.ne_none_iff_exists'.mp hno
      exact ⟨_, m, (ht.get_eq _).symm.trans hm, Op.adds_put env data, rfl, _, rfl⟩
    | retain hash =>
      obtain ⟨m, hm⟩ := Option.ne_none_iff_exists'.mp hno
      refine ⟨hash, m, (ht.get_eq _).symm.trans hm, Op.adds_retain env hash, rfl,
        s.store.setMeta hash { m with refcount := m.refcount + 1 }, ?_⟩
      rw [BlobStore.call, BlobStore.retain, show s.store.index.get hash.bytes = some m from hm]
    | get hash | release hash => exact absurd trivial hno
  obtain ⟨h, m, hm, hadds, hdrops, t, hcall⟩ := hshared
  rw [step_of_ok hcall, Option.some.injEq] at hstep
  obtain rfl := hstep
  have hheld := ht.held h m hm
  have hcount := hheld.count
  have hpos := hheld.pos
  have hrefs : references env ⟨t, s.calls ++ [op]⟩ h = references env s h + 1 := by
    rw [references_snoc, if_pos hadds]
  have hrels : releases ⟨t, s.calls ++ [op]⟩ h = releases s h := by
    rw [releases_snoc, hdrops]
    rfl
  obtain ⟨m', hm'⟩ := ht'.live_iff.mp (show Live env ⟨t, s.calls ++ [op]⟩ h by
    rw [Live, hrefs, hrels]
    omega)
  refine ht'.not_rescans hm' ?_ hrescans
  intro hone
  have hcount' := (ht'.held h m' hm').count
  rw [hrefs, hrels, hone, show (1 : UInt64).toNat = 1 from rfl] at hcount'
  omega

/-- The calls that returned `Ok` are among those made. -/
def Among (ops : List Op) (s : Session) : Prop := ∀ op ∈ s.calls, op ∈ ops

theorem Among.step {ops : List Op} (h : Among ops s) (hop : op ∈ ops)
    (hstep : s.step env op = some s') : Among ops s' := by
  obtain ⟨t, -, rfl⟩ | ⟨-, rfl⟩ := step_cases hstep
  · intro op' hmem
    cases mem_append.mp hmem with
    | inl hold => exact h op' hold
    | inr hnew => exact mem_singleton.mp hnew ▸ hop
  · exact h

/-- **A store keeps its live blobs exactly as long as** no release strands a part of the radix tree
and every count fits 64 bits, and a directory without its index file opens to the same store
exactly as long as, besides, no stored blob gets another reference. -/
theorem kept_iff (env : Packages) (hcodec : ∀ data, env.decodeAll (env.encodeAll data) = .ok data)
    (c : CompressionKind) (ops : List Op) (hinj : Set.InjOn env.hash {data | .put data ∈ ops}) :
    (Transition.Throughout (step env) (Kept env) (init c) ops ↔
      Transition.Along (step env) (fun s op => s.Joins op ∧ s.Within env op) (init c) ops) ∧
    (Transition.Throughout (step env) (fun s => Kept env s ∧ Rescans env s) (init c) ops ↔
      Transition.Along (step env) (fun s op => s.Joins op ∧ s.Unshared env op) (init c) ops) := by
  obtain ⟨last, hrun⟩ := Transition.exists_run (exists_step env) (init c) ops
  have hside : Transition.Along (step env) (fun _ op => op ∈ ops) (init c) ops :=
    Transition.along_of_forall (fun _ op hop => hop) _
  have hamong : Among ops (init c) := fun op hop => absurd hop not_mem_nil
  have hkept {s : Session} {M : Table Key BlobMeta} (ht : Tracks env s M) (h : Among ops s) :
      Kept env s := ht.kept (hinj.mono fun data hput => h _ hput)
  constructor
  · refine Transition.throughout_iff_along_of_side (I := fun s => (∃ M, Tracks env s M) ∧ Among ops s) ?_ ?_ ?_
      ⟨⟨∅, tracks_init env c⟩, hamong⟩ hside hrun
    · rintro s ⟨⟨M, ht⟩, h⟩
      exact hkept ht h
    · rintro s op s' ⟨⟨M, ht⟩, h⟩ hop ⟨hjoins, hwithin⟩ hstep
      exact ⟨ht.call hcodec hwithin hjoins hstep, h.step hop hstep⟩
    · rintro s op s' ⟨⟨M, ht⟩, h⟩ hop hno hstep
      exact ht.not_kept hstep hno
  · refine Transition.throughout_iff_along_of_side
      (I := fun s => (∃ M, Tracks env s M) ∧ Among ops s ∧ Single env s) ?_ ?_ ?_
      ⟨⟨∅, tracks_init env c⟩, hamong, fun h => Nat.zero_le _⟩ hside hrun
    · rintro s ⟨⟨M, ht⟩, h, hsingle⟩
      exact ⟨hkept ht h, ht.rescans (ht.refcount_one hsingle)⟩
    · rintro s op s' ⟨⟨M, ht⟩, h, hsingle⟩ hop ⟨hjoins, hunshared⟩ hstep
      exact ⟨ht.call hcodec hunshared.within hjoins hstep, h.step hop hstep, ht.single hsingle hunshared hstep⟩
    · rintro s op s' ⟨⟨M, ht⟩, h, hsingle⟩ hop hno hstep
      by_cases hjoins : s.Joins op
      · exact ht.not_rescans_of_shared hcodec hjoins hstep fun hunshared =>
          hno ⟨hjoins, hunshared⟩
      · exact fun hboth => ht.not_kept hstep (fun hsound => hjoins hsound.1) hboth.1

/-! ### The empty blob -/

/-- The hash of the empty blob. -/
def emptyHash : Hash :=
  ⟨[0xaf, 0x13, 0x49, 0xb9, 0xf5, 0xf9, 0xa1, 0xa6, 0xa0, 0x40, 0x4d, 0xea, 0x36, 0xdc, 0xc9, 0x49,
    0x9b, 0xcb, 0x25, 0xc9, 0xad, 0xc1, 0x12, 0xb7, 0xcc, 0x9a, 0x93, 0xca, 0xe4, 0x1f, 0x32, 0x62],
    rfl⟩

/-- The packages on the empty blob, which no compressor makes smaller. -/
def emptyPackages : Packages := ⟨fun _ => emptyHash, fun data => data, .ok⟩

theorem kept_iff_empty :
    Transition.Throughout (step emptyPackages) (fun s => Kept emptyPackages s ∧ Rescans emptyPackages s)
      (init .zstd) [.put []] := by
  have hinj : Set.InjOn emptyPackages.hash {data | Op.put data ∈ [Op.put []]} := by
    intro data hdata data' hdata' _
    simp only [Set.mem_ofPred_eq, mem_singleton, Op.put.injEq] at hdata hdata'
    exact hdata.trans hdata'.symm
  refine (kept_iff emptyPackages (fun _ => rfl) .zstd [.put []] hinj).2.mpr ?_
  exact ⟨⟨trivial, rfl⟩, fun _ _ => trivial⟩

/-- **A second reference is lost with the index file**: after two puts of the empty blob the count
is two, and the directory without its index file opens with the count one. -/
theorem rescan_loses_reference : ¬ Transition.Throughout (step emptyPackages)
      (fun s => Kept emptyPackages s ∧ Rescans emptyPackages s) (init .zstd)
      [.put [], .put []] := by
  intro hkept
  let counts (s : Session) : Option UInt64 × Option (Option UInt64) :=
    ((s.store.blobMeta emptyHash).map BlobMeta.refcount, (openDir (AList.erase indexPath s.store.files)
        (AList.erase indexPath s.store.files).keys).toOption.map fun t =>
          (t.blobMeta emptyHash).map BlobMeta.refcount)
  have hcounts : (Transition.run (step emptyPackages) (init .zstd) [.put [], .put []]).map counts =
      some (some 2, some (some 1)) := by
    decide +kernel
  obtain ⟨s, hrun, hs⟩ := Option.map_eq_some_iff.mp hcounts
  obtain ⟨hstore, hscan⟩ := Prod.mk.inj hs
  obtain ⟨t, hopen, hsame⟩ := (hkept _ s (prefix_refl _) hrun).2 _ (List.Perm.refl _)
  rw [hopen] at hscan
  have hcount : (t.blobMeta emptyHash).map BlobMeta.refcount = some 1 := Option.some.inj hscan
  rw [hsame.blobMeta, hstore] at hcount
  exact absurd hcount (by decide)

end CenDB.Cas
