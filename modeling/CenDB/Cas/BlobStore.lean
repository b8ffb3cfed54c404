import CenDB.Index.ArtIter
import CenDB.Index.ArtRemove
import CenDB.Storage.Segment

/-! # Content-addressed blob store

A store keeps one file for each blob, named by the hash of its content, a file of metadata beside
it, and an index from hashes to metadata, which it also writes to a file after every change.  The
hash and the compressor are parameters (`Packages`); a write to a file succeeds.

A record of the index file is read back (`deserializeMeta_serializeMeta`), and so is a whole index
(`loadIndex_records`); a file name is parsed back to its hash (`fromHex_toHex`).  Both ways of
opening a directory insert a list of pairs (`loadIndex_records`, `scanDir_eq`). -/

namespace CenDB.Cas

open CenDB.Index CenDB.Storage Words List Option

abbrev Bytes := List UInt8

/-! ### Hashes -/

/-- A digest of 32 bytes. -/
structure Hash where
  bytes : Bytes
  length_bytes : bytes.length = 32
deriving DecidableEq

namespace Hash

def hexDigit (n : UInt8) : UInt8 := if n < 10 then 48 + n else 87 + n

/-- Two lower-case digits for each byte, as ASCII. -/
def toHex (h : Hash) : Bytes := h.bytes.flatMap fun b : UInt8 => [hexDigit (b >>> 4), hexDigit (b &&& 15)]

def hexVal (c : UInt8) : Option UInt8 :=
  if 48 ≤ c ∧ c ≤ 57 then some (c - 48)
  else if 97 ≤ c ∧ c ≤ 102 then some (c - 97 + 10)
  else if 65 ≤ c ∧ c ≤ 70 then some (c - 65 + 10)
  else none

/-- The bytes of pairs of digits. -/
def hexBytes : Bytes → Option Bytes
  | hi :: lo :: rest =>
    (hexVal hi).bind fun hi => (hexVal lo).bind fun lo => (hexBytes rest).map fun bytes =>
      (hi <<< 4 ||| lo) :: bytes
  | _ => some []

theorem length_hexBytes {s bytes : Bytes} (h : hexBytes s = some bytes) : bytes.length = s.length / 2 := by
  fun_induction hexBytes s generalizing bytes with
  | case1 hi lo rest ih =>
    obtain ⟨hi', -, h⟩ := bind_eq_some_iff.mp h
    obtain ⟨lo', -, h⟩ := bind_eq_some_iff.mp h
    obtain ⟨more, hmore, rfl⟩ := map_eq_some_iff.mp h
    rw [length_cons, ih hmore, length_cons, length_cons]
    omega
  | case2 s hs =>
    rw [← Option.some.inj h]
    rcases s with - | ⟨c, - | ⟨d, s⟩⟩
    · rfl
    · simp
    · exact absurd rfl (hs c d s)

theorem hexVal_hexDigit {d : UInt8} (h : d < 16) : hexVal (hexDigit d) = some d := by
  have hall : ∀ n < 16, hexVal (hexDigit (UInt8.ofNat n)) = some (UInt8.ofNat n) := by decide
  have hd := hall d.toNat h
  rwa [UInt8.ofNat_toNat] at hd

/-- Both digits of a byte are read back. -/
theorem digits_join (b : UInt8) :
    hexVal (hexDigit (b >>> 4)) = some (b >>> 4) ∧ hexVal (hexDigit (b &&& 15)) = some (b &&& 15) ∧
      (b >>> 4) <<< 4 ||| (b &&& 15) = b := by
  have hb := b.toNat_lt
  have hhi : (b >>> 4).toNat = b.toNat / 2 ^ 4 := by
    rw [UInt8.toNat_shiftRight, Nat.shiftRight_eq_div_pow]
    rfl
  have hlo : (b &&& 15).toNat = b.toNat % 2 ^ 4 := by
    rw [UInt8.toNat_and]
    exact Nat.and_two_pow_sub_one_eq_mod b.toNat 4
  refine ⟨hexVal_hexDigit ?_, hexVal_hexDigit ?_, ?_⟩
  · rw [UInt8.lt_iff_toNat_lt, hhi]
    change _ < 16
    omega
  · rw [UInt8.lt_iff_toNat_lt, hlo]
    exact Nat.mod_lt _ (by decide)
  · apply UInt8.toNat_inj.mp
    have hshift : ((b >>> 4) <<< 4).toNat = 2 ^ 4 * (b.toNat / 2 ^ 4) := by
      rw [UInt8.toNat_shiftLeft, hhi, Nat.shiftLeft_eq]
      change b.toNat / 2 ^ 4 * 2 ^ 4 % 2 ^ 8 = _
      omega
    rw [UInt8.toNat_or, hshift, hlo, ← Nat.two_pow_add_eq_or_of_lt (Nat.mod_lt _ (by decide))]
    exact Nat.div_add_mod b.toNat (2 ^ 4)

theorem hexBytes_digits (bytes : Bytes) :
    hexBytes (bytes.flatMap fun b : UInt8 => [hexDigit (b >>> 4), hexDigit (b &&& 15)]) = some bytes := by
  induction bytes with
  | nil => rfl
  | cons b bytes ih =>
    obtain ⟨hhi, hlo, hjoin⟩ := digits_join b
    rw [flatMap_cons, cons_append, singleton_append, hexBytes, hhi, hlo, ih]
    simp [hjoin]

/-- Parse 64 digits; `none` stands for the error. -/
def fromHex (s : Bytes) : Option Hash :=
  if hlen : s.length ≠ 64 then none
  else
    match hbytes : hexBytes s with
    | none => none
    | some bytes => some ⟨bytes, by rw [length_hexBytes hbytes, not_not.mp hlen]⟩

theorem length_toHex (h : Hash) : h.toHex.length = 64 := by
  have htwo : ∀ b ∈ h.bytes, [hexDigit (b >>> 4), hexDigit (b &&& 15)].length = 2 := fun _ _ => rfl
  rw [toHex, length_flatMap htwo, h.length_bytes]

/-- **The name of a file is parsed back to its hash.** -/
theorem fromHex_toHex (h : Hash) : fromHex h.toHex = some h := by
  have hbytes : hexBytes h.toHex = some h.bytes := hexBytes_digits h.bytes
  unfold fromHex
  rw [dif_neg (not_not.mpr h.length_toHex)]
  split
  · rename_i hnone
    rw [hbytes] at hnone
    cases hnone
  · rename_i bytes hsome
    rw [hbytes, Option.some.injEq] at hsome
    obtain ⟨b, hb⟩ := h
    rw [Option.some.injEq, Hash.mk.injEq]
    exact hsome.symm

theorem toHex_injective {h h' : Hash} (heq : h.toHex = h'.toHex) : h = h' := by
  have hback := fromHex_toHex h
  rw [heq, fromHex_toHex, Option.some.injEq] at hback
  exact hback.symm

end Hash

/-! ### Metadata -/

/-- How a blob is stored. -/
inductive CompressionKind where
  | none
  | zstd
deriving DecidableEq

namespace CompressionKind

def toU8 : CompressionKind → UInt8
  | none => 0
  | zstd => 1

def fromU8 (b : UInt8) : CompressionKind := if b = 1 then zstd else none

@[simp] theorem fromU8_toU8 (c : CompressionKind) : fromU8 c.toU8 = c := by
  cases c <;> rfl

end CompressionKind

structure BlobMeta where
  hash : Hash
  size : UInt64
  storedSize : UInt64
  compression : CompressionKind
  refcount : UInt64
deriving DecidableEq

def serializeMeta (m : BlobMeta) : Bytes :=
  m.hash.bytes ++ (leU64 m.size ++ (leU64 m.storedSize ++ (m.compression.toU8 :: leU64 m.refcount)))

def deserializeMeta (bytes : Bytes) : Except Halt BlobMeta :=
  if hlen : bytes.length < 32 + 8 + 8 + 1 + 8 then .error (corrupt "blob meta too short")
  else
    .ok {
      hash := ⟨bytes.take 32, by rw [List.length_take]; omega⟩
      size := u64At bytes 32
      storedSize := u64At bytes 40
      compression := .fromU8 (bytes.getD 48 0)
      refcount := u64At bytes 49 }

theorem length_serializeMeta (m : BlobMeta) : (serializeMeta m).length = 57 := by
  simp [serializeMeta, m.hash.length_bytes]

/-- **Metadata are read back.** -/
theorem deserializeMeta_serializeMeta (m : BlobMeta) : deserializeMeta (serializeMeta m) = .ok m := by
  obtain ⟨⟨hash, hhash⟩, size, storedSize, compression, refcount⟩ := m
  have hlast (n : ℕ) : u64At (compression.toU8 :: leU64 refcount) (n + 1) = u64At (leU64 refcount) n := by
    have hright := u64At_right (a := [compression.toU8]) (b := leU64 refcount) (n := n + 1)
      (Nat.le_add_left 1 n)
    rwa [length_singleton, Nat.add_sub_cancel] at hright
  have hself := u64At_head refcount []
  rw [append_nil] at hself
  unfold deserializeMeta
  rw [dif_neg (by rw [length_serializeMeta]; decide), Except.ok.injEq, BlobMeta.mk.injEq]
  refine ⟨?_, ?_, ?_, ?_, ?_⟩
  · rw [Hash.mk.injEq]
    exact take_left' hhash
  · simp [serializeMeta, u64At_right, hhash]
  · simp [serializeMeta, u64At_right, hhash]
  · simp [serializeMeta, hhash]
  · simp [serializeMeta, u64At_right, hhash, hlast, hself]

/-! ### The store -/

/-- What the packages compute: BLAKE3, and the compressor and decompressor of zstd. -/
structure Packages where
  hash : Bytes → Hash
  encodeAll : Bytes → Bytes
  decodeAll : Bytes → Except Halt Bytes

/-- Extensions of the files in the directory of a store. -/
inductive Extension where
  | blobExt
  | metaExt
  | cdbExt
deriving DecidableEq

structure FileName where
  stem : Bytes
  extension : Extension
deriving DecidableEq

/-- `_index.cdb`. -/
def indexPath : FileName := ⟨"_index".toUTF8.toList, .cdbExt⟩

def blobPath (h : Hash) : FileName := ⟨h.toHex, .blobExt⟩

def metaPath (h : Hash) : FileName := ⟨h.toHex, .metaExt⟩

/-- A store, with the files of its directory. -/
structure BlobStore where
  files : Table FileName Bytes
  index : ArtTree BlobMeta
  defaultCompression : CompressionKind

/-- A blob as it is stored: compressed where that makes it smaller. -/
def pack (env : Packages) (compression : CompressionKind) (data : Bytes) : Bytes × CompressionKind :=
  match compression with
  | .none => (data, .none)
  | .zstd =>
    if (env.encodeAll data).length < data.length then (env.encodeAll data, .zstd)
    else (data, .none)

def unpack (env : Packages) (compression : CompressionKind) (stored : Bytes) : Except Halt Bytes :=
  match compression with
  | .none => .ok stored
  | .zstd => env.decodeAll stored

theorem unpack_pack {env : Packages} (hcodec : ∀ data, env.decodeAll (env.encodeAll data) = .ok data)
    (compression : CompressionKind) (data : Bytes) :
    unpack env (pack env compression data).2 (pack env compression data).1 = .ok data := by
  cases compression with
  | none => rfl
  | zstd =>
    unfold pack
    by_cases hsmaller : (env.encodeAll data).length < data.length
    · rw [if_pos hsmaller]
      exact hcodec data
    · rw [if_neg hsmaller]
      rfl

/-- `Hash` as it is displayed. -/
def Hash.display (h : Hash) : String := String.ofList (h.toHex.map fun c => Char.ofNat c.toNat)

def notFound (h : Hash) : Halt := .error ⟨.errNotFound, "blob " ++ h.display ++ " not found"⟩

def missingFile : Halt := .error ⟨.errIo, "No such file or directory (os error 2)"⟩

/-! ### The index file -/

/-- A record of the index file: a key and its metadata. -/
def record (x : Key × BlobMeta) : Bytes := x.1 ++ serializeMeta x.2

def recordSize : ℕ := 32 + 32 + 8 + 8 + 1 + 8

/-- The loop of `load_index`, on the bytes from the cursor on. -/
def loadIndex (index : ArtTree BlobMeta) (bytes : Bytes) : Except Halt (ArtTree BlobMeta) :=
  if _hfits : recordSize ≤ bytes.length then
    match deserializeMeta (slice bytes 32 recordSize) with
    | .error e => .error e
    | .ok blobMeta => loadIndex (index.insert (bytes.take 32) blobMeta).2 (bytes.drop recordSize)
  else .ok index
  termination_by bytes.length
  decreasing_by
    rw [List.length_drop]
    unfold recordSize at _hfits ⊢
    omega

theorem length_record {x : Key × BlobMeta} (h : x.1.length = 32) : (record x).length = recordSize := by
  rw [record, length_append, h, length_serializeMeta]
  rfl

/-- **A written index is read back**: loading it inserts its records in order. -/
theorem loadIndex_records {ops : List (Key × BlobMeta)} (hkeys : ∀ x ∈ ops, x.1.length = 32)
    (index : ArtTree BlobMeta) :
    loadIndex index (ops.flatMap record) = .ok (index.insertAll ops) := by
  induction ops generalizing index with
  | nil =>
    rw [flatMap_nil, loadIndex, dif_neg (by decide)]
    rfl
  | cons x ops ih =>
    have hx : x.1.length = 32 := hkeys x mem_cons_self
    have hrecord := length_record hx
    have hkey : (record x ++ ops.flatMap record).take 32 = x.1 := by
      rw [record, append_assoc]
      exact take_left' hx
    have hmeta : slice (record x ++ ops.flatMap record) 32 recordSize = serializeMeta x.2 := by
      rw [record, append_assoc]
      exact slice_middle hx (by rw [length_serializeMeta]; rfl)
    have hdrop : (record x ++ ops.flatMap record).drop recordSize = ops.flatMap record := drop_left' hrecord
    rw [flatMap_cons, loadIndex, dif_pos (by rw [length_append, hrecord]; omega), hmeta,
      deserializeMeta_serializeMeta]
    dsimp only
    rw [hkey, hdrop, ih fun y hy => hkeys y (mem_cons_of_mem x hy)]
    rfl

namespace BlobStore

/-- The content of the index file. -/
def indexBytes (index : ArtTree BlobMeta) : Bytes := index.iter.collect.flatMap record

def persistIndex (s : BlobStore) : BlobStore :=
  { s with files := AList.insert indexPath (indexBytes s.index) s.files }

/-! ### Opening -/

/-- The blob that an entry of the directory stands for, if it has readable metadata. -/
def blobEntry (files : Table FileName Bytes) (entry : FileName) : Option (Hash × BlobMeta) :=
  if entry.extension = .blobExt then
    (Hash.fromHex entry.stem).bind fun hash =>
      (files.lookup { entry with extension := .metaExt }).bind fun metaBytes =>
        (deserializeMeta metaBytes).toOption.map fun blobMeta => (hash, blobMeta)
  else none

/-- The index rebuilt from the entries of the directory. -/
def scanDir (files : Table FileName Bytes) (entries : List FileName) : ArtTree BlobMeta :=
  entries.foldl (fun index entry => match blobEntry files entry with
    | none => index
    | some (hash, blobMeta) => (index.insert hash.bytes blobMeta).2) .new

/-- Scanning a directory inserts the blobs it finds. -/
theorem scanDir_eq (files : Table FileName Bytes) (entries : List FileName) :
    scanDir files entries = (ArtTree.new).insertAll
      ((entries.filterMap (blobEntry files)).map fun x => (x.1.bytes, x.2)) := by
  unfold scanDir ArtTree.insertAll
  rw [foldl_map, foldl_filterMap]
  congr 1
  funext index entry
  cases blobEntry files entry <;> rfl

/-- The index of a directory: from the index file if it exists, else from the other files. -/
def scanExisting (files : Table FileName Bytes) (entries : List FileName) : Except Halt (ArtTree BlobMeta) :=
  match files.lookup indexPath with
  | some bytes => loadIndex .new bytes
  | none => .ok (scanDir files entries)

/-- `BlobStore::open` of a directory whose entries are listed in some order. -/
def openDir (files : Table FileName Bytes) (entries : List FileName) : Except Halt BlobStore :=
  (scanExisting files entries).map fun index => ⟨files, index, .zstd⟩

def withDefaultCompression (s : BlobStore) (c : CompressionKind) : BlobStore :=
  { s with defaultCompression := c }

/-! ### Calls -/

/-- Write the metadata of a hash to the index and the index to its file. -/
def setMeta (s : BlobStore) (hash : Hash) (blobMeta : BlobMeta) : BlobStore :=
  persistIndex { s with index := (s.index.insert hash.bytes blobMeta).2 }

/-- Store a blob: its hash and whether it is new. -/
def put (env : Packages) (s : BlobStore) (data : Bytes) : BlobStore × Hash × Bool :=
  let hash := env.hash data
  match s.index.get hash.bytes with
  | some existing =>
    (s.setMeta hash { existing with refcount := existing.refcount + 1 }, hash, false)
  | none =>
    let stored := pack env s.defaultCompression data
    let blobMeta : BlobMeta := ⟨hash, UInt64.ofNat data.length, UInt64.ofNat stored.1.length, stored.2, 1⟩
    let files := AList.insert (metaPath hash) (serializeMeta blobMeta)
      (AList.insert (blobPath hash) stored.1 s.files)
    (setMeta { s with files := files } hash blobMeta, hash, true)

def get (env : Packages) (s : BlobStore) (hash : Hash) : Except Halt Bytes :=
  match s.index.get hash.bytes with
  | none => .error (notFound hash)
  | some blobMeta =>
    match s.files.lookup (blobPath hash) with
    | none => .error missingFile
    | some stored => unpack env blobMeta.compression stored

/-- The metadata of a blob. -/
def blobMeta (s : BlobStore) (hash : Hash) : Option BlobMeta := s.index.get hash.bytes

/-- Drop a reference; `true` when that deletes the blob. -/
def release (s : BlobStore) (hash : Hash) : Except Halt (BlobStore × Bool) :=
  match s.index.get hash.bytes with
  | none => .error (notFound hash)
  | some blobMeta =>
    if blobMeta.refcount ≤ 1 then
      let files := AList.erase (metaPath hash) (AList.erase (blobPath hash) s.files)
      .ok (persistIndex { s with files := files, index := (s.index.remove hash.bytes).2 }, true)
    else .ok (s.setMeta hash { blobMeta with refcount := blobMeta.refcount - 1 }, false)

def retain (s : BlobStore) (hash : Hash) : Except Halt BlobStore :=
  match s.index.get hash.bytes with
  | none => .error (notFound hash)
  | some blobMeta => .ok (s.setMeta hash { blobMeta with refcount := blobMeta.refcount + 1 })

/-- Number of blobs in the store. -/
def len (s : BlobStore) : ℕ := s.index.len

end BlobStore

end CenDB.Cas
