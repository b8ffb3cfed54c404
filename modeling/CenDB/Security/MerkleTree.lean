import CenDB.Lib.Pairing
import CenDB.Security.Auth

/-! # The Merkle tree over data blocks

The digests of a level are hashed in pairs; on a level with an odd number of digests the last one is
paired with itself, so a list of blocks has the root of the longer list in which the blocks below
that digest are repeated (`padded`).

The same rounds are carried out on digests, on trees of blocks and on lists of blocks. -/

namespace CenDB.Security

open Pairing

abbrev Hash := Vector UInt8 32

def hashPair (crypto : Crypto) (left right : Hash) : Hash := crypto.blake3 (left.toList ++ right.toList)

structure MerkleTree where
  leaves : List Hash
  /-- From the leaves to the root. -/
  levels : List (List Hash)
  deriving DecidableEq

namespace MerkleTree

/-- The levels from `current` on; every round halves the level. -/
def levelsFrom (crypto : Crypto) : ℕ → List Hash → List (List Hash)
  | 0, current => [current]
  | n + 1, current =>
    if 1 < current.length then current :: levelsFrom crypto n (pairUp (hashPair crypto) current)
    else [current]

def build (crypto : Crypto) (blocks : List (List UInt8)) : MerkleTree :=
  if blocks = [] then ⟨[], [[]]⟩
  else
    let leaves := blocks.map crypto.blake3
    ⟨leaves, levelsFrom crypto leaves.length leaves⟩

def root (tree : MerkleTree) : Option Hash := tree.levels.getLast?.bind List.head?

end MerkleTree

open MerkleTree

/-- What is hashed for a digest of the tree of some blocks, the leaves apart. -/
def nodeBytes (crypto : Crypto) (blocks : List (List UInt8)) : List (List UInt8) :=
  ((build crypto blocks).levels.filter (1 < ·.length)).flatMap
    (pairUp fun left right => left.toList ++ right.toList)

/-- The blocks, with the last ones repeated wherever a level has an odd number of digests. -/
def padded (blocks : List (List UInt8)) : List (List UInt8) :=
  (combine (· ++ ·) blocks.length (blocks.map fun block => [block])).flatten

/-- What is hashed for the root of a tree of blocks, and its digest. -/
def treeHash (crypto : Crypto) : PairTree (List UInt8) → Hash
  | .leaf block => crypto.blake3 block
  | .node l r => hashPair crypto (treeHash crypto l) (treeHash crypto r)

def treeInput (crypto : Crypto) : PairTree (List UInt8) → List UInt8
  | .leaf block => block
  | .node l r => (treeHash crypto l).toList ++ (treeHash crypto r).toList

/-- The tree of some blocks. -/
def blockTree (blocks : List (List UInt8)) : List (PairTree (List UInt8)) :=
  combine .node blocks.length (blocks.map .leaf)

/-! ### The rounds on digests, trees and lists -/

theorem getLast?_levelsFrom (crypto : Crypto) (n : ℕ) (level : List Hash) :
    (levelsFrom crypto n level).getLast? = some (combine (hashPair crypto) n level) := by
  induction n generalizing level with
  | zero => rfl
  | succ n ih =>
    rw [levelsFrom, combine]
    split
    · rw [List.getLast?_cons, ih]
      rfl
    · rfl

/-- The root is the digest of the tree of the blocks. -/
theorem root_build (crypto : Crypto) (blocks : List (List UInt8)) :
    (build crypto blocks).root = (blockTree blocks).head?.map (treeHash crypto) := by
  unfold build
  split
  case isTrue h => subst h; rfl
  case isFalse h =>
    have hmap : blocks.map crypto.blake3 = (blocks.map PairTree.leaf).map (treeHash crypto) := by
      rw [List.map_map]
      rfl
    have hrounds := combine_map PairTree.node (hashPair crypto) (treeHash crypto) (fun _ _ => rfl)
      blocks.length (blocks.map PairTree.leaf)
    rw [root, getLast?_levelsFrom, List.length_map, hmap, hrounds, Option.bind_some, List.head?_map]
    rfl

theorem padded_eq (blocks : List (List UInt8)) :
    padded blocks = ((blockTree blocks).map PairTree.leaves).flatten := by
  have hmap : (blocks.map fun block => [block]) = (blocks.map PairTree.leaf).map PairTree.leaves := by
    rw [List.map_map]
    rfl
  rw [padded, hmap, combine_map PairTree.node (· ++ ·) PairTree.leaves (fun _ _ => rfl)]
  rfl

/-- The padding is behind the blocks. -/
theorem prefix_padded (blocks : List (List UInt8)) : blocks <+: padded blocks := by
  have h := flatten_combine blocks.length (blocks.map fun block => [block])
  rwa [← List.flatMap_def, List.flatMap_singleton'] at h

variable {blocks : List (List UInt8)}

/-- The tree of at least one block. -/
theorem exists_blockTree (h : blocks ≠ []) : ∃ t d, blockTree blocks = [t] ∧ t.Perfect d := by
  have hne : blocks.map PairTree.leaf ≠ [] := by simpa using h
  obtain ⟨t, ht⟩ := combine_eq_singleton PairTree.node hne (n := blocks.length) (by simp)
  have hleaves : ∀ t ∈ blocks.map PairTree.leaf, t.Perfect 0 := by
    intro t ht
    obtain ⟨block, -, rfl⟩ := List.mem_map.mp ht
    trivial
  obtain ⟨d, hd⟩ := perfect_combine blocks.length hleaves
  exact ⟨t, d, ht, hd t (by rw [ht]; exact List.mem_cons_self)⟩

theorem padded_eq_nil : padded blocks = [] ↔ blocks = [] := by
  constructor
  · intro h
    exact List.prefix_nil.mp (h ▸ prefix_padded blocks)
  · rintro rfl
    rfl

/-- Blocks with the same padded list have the same tree. -/
theorem blockTree_eq_iff {xs ys : List (List UInt8)} : blockTree xs = blockTree ys ↔ padded xs = padded ys := by
  refine ⟨fun h => by rw [padded_eq, padded_eq, h], fun h => ?_⟩
  by_cases hx : xs = []
  · rw [hx, padded_eq_nil.mpr rfl, eq_comm, padded_eq_nil] at h
    rw [hx, h]
  · have hy : ys ≠ [] := by
      rintro rfl
      rw [padded_eq_nil.mpr rfl, padded_eq_nil] at h
      exact hx h
    obtain ⟨t, d, ht, htd⟩ := exists_blockTree hx
    obtain ⟨u, e, hu, hue⟩ := exists_blockTree hy
    rw [padded_eq, padded_eq, ht, hu] at h
    simp only [List.map_cons, List.map_nil, List.flatten_cons, List.flatten_nil, List.append_nil] at h
    rw [ht, hu, htd.eq_of_leaves hue h]

/-! ### Digests without collisions -/

/-- What is hashed in a tree: the blocks are in `B`, the joined digests in `N`. -/
def HashedIn (crypto : Crypto) (B N : Set (List UInt8)) : PairTree (List UInt8) → Prop
  | .leaf block => block ∈ B
  | .node l r => treeInput crypto (.node l r) ∈ N ∧ HashedIn crypto B N l ∧ HashedIn crypto B N r

section binding
variable {crypto : Crypto} {B N : Set (List UInt8)}

/-- Trees with the same digest are the same. -/
theorem treeHash_inj (hinj : Set.InjOn crypto.blake3 (B ∪ N))
    (hsep : ∀ block ∈ B, ∀ bytes ∈ N, crypto.blake3 block ≠ crypto.blake3 bytes)
    {t u : PairTree (List UInt8)} (ht : HashedIn crypto B N t) (hu : HashedIn crypto B N u)
    (h : treeHash crypto t = treeHash crypto u) : t = u := by
  induction t generalizing u with
  | leaf block =>
    cases u with
    | leaf block' => rw [hinj (Or.inl ht) (Or.inl hu) h]
    | node l r => exact absurd h (hsep block ht _ hu.1)
  | node l r ihl ihr =>
    cases u with
    | leaf block => exact absurd h.symm (hsep block hu _ ht.1)
    | node l' r' =>
      have hbytes := hinj (Or.inr ht.1) (Or.inr hu.1) h
      obtain ⟨hl, hr⟩ := List.append_inj hbytes (by simp only [Vector.length_toList])
      rw [ihl ht.2.1 hu.2.1 (Vector.toList_inj.mp hl), ihr ht.2.2 hu.2.2 (Vector.toList_inj.mp hr)]

/-- The rounds hash what is on their levels. -/
theorem hashedIn_combine {n : ℕ} {ts : List (PairTree (List UInt8))} (hts : ∀ t ∈ ts, HashedIn crypto B N t)
    (hN : ∀ level ∈ levelsFrom crypto n (ts.map (treeHash crypto)), 1 < level.length →
      ∀ bytes ∈ pairUp (fun left right : Hash => left.toList ++ right.toList) level, bytes ∈ N) :
    ∀ t ∈ combine .node n ts, HashedIn crypto B N t := by
  induction n generalizing ts with
  | zero => exact hts
  | succ n ih =>
    rw [combine]
    by_cases hlen : 1 < ts.length
    · rw [levelsFrom, List.length_map, if_pos hlen, List.forall_mem_cons] at hN
      rw [if_pos hlen]
      have hinputs : pairUp (fun left right : Hash => left.toList ++ right.toList)
          (ts.map (treeHash crypto)) = (pairUp .node ts).map (treeInput crypto) := by
        rw [pairUp_map, map_pairUp]
        rfl
      refine ih (fun t ht => ?_) ?_
      · obtain ⟨a, ha, b, hb, rfl⟩ := mem_pairUp ht
        refine ⟨hN.1 (by rw [List.length_map]; exact hlen) _ ?_, hts a ha, hts b hb⟩
        rw [hinputs]
        exact List.mem_map_of_mem ht
      · have hnext : (pairUp PairTree.node ts).map (treeHash crypto) =
            pairUp (hashPair crypto) (ts.map (treeHash crypto)) := by
          rw [pairUp_map, map_pairUp]
          rfl
        rw [hnext]
        exact hN.2
    · rw [if_neg hlen]
      exact hts

end binding

theorem hashedIn_blockTree {crypto : Crypto} {B N : Set (List UInt8)} (hB : ∀ block ∈ blocks, block ∈ B)
    (hN : ∀ bytes ∈ nodeBytes crypto blocks, bytes ∈ N) :
    ∀ t ∈ blockTree blocks, HashedIn crypto B N t := by
  by_cases hne : blocks = []
  · rw [hne]
    exact nofun
  · refine hashedIn_combine (fun t ht => ?_) fun level hlevel hlen bytes hbytes => ?_
    · obtain ⟨block, hblock, rfl⟩ := List.mem_map.mp ht
      exact hB block hblock
    · refine hN bytes (List.mem_flatMap.mpr ⟨level, List.mem_filter.mpr ⟨?_, decide_eq_true hlen⟩, hbytes⟩)
      rw [List.map_map] at hlevel
      rw [build, if_neg hne]
      simp only [List.length_map]
      exact hlevel

/-- **The Merkle root binds the padded list** of blocks: two lists of blocks have the same root
exactly if padding makes them the same.  Then one of them starts with the other, and they are the
same if they are equally long. -/
theorem root_eq_iff {crypto : Crypto} {xs ys : List (List UInt8)} (hinj : Set.InjOn crypto.blake3
      ({block | block ∈ xs ++ ys} ∪ {bytes | bytes ∈ nodeBytes crypto xs ++ nodeBytes crypto ys}))
    (hsep : ∀ block ∈ xs ++ ys, ∀ bytes ∈ nodeBytes crypto xs ++ nodeBytes crypto ys,
      crypto.blake3 block ≠ crypto.blake3 bytes) :
    ((build crypto xs).root = (build crypto ys).root ↔ padded xs = padded ys) ∧
      ((build crypto xs).root = (build crypto ys).root →
        (xs <+: ys ∨ ys <+: xs) ∧ (xs.length = ys.length → xs = ys)) := by
  have hbinds : (build crypto xs).root = (build crypto ys).root ↔ padded xs = padded ys := by
    rw [← blockTree_eq_iff, root_build, root_build]
    refine ⟨fun h => ?_, fun h => by rw [h]⟩
    have hxs := hashedIn_blockTree (B := {block | block ∈ xs ++ ys})
      (N := {bytes | bytes ∈ nodeBytes crypto xs ++ nodeBytes crypto ys})
      (fun block => List.mem_append_left ys) fun bytes => List.mem_append_left _
    have hys := hashedIn_blockTree (B := {block | block ∈ xs ++ ys})
      (N := {bytes | bytes ∈ nodeBytes crypto xs ++ nodeBytes crypto ys})
      (fun block => List.mem_append_right xs) fun bytes => List.mem_append_right _
    by_cases hx : xs = []
    · by_cases hy : ys = []
      · rw [hx, hy]
      · obtain ⟨u, e, hu, -⟩ := exists_blockTree hy
        rw [hx, hu] at h
        cases h
    · obtain ⟨t, d, ht, -⟩ := exists_blockTree hx
      by_cases hy : ys = []
      · rw [hy, ht] at h
        cases h
      · obtain ⟨u, e, hu, -⟩ := exists_blockTree hy
        rw [ht, hu] at h ⊢
        rw [treeHash_inj hinj hsep (hxs t (by rw [ht]; exact List.mem_cons_self))
          (hys u (by rw [hu]; exact List.mem_cons_self)) (Option.some_inj.mp h)]
  refine ⟨hbinds, fun h => ?_⟩
  have hpad := hbinds.mp h
  have hstarts : xs <+: ys ∨ ys <+: xs :=
    List.prefix_or_prefix_of_prefix (prefix_padded xs) (hpad ▸ prefix_padded ys)
  refine ⟨hstarts, fun hlen => ?_⟩
  cases hstarts with
  | inl hp => exact hp.eq_of_length hlen
  | inr hp => exact (hp.eq_of_length hlen.symm).symm

/-! ### A repeated last block -/

/-- BLAKE3 of the letters a, b, c and of the digests joined above them, by the first byte. -/
def letterCrypto : Crypto where
  argon2 _ _ := none
  blake3 data :=
    (List.lookup (data.headD 0) [
      (97, #v[23, 118, 47, 221, 217, 105, 164, 83, 146, 93, 101, 113, 122, 195, 238, 162, 19, 32,
          182, 107, 84, 52, 47, 222, 21, 18, 141, 108, 175, 33, 33, 95]),
      (98, #v[16, 229, 207, 61, 60, 138, 79, 159, 52, 104, 200, 204, 88, 238, 168, 72, 146, 162, 47,
          218, 219, 193, 172, 178, 36, 16, 25, 0, 68, 193, 213, 83]),
      (99, #v[234, 122, 161, 252, 158, 253, 190, 16, 109, 187, 112, 54, 154, 117, 233, 103, 31, 162,
          157, 82, 189, 85, 83, 103, 17, 191, 25, 116, 119, 184, 240, 33]),
      (23, #v[137, 18, 241, 228, 157, 108, 148, 131, 7, 135, 188, 135, 101, 233, 47, 64, 157, 109,
          185, 4, 23, 57, 136, 74, 66, 229, 159, 22, 56, 135, 86, 177]),
      (234, #v[131, 118, 62, 182, 179, 249, 113, 136, 80, 230, 178, 58, 191, 244, 210, 136, 108, 247,
          11, 73, 126, 7, 97, 147, 238, 163, 88, 28, 27, 19, 79, 85]),
      (137, #v[36, 138, 248, 188, 200, 222, 18, 78, 166, 241, 54, 226, 49, 140, 112, 221, 20, 41, 243,
          237, 225, 228, 179, 115, 108, 253, 159, 194, 160, 133, 225, 199])]).getD (Vector.replicate 32 0)

def letters : List (List UInt8) := [[97], [98], [99]]

/-- Three letters and the list that they are padded to. -/
theorem repeated_block_same_root : letters ≠ letters ++ [[99]] ∧
      (build letterCrypto letters).root = (build letterCrypto (letters ++ [[99]])).root ∧
      Set.InjOn letterCrypto.blake3 ({block | block ∈ letters ++ (letters ++ [[99]])} ∪
        {bytes | bytes ∈ nodeBytes letterCrypto letters ++ nodeBytes letterCrypto (letters ++ [[99]])}) ∧
      ∀ block ∈ letters ++ (letters ++ [[99]]),
        ∀ bytes ∈ nodeBytes letterCrypto letters ++ nodeBytes letterCrypto (letters ++ [[99]]),
          letterCrypto.blake3 block ≠ letterCrypto.blake3 bytes := by
  refine ⟨by decide, by decide, ?_, by decide⟩
  have hinj : ∀ a ∈ letters ++ (letters ++ [[99]]) ++
        (nodeBytes letterCrypto letters ++ nodeBytes letterCrypto (letters ++ [[99]])),
      ∀ b ∈ letters ++ (letters ++ [[99]]) ++
        (nodeBytes letterCrypto letters ++ nodeBytes letterCrypto (letters ++ [[99]])),
      letterCrypto.blake3 a = letterCrypto.blake3 b → a = b := by decide
  exact fun a ha b hb => hinj a (List.mem_append.mpr ha) b (List.mem_append.mpr hb)

theorem root_eq_iff_letters : ((build letterCrypto letters).root = (build letterCrypto [[99]]).root ↔
        padded letters = padded [[99]]) ∧
      ((build letterCrypto letters).root = (build letterCrypto [[99]]).root →
        (letters <+: [[99]] ∨ [[99]] <+: letters) ∧ (letters.length = [[99]].length → letters = [[99]])) := by
  have hinj : ∀ a ∈ letters ++ [[99]] ++ (nodeBytes letterCrypto letters ++ nodeBytes letterCrypto [[99]]),
      ∀ b ∈ letters ++ [[99]] ++ (nodeBytes letterCrypto letters ++ nodeBytes letterCrypto [[99]]),
      letterCrypto.blake3 a = letterCrypto.blake3 b → a = b := by decide
  refine root_eq_iff (fun a ha b hb => ?_) (by decide)
  exact hinj a (List.mem_append.mpr ha) b (List.mem_append.mpr hb)

end CenDB.Security
