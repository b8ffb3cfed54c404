import CenDB.Security.MerkleTree

/-! # Inclusion proofs

The proof for a block lists, from the leaves to the root, the digest next to the one above the block
and the side it is on.  At the end of a level with an odd number of digests that digest is the one
above the block itself, as in the build.  `none` is an index outside a level, which would panic. -/

namespace CenDB.Security

open Pairing List

structure MerkleProof where
  leafHash : Hash
  /-- From leaf to root: the sibling, and whether it is on the left. -/
  path : List (Hash × Bool)
  root : Hash
  deriving DecidableEq

namespace MerkleTree

/-- The siblings above the digest at `idx`, over the levels below the root. -/
def pathFrom : ℕ → List (List Hash) → Option (List (Hash × Bool))
  | _, [] => some []
  | idx, level :: rest =>
    let siblingIdx := if idx % 2 = 0 then idx + 1 else idx - 1
    (if siblingIdx < level.length then level[siblingIdx]? else level[idx]?).bind fun sibling =>
      (pathFrom (idx / 2) rest).map ((sibling, decide (idx % 2 = 1)) :: ·)

def proof (blockIndex : ℕ) (tree : MerkleTree) : Option (Option MerkleProof) :=
  match tree.leaves[blockIndex]? with
  | none => some none
  | some leafHash =>
    if tree.levels = [] then none
    else do
      let path ← pathFrom blockIndex tree.levels.dropLast
      return tree.root.map fun root => ⟨leafHash, path, root⟩

end MerkleTree

namespace MerkleProof

def climb (crypto : Crypto) (current : Hash) (path : List (Hash × Bool)) : Hash :=
  path.foldl (fun current (sibling, isLeftSibling) =>
    if isLeftSibling then hashPair crypto sibling current else hashPair crypto current sibling) current

def verify (crypto : Crypto) (blockData : List UInt8) (p : MerkleProof) : Bool :=
  if crypto.blake3 blockData ≠ p.leafHash then false
  else climb crypto p.leafHash p.path = p.root

end MerkleProof

open MerkleTree MerkleProof

theorem levelsFrom_ne_nil (crypto : Crypto) (n : ℕ) (level : List Hash) : levelsFrom crypto n level ≠ [] := by
  cases n with
  | zero => exact cons_ne_nil _ _
  | succ n =>
    rw [levelsFrom]
    split <;> exact cons_ne_nil _ _

variable {level : List Hash} {idx : ℕ} {current : Hash}

/-- One level: the sibling exists, and hashing with it gives the digest above. -/
theorem exists_sibling (crypto : Crypto) (h : level[idx]? = some current) {levels : List (List Hash)}
    {path : List (Hash × Bool)} (hpath : pathFrom (idx / 2) levels = some path) :
    ∃ sibling isLeft, pathFrom idx (level :: levels) = some ((sibling, isLeft) :: path) ∧
      (pairUp (hashPair crypto) level)[idx / 2]? =
        some (if isLeft then hashPair crypto sibling current else hashPair crypto current sibling) := by
  have hlt : idx < level.length := (List.getElem?_eq_some_iff.mp h).1
  rw [getElem?_pairUp, pathFrom, hpath]
  rcases Nat.mod_two_eq_zero_or_one idx with heven | hodd
  · have hidx : 2 * (idx / 2) = idx := by omega
    rw [hidx, h]
    by_cases hnext : idx + 1 < level.length
    · simp [hnext, heven]
    · have hend : level[idx + 1]? = none := getElem?_eq_none (not_lt.mp hnext)
      exact ⟨current, false, by simp [hnext, heven], by simp [hend]⟩
  · have hidx : 2 * (idx / 2) + 1 = idx := by omega
    have hprev : 2 * (idx / 2) = idx - 1 := by omega
    have hlt' : idx - 1 < level.length := by omega
    rw [hidx, hprev, h]
    exact ⟨level[idx - 1], true, by simp [hlt', hodd], by simp [hlt']⟩

/-- Climbing the siblings of any digest of a level ends at the root above the level. -/
theorem climb_pathFrom (crypto : Crypto) {n : ℕ} (hn : level.length ≤ n + 1) (h : level[idx]? = some current) :
    ∃ path, pathFrom idx (levelsFrom crypto n level).dropLast = some path ∧
      combine (hashPair crypto) n level = [climb crypto current path] := by
  have hlt : idx < level.length := (List.getElem?_eq_some_iff.mp h).1
  induction n generalizing level idx current with
  | zero =>
    obtain ⟨digest, rfl⟩ := length_eq_one_iff.mp (by omega : level.length = 1)
    obtain rfl : idx = 0 := by simpa using hlt
    obtain rfl : digest = current := by simpa using h
    exact ⟨[], rfl, rfl⟩
  | succ n ih =>
    rw [levelsFrom, combine]
    by_cases hlen : 1 < level.length
    · rw [if_pos hlen, if_pos hlen, dropLast_cons_of_ne_nil (levelsFrom_ne_nil _ _ _)]
      have hhalf := length_pairUp (hashPair crypto) level
      have habove : idx / 2 < (pairUp (hashPair crypto) level).length := by omega
      obtain ⟨path, hpath, hroot⟩ := ih (by omega) (getElem?_eq_getElem habove) habove
      obtain ⟨sibling, isLeft, hcons, hdigest⟩ := exists_sibling crypto h hpath
      refine ⟨(sibling, isLeft) :: path, hcons, ?_⟩
      rw [getElem?_eq_getElem habove, Option.some_inj] at hdigest
      rw [hroot, hdigest]
      rfl
    · rw [if_neg hlen, if_neg hlen]
      obtain ⟨digest, rfl⟩ := length_eq_one_iff.mp (by omega : level.length = 1)
      obtain rfl : idx = 0 := by simpa using hlt
      obtain rfl : digest = current := by simpa using h
      exact ⟨[], rfl, rfl⟩

/-- **Every inclusion proof verifies**: each block of a list has a proof, whose root is that of the
tree built from the list and which accepts the block. -/
theorem proof_verifies (crypto : Crypto) (blocks : List (List UInt8)) (i : Fin blocks.length) :
    ∃ p : MerkleProof, (build crypto blocks).proof i = some (some p) ∧
      (build crypto blocks).root = some p.root ∧ p.verify crypto blocks[i] = true := by
  have hne : blocks ≠ [] := ne_nil_of_length_pos (Nat.zero_lt_of_lt i.isLt)
  have hleaf : (blocks.map crypto.blake3)[(i : ℕ)]? = some (crypto.blake3 blocks[i]) := by
    simp
  obtain ⟨path, hpath, hroot⟩ := climb_pathFrom crypto (Nat.le_succ _) hleaf
  have hbuilt : (build crypto blocks).root = some (climb crypto (crypto.blake3 blocks[i]) path) := by
    rw [MerkleTree.root, build, if_neg hne, getLast?_levelsFrom, hroot]
    rfl
  refine ⟨⟨crypto.blake3 blocks[i], path, climb crypto (crypto.blake3 blocks[i]) path⟩, ?_, hbuilt, ?_⟩
  · have hlevels : (build crypto blocks).levels ≠ [] := by
      rw [build, if_neg hne]
      exact levelsFrom_ne_nil _ _ _
    have hleaves : (build crypto blocks).leaves[(i : ℕ)]? = some (crypto.blake3 blocks[i]) := by
      rw [build, if_neg hne]
      exact hleaf
    have hsiblings : pathFrom i (build crypto blocks).levels.dropLast = some path := by
      rw [build, if_neg hne]
      exact hpath
    rw [proof, hleaves]
    simp only [if_neg hlevels, hsiblings, hbuilt]
    rfl
  · simp [verify]

end CenDB.Security
