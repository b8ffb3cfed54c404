import CenDB.Lib.ByteMap

/-! # The children of an adaptive radix tree node

An interior node keeps its children in one of four layouts; `insertChild` grows and
`removeChild` shrinks the layout.  Every operation is specified by what `findChild` sees:
inserting updates the map from bytes to children at one byte, removing clears it there, and
`iterChildren` lists the map in byte order. -/

namespace CenDB.Index

open ByteMap List

/-- The four layouts.  A `node48` maps a byte to its child's slot plus one, 0 for none. -/
inductive Layout (α : Type) where
  | node4 (keys : List UInt8) (children : List α)
  | node16 (keys : List UInt8) (children : List α)
  | node48 (index : UInt8 → UInt8) (children : List (Option α)) (count : ℕ)
  | node256 (children : List (Option α)) (count : ℕ)

namespace Layout

variable {α : Type}

/-- The number of children. -/
def childCount : Layout α → ℕ
  | node4 keys _ | node16 keys _ => keys.length
  | node48 _ _ count | node256 _ count => count

/-- The child of a `node4` or `node16`: a linear scan of the keys. -/
def scanChild (keys : List UInt8) (children : List α) (byte : UInt8) : Option α :=
  (keys.findIdx? fun k => k = byte).bind fun i => children[i]?

/-- The child of a `node48`. -/
def slotChild (index : UInt8 → UInt8) (children : List (Option α)) (byte : UInt8) : Option α :=
  if index byte = 0 then none else (children[(index byte).toNat - 1]?).join

/-- The child of a `node256`. -/
def directChild (children : List (Option α)) (byte : UInt8) : Option α := (children[byte.toNat]?).join

/-- Find a child by byte. -/
def findChild (byte : UInt8) : Layout α → Option α
  | node4 keys children | node16 keys children => scanChild keys children byte
  | node48 index children _ => slotChild index children byte
  | node256 children _ => directChild children byte

/-! ### Insertion -/

/-- The place of a byte among sorted keys: the first larger key. -/
def position (byte : UInt8) (keys : List UInt8) : ℕ := keys.findIdx fun k => byte < k

/-- A `node48` with the children in the given order. -/
def packed48 (keys : List UInt8) (children : List α) : (UInt8 → UInt8) × List (Option α) :=
  (keys.zipIdx.foldl (fun index k => Function.update index k.1 (UInt8.ofNat (k.2 + 1))) fun _ => 0, children.map some)

def insertChild256 (byte : UInt8) (child : α) (children : List (Option α)) (count : ℕ) : Layout α :=
  node256 (children.set byte.toNat (some child)) (if (directChild children byte).isNone then count + 1 else count)

def insertChild48 (byte : UInt8) (child : α) (index : UInt8 → UInt8) (children : List (Option α))
    (count : ℕ) : Layout α :=
  if count < 48 then
    -- the first free slot, or a new one
    let slot := children.findIdx Option.isNone
    let children := if children.length ≤ slot then children ++ [some child] else children.set slot (some child)
    node48 (Function.update index byte (UInt8.ofNat (slot + 1))) children (count + 1)
  else insertChild256 byte child (bytes.map (slotChild index children)) count

def insertChild16 (byte : UInt8) (child : α) (keys : List UInt8) (children : List α) : Layout α :=
  if keys.length < 16 then
    let pos := position byte keys
    node16 (keys.insertIdx pos byte) (children.insertIdx pos child)
  else
    let (index, slots) := packed48 keys children
    insertChild48 byte child index slots keys.length

def insertChild4 (byte : UInt8) (child : α) (keys : List UInt8) (children : List α) : Layout α :=
  if keys.length < 4 then
    let pos := position byte keys
    node4 (keys.insertIdx pos byte) (children.insertIdx pos child)
  else insertChild16 byte child keys children

/-- Insert a child at the given byte; grows the node if needed. -/
def insertChild (byte : UInt8) (child : α) : Layout α → Layout α
  | node4 keys children => insertChild4 byte child keys children
  | node16 keys children => insertChild16 byte child keys children
  | node48 index children count => insertChild48 byte child index children count
  | node256 children count => insertChild256 byte child children count

/-! ### Removal and iteration -/

def removeChild4 (byte : UInt8) (keys : List UInt8) (children : List α) : Option α × Layout α :=
  match keys.findIdx? fun k => k = byte with
  | none => (none, node4 keys children)
  | some pos => (children[pos]?, node4 (keys.eraseIdx pos) (children.eraseIdx pos))

def removeChild16 (byte : UInt8) (keys : List UInt8) (children : List α) : Option α × Layout α :=
  match keys.findIdx? fun k => k = byte with
  | none => (none, node16 keys children)
  | some pos =>
    if (keys.eraseIdx pos).length ≤ 1 then
      (children[pos]?, node4 (keys.eraseIdx pos) (children.eraseIdx pos))
    else (children[pos]?, node16 (keys.eraseIdx pos) (children.eraseIdx pos))

def removeChild48 (byte : UInt8) (index : UInt8 → UInt8) (children : List (Option α))
    (count : ℕ) : Option α × Layout α :=
  if index byte = 0 then (none, node48 index children count)
  else
    let slot := (index byte).toNat - 1
    let child := (children[slot]?).join
    let children := children.set slot none
    let index := Function.update index byte 0
    if count - 1 ≤ 16 then
      let entries := graph (slotChild index children)
      (child, node16 (entries.map Prod.fst) (entries.map Prod.snd))
    else (child, node48 index children (count - 1))

def removeChild256 (byte : UInt8) (children : List (Option α)) (count : ℕ) : Option α × Layout α :=
  if (directChild children byte).isNone then (none, node256 children count)
  else
    let child := directChild children byte
    let children := children.set byte.toNat none
    if count - 1 ≤ 48 then
      let entries := graph (directChild children)
      let (index, slots) := packed48 (entries.map Prod.fst) (entries.map Prod.snd)
      (child, node48 index slots (count - 1))
    else (child, node256 children (count - 1))

/-- Remove a child by byte: the removed child and the (possibly shrunk) node. -/
def removeChild (byte : UInt8) : Layout α → Option α × Layout α
  | node4 keys children => removeChild4 byte keys children
  | node16 keys children => removeChild16 byte keys children
  | node48 index children count => removeChild48 byte index children count
  | node256 children count => removeChild256 byte children count

/-- The (byte, child) pairs in sorted order. -/
def iterChildren : Layout α → List (UInt8 × α)
  | node4 keys children | node16 keys children => keys.zip children
  | node48 index children _ => graph (slotChild index children)
  | node256 children _ => graph (directChild children)

/-! ### Valid layouts -/

/-- Sorted keys, one child for each. -/
structure Sorted (cap : ℕ) (keys : List UInt8) (children : List α) : Prop where
  sorted : keys.Pairwise (· < ·)
  length : children.length = keys.length
  cap : keys.length ≤ cap

/-- The used slots and the bytes with a slot correspond one to one. -/
structure Slotted (index : UInt8 → UInt8) (children : List (Option α)) : Prop where
  used : ∀ b, index b ≠ 0 → ∃ c, children[(index b).toNat - 1]? = some (some c)
  distinct : ∀ b b', index b ≠ 0 → index b = index b' → b = b'
  indexed : ∀ i c, children[i]? = some (some c) → ∃ b, (index b).toNat = i + 1
  cap : children.length ≤ 48

/-- What every reachable layout satisfies. -/
def Valid : Layout α → Prop
  | node4 keys children => Sorted 4 keys children
  | node16 keys children => Sorted 16 keys children
  | node48 index children count =>
    Slotted index children ∧ count = size (slotChild index children)
  | node256 children count => children.length = 256 ∧ count = size (directChild children)

/-! ### The sorted layouts -/

theorem zip_insertIdx (keys : List UInt8) (children : List α) (i : ℕ) (byte : UInt8) (child : α)
    (h : children.length = keys.length) :
    (keys.insertIdx i byte).zip (children.insertIdx i child) = (keys.zip children).insertIdx i (byte, child) := by
  induction i generalizing keys children with
  | zero => simp
  | succ i ih =>
    match keys, children, h with
    | [], [], _ => simp
    | k :: ks, c :: cs, h =>
      rw [insertIdx_succ_cons, insertIdx_succ_cons, zip_cons_cons,
        zip_cons_cons, insertIdx_succ_cons, ih ks cs (Nat.succ.inj h)]

theorem zip_eraseIdx (keys : List UInt8) (children : List α) (i : ℕ) :
    (keys.eraseIdx i).zip (children.eraseIdx i) = (keys.zip children).eraseIdx i := by
  induction i generalizing keys children with
  | zero => cases keys <;> cases children <;> simp
  | succ i ih => cases keys <;> cases children <;> simp [ih]

/-- Inserting before the first larger byte keeps the order. -/
theorem ascending_insertIdx {l : List (UInt8 × α)} (hl : Ascending l) {byte : UInt8}
    (hb : ∀ x ∈ l, x.1 ≠ byte) (child : α) :
    Ascending (l.insertIdx (position byte (l.map Prod.fst)) (byte, child)) := by
  unfold position
  induction l with
  | nil => simp [Ascending]
  | cons x l ih =>
    obtain ⟨hx, hrest⟩ := pairwise_cons.mp hl
    rw [map_cons, findIdx_cons]
    cases hlt : decide (byte < x.1) with
    | true =>
      rw [cond_true, insertIdx_zero]
      refine pairwise_cons.mpr ⟨?_, hl⟩
      intro y hy
      cases mem_cons.mp hy with
      | inl hyx => rw [hyx]; exact of_decide_eq_true hlt
      | inr hyl => exact UInt8.lt_trans (of_decide_eq_true hlt) (hx y hyl)
    | false =>
      rw [cond_false, insertIdx_succ_cons]
      refine pairwise_cons.mpr ⟨?_, ih hrest fun y hy => hb y (mem_cons_of_mem x hy)⟩
      intro y hy
      have hxb : x.1 < byte := by
        have hne := hb x mem_cons_self
        have hge := of_decide_eq_false hlt
        rw [UInt8.lt_iff_toNat_lt] at hge ⊢
        have hne' : x.1.toNat ≠ byte.toNat := fun h => hne (UInt8.toNat_inj.mp h)
        omega
      cases eq_or_mem_of_mem_insertIdx hy with
      | inl hyb => rw [hyb]; exact hxb
      | inr hyl => exact hx y hyl

variable {keys : List UInt8} {children : List α} {l : Layout α} {count : ℕ}

theorem scanChild_eq_some (hkeys : keys.Nodup) (hlen : children.length = keys.length) {byte : UInt8} {c : α} :
    scanChild keys children byte = some c ↔ (byte, c) ∈ keys.zip children := by
  unfold scanChild
  induction keys generalizing children with
  | nil => simp
  | cons k ks ih =>
    match children, hlen with
    | c' :: cs, hlen =>
      obtain ⟨hk, hks⟩ := nodup_cons.mp hkeys
      rw [findIdx?_cons, zip_cons_cons, mem_cons, Prod.mk.injEq]
      by_cases hkb : k = byte
      · have hnot : (byte, c) ∉ ks.zip cs := fun h => hk (hkb ▸ (of_mem_zip h).1)
        simp [hkb, hnot, eq_comm]
      · have hbk : ¬ byte = k := fun h => hkb h.symm
        simp only [hkb, decide_false, Bool.false_eq_true, if_false, Option.bind_map,
          Function.comp_def, getElem?_cons_succ, hbk, false_and, false_or]
        exact ih hks (Nat.succ.inj hlen)

theorem map_fst_zip (h : children.length = keys.length) :
    (keys.zip children).map Prod.fst = keys := List.map_fst_zip h.ge

section sorted

variable {cap : ℕ} {keys : List UInt8} {children : List α} {byte : UInt8}

theorem Sorted.ascending (h : Sorted cap keys children) : Ascending (keys.zip children) := by
  have hkeys := h.sorted
  rwa [← map_fst_zip h.length, pairwise_map] at hkeys

theorem Sorted.of_ascending (h : Ascending (keys.zip children))
    (hlen : children.length = keys.length) (hcap : keys.length ≤ cap) :
    Sorted cap keys children := by
  refine ⟨?_, hlen, hcap⟩
  rw [← map_fst_zip hlen, pairwise_map]
  exact h

section

variable (h : Sorted cap keys children)
include h

theorem Sorted.nodup : keys.Nodup := h.sorted.imp fun hlt => UInt8.ne_of_lt hlt

theorem Sorted.scanChild_eq_some {c : α} : scanChild keys children byte = some c ↔ (byte, c) ∈ keys.zip children :=
  Layout.scanChild_eq_some h.nodup h.length

theorem Sorted.scanChild_eq {f : UInt8 → Option α}
    (hf : ∀ b c, (b, c) ∈ keys.zip children ↔ f b = some c) : scanChild keys children = f := by
  funext b
  apply Option.ext
  intro c
  rw [h.scanChild_eq_some, hf b c]

theorem Sorted.zip_eq : keys.zip children = graph (scanChild keys children) :=
  eq_graph h.ascending fun _ _ => h.scanChild_eq_some.symm

theorem Sorted.length_eq : keys.length = size (scanChild keys children) := by
  unfold size
  rw [← h.zip_eq, length_zip, h.length, min_self]

theorem Sorted.insert (hcap : keys.length < cap) (hbyte : scanChild keys children byte = none) (child : α) :
    Sorted cap (keys.insertIdx (position byte keys) byte) (children.insertIdx (position byte keys) child) ∧
      scanChild (keys.insertIdx (position byte keys) byte) (children.insertIdx (position byte keys) child) =
        Function.update (scanChild keys children) byte (some child) := by
  have hfresh : ∀ x ∈ keys.zip children, x.1 ≠ byte := by
    intro x hx heq
    have hsome := h.scanChild_eq_some.mpr (show (byte, x.2) ∈ keys.zip children from heq ▸ hx)
    rw [hbyte] at hsome
    cases hsome
  have hpos : position byte keys ≤ keys.length := findIdx_le_length
  have hzip := zip_insertIdx keys children (position byte keys) byte child h.length
  have hsorted : Sorted cap (keys.insertIdx (position byte keys) byte)
      (children.insertIdx (position byte keys) child) := by
    apply Sorted.of_ascending
    · have hasc := ascending_insertIdx h.ascending hfresh child
      rw [map_fst_zip h.length] at hasc
      rw [hzip]
      exact hasc
    · rw [length_insertIdx_of_le_length hpos, length_insertIdx_of_le_length (h.length ▸ hpos), h.length]
    · rw [length_insertIdx_of_le_length hpos]
      exact hcap
  refine ⟨hsorted, hsorted.scanChild_eq ?_⟩
  intro b c
  have hle : position byte keys ≤ (keys.zip children).length := by
    rw [length_zip, h.length, min_self]
    exact hpos
  rw [hzip, mem_insertIdx hle, Prod.mk.injEq, ← h.scanChild_eq_some]
  by_cases hb : b = byte
  · rw [hb, hbyte, Function.update_self]
    simp [eq_comm]
  · simp [hb]

theorem Sorted.erase {pos : ℕ} (hpos : keys.findIdx? (fun k => k = byte) = some pos) :
    children[pos]? = scanChild keys children byte ∧ Sorted cap (keys.eraseIdx pos) (children.eraseIdx pos) ∧
      scanChild (keys.eraseIdx pos) (children.eraseIdx pos) =
        Function.update (scanChild keys children) byte none := by
  obtain ⟨hlt, hkey, -⟩ := findIdx?_eq_some_iff_getElem.mp hpos
  have hat : keys[pos]? = some byte := by
    rw [getElem?_eq_getElem hlt, of_decide_eq_true hkey]
  have hzip := zip_eraseIdx keys children pos
  have hsorted : Sorted cap (keys.eraseIdx pos) (children.eraseIdx pos) := by
    apply Sorted.of_ascending
    · rw [hzip]
      exact h.ascending.sublist (eraseIdx_sublist _ _)
    · rw [length_eraseIdx_of_lt hlt, length_eraseIdx_of_lt (h.length ▸ hlt), h.length]
    · exact (length_eraseIdx_le _ _).trans h.cap
  refine ⟨?_, hsorted, hsorted.scanChild_eq ?_⟩
  · simp [scanChild, hpos]
  · intro b c
    rw [hzip, mem_eraseIdx_iff_getElem?]
    constructor
    · intro hmem
      obtain ⟨i, hne, hi⟩ := hmem
      have hb : b ≠ byte := by
        rintro rfl
        have hki : keys[i]? = some b := (getElem?_zip_eq_some.mp hi).1
        exact hne ((getElem?_inj (List.getElem?_eq_some_iff.mp hki).1 h.nodup).mp (hki.trans hat.symm))
      rw [Function.update_of_ne hb, h.scanChild_eq_some]
      exact mem_of_getElem? hi
    · intro hsome
      by_cases hb : b = byte
      · rw [hb, Function.update_self] at hsome
        cases hsome
      · rw [Function.update_of_ne hb, h.scanChild_eq_some] at hsome
        obtain ⟨i, hi⟩ := mem_iff_getElem?.mp hsome
        refine ⟨i, ?_, hi⟩
        rintro rfl
        have hki : keys[i]? = some b := (getElem?_zip_eq_some.mp hi).1
        rw [hat] at hki
        exact hb (Option.some.inj hki).symm

end

end sorted

/-- The sorted layout that lists a byte map. -/
theorem sorted_graph (f : UInt8 → Option α) {cap : ℕ} (h : size f ≤ cap) :
    Sorted cap ((graph f).map Prod.fst) ((graph f).map Prod.snd) ∧
      scanChild ((graph f).map Prod.fst) ((graph f).map Prod.snd) = f := by
  have hzip : ((graph f).map Prod.fst).zip ((graph f).map Prod.snd) = graph f := (zip_of_prod rfl rfl).symm
  have hsorted : Sorted cap ((graph f).map Prod.fst) ((graph f).map Prod.snd) := by
    apply Sorted.of_ascending
    · rw [hzip]
      exact graph_ascending f
    · simp
    · rw [length_map]
      exact h
  refine ⟨hsorted, hsorted.scanChild_eq ?_⟩
  intro b c
  rw [hzip, mem_graph]

/-! ### The slotted layout -/

/-- The index of a packed layout: the position of the key plus one. -/
theorem foldl_index (keys : List UInt8) (hkeys : keys.Nodup) (n : ℕ) (f : UInt8 → UInt8) (b : UInt8) :
    (keys.zipIdx n).foldl (fun index k => Function.update index k.1 (UInt8.ofNat (k.2 + 1))) f b =
      ((keys.findIdx? fun k => k = b).map fun i => UInt8.ofNat (n + i + 1)).getD (f b) := by
  induction keys generalizing n f with
  | nil => rfl
  | cons k ks ih =>
    obtain ⟨hk, hks⟩ := nodup_cons.mp hkeys
    rw [zipIdx_cons, foldl_cons, ih hks, findIdx?_cons]
    by_cases hb : k = b
    · have hnone : (ks.findIdx? fun k => k = b) = none := by
        rw [findIdx?_eq_none_iff]
        intro x hx
        rw [decide_eq_false_iff_not]
        rintro rfl
        exact hk (hb ▸ hx)
      rw [hnone, hb]
      simp
    · rw [Function.update_of_ne (Ne.symm hb)]
      simp only [hb, decide_false, Bool.false_eq_true, if_false, Option.map_map]
      congr 2
      funext i
      simp only [Function.comp_apply]
      congr 1
      omega

theorem slotted_packed48 {cap : ℕ} (h : Sorted cap keys children) (hcap : cap ≤ 48) :
    Slotted (packed48 keys children).1 (packed48 keys children).2 ∧
      slotChild (packed48 keys children).1 (packed48 keys children).2 = scanChild keys children := by
  have hindex (b : UInt8) : (packed48 keys children).1 b =
      ((keys.findIdx? fun k => k = b).map fun i => UInt8.ofNat (i + 1)).getD 0 := by
    have hfold := foldl_index keys h.nodup 0 (fun _ => 0) b
    simp only [Nat.zero_add] at hfold
    exact hfold
  have hlt {b : UInt8} {i : ℕ} (hi : (keys.findIdx? fun k => k = b) = some i) :
      i < keys.length ∧ keys[i]? = some b := by
    obtain ⟨hlen, hkey, -⟩ := findIdx?_eq_some_iff_getElem.mp hi
    exact ⟨hlen, by rw [getElem?_eq_getElem hlen, of_decide_eq_true hkey]⟩
  have hsome {b : UInt8} {i : ℕ} (hi : (keys.findIdx? fun k => k = b) = some i) :
      ((packed48 keys children).1 b).toNat = i + 1 := by
    have hkeys := h.cap
    have hlen := (hlt hi).1
    rw [hindex, hi, Option.map_some, Option.getD_some, UInt8.toNat_ofNat']
    omega
  have hused {b : UInt8} (hb : (packed48 keys children).1 b ≠ 0) : ∃ i, (keys.findIdx? fun k => k = b) = some i := by
    cases hi : keys.findIdx? fun k => k = b with
    | some i => exact ⟨i, rfl⟩
    | none =>
      rw [hindex, hi] at hb
      exact absurd rfl hb
  have hslot (i : ℕ) : (packed48 keys children).2[i]? = children[i]?.map some := getElem?_map
  refine ⟨⟨?_, ?_, ?_, ?_⟩, ?_⟩
  · intro b hb
    obtain ⟨i, hi⟩ := hused hb
    have hlen : i < children.length := h.length ▸ (hlt hi).1
    refine ⟨children[i], ?_⟩
    rw [hsome hi, Nat.add_sub_cancel, hslot, getElem?_eq_getElem hlen, Option.map_some]
  · intro b b' hb heq
    obtain ⟨i, hi⟩ := hused hb
    obtain ⟨j, hj⟩ := hused (heq ▸ hb)
    have hij : i = j := by
      have hnat := hsome hj
      rw [← heq, hsome hi] at hnat
      omega
    have hkey := (hlt hj).2
    rw [← hij, (hlt hi).2] at hkey
    exact Option.some.inj hkey
  · intro i c hi
    rw [hslot] at hi
    obtain ⟨c', hc', -⟩ := Option.map_eq_some_iff.mp hi
    have hlen : i < keys.length := h.length ▸ (List.getElem?_eq_some_iff.mp hc').1
    have hfind : (keys.findIdx? fun k => k = keys[i]) = some i := by
      rw [findIdx?_eq_some_iff_getElem]
      refine ⟨hlen, by simp, ?_⟩
      intro j hji hj
      have heq : keys[j]? = keys[i]? := by
        rw [getElem?_eq_getElem hlen, getElem?_eq_getElem (by omega), of_decide_eq_true hj]
      have hjeq := (getElem?_inj (by omega) h.nodup).mp heq
      omega
    exact ⟨keys[i], hsome hfind⟩
  · have hkeys := h.cap
    unfold packed48
    rw [length_map, h.length]
    omega
  · funext b
    unfold slotChild scanChild
    cases hi : keys.findIdx? fun k => k = b with
    | none =>
      have hzero : (packed48 keys children).1 b = 0 := by simp [hindex, hi]
      rw [if_pos hzero, Option.bind_none]
    | some i =>
      have hne : (packed48 keys children).1 b ≠ 0 := by
        intro hzero
        have hnat := hsome hi
        rw [hzero] at hnat
        cases hnat
      rw [if_neg hne, hsome hi, Nat.add_sub_cancel, hslot, Option.bind_some]
      cases children[i]? with
      | none | some c => rfl

section slotted

variable {index : UInt8 → UInt8} {children : List (Option α)} {byte : UInt8}

/-- The content of a slot. -/
theorem join_eq_some {i : ℕ} {c : α} :
    (children[i]?).join = some c ↔ children[i]? = some (some c) := Option.join_eq_some_iff

theorem toNat_ne_zero {b : UInt8} (h : b ≠ 0) : b.toNat ≠ 0 :=
  fun hzero => h (UInt8.toNat_inj.mp hzero)

theorem ne_zero_of_toNat {b : UInt8} {i : ℕ} (h : b.toNat = i + 1) : b ≠ 0 := by
  rintro rfl
  cases h

theorem Slotted.index_eq_zero (h : Slotted index children)
    (hbyte : slotChild index children byte = none) : index byte = 0 := by
  by_contra hne
  obtain ⟨c, hc⟩ := h.used byte hne
  unfold slotChild at hbyte
  rw [if_neg hne, hc] at hbyte
  cases hbyte

/-- Every byte with a slot has one of its own, which is in use. -/
structure Placed (index : UInt8 → UInt8) (children : List (Option α)) : Prop where
  used : ∀ b, index b ≠ 0 → ∃ c, children[(index b).toNat - 1]? = some (some c)
  distinct : ∀ b b', index b ≠ 0 → index b = index b' → b = b'

theorem Slotted.placed (h : Slotted index children) : Placed index children := ⟨h.used, h.distinct⟩

/-- Putting a child into a free slot. -/
theorem Placed.fill (h : Placed index children) {slot : ℕ} (hslot : slot < 48)
    (hfree : (children[slot]?).join = none) {children' : List (Option α)} {child : α}
    (hput : children'[slot]? = some (some child))
    (hkeep : ∀ i, i ≠ slot → (children'[i]?).join = (children[i]?).join) :
    Placed (Function.update index byte (UInt8.ofNat (slot + 1))) children' ∧
      slotChild (Function.update index byte (UInt8.ofNat (slot + 1))) children' =
        Function.update (slotChild index children) byte (some child) := by
  have hto : (UInt8.ofNat (slot + 1)).toNat = slot + 1 := by
    rw [UInt8.toNat_ofNat']
    omega
  -- the slot of another byte is not the free one
  have hother {b : UInt8} (hb : index b ≠ 0) : (index b).toNat - 1 ≠ slot := by
    intro heq
    obtain ⟨c, hc⟩ := h.used b hb
    rw [heq, ← join_eq_some, hfree] at hc
    cases hc
  refine ⟨⟨?_, ?_⟩, ?_⟩
  · intro b hb
    by_cases heq : b = byte
    · rw [heq, Function.update_self, hto, Nat.add_sub_cancel]
      exact ⟨child, hput⟩
    · rw [Function.update_of_ne heq] at hb ⊢
      obtain ⟨c, hc⟩ := h.used b hb
      refine ⟨c, ?_⟩
      rw [← join_eq_some, hkeep _ (hother hb), join_eq_some]
      exact hc
  · intro b b' hb heq
    by_cases hbe : b = byte
    · by_cases hbe' : b' = byte
      · rw [hbe, hbe']
      · rw [hbe, Function.update_self, Function.update_of_ne hbe'] at heq
        have hb' : index b' ≠ 0 := heq ▸ ne_zero_of_toNat hto
        apply absurd _ (hother hb')
        rw [← heq, hto, Nat.add_sub_cancel]
    · rw [Function.update_of_ne hbe] at hb heq
      by_cases hbe' : b' = byte
      · rw [hbe', Function.update_self] at heq
        apply absurd _ (hother hb)
        rw [heq, hto, Nat.add_sub_cancel]
      · rw [Function.update_of_ne hbe'] at heq
        exact h.distinct b b' hb heq
  · funext b
    unfold slotChild
    by_cases heq : b = byte
    · rw [heq, Function.update_self, Function.update_self, if_neg (ne_zero_of_toNat hto), hto,
        Nat.add_sub_cancel, hput, Option.join_some]
    · rw [Function.update_of_ne heq, Function.update_of_ne heq]
      by_cases hb : index b = 0
      · simp [hb]
      · rw [if_neg hb, if_neg hb, hkeep _ (hother hb)]

theorem Slotted.fill (h : Slotted index children) (hbyte : index byte = 0) {slot : ℕ}
    (hslot : slot < 48) (hfree : (children[slot]?).join = none) {children' : List (Option α)}
    {child : α} (hput : children'[slot]? = some (some child))
    (hkeep : ∀ i, i ≠ slot → (children'[i]?).join = (children[i]?).join)
    (hcap : children'.length ≤ 48) :
    Slotted (Function.update index byte (UInt8.ofNat (slot + 1))) children' ∧
      slotChild (Function.update index byte (UInt8.ofNat (slot + 1))) children' =
        Function.update (slotChild index children) byte (some child) := by
  have hto : (UInt8.ofNat (slot + 1)).toNat = slot + 1 := by
    rw [UInt8.toNat_ofNat']
    omega
  obtain ⟨hplaced, hmap⟩ := @Placed.fill _ _ _ byte h.placed _ hslot hfree _ _ hput hkeep
  refine ⟨⟨hplaced.used, hplaced.distinct, ?_, hcap⟩, hmap⟩
  intro i c hi
  by_cases heq : i = slot
  · refine ⟨byte, ?_⟩
    rw [Function.update_self, hto, heq]
  · rw [← join_eq_some, hkeep i heq, join_eq_some] at hi
    obtain ⟨b, hb⟩ := h.indexed i c hi
    refine ⟨b, ?_⟩
    rw [Function.update_of_ne]
    · exact hb
    · intro hbe
      exact ne_zero_of_toNat hb (hbe ▸ hbyte)

/-- Taking the child of a byte out of its slot. -/
theorem Placed.clear (h : Placed index children) (hbyte : index byte ≠ 0) :
    Placed (Function.update index byte 0) (children.set ((index byte).toNat - 1) none) ∧
      slotChild (Function.update index byte 0) (children.set ((index byte).toNat - 1) none) =
        Function.update (slotChild index children) byte none := by
  have hother {b : UInt8} (hne : b ≠ byte) (hb : index b ≠ 0) : (index byte).toNat - 1 ≠ (index b).toNat - 1 := by
    intro heq
    have h₁ := toNat_ne_zero hbyte
    have h₂ := toNat_ne_zero hb
    exact hne (h.distinct b byte hb (UInt8.toNat_inj.mp (by omega)))
  refine ⟨⟨?_, ?_⟩, ?_⟩
  · intro b hb
    by_cases heq : b = byte
    · rw [heq, Function.update_self] at hb
      exact absurd rfl hb
    · rw [Function.update_of_ne heq] at hb ⊢
      rw [getElem?_set_ne (hother heq hb)]
      exact h.used b hb
  · intro b b' hb heq
    by_cases hbe : b = byte
    · rw [hbe, Function.update_self] at hb
      exact absurd rfl hb
    · by_cases hbe' : b' = byte
      · rw [hbe', Function.update_self] at heq
        exact absurd heq hb
      · rw [Function.update_of_ne hbe, Function.update_of_ne hbe'] at heq
        rw [Function.update_of_ne hbe] at hb
        exact h.distinct b b' hb heq
  · funext b
    unfold slotChild
    by_cases heq : b = byte
    · simp [heq]
    · rw [Function.update_of_ne heq, Function.update_of_ne heq]
      by_cases hb : index b = 0
      · simp [hb]
      · rw [if_neg hb, if_neg hb, getElem?_set_ne (hother heq hb)]

theorem Slotted.clear (h : Slotted index children) (hbyte : index byte ≠ 0) :
    Slotted (Function.update index byte 0) (children.set ((index byte).toNat - 1) none) ∧
      slotChild (Function.update index byte 0) (children.set ((index byte).toNat - 1) none) =
        Function.update (slotChild index children) byte none := by
  obtain ⟨hplaced, hmap⟩ := h.placed.clear hbyte
  refine ⟨⟨hplaced.used, hplaced.distinct, ?_, ?_⟩, hmap⟩
  · intro i c hi
    rw [getElem?_set] at hi
    by_cases heq : (index byte).toNat - 1 = i
    · rw [if_pos heq] at hi
      by_cases hlt : (index byte).toNat - 1 < children.length
      · rw [if_pos hlt] at hi
        cases hi
      · rw [if_neg hlt] at hi
        cases hi
    · rw [if_neg heq] at hi
      obtain ⟨b, hb⟩ := h.indexed i c hi
      refine ⟨b, ?_⟩
      rw [Function.update_of_ne]
      · exact hb
      · rintro rfl
        omega
  · rw [length_set]
    exact h.cap

/-- The slots with a child in the first free one, or in a new one. -/
def withChild (child : α) (children : List (Option α)) : List (Option α) :=
  if children.length ≤ children.findIdx Option.isNone then children ++ [some child]
  else children.set (children.findIdx Option.isNone) (some child)

/-- What the first free slot is, and what happens to it. -/
structure Puts (child : α) (children : List (Option α)) : Prop where
  free : (children[children.findIdx Option.isNone]?).join = none
  put : (withChild child children)[children.findIdx Option.isNone]? = some (some child)
  keep : ∀ i, i ≠ children.findIdx Option.isNone → ((withChild child children)[i]?).join = (children[i]?).join
  length : (withChild child children).length ≤ max children.length (children.findIdx Option.isNone + 1)
  count : (withChild child children).countP Option.isSome = children.countP Option.isSome + 1

theorem puts (child : α) (children : List (Option α)) : Puts child children := by
  by_cases hlen : children.length ≤ children.findIdx Option.isNone
  · -- every slot is in use
    have hslot : children.findIdx Option.isNone = children.length := le_antisymm findIdx_le_length hlen
    have hchildren : withChild child children = children ++ [some child] := if_pos hlen
    rw [← hslot] at hlen
    refine ⟨?_, ?_, ?_, ?_, ?_⟩
    · simp [hslot]
    · simp [hchildren, hslot]
    · intro i hi
      rw [hchildren]
      by_cases hil : i < children.length
      · rw [getElem?_append_left hil]
      · have hlong : (children ++ [some child]).length ≤ i := by
          rw [length_append, length_singleton]
          omega
        rw [getElem?_eq_none hlong, getElem?_eq_none (by omega)]
    · rw [hchildren, length_append, length_singleton]
      omega
    · simp [hchildren]
  · have hlt : children.findIdx Option.isNone < children.length := by omega
    have hchildren : withChild child children = children.set (children.findIdx Option.isNone) (some child) :=
      if_neg hlen
    have hnone := findIdx_getElem (w := hlt)
    rw [Option.isNone_iff_eq_none] at hnone
    refine ⟨?_, ?_, ?_, ?_, ?_⟩
    · simp [hlt, hnone]
    · simp [hchildren, hlt]
    · intro i hi
      rw [hchildren, getElem?_set_ne (Ne.symm hi)]
    · simp [hchildren]
    · rw [hchildren, countP_set hlt, hnone]
      rfl

/-- With all slots in use there are as many children as slots. -/
theorem Slotted.length_le (h : Slotted index children)
    (hfull : ∀ i < children.length, ∃ c, children[i]? = some (some c)) :
    children.length ≤ size (slotChild index children) := by
  have hbyte : ∀ i : Fin children.length, ∃ b, (index b).toNat = i.val + 1 := by
    intro i
    obtain ⟨c, hc⟩ := hfull i i.isLt
    exact h.indexed i c hc
  choose g hg using hbyte
  have hnodup : (List.ofFn g).Nodup := by
    rw [nodup_ofFn]
    intro i j hij
    have hi := hg i
    rw [hij, hg j] at hi
    omega
  have hsome : ∀ b ∈ List.ofFn g, (slotChild index children b).isSome := by
    intro b hb
    obtain ⟨i, rfl⟩ := (mem_ofFn' g b).mp hb
    obtain ⟨c, hc⟩ := hfull i i.isLt
    unfold slotChild
    rw [if_neg (ne_zero_of_toNat (hg i)), hg i, Nat.add_sub_cancel, hc]
    rfl
  have hle := length_le_size hnodup hsome
  rwa [length_ofFn] at hle

theorem Slotted.insert (h : Slotted index children) (hbyte : slotChild index children byte = none)
    (hcount : size (slotChild index children) < 48) (child : α) :
    Slotted (Function.update index byte (UInt8.ofNat (children.findIdx Option.isNone + 1)))
        (if children.length ≤ children.findIdx Option.isNone then children ++ [some child]
          else children.set (children.findIdx Option.isNone) (some child)) ∧
      slotChild (Function.update index byte (UInt8.ofNat (children.findIdx Option.isNone + 1)))
          (if children.length ≤ children.findIdx Option.isNone then children ++ [some child]
            else children.set (children.findIdx Option.isNone) (some child)) =
        Function.update (slotChild index children) byte (some child) := by
  have hcap := h.cap
  have hput := puts child children
  have hlength := hput.length
  have hslot : children.findIdx Option.isNone < 48 := by
    by_cases hlen : children.length ≤ children.findIdx Option.isNone
    · -- every slot is in use
      have hfull : ∀ i < children.length, ∃ c, children[i]? = some (some c) := by
        intro i hi
        have hused := not_of_lt_findIdx (hi.trans_le hlen)
        rw [Option.isNone_eq_false_iff, Option.isSome_iff_exists] at hused
        obtain ⟨c, hc⟩ := hused
        exact ⟨c, by rw [getElem?_eq_getElem hi, hc]⟩
      have hlt := h.length_le hfull
      have hle : children.findIdx Option.isNone ≤ children.length := findIdx_le_length
      omega
    · omega
  have hcap' : (withChild child children).length ≤ 48 := by omega
  exact h.fill (h.index_eq_zero hbyte) hslot hput.free hput.put hput.keep hcap'

end slotted

/-! ### The direct layout -/

theorem directChild_map (f : UInt8 → Option α) : directChild (bytes.map f) = f := by
  funext b
  have hat : bytes[b.toNat]? = some b := by simp [bytes, b.toNat_lt]
  unfold directChild
  rw [getElem?_map, hat, Option.map_some, Option.join_some]

theorem directChild_set {children : List (Option α)} (h : children.length = 256) (byte : UInt8) (c : Option α) :
    directChild (children.set byte.toNat c) = Function.update (directChild children) byte c := by
  funext b
  unfold directChild
  by_cases heq : b = byte
  · rw [heq, Function.update_self, getElem?_set_self (h ▸ byte.toNat_lt), Option.join_some]
  · have hne : byte.toNat ≠ b.toNat := fun hnat => heq (UInt8.toNat_inj.mp hnat).symm
    rw [Function.update_of_ne heq, getElem?_set_ne hne]

/-! ### What the operations do to the map from bytes to children -/

variable {byte : UInt8}

theorem childCount_eq (h : l.Valid) : l.childCount = size fun b => l.findChild b := by
  cases l with
  | node4 keys children | node16 keys children => exact Sorted.length_eq h
  | node48 index children count | node256 children count => exact h.2

theorem iterChildren_eq (h : l.Valid) : l.iterChildren = graph fun b => l.findChild b := by
  cases l with
  | node4 keys children | node16 keys children => exact Sorted.zip_eq h
  | node48 index children count | node256 children count => rfl

theorem insertChild256_spec {children : List (Option α)} (h : (node256 children count).Valid)
    (hbyte : directChild children byte = none) (child : α) :
    (insertChild256 byte child children count).Valid ∧
      (fun b => (insertChild256 byte child children count).findChild b) =
        Function.update (directChild children) byte (some child) := by
  have hset := directChild_set h.1 byte (some child)
  refine ⟨⟨?_, ?_⟩, hset⟩
  · rw [length_set]
    exact h.1
  · rw [hset, size_update_some child hbyte, hbyte, ← h.2]
    rfl

theorem insertChild48_spec {index : UInt8 → UInt8} {children : List (Option α)}
    (h : (node48 index children count).Valid) (hbyte : slotChild index children byte = none) (child : α) :
    (insertChild48 byte child index children count).Valid ∧
      (fun b => (insertChild48 byte child index children count).findChild b) =
        Function.update (slotChild index children) byte (some child) := by
  unfold insertChild48
  by_cases hcount : count < 48
  · rw [if_pos hcount]
    have hins := h.1.insert hbyte (h.2 ▸ hcount) child
    refine ⟨⟨hins.1, ?_⟩, hins.2⟩
    rw [hins.2, size_update_some child hbyte, ← h.2]
  · rw [if_neg hcount]
    have hmap := directChild_map (slotChild index children)
    have hvalid : (node256 (bytes.map (slotChild index children)) count).Valid := by
      refine ⟨by simp [bytes], ?_⟩
      rw [hmap]
      exact h.2
    have hins := insertChild256_spec hvalid (hmap ▸ hbyte) child
    rwa [hmap] at hins

theorem insertChild16_spec (h : Sorted 16 keys children) (hbyte : scanChild keys children byte = none) (child : α) :
    (insertChild16 byte child keys children).Valid ∧ (fun b => (insertChild16 byte child keys children).findChild b) =
        Function.update (scanChild keys children) byte (some child) := by
  unfold insertChild16
  by_cases hcap : keys.length < 16
  · rw [if_pos hcap]
    exact h.insert hcap hbyte child
  · rw [if_neg hcap]
    have hpacked := slotted_packed48 h (by omega)
    have hvalid : (node48 (packed48 keys children).1 (packed48 keys children).2 keys.length).Valid := by
      refine ⟨hpacked.1, ?_⟩
      rw [hpacked.2]
      exact h.length_eq
    have hins := insertChild48_spec hvalid (hpacked.2 ▸ hbyte) child
    rwa [hpacked.2] at hins

theorem insertChild4_spec (h : Sorted 4 keys children) (hbyte : scanChild keys children byte = none) (child : α) :
    (insertChild4 byte child keys children).Valid ∧ (fun b => (insertChild4 byte child keys children).findChild b) =
        Function.update (scanChild keys children) byte (some child) := by
  unfold insertChild4
  by_cases hcap : keys.length < 4
  · rw [if_pos hcap]
    exact h.insert hcap hbyte child
  · rw [if_neg hcap]
    have hcap4 := h.cap
    exact insertChild16_spec ⟨h.sorted, h.length, by omega⟩ hbyte child

/-- Inserting at a byte without a child sets the map there and nowhere else. -/
theorem insertChild_spec (h : l.Valid) (hbyte : l.findChild byte = none) (child : α) :
    (l.insertChild byte child).Valid ∧ (fun b => (l.insertChild byte child).findChild b) =
        Function.update (fun b => l.findChild b) byte (some child) := by
  cases l with
  | node4 keys children => exact insertChild4_spec h hbyte child
  | node16 keys children => exact insertChild16_spec h hbyte child
  | node48 index children count => exact insertChild48_spec h hbyte child
  | node256 children count => exact insertChild256_spec h hbyte child

/-- The removed child is the one of the byte; the map is cleared there and nowhere else. -/
def Removes (byte : UInt8) (f : UInt8 → Option α) (result : Option α × Layout α) : Prop :=
  result.1 = f byte ∧ result.2.Valid ∧ (fun b => result.2.findChild b) = Function.update f byte none

theorem Removes.absent (h : l.Valid) (hbyte : l.findChild byte = none) :
    Removes byte (fun b => l.findChild b) (none, l) :=
  ⟨hbyte.symm, h, (Function.update_eq_self_iff.mpr hbyte.symm).symm⟩

theorem scanChild_absent (hpos : keys.findIdx? (fun k => k = byte) = none) :
    scanChild keys children byte = none := by simp [scanChild, hpos]

theorem removeChild4_spec (h : Sorted 4 keys children) :
    Removes byte (scanChild keys children) (removeChild4 byte keys children) := by
  unfold removeChild4
  cases hpos : keys.findIdx? fun k => k = byte with
  | none => exact Removes.absent (l := node4 keys children) h (scanChild_absent hpos)
  | some pos => exact h.erase hpos

theorem removeChild16_spec (h : Sorted 16 keys children) :
    Removes byte (scanChild keys children) (removeChild16 byte keys children) := by
  unfold removeChild16
  cases hpos : keys.findIdx? fun k => k = byte with
  | none => exact Removes.absent (l := node16 keys children) h (scanChild_absent hpos)
  | some pos =>
    obtain ⟨hchild, hsorted, hscan⟩ := h.erase hpos
    dsimp only
    by_cases hone : (keys.eraseIdx pos).length ≤ 1
    · rw [if_pos hone]
      exact ⟨hchild, ⟨hsorted.sorted, hsorted.length, by omega⟩, hscan⟩
    · rw [if_neg hone]
      exact ⟨hchild, hsorted, hscan⟩

theorem removeChild48_spec {index : UInt8 → UInt8} {children : List (Option α)}
    (h : (node48 index children count).Valid) :
    Removes byte (slotChild index children) (removeChild48 byte index children count) := by
  unfold removeChild48
  by_cases hzero : index byte = 0
  · rw [if_pos hzero]
    exact Removes.absent (l := node48 index children count) h (if_pos hzero)
  · obtain ⟨hslotted, hclear⟩ := h.1.clear hzero
    have hchild : slotChild index children byte = (children[(index byte).toNat - 1]?).join :=
      if_neg hzero
    obtain ⟨c, hc⟩ := h.1.used byte hzero
    rw [hc, Option.join_some] at hchild
    have hsize : count - 1 = size (slotChild (Function.update index byte 0)
        (children.set ((index byte).toNat - 1) none)) := by
      have hsplit := size_update_none hchild
      have hcount := h.2
      rw [hclear]
      omega
    rw [if_neg hzero]
    dsimp only
    rw [hc, Option.join_some]
    by_cases hcap : count - 1 ≤ 16
    · rw [if_pos hcap]
      have hgraph := sorted_graph _ (hsize ▸ hcap)
      exact ⟨hchild.symm, hgraph.1, hgraph.2.trans hclear⟩
    · rw [if_neg hcap]
      exact ⟨hchild.symm, ⟨hslotted, hsize⟩, hclear⟩

theorem removeChild256_spec {children : List (Option α)} (h : (node256 children count).Valid) :
    Removes byte (directChild children) (removeChild256 byte children count) := by
  unfold removeChild256
  cases hsome : directChild children byte with
  | none => exact Removes.absent (l := node256 children count) h hsome
  | some c =>
    have hset := directChild_set h.1 byte none
    have hsize : count - 1 = size (directChild (children.set byte.toNat none)) := by
      have hsplit := size_update_none hsome
      have hcount := h.2
      rw [hset]
      omega
    rw [Option.isNone_some, if_neg Bool.false_ne_true]
    dsimp only
    by_cases hcap : count - 1 ≤ 48
    · rw [if_pos hcap]
      have hgraph := sorted_graph _ (hsize ▸ hcap)
      have hpacked := slotted_packed48 hgraph.1 (le_refl _)
      refine ⟨hsome.symm, ⟨hpacked.1, ?_⟩, (hpacked.2.trans hgraph.2).trans hset⟩
      rw [hpacked.2, hgraph.2]
      exact hsize
    · rw [if_neg hcap]
      refine ⟨hsome.symm, ⟨?_, hsize⟩, hset⟩
      rw [length_set]
      exact h.1

/-- Removing returns the child of the byte and clears the map there and nowhere else. -/
theorem removeChild_spec (h : l.Valid) (byte : UInt8) :
    Removes byte (fun b => l.findChild b) (l.removeChild byte) := by
  cases l with
  | node4 keys children => exact removeChild4_spec h
  | node16 keys children => exact removeChild16_spec h
  | node48 index children count => exact removeChild48_spec h
  | node256 children count => exact removeChild256_spec h

/-! ### Children are smaller -/

theorem sizeOf_slot [SizeOf α] {children : List (Option α)} {i : ℕ} {c : α}
    (h : (children[i]?).join = some c) : sizeOf c < sizeOf children := by
  have hmem := mem_of_getElem? (Option.join_eq_some_iff.mp h)
  have hlt := sizeOf_lt_of_mem hmem
  simp only [Option.some.sizeOf_spec] at hlt
  omega

theorem sizeOf_findChild [SizeOf α] {c : α} (h : l.findChild byte = some c) : sizeOf c < sizeOf l := by
  have hscan {keys : List UInt8} {children : List α}
      (h : scanChild keys children byte = some c) : sizeOf c < sizeOf children := by
    obtain ⟨i, -, hi⟩ := Option.bind_eq_some_iff.mp h
    exact sizeOf_lt_of_mem (mem_of_getElem? hi)
  cases l with
  | node4 keys children =>
    have hlt := hscan h
    simp only [node4.sizeOf_spec]
    omega
  | node16 keys children =>
    have hlt := hscan h
    simp only [node16.sizeOf_spec]
    omega
  | node48 index children count =>
    have hlt : sizeOf c < sizeOf children := by
      have hslot : slotChild index children byte = some c := h
      unfold slotChild at hslot
      by_cases hzero : index byte = 0
      · rw [if_pos hzero] at hslot
        cases hslot
      · rw [if_neg hzero] at hslot
        exact sizeOf_slot hslot
    simp only [node48.sizeOf_spec]
    omega
  | node256 children count =>
    have hlt : sizeOf c < sizeOf children := sizeOf_slot h
    simp only [node256.sizeOf_spec]
    omega

theorem sizeOf_iterChildren [SizeOf α] {x : UInt8 × α} (h : x ∈ l.iterChildren) : sizeOf x.2 < sizeOf l := by
  have hzip {keys : List UInt8} {children : List α} (h : x ∈ keys.zip children) :
      sizeOf x.2 < sizeOf children := sizeOf_lt_of_mem (of_mem_zip h).2
  cases l with
  | node4 keys children =>
    have hlt := hzip h
    simp only [node4.sizeOf_spec]
    omega
  | node16 keys children =>
    have hlt := hzip h
    simp only [node16.sizeOf_spec]
    omega
  | node48 index children count | node256 children count =>
    exact sizeOf_findChild (mem_graph.mp h)

end Layout

end CenDB.Index
