import CenDB.Lib.Bisection

/-! # Geohashes

A geohash names a cell of the map: longitude and latitude are halved in turn, and every five choices
are one character.  Coordinates and midpoints are exact rationals.

`none` is an index outside the table of characters, which would panic; it does not come up. -/

namespace CenDB.Spatial

open List Option

def base32 : List Char :=
  ['0', '1', '2', '3', '4', '5', '6', '7', '8', '9', 'b', 'c', 'd', 'e', 'f', 'g',
    'h', 'j', 'k', 'm', 'n', 'p', 'q', 'r', 's', 't', 'u', 'v', 'w', 'x', 'y', 'z']

structure Ranges where
  latRange : ℚ × ℚ
  lonRange : ℚ × ℚ
  /-- The longitude is next. -/
  even : Bool
  deriving DecidableEq

namespace Ranges

def start : Ranges := ⟨(-90, 90), (-180, 180), true⟩

/-- Half of the range that is next. -/
def narrow (r : Ranges) (upper : Bool) : Ranges :=
  if r.even then
    let mid := (r.lonRange.1 + r.lonRange.2) / 2
    if upper then ⟨r.latRange, (mid, r.lonRange.2), false⟩ else ⟨r.latRange, (r.lonRange.1, mid), false⟩
  else
    let mid := (r.latRange.1 + r.latRange.2) / 2
    if upper then ⟨(mid, r.latRange.2), r.lonRange, true⟩ else ⟨(r.latRange.1, mid), r.lonRange, true⟩

/-- Is the point in the upper half of the range that is next? -/
def isUpper (r : Ranges) (p : ℚ × ℚ) : Bool :=
  if r.even then decide (p.2 ≥ (r.lonRange.1 + r.lonRange.2) / 2)
  else decide (p.1 ≥ (r.latRange.1 + r.latRange.2) / 2)

def bounds (r : Ranges) : ℚ × ℚ × ℚ × ℚ := (r.latRange.1, r.latRange.2, r.lonRange.1, r.lonRange.2)

end Ranges

open Ranges

/-! ### Encoding and decoding -/

structure Encoder where
  /-- One byte a character. -/
  hash : List Char
  ranges : Ranges
  bit : ℕ
  idx : ℕ

namespace Encoder

def step (lat lon : ℚ) (e : Encoder) : Option Encoder :=
  let upper := e.ranges.isUpper (lat, lon)
  let idx := if upper then e.idx ||| 1 <<< (4 - e.bit) else e.idx
  if e.bit + 1 = 5 then
    base32[idx]?.map fun c => ⟨e.hash ++ [c], e.ranges.narrow upper, 0, 0⟩
  else some ⟨e.hash, e.ranges.narrow upper, e.bit + 1, idx⟩

/-- The loop, for as many rounds as there is fuel. -/
def loop (lat lon : ℚ) (precision : ℕ) : ℕ → Encoder → Option Encoder
  | 0, e => some e
  | fuel + 1, e =>
    if e.hash.length < precision then (step lat lon e).bind (loop lat lon precision fuel) else some e

end Encoder

open Encoder

def encodeGeohash (lat lon : ℚ) (precision : ℕ) : Option (List Char) :=
  (loop lat lon precision (5 * precision) ⟨[], start, 0, 0⟩).map Encoder.hash

/-- A character narrows the ranges five times; an unknown one does as `0`. -/
def decodeChar (r : Ranges) (c : Char) : Ranges :=
  let idx := (base32.findIdx? (· == c)).getD 0
  (List.range 5).foldl (fun r bit => r.narrow (decide ((idx >>> (4 - bit)) &&& 1 = 1))) r

def decodeGeohash (hash : List Char) : ℚ × ℚ :=
  let r := hash.foldl decodeChar start
  ((r.latRange.1 + r.latRange.2) / 2, (r.lonRange.1 + r.lonRange.2) / 2)

/-- `min_lat, max_lat, min_lon, max_lon`. -/
def geohashBounds (hash : List Char) : ℚ × ℚ × ℚ × ℚ := (hash.foldl decodeChar start).bounds

/-- The bounds contain the point, the maxima included. -/
def InBounds (lat lon : ℚ) : ℚ × ℚ × ℚ × ℚ → Prop
  | (minLat, maxLat, minLon, maxLon) => (minLat ≤ lat ∧ lat ≤ maxLat) ∧ minLon ≤ lon ∧ lon ≤ maxLon

/-- The point is at or above the minima and below the maxima. -/
def InCell (lat lon : ℚ) : ℚ × ℚ × ℚ × ℚ → Prop
  | (minLat, maxLat, minLon, maxLon) => (minLat ≤ lat ∧ lat < maxLat) ∧ minLon ≤ lon ∧ lon < maxLon

/-! ### The cells -/

def halving : Halving Ranges (ℚ × ℚ) := ⟨isUpper, narrow⟩

theorem divides_inCell : halving.Divides fun (p : ℚ × ℚ) r => InCell p.1 p.2 r.bounds := by
  rintro ⟨lat, lon⟩ ⟨latRange, lonRange, even⟩ upper
  cases even <;> cases upper <;> simp only [halving, narrow, isUpper, bounds, InCell] <;> grind

theorem inBounds_child (p : ℚ × ℚ) (r : Ranges) (h : InBounds p.1 p.2 r.bounds) :
    InBounds p.1 p.2 (halving.child r (halving.side r p)).bounds := by
  obtain ⟨latRange, lonRange, even⟩ := r
  cases even <;> simp only [halving, narrow, isUpper, bounds, InBounds] at h ⊢ <;> grind

/-- The cell has an interior, so its centre is in it. -/
def Proper (r : Ranges) : Prop := r.latRange.1 < r.latRange.2 ∧ r.lonRange.1 < r.lonRange.2

theorem proper_child (r : Ranges) (upper : Bool) (h : Proper r) : Proper (halving.child r upper) := by
  obtain ⟨latRange, lonRange, even⟩ := r
  cases even <;> cases upper <;> simp only [halving, narrow, Proper] at h ⊢ <;> grind

/-! ### Characters -/

/-- The choices that a character stands for. -/
def choices (c : Char) : List Bool :=
  let idx := (base32.findIdx? (· == c)).getD 0
  (List.range 5).map fun bit => decide ((idx >>> (4 - bit)) &&& 1 = 1)

/-- The index that choices spell. -/
def idxOf (upper : List Bool) : ℕ :=
  upper.zipIdx.foldl (fun idx (upper, bit) => if upper then idx ||| 1 <<< (4 - bit) else idx) 0

theorem charOf_idxOf : ∀ a b c d e : Bool,
    ∃ char ∈ base32, base32[idxOf [a, b, c, d, e]]? = some char ∧ choices char = [a, b, c, d, e] := by
  have hspelt : ∀ a b c d e : Bool, (base32[idxOf [a, b, c, d, e]]?).map choices = some [a, b, c, d, e] := by decide
  intro a b c d e
  obtain ⟨char, hchar, hchoices⟩ := map_eq_some_iff.mp (hspelt a b c d e)
  exact ⟨char, mem_of_getElem? hchar, hchar, hchoices⟩


theorem choices_inj : ∀ c ∈ base32, ∀ d ∈ base32, choices c = choices d → c = d := by decide

theorem foldl_decodeChar (hash : List Char) (r : Ranges) :
    hash.foldl decodeChar r = halving.descend r (hash.flatMap choices) := by
  induction hash generalizing r with
  | nil => rfl
  | cons c rest ih =>
    rw [foldl_cons, ih, flatMap_cons, Halving.descend, Halving.descend, foldl_append]
    congr 1

/-- Hashes of equal length with the same choices are the same. -/
theorem eq_of_choices {xs ys : List Char} (hx : ∀ c ∈ xs, c ∈ base32) (hy : ∀ c ∈ ys, c ∈ base32)
    (h : xs.flatMap choices = ys.flatMap choices) : xs = ys := by
  induction xs generalizing ys with
  | nil =>
    cases ys with
    | nil => rfl
    | cons d ys => cases h
  | cons c xs ih =>
    cases ys with
    | nil => cases h
    | cons d ys =>
      rw [flatMap_cons, flatMap_cons] at h
      obtain ⟨hhead, htail⟩ := append_inj h rfl
      rw [forall_mem_cons] at hx hy
      rw [choices_inj c hx.1 d hy.1 hhead, ih hx.2 hy.2 htail]

/-! ### The encoder -/

theorem idxOf_concat (upper : List Bool) (last : Bool) : idxOf (upper ++ [last]) =
      if last then idxOf upper ||| 1 <<< (4 - upper.length) else idxOf upper := by simp [idxOf, zipIdx_append]

theorem step_idxOf (lat lon : ℚ) (hash : List Char) (r : Ranges) (upper : List Bool) :
    step lat lon ⟨hash, r, upper.length, idxOf upper⟩ = if upper.length + 1 = 5 then
        base32[idxOf (upper ++ [halving.side r (lat, lon)])]?.map fun c =>
          ⟨hash ++ [c], halving.child r (halving.side r (lat, lon)), 0, 0⟩
      else some ⟨hash, halving.child r (halving.side r (lat, lon)),
        (upper ++ [halving.side r (lat, lon)]).length, idxOf (upper ++ [halving.side r (lat, lon)])⟩ := by
  rw [idxOf_concat, length_append]
  rfl

/-- Rounds that do not complete a character collect choices. -/
theorem loop_path (lat lon : ℚ) {precision : ℕ} (fuel : ℕ) {hash : List Char}
    (h : hash.length < precision) {k : ℕ} {upper : List Bool} (hk : upper.length + k = 4) (r : Ranges) :
    loop lat lon precision (fuel + k) ⟨hash, r, upper.length, idxOf upper⟩ =
      loop lat lon precision fuel ⟨hash, halving.descend r (halving.path k r (lat, lon)), 4,
        idxOf (upper ++ halving.path k r (lat, lon))⟩ := by
  induction k generalizing upper r with
  | zero =>
    rw [show upper.length = 4 from hk, Halving.path, append_nil]
    rfl
  | succ k ih =>
    have hlen : (upper ++ [halving.side r (lat, lon)]).length + k = 4 := by
      rw [length_append, length_singleton]
      omega
    rw [← Nat.add_assoc, loop, if_pos h, step_idxOf, if_neg (by omega), bind_some, ih hlen,
      append_assoc]
    rfl

/-- Five rounds are one character. -/
theorem loop_char (lat lon : ℚ) {precision : ℕ} (fuel : ℕ) {hash : List Char}
    (h : hash.length < precision) (r : Ranges) :
    ∃ c ∈ base32, choices c = halving.path 5 r (lat, lon) ∧ loop lat lon precision (fuel + 5) ⟨hash, r, 0, 0⟩ =
        loop lat lon precision fuel ⟨hash ++ [c], halving.descend r (choices c), 0, 0⟩ := by
  set upper := halving.path 4 r (lat, lon) with hupper
  set last := halving.side (halving.descend r upper) (lat, lon) with hlast
  have hpath : halving.path 5 r (lat, lon) = upper ++ [last] := halving.path_add 4 1 r (lat, lon)
  have hlen : upper.length = 4 := halving.length_path 4 r (lat, lon)
  obtain ⟨c, hc, hidx, hchoices⟩ : ∃ c ∈ base32, base32[idxOf (upper ++ [last])]? = some c ∧
      choices c = upper ++ [last] := by
    rw [← hpath]
    exact charOf_idxOf _ _ _ _ _
  refine ⟨c, hc, hchoices.trans hpath.symm, ?_⟩
  have hfour := @loop_path lat lon precision (fuel + 1) hash h 4 [] rfl r
  rw [List.nil_append, ← hupper, ← hlen] at hfour
  rw [hchoices, Halving.descend, foldl_append]
  refine hfour.trans ?_
  rw [loop, if_pos h, step_idxOf, hlen, if_pos rfl, ← hlast, hidx]
  rfl

/-- The rest of a hash is spelled from the cell reached, one character for every five choices. -/
theorem loop_chars (lat lon : ℚ) {precision : ℕ} {n : ℕ} {hash : List Char}
    (h : hash.length + n = precision) (r : Ranges) :
    ∃ rest : List Char, (∀ c ∈ rest, c ∈ base32) ∧
      rest.flatMap choices = halving.path (5 * n) r (lat, lon) ∧ rest.length = n ∧
      (loop lat lon precision (5 * n) ⟨hash, r, 0, 0⟩).map Encoder.hash = some (hash ++ rest) := by
  induction n generalizing hash r with
  | zero => exact ⟨[], by simp, rfl, rfl, by simp [loop]⟩
  | succ n ih =>
    have hmore : hash.length < precision := by omega
    obtain ⟨c, hc, hchoices, hloop⟩ := loop_char lat lon (5 * n) hmore r
    have hlonger : (hash ++ [c]).length + n = precision := by
      rw [length_append, length_singleton]
      omega
    obtain ⟨rest, hrest, hpath, hlen, hhash⟩ := ih hlonger (halving.descend r (choices c))
    refine ⟨c :: rest, forall_mem_cons.mpr ⟨hc, hrest⟩, ?_, by rw [length_cons, hlen], ?_⟩
    · rw [flatMap_cons, hpath, hchoices, ← Halving.path_add, Nat.mul_succ, Nat.add_comm]
    · rw [Nat.mul_succ, hloop, hhash, append_assoc]
      rfl

/-- The hash of a point spells its path. -/
theorem encodeGeohash_eq (lat lon : ℚ) (n : ℕ) :
    ∃ hash, encodeGeohash lat lon n = some hash ∧ (∀ c ∈ hash, c ∈ base32) ∧
      hash.flatMap choices = halving.path (5 * n) start (lat, lon) ∧ hash.length = n := by
  obtain ⟨hash, hvalid, hpath, hlen, hhash⟩ := @loop_chars lat lon n n [] (Nat.zero_add n) start
  exact ⟨hash, hhash, hvalid, hpath, hlen⟩

/-! ### Cells and hashes -/

theorem geohashBounds_eq (hash : List Char) :
    geohashBounds hash = (halving.descend start (hash.flatMap choices)).bounds := by
  rw [geohashBounds, foldl_decodeChar]

theorem length_flatMap_choices (hash : List Char) : (hash.flatMap choices).length = 5 * hash.length := by
  induction hash with
  | nil => rfl
  | cons c rest ih =>
    rw [flatMap_cons, length_append, ih, length_cons, Nat.mul_succ, Nat.add_comm]
    rfl

/-- The points of a cell have its hash. -/
theorem encodeGeohash_of_inCell {hash : List Char} (hvalid : ∀ c ∈ hash, c ∈ base32) {lat lon : ℚ}
    (h : InCell lat lon (geohashBounds hash)) : encodeGeohash lat lon hash.length = some hash := by
  obtain ⟨found, hfound, hchars, hpath, -⟩ := encodeGeohash_eq lat lon hash.length
  rw [geohashBounds_eq] at h
  have hchoices := ((divides_inCell.mem_descend (lat, lon) start _).mp h).2
  rw [length_flatMap_choices, ← hpath] at hchoices
  rw [hfound, eq_of_choices hchars hvalid hchoices]

theorem inBounds_encodeGeohash {lat lon : ℚ} (hlat : -90 ≤ lat ∧ lat ≤ 90) (hlon : -180 ≤ lon ∧ lon ≤ 180)
    {n : ℕ} {hash : List Char} (h : encodeGeohash lat lon n = some hash) :
    InBounds lat lon (geohashBounds hash) := by
  obtain ⟨found, hfound, -, hpath, -⟩ := encodeGeohash_eq lat lon n
  obtain rfl : found = hash := some_inj.mp (hfound.symm.trans h)
  rw [geohashBounds_eq, hpath]
  exact @Halving.keeps_descend _ _ halving (fun p r => InBounds p.1 p.2 r.bounds) inBounds_child (lat, lon) start
    ⟨hlat, hlon⟩ _

theorem encodeGeohash_take {lat lon : ℚ} {m n : ℕ} (hmn : m ≤ n) {hash : List Char}
    (h : encodeGeohash lat lon n = some hash) : encodeGeohash lat lon m = some (hash.take m) := by
  obtain ⟨found, hfound, hchars, hpath, hlen⟩ := encodeGeohash_eq lat lon n
  obtain rfl : found = hash := some_inj.mp (hfound.symm.trans h)
  obtain ⟨shorter, hshorter, hchars', hpath', -⟩ := encodeGeohash_eq lat lon m
  have htake : (found.take m).flatMap choices = halving.path (5 * m) start (lat, lon) := by
    have hsplit := halving.path_add (5 * m) (5 * (n - m)) start (lat, lon)
    rw [← Nat.mul_add, Nat.add_sub_cancel' hmn, ← hpath, ← take_append_drop m found, flatMap_append] at hsplit
    refine (append_inj hsplit ?_).1
    rw [length_flatMap_choices, Halving.length_path, length_take, hlen, min_eq_left hmn]
  rw [hshorter, eq_of_choices hchars' (fun c hc => hchars c (mem_of_mem_take hc)) (hpath'.trans htake.symm)]

theorem inCell_decodeGeohash (hash : List Char) :
    InCell (decodeGeohash hash).1 (decodeGeohash hash).2 (geohashBounds hash) := by
  have hproper : Proper (halving.descend start (hash.flatMap choices)) :=
    Halving.descend_induction proper_child (by norm_num [Proper, start]) _
  rw [← foldl_decodeChar] at hproper
  obtain ⟨hlat, hlon⟩ := hproper
  simp only [InCell, decodeGeohash, geohashBounds, bounds]
  grind

/-- **Geohash cells are consistent**: the hash of a point at any precision names a cell that contains the
point, starts with the hash at any smaller precision and is the hash of all points of the cell; the centre
of the cell of a valid hash has that hash. -/
theorem geohash_consistent {lat lon : ℚ} (hlat : -90 ≤ lat ∧ lat ≤ 90) (hlon : -180 ≤ lon ∧ lon ≤ 180) (n : ℕ) :
    (∃ hash, encodeGeohash lat lon n = some hash ∧ InBounds lat lon (geohashBounds hash) ∧
      (∀ m ≤ n, ∃ shorter, encodeGeohash lat lon m = some shorter ∧ shorter <+: hash) ∧
      ∀ lat' lon', InCell lat' lon' (geohashBounds hash) → encodeGeohash lat' lon' n = some hash) ∧
    ∀ hash : List Char, (∀ c ∈ hash, c ∈ base32) →
      encodeGeohash (decodeGeohash hash).1 (decodeGeohash hash).2 hash.length = some hash := by
  refine ⟨?_, fun hash hvalid => encodeGeohash_of_inCell hvalid (inCell_decodeGeohash hash)⟩
  obtain ⟨hash, hhash, hvalid, -, hlen⟩ := encodeGeohash_eq lat lon n
  refine ⟨hash, hhash, inBounds_encodeGeohash hlat hlon hhash, fun m hmn => ?_, fun lat' lon' hcell => ?_⟩
  · exact ⟨hash.take m, encodeGeohash_take hmn hhash, take_prefix m hash⟩
  · rw [← hlen]
    exact encodeGeohash_of_inCell hvalid hcell

/-- The north-east corner is on the boundary of its cell. -/
theorem geohash_consistent_corner :
    (∃ hash, encodeGeohash 90 180 12 = some hash ∧ InBounds 90 180 (geohashBounds hash) ∧
      (∀ m ≤ 12, ∃ shorter, encodeGeohash 90 180 m = some shorter ∧ shorter <+: hash) ∧
      ∀ lat' lon', InCell lat' lon' (geohashBounds hash) → encodeGeohash lat' lon' 12 = some hash) ∧
    ∀ hash : List Char, (∀ c ∈ hash, c ∈ base32) →
      encodeGeohash (decodeGeohash hash).1 (decodeGeohash hash).2 hash.length = some hash :=
  geohash_consistent (by norm_num) (by norm_num) 12

end CenDB.Spatial
