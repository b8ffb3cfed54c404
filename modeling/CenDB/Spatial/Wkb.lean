import CenDB.Lib.Reader
import CenDB.Lib.Words
import CenDB.Spatial.Geometry

/-! # Well-known binary

Coordinates are the bit patterns of binary64 numbers.  Every geometry has a header of its own, the parts
of a collection too; lists have their lengths in front, as words of 32 bits.

The reader recurses on fuel; a geometry takes a byte or more, so that the number of bytes is enough.
`fromWkb_toWkb` is the round trip, for geometries whose lists have lengths that fit (`Fits`). -/

namespace CenDB.Spatial

open Words Reader List

def WKB_POINT : UInt32 := 1
def WKB_LINESTRING : UInt32 := 2
def WKB_POLYGON : UInt32 := 3
def WKB_MULTIPOINT : UInt32 := 4
def WKB_MULTILINESTRING : UInt32 := 5
def WKB_MULTIPOLYGON : UInt32 := 6
def WKB_GEOMETRYCOLLECTION : UInt32 := 7

def BYTE_ORDER_LE : UInt8 := 1

/-! ### Writing -/

/-- Byte order and type of a geometry. -/
def wkbHeader (ty : UInt32) : List UInt8 := BYTE_ORDER_LE :: toLE 4 ty.toNat

/-- A length as `u32`. -/
def writeCount (n : ℕ) : List UInt8 := toLE 4 (UInt32.ofNat n).toNat

def writePoint (p : Point UInt64) : List UInt8 := toLE 8 p.x.toNat ++ toLE 8 p.y.toNat

/-- A list of points after its length. -/
def writePoints (ls : LineString UInt64) : List UInt8 :=
  writeCount ls.points.length ++ ls.points.flatMap writePoint

def writeWkbPoint (p : Point UInt64) : List UInt8 := wkbHeader WKB_POINT ++ writePoint p

def writeWkbLineString (ls : LineString UInt64) : List UInt8 := wkbHeader WKB_LINESTRING ++ writePoints ls

def writeWkbPolygon (poly : Polygon UInt64) : List UInt8 :=
  wkbHeader WKB_POLYGON ++ (writeCount poly.rings.length ++ poly.rings.flatMap writePoints)

mutual

def writeWkb : Geometry UInt64 → List UInt8
  | .point p => writeWkbPoint p
  | .lineString ls => writeWkbLineString ls
  | .polygon poly => writeWkbPolygon poly
  | .multiPoint mp =>
    wkbHeader WKB_MULTIPOINT ++ (writeCount mp.points.length ++ mp.points.flatMap writeWkbPoint)
  | .multiLineString mls =>
    wkbHeader WKB_MULTILINESTRING ++
      (writeCount mls.linestrings.length ++ mls.linestrings.flatMap writeWkbLineString)
  | .multiPolygon mp =>
    wkbHeader WKB_MULTIPOLYGON ++ (writeCount mp.polygons.length ++ mp.polygons.flatMap writeWkbPolygon)
  | .geometryCollection gs =>
    wkbHeader WKB_GEOMETRYCOLLECTION ++ (writeCount gs.length ++ writeWkbAll gs)

def writeWkbAll : List (Geometry UInt64) → List UInt8
  | [] => []
  | g :: gs => writeWkb g ++ writeWkbAll gs

end

def toWkb (geom : Geometry UInt64) : List UInt8 := writeWkb geom

/-! ### Reading -/

/-- Why bytes are rejected. -/
inductive WkbError where
  | eofU8
  | eofU32
  | eofF64
  | byteOrder (b : UInt8)
  | noRings
  | childNotPoint
  | childNotLineString
  | childNotPolygon
  | unknownType (ty : UInt32)
  | outOfFuel
deriving DecidableEq, Repr

abbrev WkbReader := Reader UInt8 WkbError

/-- The next `n` bytes as a number. -/
def readLE (n : ℕ) (eof : WkbError) : WkbReader ℕ := fun bytes =>
  if bytes.length < n then .error eof else .ok (fromLE (bytes.take n), bytes.drop n)

def readU8 : WkbReader UInt8 := UInt8.ofNat <$> readLE 1 .eofU8

def readU32 : WkbReader UInt32 := UInt32.ofNat <$> readLE 4 .eofU32

def readF64 : WkbReader UInt64 := UInt64.ofNat <$> readLE 8 .eofF64

def readPoint : WkbReader (Point UInt64) := do
  let x ← readF64
  let y ← readF64
  return ⟨x, y⟩

/-- A counted list. -/
def readList {α : Type} (item : WkbReader α) : WkbReader (List α) := do
  let n ← readU32
  many item n.toNat

def readRing : WkbReader (LineString UInt64) := LineString.mk <$> readList readPoint

/-- The rings of a polygon, the exterior one first. -/
def polygonOf : List (LineString UInt64) → WkbReader (Polygon UInt64)
  | [] => throw .noRings
  | exterior :: interiors => pure ⟨exterior, interiors⟩

def childPoint : Geometry UInt64 → WkbReader (Point UInt64)
  | .point p => pure p
  | _ => throw .childNotPoint

def childLineString : Geometry UInt64 → WkbReader (LineString UInt64)
  | .lineString ls => pure ls
  | _ => throw .childNotLineString

def childPolygon : Geometry UInt64 → WkbReader (Polygon UInt64)
  | .polygon poly => pure poly
  | _ => throw .childNotPolygon

/-- What follows the header; `child` reads a part with a header of its own. -/
def readBody (child : WkbReader (Geometry UInt64)) (ty : UInt32) : WkbReader (Geometry UInt64) :=
  if ty = WKB_POINT then .point <$> readPoint
  else if ty = WKB_LINESTRING then .lineString <$> readRing
  else if ty = WKB_POLYGON then .polygon <$> (readList readRing >>= polygonOf)
  else if ty = WKB_MULTIPOINT then (.multiPoint ⟨·⟩) <$> readList (child >>= childPoint)
  else if ty = WKB_MULTILINESTRING then (.multiLineString ⟨·⟩) <$> readList (child >>= childLineString)
  else if ty = WKB_MULTIPOLYGON then (.multiPolygon ⟨·⟩) <$> readList (child >>= childPolygon)
  else if ty = WKB_GEOMETRYCOLLECTION then .geometryCollection <$> readList child
  else throw (.unknownType ty)

def readGeometry : ℕ → WkbReader (Geometry UInt64)
  | 0 => throw .outOfFuel
  | fuel + 1 => do
    let byteOrder ← readU8
    if byteOrder = BYTE_ORDER_LE then
      let ty ← readU32
      readBody (readGeometry fuel) ty
    else throw (.byteOrder byteOrder)

/-- Bytes after the geometry are ignored. -/
def fromWkb (bytes : List UInt8) : Except WkbError (Geometry UInt64) :=
  (readGeometry (bytes.length + 1) bytes).map Prod.fst

/-! ### Lengths -/

def LineString.Fits {F : Type} (ls : LineString F) : Prop := ls.points.length < 2 ^ 32

def Polygon.Fits {F : Type} (poly : Polygon F) : Prop :=
  poly.rings.length < 2 ^ 32 ∧ ∀ ring ∈ poly.rings, ring.Fits

mutual

/-- All lists of the geometry have lengths of 32 bits. -/
def Geometry.Fits {F : Type} : Geometry F → Prop
  | .point _ => True
  | .lineString ls => ls.Fits
  | .polygon poly => poly.Fits
  | .multiPoint mp => mp.points.length < 2 ^ 32
  | .multiLineString mls => mls.linestrings.length < 2 ^ 32 ∧ ∀ ls ∈ mls.linestrings, ls.Fits
  | .multiPolygon mp => mp.polygons.length < 2 ^ 32 ∧ ∀ poly ∈ mp.polygons, poly.Fits
  | .geometryCollection gs => gs.length < 2 ^ 32 ∧ Geometry.AllFit gs

def Geometry.AllFit {F : Type} : List (Geometry F) → Prop
  | [] => True
  | g :: gs => g.Fits ∧ Geometry.AllFit gs

end

theorem Geometry.allFit_iff {F : Type} {gs : List (Geometry F)} : AllFit gs ↔ ∀ g ∈ gs, g.Fits := by
  induction gs with
  | nil => simp [AllFit]
  | cons g gs ih => rw [AllFit, ih, forall_mem_cons]

/-! ### Words and points -/

theorem takes_readLE {n : ℕ} (eof : WkbError) {bytes : List UInt8} (h : bytes.length = n) :
    Takes (readLE n eof) Any bytes (fromLE bytes) := by
  intro rest _
  have hlong : ¬ (bytes ++ rest).length < n := by
    rw [length_append]
    omega
  rw [readLE, if_neg hlong, ← h, take_left, drop_left]

theorem takes_readU8 (b : UInt8) : Takes readU8 Any [b] b := by
  have hone : [b].length = 1 := rfl
  have h := (takes_readLE .eofU8 hone).map UInt8.ofNat
  have hbyte : UInt8.ofNat (fromLE [b]) = b := by simp [fromLE]
  rwa [hbyte] at h

theorem takes_readU32 (x : UInt32) : Takes readU32 Any (toLE 4 x.toNat) x := by
  have h := (takes_readLE .eofU32 (toLE_length 4 x.toNat)).map UInt32.ofNat
  rwa [ofNat_fromLE_toLE_32] at h

theorem takes_readF64 (x : UInt64) : Takes readF64 Any (toLE 8 x.toNat) x := by
  have h := (takes_readLE .eofF64 (toLE_length 8 x.toNat)).map UInt64.ofNat
  rwa [ofNat_fromLE_toLE_64] at h

theorem takes_readPoint (p : Point UInt64) : Takes readPoint Any (writePoint p) p := by
  have hy := (takes_readF64 p.y).andThen (f := fun y => pure (⟨p.x, y⟩ : Point UInt64)) (Takes.pure p)
  rw [append_nil] at hy
  exact (takes_readF64 p.x).andThen hy

variable {α : Type} {fuel : ℕ}

/-- A list after its length. -/
theorem takes_readList {item : WkbReader α} {text : α → List UInt8} {as : List α} (hlength : as.length < 2 ^ 32)
    (hitem : ∀ a ∈ as, Takes item Any (text a) a) :
    Takes (readList item) Any (writeCount as.length ++ as.flatMap text) as := by
  have hcount : (UInt32.ofNat as.length).toNat = as.length := by
    rw [UInt32.toNat_ofNat', Nat.mod_eq_of_lt hlength]
  refine (takes_readU32 (UInt32.ofNat as.length)).andThen ?_
  rw [hcount]
  exact takes_many hitem

theorem takes_readRing {ls : LineString UInt64} (h : ls.Fits) : Takes readRing Any (writePoints ls) ls :=
  (takes_readList h fun p _ => takes_readPoint p).map LineString.mk

/-! ### Geometries -/

theorem length_wkbHeader (ty : UInt32) : (wkbHeader ty).length = 5 := by simp [wkbHeader]

/-- A part of a list is shorter than the list after its header. -/
theorem length_lt_header (text : α → List UInt8) {as : List α} {a : α} (ha : a ∈ as) (ty : UInt32) :
    (text a).length < (wkbHeader ty ++ (writeCount as.length ++ as.flatMap text)).length := by
  have hle := (sublist_flatten_of_mem (mem_map_of_mem (f := text) ha)).length_le
  rw [← flatMap_def] at hle
  rw [length_append, length_append, length_wkbHeader]
  omega

/-- A geometry with fuel for its header, and one less for its parts. -/
theorem takes_readGeometry {ty : UInt32} {body : List UInt8} {g : Geometry UInt64}
    (hfuel : (wkbHeader ty ++ body).length ≤ fuel)
    (h : ∀ n, fuel = n + 1 → Takes (readBody (readGeometry n) ty) Any body g) :
    Takes (readGeometry fuel) Any (wkbHeader ty ++ body) g := by
  cases fuel with
  | zero =>
    rw [length_append, length_wkbHeader] at hfuel
    omega
  | succ n =>
    refine (takes_readU8 BYTE_ORDER_LE).andThen ?_
    rw [if_pos rfl]
    exact (takes_readU32 ty).andThen (h n rfl)

/-- A list of parts, each with its own header. -/
theorem takes_parts (item : ℕ → WkbReader α) {text : α → List UInt8} {as : List α} {ty : UInt32}
    (hlength : as.length < 2 ^ 32)
    (hfuel : (wkbHeader ty ++ (writeCount as.length ++ as.flatMap text)).length ≤ fuel)
    (hitem : ∀ n, ∀ a ∈ as, (text a).length ≤ n → Takes (item n) Any (text a) a) {n : ℕ} (hn : fuel = n + 1) :
    Takes (readList (item n)) Any (writeCount as.length ++ as.flatMap text) as := by
  refine takes_readList hlength fun a ha => hitem n a ha ?_
  have hlt := length_lt_header text ha ty
  omega

theorem takes_point (p : Point UInt64) (hfuel : (writeWkbPoint p).length ≤ fuel) :
    Takes (readGeometry fuel) Any (writeWkbPoint p) (.point p) :=
  takes_readGeometry hfuel fun _ _ => (takes_readPoint p).map Geometry.point

theorem takes_lineString {ls : LineString UInt64} (h : ls.Fits) (hfuel : (writeWkbLineString ls).length ≤ fuel) :
    Takes (readGeometry fuel) Any (writeWkbLineString ls) (.lineString ls) :=
  takes_readGeometry hfuel fun _ _ => (takes_readRing h).map Geometry.lineString

theorem takes_polygon {poly : Polygon UInt64} (h : poly.Fits) (hfuel : (writeWkbPolygon poly).length ≤ fuel) :
    Takes (readGeometry fuel) Any (writeWkbPolygon poly) (.polygon poly) := by
  have hrings := takes_readList h.1 fun ring hring => takes_readRing (h.2 ring hring)
  have hpoly := hrings.andThen (f := polygonOf) (Takes.pure poly)
  rw [append_nil] at hpoly
  exact takes_readGeometry hfuel fun _ _ => hpoly.map Geometry.polygon

/-- A part of a geometry that has to be of one kind. -/
theorem takes_child {child : Geometry UInt64 → WkbReader α} {bytes : List UInt8} {g : Geometry UInt64} {a : α}
    (h : Takes (readGeometry fuel) Any bytes g) (ha : child g = pure a) :
    Takes (readGeometry fuel >>= child) Any bytes a := by
  have hchild := h.andThen (f := child) (ha ▸ Takes.pure a)
  rwa [append_nil] at hchild

theorem writeWkbAll_eq (gs : List (Geometry UInt64)) : writeWkbAll gs = gs.flatMap writeWkb := by
  induction gs with
  | nil => rfl
  | cons g gs ih => rw [writeWkbAll, ih, flatMap_cons]

/-- **A geometry is read back, whatever follows it**, with fuel for each of its bytes. -/
theorem takes_writeWkb (g : Geometry UInt64) (hfits : g.Fits) (hfuel : (writeWkb g).length ≤ fuel) :
    Takes (readGeometry fuel) Any (writeWkb g) g := by
  induction g using Geometry.induction generalizing fuel with
  | point p => exact takes_point p hfuel
  | lineString ls => exact takes_lineString hfits hfuel
  | polygon poly => exact takes_polygon hfits hfuel
  | multiPoint mp =>
    refine takes_readGeometry hfuel fun n hn => Takes.map ?_ (Geometry.multiPoint ⟨·⟩)
    refine takes_parts (fun n => readGeometry n >>= childPoint) hfits hfuel ?_ hn
    exact fun n p _ hp => takes_child (takes_point p hp) rfl
  | multiLineString mls =>
    refine takes_readGeometry hfuel fun n hn => Takes.map ?_ (Geometry.multiLineString ⟨·⟩)
    refine takes_parts (fun n => readGeometry n >>= childLineString) hfits.1 hfuel ?_ hn
    exact fun n ls hmem hls => takes_child (takes_lineString (hfits.2 ls hmem) hls) rfl
  | multiPolygon mp =>
    refine takes_readGeometry hfuel fun n hn => Takes.map ?_ (Geometry.multiPolygon ⟨·⟩)
    refine takes_parts (fun n => readGeometry n >>= childPolygon) hfits.1 hfuel ?_ hn
    exact fun n poly hmem hpoly => takes_child (takes_polygon (hfits.2 poly hmem) hpoly) rfl
  | geometryCollection gs ih =>
    rw [writeWkb, writeWkbAll_eq] at hfuel ⊢
    refine takes_readGeometry hfuel fun n hn => Takes.map ?_ Geometry.geometryCollection
    refine takes_parts readGeometry hfits.1 hfuel ?_ hn
    exact fun n g hmem hg => ih g hmem (Geometry.allFit_iff.mp hfits.2 g hmem) hg

/-- **The round trip**: every geometry whose lists have lengths of 32 bits is read back bit for bit. -/
theorem fromWkb_toWkb {g : Geometry UInt64} (h : g.Fits) : fromWkb (toWkb g) = .ok g := by
  have hread := (takes_writeWkb g h (Nat.le_succ _)).run_eq trivial
  rw [fromWkb, toWkb, hread]
  rfl

/-- A collection in a collection, with a polygon that has an empty hole and with a NaN. -/
theorem fromWkb_toWkb_nested : let g : Geometry UInt64 := .geometryCollection [.geometryCollection [],
      .polygon ⟨⟨[⟨0, 0⟩, ⟨0x3ff0000000000000, 0⟩]⟩, [⟨[]⟩]⟩,
      .geometryCollection [.multiPoint ⟨[⟨0x7ff8000000000000, 0x8000000000000000⟩]⟩]]
    fromWkb (toWkb g) = .ok g :=
  fromWkb_toWkb (by simp [Geometry.Fits, Geometry.AllFit, Polygon.Fits, Polygon.rings, LineString.Fits])

end CenDB.Spatial
