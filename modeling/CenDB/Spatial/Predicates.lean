import CenDB.Spatial.Geometry

/-! # Spatial predicates

The predicates over binary64 coordinates: the bounding boxes they compare first, the exact tests for pairs
of simple geometries, and the recursion into the components of the others.

`intersects` and its exact test call each other, as do `contains` and `within`.  The model counts the calls
on the stack: each of these functions takes the number of nested calls it may make and is `none` when
that does not suffice. -/

namespace CenDB.Spatial

def eps : Float := 1e-12

def infinity : Float := 1 / 0

/-- The smaller number; where one is not a number, the other one. -/
def f64Min (a b : Float) : Float :=
  if a.isNaN then b else if b.isNaN then a else if a < b then a else b

/-- The larger number; where one is not a number, the other one. -/
def f64Max (a b : Float) : Float :=
  if a.isNaN then b else if b.isNaN then a else if a > b then a else b

/-- The number, moved into the interval. -/
def clamp (x lo hi : Float) : Float := if x < lo then lo else if x > hi then hi else x

/-! ### Bounding boxes -/

structure BoundingBox where
  minX : Float
  minY : Float
  maxX : Float
  maxY : Float

namespace BoundingBox

def fromPoint (p : Point Float) : BoundingBox := ⟨p.x, p.y, p.x, p.y⟩

/-- The two boxes share a point. -/
def intersects (a b : BoundingBox) : Bool :=
  !(a.maxX < b.minX || a.minX > b.maxX || a.maxY < b.minY || a.minY > b.maxY)

def union (a b : BoundingBox) : BoundingBox :=
  ⟨f64Min a.minX b.minX, f64Min a.minY b.minY, f64Max a.maxX b.maxX, f64Max a.maxY b.maxY⟩

/-- The union of boxes, where there are any. -/
def join : Option BoundingBox → Option BoundingBox → Option BoundingBox
  | none, none => none
  | none, some b => some b
  | some a, none => some a
  | some a, some b => some (a.union b)

end BoundingBox

/-- The box of some points. -/
def pointsBoundingBox (points : List (Point Float)) : Option BoundingBox :=
  points.foldl (fun acc p => match acc with
    | none => some (.fromPoint p)
    | some box =>
      some ⟨f64Min box.minX p.x, f64Min box.minY p.y, f64Max box.maxX p.x, f64Max box.maxY p.y⟩) none

def LineString.boundingBox (ls : LineString Float) : Option BoundingBox := pointsBoundingBox ls.points

def Polygon.boundingBox (poly : Polygon Float) : Option BoundingBox := poly.exterior.boundingBox

def MultiPoint.boundingBox (mp : MultiPoint Float) : Option BoundingBox := pointsBoundingBox mp.points

def MultiLineString.boundingBox (mls : MultiLineString Float) : Option BoundingBox :=
  mls.linestrings.foldl (fun acc ls => BoundingBox.join acc ls.boundingBox) none

def MultiPolygon.boundingBox (mp : MultiPolygon Float) : Option BoundingBox :=
  mp.polygons.foldl (fun acc poly => BoundingBox.join acc poly.boundingBox) none

/-! ### Points and linestrings -/

/-- Both coordinates are finite. -/
def Point.isValid (p : Point Float) : Bool := p.x.isFinite && p.y.isFinite

/-- The Euclidean distance. -/
def Point.distance (p q : Point Float) : Float :=
  let dx := p.x - q.x
  let dy := p.y - q.y
  (dx * dx + dy * dy).sqrt

/-- The consecutive pairs of points. -/
def LineString.segments (ls : LineString Float) : List (Point Float × Point Float) :=
  ls.points.zip ls.points.tail

def LineString.isValid (ls : LineString Float) : Bool := ls.points.all Point.isValid

def Polygon.isValid (poly : Polygon Float) : Bool :=
  poly.exterior.isValid && poly.interiors.all LineString.isValid

namespace Geometry

mutual

/-- Every coordinate is finite. -/
def isValid : Geometry Float → Bool
  | .point p => p.isValid
  | .lineString ls => ls.isValid
  | .polygon poly => poly.isValid
  | .multiPoint mp => mp.points.all Point.isValid
  | .multiLineString mls => mls.linestrings.all LineString.isValid
  | .multiPolygon mp => mp.polygons.all Polygon.isValid
  | .geometryCollection gs => allValid gs

def allValid : List (Geometry Float) → Bool
  | [] => true
  | g :: gs => isValid g && allValid gs

end

mutual

/-- The box around the geometry; an empty one has none. -/
def boundingBox : Geometry Float → Option BoundingBox
  | .point p => some (.fromPoint p)
  | .lineString ls => ls.boundingBox
  | .polygon poly => poly.boundingBox
  | .multiPoint mp => mp.boundingBox
  | .multiLineString mls => mls.boundingBox
  | .multiPolygon mp => mp.boundingBox
  | .geometryCollection gs => boundingBoxes none gs

def boundingBoxes (acc : Option BoundingBox) : List (Geometry Float) → Option BoundingBox
  | [] => acc
  | g :: gs => boundingBoxes (BoundingBox.join acc (boundingBox g)) gs

end

mutual

/-- The topological dimension; that of a collection is the largest of its parts. -/
def dimension : Geometry Float → ℕ
  | .point _ => 0
  | .multiPoint _ => 0
  | .lineString _ => 1
  | .multiLineString _ => 1
  | .polygon _ => 2
  | .multiPolygon _ => 2
  | .geometryCollection gs => dimensions gs

def dimensions : List (Geometry Float) → ℕ
  | [] => 0
  | g :: gs => max (dimension g) (dimensions gs)

end

/-- The members of a collection; any other geometry is its own component. -/
def components : Geometry Float → List (Geometry Float)
  | .geometryCollection gs => gs
  | g => [g]

end Geometry

/-! ### Point location -/

inductive Loc where
  | outside | boundary | inside
deriving DecidableEq, Repr

/-- The turn at `q`: 0 for collinear points, 1 for counterclockwise, 2 for clockwise. -/
def orientation (p q r : Point Float) : ℕ :=
  let val := (q.y - p.y) * (r.x - q.x) - (q.x - p.x) * (r.y - q.y)
  if val.abs < eps then 0 else if val > 0 then 1 else 2

/-- Of a collinear point: it lies on the segment. -/
def onSegment (p q r : Point Float) : Bool :=
  r.x ≥ f64Min p.x q.x - eps && r.x ≤ f64Max p.x q.x + eps &&
    r.y ≥ f64Min p.y q.y - eps && r.y ≤ f64Max p.y q.y + eps

def pointOnSegment (p a b : Point Float) : Bool := orientation a b p == 0 && onSegment a b p

def pointOnLinestring (p : Point Float) (ls : LineString Float) : Bool :=
  ls.segments.any fun (a, b) => pointOnSegment p a b

def approxEqPoint (a b : Point Float) : Bool := (a.x - b.x).abs < eps && (a.y - b.y).abs < eps

/-- The segments of a ring, with the one that closes it where its ends differ. -/
def ringSegments (pts : List (Point Float)) : List (Point Float × Point Float) :=
  let closed := match pts.head?, pts.getLast? with
    | some p, some q => p.x == q.x && p.y == q.y
    | _, _ => false
  (pts.zip (pts.rotate 1)).take (if closed then pts.length - 1 else pts.length)

/-- Ray casting, after a test of the boundary. -/
def pointInRing (p : Point Float) (ring : LineString Float) : Loc :=
  match ring.points with
  | [] => .outside
  | [a] => if approxEqPoint p a then .boundary else .outside
  | [a, b] => if pointOnSegment p a b then .boundary else .outside
  | pts =>
    if (ringSegments pts).any fun (a, b) => pointOnSegment p a b then .boundary
    else
      let inside := (ringSegments pts).foldl (fun inside (a, b) =>
        if decide (a.y > p.y) != decide (b.y > p.y) then
          let xInter := a.x + (p.y - a.y) * (b.x - a.x) / (b.y - a.y)
          if xInter > p.x then !inside else inside
        else inside) false
      if inside then .inside else .outside

/-- A point inside the exterior ring, by the holes. -/
def pointInHoles (p : Point Float) : List (LineString Float) → Loc
  | [] => .inside
  | hole :: holes =>
    match pointInRing p hole with
    | .boundary => .boundary
    | .inside => .outside
    | .outside => pointInHoles p holes

def pointInPolygon (p : Point Float) (poly : Polygon Float) : Loc :=
  match pointInRing p poly.exterior with
  | .boundary => .boundary
  | .outside => .outside
  | .inside => pointInHoles p poly.interiors

/-! ### Intersections of simple geometries -/

def segmentsIntersect (p1 p2 p3 p4 : Point Float) : Bool :=
  let o1 := orientation p1 p2 p3
  let o2 := orientation p1 p2 p4
  let o3 := orientation p3 p4 p1
  let o4 := orientation p3 p4 p2
  (o1 != o2 && o3 != o4) || (o1 == 0 && onSegment p1 p2 p3) || (o2 == 0 && onSegment p1 p2 p4) ||
    (o3 == 0 && onSegment p3 p4 p1) || (o4 == 0 && onSegment p3 p4 p2)

def linestringIntersectsLinestring (a b : LineString Float) : Bool :=
  a.segments.any fun (p1, p2) => b.segments.any fun (p3, p4) => segmentsIntersect p1 p2 p3 p4

def linestringIntersectsPolygon (ls : LineString Float) (poly : Polygon Float) : Bool :=
  (ls.points.any fun p => pointInPolygon p poly != .outside) ||
    ls.segments.any fun (p1, p2) => poly.rings.any fun ring =>
      ring.segments.any fun (p3, p4) => segmentsIntersect p1 p2 p3 p4

def polygonIntersectsPolygon (a b : Polygon Float) : Bool :=
  (a.exterior.points.any fun p => pointInPolygon p b != .outside) ||
    (b.exterior.points.any fun p => pointInPolygon p a != .outside) ||
    a.rings.any fun ringA => b.rings.any fun ringB => linestringIntersectsLinestring ringA ringB

/-! ### Distances of simple geometries -/

def pointSegmentDistance (p a b : Point Float) : Float :=
  let ab : Point Float := ⟨b.x - a.x, b.y - a.y⟩
  let ap : Point Float := ⟨p.x - a.x, p.y - a.y⟩
  let abLen2 := ab.x * ab.x + ab.y * ab.y
  if abLen2 < eps then p.distance a
  else
    let t := clamp ((ap.x * ab.x + ap.y * ab.y) / abLen2) 0 1
    p.distance ⟨a.x + t * ab.x, a.y + t * ab.y⟩

def pointLinestringDistance (p : Point Float) (ls : LineString Float) : Float :=
  match ls.points with
  | [] => infinity
  | [q] => p.distance q
  | _ => ls.segments.foldl (fun min (a, b) => f64Min min (pointSegmentDistance p a b)) infinity

def linestringLinestringDistance (a b : LineString Float) : Float :=
  if a.points.isEmpty || b.points.isEmpty then infinity
  else
    let min := a.points.foldl (fun min p => f64Min min (pointLinestringDistance p b)) infinity
    b.points.foldl (fun min p => f64Min min (pointLinestringDistance p a)) min

def pointPolygonDistance (p : Point Float) (poly : Polygon Float) : Float :=
  match pointInPolygon p poly with
  | .outside => poly.rings.foldl (fun min ring => f64Min min (pointLinestringDistance p ring)) infinity
  | _ => 0

def linestringPolygonDistance (ls : LineString Float) (poly : Polygon Float) : Float :=
  let min := ls.points.foldl (fun min p => f64Min min (pointPolygonDistance p poly)) infinity
  poly.rings.foldl (fun min ring => f64Min min (linestringLinestringDistance ls ring)) min

def polygonPolygonDistance (a b : Polygon Float) : Float :=
  let min := a.exterior.points.foldl (fun min p => f64Min min (pointPolygonDistance p b)) infinity
  b.exterior.points.foldl (fun min p => f64Min min (pointPolygonDistance p a)) min

/-! ### Equality -/

/-- The points are the same, in the same or the reverse order. -/
def linestringSameSet (a b : LineString Float) : Bool :=
  a.points.length == b.points.length && (((a.points.zip b.points).all fun (p, q) => approxEqPoint p q) ||
      (a.points.zip b.points.reverse).all fun (p, q) => approxEqPoint p q)

def polygonSameSet (a b : Polygon Float) : Bool :=
  a.interiors.length == b.interiors.length && linestringSameSet a.exterior b.exterior &&
    a.interiors.all fun ha => b.interiors.any fun hb => linestringSameSet ha hb

mutual

def equals : Geometry Float → Geometry Float → Bool
  | .point p, .point q => approxEqPoint p q
  | .lineString a, .lineString b => linestringSameSet a b
  | .polygon a, .polygon b => polygonSameSet a b
  | .multiPoint a, .multiPoint b =>
    a.points.length == b.points.length && a.points.all fun p => b.points.any fun q => approxEqPoint p q
  | .multiLineString a, .multiLineString b =>
    a.linestrings.length == b.linestrings.length &&
      a.linestrings.all fun la => b.linestrings.any fun lb => linestringSameSet la lb
  | .multiPolygon a, .multiPolygon b =>
    a.polygons.length == b.polygons.length &&
      a.polygons.all fun pa => b.polygons.any fun pb => polygonSameSet pa pb
  | .geometryCollection a, .geometryCollection b => a.length == b.length && allEqual a b
  | _, _ => false

/-- Every geometry of the first list equals one of the second. -/
def allEqual : List (Geometry Float) → List (Geometry Float) → Bool
  | [], _ => true
  | g :: gs, hs => (hs.any fun h => equals g h) && allEqual gs hs

end

/-! ### The predicates -/

/-- The exact test, with the test for components as a parameter. -/
def intersectsExact (intersects : Geometry Float → Geometry Float → Option Bool) :
    Geometry Float → Geometry Float → Option Bool
  | .point p, .point q => some (approxEqPoint p q)
  | .point p, .lineString ls => some (pointOnLinestring p ls)
  | .point p, .polygon poly => some (pointInPolygon p poly != .outside)
  | .lineString ls, .point p => some (pointOnLinestring p ls)
  | .lineString a, .lineString b => some (linestringIntersectsLinestring a b)
  | .lineString ls, .polygon poly => some (linestringIntersectsPolygon ls poly)
  | .polygon poly, .point p => some (pointInPolygon p poly != .outside)
  | .polygon poly, .lineString ls => some (linestringIntersectsPolygon ls poly)
  | .polygon a, .polygon b => some (polygonIntersectsPolygon a b)
  | a, b => a.components.anyM fun ga => b.components.anyM fun gb => intersects ga gb

/-- The boxes rule an intersection out. -/
def boxesApart (a b : Geometry Float) : Bool :=
  match a.boundingBox, b.boundingBox with
  | some ba, some bb => !ba.intersects bb
  | _, _ => false

def intersects : ℕ → Geometry Float → Geometry Float → Option Bool
  | 0, _, _ => none
  | depth + 1, a, b =>
    if !a.isValid || !b.isValid then some false
    else if boxesApart a b then some false
    else intersectsExact (intersects depth) a b

def disjoint (depth : ℕ) (a b : Geometry Float) : Option Bool := (intersects depth a b).map fun r => !r

mutual

def contains : ℕ → Geometry Float → Geometry Float → Option Bool
  | 0, _, _ => none
  | depth + 1, a, b =>
    match a, b with
    | .point p, .point q => some (approxEqPoint p q)
    | .polygon poly, .point p => some (pointInPolygon p poly == .inside)
    | .polygon poly, .lineString ls =>
      some ((ls.points.all fun p => pointInPolygon p poly == .inside) &&
        !poly.rings.any fun r => linestringIntersectsLinestring ls r)
    | .polygon a, .polygon b =>
      some ((b.exterior.points.all fun p => pointInPolygon p a == .inside) &&
        !a.rings.any fun ra => b.rings.any fun rb => linestringIntersectsLinestring ra rb)
    | .multiPolygon mp, other => mp.polygons.anyM fun p => contains depth (.polygon p) other
    | .geometryCollection gs, other => gs.anyM fun g => contains depth g other
    | a, b => within depth b a

/-- The inverse of `contains`. -/
def within : ℕ → Geometry Float → Geometry Float → Option Bool
  | 0, _, _ => none
  | depth + 1, a, b => contains depth b a

end

/-- The midpoint of a segment of the linestring is inside the polygon. -/
def linestringThroughPolygonInterior (ls : LineString Float) (poly : Polygon Float) : Bool :=
  ls.segments.any fun (p1, p2) =>
    pointInPolygon ⟨(p1.x + p2.x) / 2, (p1.y + p2.y) / 2⟩ poly == .inside

def pointsReachInterior (ls : LineString Float) (poly : Polygon Float) : Bool :=
  ls.points.any fun p => pointInPolygon p poly == .inside

def interiorsIntersect (depth : ℕ) : Geometry Float → Geometry Float → Option Bool
  | .polygon poly, .point p => some (pointInPolygon p poly == .inside)
  | .point p, .polygon poly => some (pointInPolygon p poly == .inside)
  | .polygon a, .polygon b =>
    some (pointsReachInterior a.exterior b || pointsReachInterior b.exterior a ||
      (a.rings.any fun ra => linestringThroughPolygonInterior ra b) ||
      b.rings.any fun rb => linestringThroughPolygonInterior rb a)
  | .polygon poly, .lineString ls =>
    some (pointsReachInterior ls poly || linestringThroughPolygonInterior ls poly)
  | .lineString ls, .polygon poly =>
    some (pointsReachInterior ls poly || linestringThroughPolygonInterior ls poly)
  | .point p, .point q => some (approxEqPoint p q)
  | a, b => intersectsExact (intersects depth) a b

def touches (depth : ℕ) (a b : Geometry Float) : Option Bool := do
  if !(← intersects depth a b) then return false
  if ← interiorsIntersect depth a b then return false
  return true

def overlaps (depth : ℕ) (a b : Geometry Float) : Option Bool := do
  if a.dimension != b.dimension then return false
  if !(← interiorsIntersect depth a b) then return false
  if equals a b then return false
  if ← contains depth a b then return false
  if ← contains depth b a then return false
  return true

def distance : ℕ → Geometry Float → Geometry Float → Option Float
  | 0, _, _ => none
  | depth + 1, a, b =>
    if !a.isValid || !b.isValid then some (0 / 0)
    else
      match a, b with
      | .point p, .point q => some (p.distance q)
      | .point p, .lineString ls => some (pointLinestringDistance p ls)
      | .lineString ls, .point p => some (pointLinestringDistance p ls)
      | .point p, .polygon poly => some (pointPolygonDistance p poly)
      | .polygon poly, .point p => some (pointPolygonDistance p poly)
      | .lineString a, .lineString b => some (linestringLinestringDistance a b)
      | .lineString ls, .polygon poly => some (linestringPolygonDistance ls poly)
      | .polygon poly, .lineString ls => some (linestringPolygonDistance ls poly)
      | .polygon a, .polygon b => some (polygonPolygonDistance a b)
      | a, b =>
        a.components.foldlM (fun min ga => b.components.foldlM (fun min gb => do
          let d ← distance depth ga gb
          return if d < min then d else min) min) infinity

end CenDB.Spatial
