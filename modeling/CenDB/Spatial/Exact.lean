import CenDB.Spatial.Geometry
import CenDB.Lib.EvenOdd

/-! # Spatial predicates over exact numbers

The predicates for points, linestrings and polygons, over rational coordinates.  These are finite, so the
tests for valid coordinates are left out.

Distances are given as their squares, with `⊤` for the infinite one: the code compares square roots and takes
the least of them, which does not depend on the roots.  `contains` and `within` call each other for the pairs
of kinds that neither handles; as in the model over binary64 numbers, they are `none` when the
nested calls that are granted do not suffice. -/

namespace CenDB.Spatial.Exact

open List

def eps : ℚ := 1 / 10 ^ 12

inductive Shape where
  | point (p : Point ℚ)
  | lineString (ls : LineString ℚ)
  | polygon (poly : Polygon ℚ)
deriving DecidableEq, Repr

/-! ### Bounding boxes -/

structure BoundingBox where
  minX : ℚ
  minY : ℚ
  maxX : ℚ
  maxY : ℚ
deriving DecidableEq, Repr

namespace BoundingBox

def fromPoint (p : Point ℚ) : BoundingBox := ⟨p.x, p.y, p.x, p.y⟩

/-- The two boxes share a point. -/
def intersects (a b : BoundingBox) : Bool :=
  !(a.maxX < b.minX || a.minX > b.maxX || a.maxY < b.minY || a.minY > b.maxY)

/-- The second box lies in the first. -/
def containsBbox (a b : BoundingBox) : Bool :=
  b.minX ≥ a.minX && b.maxX ≤ a.maxX && b.minY ≥ a.minY && b.maxY ≤ a.maxY

/-- The box, grown to take the point in; where there is none yet, the box of the point. -/
def grow (acc : Option BoundingBox) (p : Point ℚ) : Option BoundingBox :=
  match acc with
  | none => some (.fromPoint p)
  | some box => some ⟨min box.minX p.x, min box.minY p.y, max box.maxX p.x, max box.maxY p.y⟩

end BoundingBox

def lineBoundingBox (ls : LineString ℚ) : Option BoundingBox := ls.points.foldl BoundingBox.grow none

def Shape.boundingBox : Shape → Option BoundingBox
  | .point p => some (.fromPoint p)
  | .lineString ls => lineBoundingBox ls
  | .polygon poly => lineBoundingBox poly.exterior

/-! ### Point location -/

inductive Loc where
  | outside | boundary | inside
deriving DecidableEq, Repr

/-- The turn at `q`: 0 for collinear points, 1 for counterclockwise, 2 for clockwise. -/
def orientation (p q r : Point ℚ) : ℕ :=
  let val := (q.y - p.y) * (r.x - q.x) - (q.x - p.x) * (r.y - q.y)
  if |val| < eps then 0 else if val > 0 then 1 else 2

/-- Of a collinear point: it lies on the segment. -/
def onSegment (p q r : Point ℚ) : Bool :=
  r.x ≥ min p.x q.x - eps && r.x ≤ max p.x q.x + eps && r.y ≥ min p.y q.y - eps && r.y ≤ max p.y q.y + eps

def pointOnSegment (p a b : Point ℚ) : Bool := orientation a b p == 0 && onSegment a b p

/-- The consecutive pairs of points. -/
def segments (ls : LineString ℚ) : List (Point ℚ × Point ℚ) := ls.points.zip ls.points.tail

def pointOnLinestring (p : Point ℚ) (ls : LineString ℚ) : Bool :=
  (segments ls).any fun (a, b) => pointOnSegment p a b

def approxEqPoint (a b : Point ℚ) : Bool := |a.x - b.x| < eps && |a.y - b.y| < eps

/-- The segments of a ring, with the one that closes it where its ends differ. -/
def ringSegments (pts : List (Point ℚ)) : List (Point ℚ × Point ℚ) :=
  (pts.zip (pts.rotate 1)).take (if pts.head? = pts.getLast? then pts.length - 1 else pts.length)

/-- Ray casting, after a test of the boundary. -/
def pointInRing (p : Point ℚ) (ring : LineString ℚ) : Loc :=
  match ring.points with
  | [] => .outside
  | [a] => if approxEqPoint p a then .boundary else .outside
  | [a, b] => if pointOnSegment p a b then .boundary else .outside
  | pts =>
    if (ringSegments pts).any fun (a, b) => pointOnSegment p a b then .boundary
    else
      let inside := (ringSegments pts).foldl (fun inside (a, b) =>
        if decide (a.y > p.y) != decide (b.y > p.y) then
          let xInter := a.x + (p.y - a.y) * (b.x - a.x) / (b.y - a.y)
          if xInter > p.x then !inside else inside
        else inside) false
      if inside then .inside else .outside

/-- A point inside the exterior ring, by the holes. -/
def pointInHoles (p : Point ℚ) : List (LineString ℚ) → Loc
  | [] => .inside
  | hole :: holes =>
    match pointInRing p hole with
    | .boundary => .boundary
    | .inside => .outside
    | .outside => pointInHoles p holes

def pointInPolygon (p : Point ℚ) (poly : Polygon ℚ) : Loc :=
  match pointInRing p poly.exterior with
  | .boundary => .boundary
  | .outside => .outside
  | .inside => pointInHoles p poly.interiors

/-! ### Intersections -/

def segmentsIntersect (p1 p2 p3 p4 : Point ℚ) : Bool :=
  let o1 := orientation p1 p2 p3
  let o2 := orientation p1 p2 p4
  let o3 := orientation p3 p4 p1
  let o4 := orientation p3 p4 p2
  (o1 != o2 && o3 != o4) || (o1 == 0 && onSegment p1 p2 p3) || (o2 == 0 && onSegment p1 p2 p4) ||
    (o3 == 0 && onSegment p3 p4 p1) || (o4 == 0 && onSegment p3 p4 p2)

def linestringIntersectsLinestring (a b : LineString ℚ) : Bool :=
  (segments a).any fun (p1, p2) => (segments b).any fun (p3, p4) => segmentsIntersect p1 p2 p3 p4

def linestringIntersectsPolygon (ls : LineString ℚ) (poly : Polygon ℚ) : Bool :=
  (ls.points.any fun p => pointInPolygon p poly != .outside) ||
    (segments ls).any fun (p1, p2) => poly.rings.any fun ring =>
      (segments ring).any fun (p3, p4) => segmentsIntersect p1 p2 p3 p4

def polygonIntersectsPolygon (a b : Polygon ℚ) : Bool :=
  (a.exterior.points.any fun p => pointInPolygon p b != .outside) ||
    (b.exterior.points.any fun p => pointInPolygon p a != .outside) ||
    a.rings.any fun ringA => (segments ringA).any fun (p1, p2) => b.rings.any fun ringB =>
      (segments ringB).any fun (p3, p4) => segmentsIntersect p1 p2 p3 p4

def intersectsExact : Shape → Shape → Bool
  | .point p, .point q => approxEqPoint p q
  | .point p, .lineString ls => pointOnLinestring p ls
  | .point p, .polygon poly => pointInPolygon p poly != .outside
  | .lineString ls, .point p => pointOnLinestring p ls
  | .lineString a, .lineString b => linestringIntersectsLinestring a b
  | .lineString ls, .polygon poly => linestringIntersectsPolygon ls poly
  | .polygon poly, .point p => pointInPolygon p poly != .outside
  | .polygon poly, .lineString ls => linestringIntersectsPolygon ls poly
  | .polygon a, .polygon b => polygonIntersectsPolygon a b

/-- The boxes rule an intersection out. -/
def boxesApart (a b : Shape) : Bool :=
  match a.boundingBox, b.boundingBox with
  | some ba, some bb => !ba.intersects bb
  | _, _ => false

def intersects (a b : Shape) : Bool := if boxesApart a b then false else intersectsExact a b

/-! ### Containment -/

mutual

def contains : ℕ → Shape → Shape → Option Bool
  | 0, _, _ => none
  | depth + 1, a, b =>
    match a, b with
    | .point p, .point q => some (approxEqPoint p q)
    | .polygon poly, .point p => some (pointInPolygon p poly == .inside)
    | .polygon poly, .lineString ls =>
      some ((ls.points.all fun p => pointInPolygon p poly == .inside) &&
        !poly.rings.any fun r => linestringIntersectsLinestring ls r)
    | .polygon a, .polygon b =>
      some ((b.exterior.points.all fun p => pointInPolygon p a == .inside) &&
        !a.rings.any fun ra => b.rings.any fun rb => linestringIntersectsLinestring ra rb)
    | a, b => within depth b a

/-- The inverse of `contains`. -/
def within : ℕ → Shape → Shape → Option Bool
  | 0, _, _ => none
  | depth + 1, a, b => contains depth b a

end

/-- The call of `contains` returns, and with true. -/
def Contains (a b : Shape) : Prop := ∃ depth, contains depth a b = some true

/-! ### Distances -/

/-- The square of the Euclidean distance. -/
def pointDistance (p q : Point ℚ) : ℚ :=
  let dx := p.x - q.x
  let dy := p.y - q.y
  dx * dx + dy * dy

/-- The number, moved into the interval. -/
def clamp (x lo hi : ℚ) : ℚ := if x < lo then lo else if x > hi then hi else x

def pointSegmentDistance (p a b : Point ℚ) : ℚ :=
  let ab : Point ℚ := ⟨b.x - a.x, b.y - a.y⟩
  let ap : Point ℚ := ⟨p.x - a.x, p.y - a.y⟩
  let abLen2 := ab.x * ab.x + ab.y * ab.y
  if abLen2 < eps then pointDistance p a
  else
    let t := clamp ((ap.x * ab.x + ap.y * ab.y) / abLen2) 0 1
    pointDistance p ⟨a.x + t * ab.x, a.y + t * ab.y⟩

/-- The least of the values, of the first one and those of the list. -/
def least {α : Type} (first : WithTop ℚ) (f : α → WithTop ℚ) (l : List α) : WithTop ℚ :=
  l.foldl (fun m a => min m (f a)) first

def pointLinestringDistance (p : Point ℚ) (ls : LineString ℚ) : WithTop ℚ :=
  match ls.points with
  | [] => ⊤
  | [q] => pointDistance p q
  | _ => least ⊤ (fun s : Point ℚ × Point ℚ => pointSegmentDistance p s.1 s.2) (segments ls)

def linestringLinestringDistance (a b : LineString ℚ) : WithTop ℚ :=
  if a.points.isEmpty || b.points.isEmpty then ⊤
  else least (least ⊤ (fun p => pointLinestringDistance p b) a.points) (fun p => pointLinestringDistance p a) b.points

def pointPolygonDistance (p : Point ℚ) (poly : Polygon ℚ) : WithTop ℚ :=
  match pointInPolygon p poly with
  | .inside => 0
  | .boundary => 0
  | .outside => least ⊤ (pointLinestringDistance p) poly.rings

def linestringPolygonDistance (ls : LineString ℚ) (poly : Polygon ℚ) : WithTop ℚ :=
  least (least ⊤ (fun p => pointPolygonDistance p poly) ls.points) (linestringLinestringDistance ls) poly.rings

def polygonPolygonDistance (a b : Polygon ℚ) : WithTop ℚ :=
  least (least ⊤ (fun p => pointPolygonDistance p b) a.exterior.points) (fun p => pointPolygonDistance p a)
    b.exterior.points

def distance : Shape → Shape → WithTop ℚ
  | .point p, .point q => pointDistance p q
  | .point p, .lineString ls => pointLinestringDistance p ls
  | .lineString ls, .point p => pointLinestringDistance p ls
  | .point p, .polygon poly => pointPolygonDistance p poly
  | .polygon poly, .point p => pointPolygonDistance p poly
  | .lineString a, .lineString b => linestringLinestringDistance a b
  | .lineString ls, .polygon poly => linestringPolygonDistance ls poly
  | .polygon poly, .lineString ls => linestringPolygonDistance ls poly
  | .polygon a, .polygon b => polygonPolygonDistance a b

/-! ### Rings -/

/-- The coordinates. -/
def pair (p : Point ℚ) : ℚ × ℚ := (p.x, p.y)

@[simp] theorem pair_fst (p : Point ℚ) : (pair p).1 = p.x := rfl

@[simp] theorem pair_snd (p : Point ℚ) : (pair p).2 = p.y := rfl

theorem pair_injective : Function.Injective pair := fun p q h => by
  cases p
  cases q
  cases h
  rfl

/-- The edges of a ring, as pairs of coordinates. -/
def edges (ring : LineString ℚ) : List ((ℚ × ℚ) × (ℚ × ℚ)) :=
  (ringSegments ring.points).map (Prod.map pair pair)

theorem ringSegments_eq_cycle (pts : List (Point ℚ)) :
    ringSegments pts = EvenOdd.cycle (if pts.head? = pts.getLast? then pts.dropLast else pts) := by
  rw [ringSegments, EvenOdd.cycle]
  split_ifs with hclosed
  · cases pts with
    | nil => rfl
    | cons a l =>
      rcases eq_nil_or_concat l with rfl | ⟨m, b, rfl⟩
      · rfl
      · rw [head?_cons, concat_eq_append, ← cons_append, getLast?_append,
          getLast?_singleton, Option.some_or, Option.some_inj] at hclosed
        subst hclosed
        rw [concat_eq_append, ← cons_append, dropLast_concat, cons_append,
          rotate_cons_succ, rotate_zero, rotate_cons_succ, rotate_zero,
          ← cons_append, zip_append (by simp), take_append_of_le_length (by simp)]
        exact take_of_length_le (by simp)
  · simp

theorem edges_eq_cycle (ring : LineString ℚ) : ∃ vertices, edges ring = EvenOdd.cycle vertices := by
  rw [edges, ringSegments_eq_cycle, EvenOdd.cycle_map]
  exact ⟨_, rfl⟩

theorem closed_edges (ring : LineString ℚ) : EvenOdd.Closed (edges ring) := by
  obtain ⟨vertices, h⟩ := edges_eq_cycle ring
  rw [h]
  exact EvenOdd.closed_cycle vertices

/-- The ends of the segments are points of the ring. -/
theorem ends_of_mem_ringSegments {pts : List (Point ℚ)} {s : Point ℚ × Point ℚ} (h : s ∈ ringSegments pts) :
    s.1 ∈ pts ∧ s.2 ∈ pts := by
  have hzip := of_mem_zip (mem_of_mem_take h)
  exact ⟨hzip.1, mem_rotate.mp hzip.2⟩

/-- The ray from a point meets the two directions of a segment alike. -/
theorem parity_pair_back (p a b : ℚ × ℚ) : EvenOdd.parity [(a, b), (b, a)] p = false := by
  rw [EvenOdd.parity, EvenOdd.odd_cons, EvenOdd.odd_cons, EvenOdd.odd_nil, Bool.xor_false,
    EvenOdd.crosses_comm p b a, Bool.xor_self]

/-- A ring of fewer than three points has nothing inside. -/
theorem parity_of_short {ring : LineString ℚ} (h : ring.points.length < 3) (p : ℚ × ℚ) :
    EvenOdd.parity (edges ring) p = false := by
  obtain ⟨pts⟩ := ring
  rcases pts with _ | ⟨a, _ | ⟨b, _ | ⟨c, l⟩⟩⟩
  · rfl
  · simp [edges, ringSegments, EvenOdd.parity]
  · rw [edges, ringSegments_eq_cycle]
    split_ifs with hclosed
    · simp [EvenOdd.cycle, EvenOdd.parity, EvenOdd.crosses]
    · exact parity_pair_back p (pair a) (pair b)
  · rw [length_cons, length_cons, length_cons] at h
    omega

/-- The loop over the segments toggles at those that the ray crosses. -/
theorem castRay_eq (p : Point ℚ) (l : List (Point ℚ × Point ℚ)) : l.foldl (fun inside (a, b) =>
      if decide (a.y > p.y) != decide (b.y > p.y) then
        let xInter := a.x + (p.y - a.y) * (b.x - a.x) / (b.y - a.y)
        if xInter > p.x then !inside else inside
      else inside) false = EvenOdd.parity (l.map (Prod.map pair pair)) (pair p) := by
  have hstep : (fun (inside : Bool) ((a, b) : Point ℚ × Point ℚ) =>
      if decide (a.y > p.y) != decide (b.y > p.y) then
        let xInter := a.x + (p.y - a.y) * (b.x - a.x) / (b.y - a.y)
        if xInter > p.x then !inside else inside
      else inside) =
      fun inside s => if EvenOdd.crosses (pair p) (pair s.1) (pair s.2) then !inside else inside := by
    funext inside ⟨a, b⟩
    have hcrosses : EvenOdd.crosses (pair p) (pair a) (pair b) = ((decide (a.y > p.y) != decide (b.y > p.y)) &&
          decide (a.x + (p.y - a.y) * (b.x - a.x) / (b.y - a.y) > p.x)) := rfl
    dsimp only
    rw [hcrosses]
    by_cases hspans : (decide (a.y > p.y) != decide (b.y > p.y)) = true
    · simp [hspans]
    · simp [hspans]
  rw [hstep, EvenOdd.foldl_toggle, Bool.false_xor, EvenOdd.parity]
  induction l with
  | nil => rfl
  | cons s l ih => rw [EvenOdd.odd_cons, ih, map_cons, EvenOdd.odd_cons, Prod.map_fst, Prod.map_snd]

/-- **A point off the boundary is inside a ring by the even-odd rule.** -/
theorem pointInRing_eq_inside_iff (p : Point ℚ) (ring : LineString ℚ) : pointInRing p ring = .inside ↔
      pointInRing p ring ≠ .boundary ∧ EvenOdd.parity (edges ring) (pair p) = true := by
  by_cases hshort : ring.points.length < 3
  · rw [parity_of_short hshort]
    obtain ⟨pts⟩ := ring
    rcases pts with _ | ⟨a, _ | ⟨b, _ | ⟨c, l⟩⟩⟩
    · simp [pointInRing]
    · simp only [pointInRing]
      split_ifs <;> simp
    · simp only [pointInRing]
      split_ifs <;> simp
    · rw [length_cons, length_cons, length_cons] at hshort
      omega
  · obtain ⟨pts⟩ := ring
    rcases pts with _ | ⟨a, _ | ⟨b, _ | ⟨c, l⟩⟩⟩
    · simp at hshort
    · simp at hshort
    · simp at hshort
    · simp only [pointInRing, castRay_eq, edges]
      split_ifs with hboundary hinside
      · simp
      · simp [hinside]
      · simp [hinside]

/-! ### Segments -/

/-- The distance to a segment is that to one of its points. -/
theorem exists_nearest (p a b : Point ℚ) : ∃ q : Point ℚ, pair q ∈ segment ℚ (pair a) (pair b) ∧
    pointSegmentDistance p a b = pointDistance p q ∧ (pointDistance b a < eps → q = a) := by
  by_cases hshort : pointDistance b a < eps
  · exact ⟨a, left_mem_segment ℚ _ _, if_pos hshort, fun _ => rfl⟩
  · refine ⟨_, ?_, if_neg hshort, fun h => absurd h hshort⟩
    rw [segment_eq_image']
    refine ⟨_, ?_, rfl⟩
    rw [clamp]
    split_ifs with hlow hhigh
    · simp
    · simp
    · exact ⟨not_lt.mp hlow, not_lt.mp hhigh⟩

theorem pointDistance_nonneg (p q : Point ℚ) : 0 ≤ pointDistance p q :=
  add_nonneg (mul_self_nonneg _) (mul_self_nonneg _)

theorem pointDistance_eq_zero_iff {p q : Point ℚ} : pointDistance p q = 0 ↔ p = q := by
  constructor
  · intro h
    obtain ⟨hx, hy⟩ := (add_eq_zero_iff_of_nonneg (mul_self_nonneg _) (mul_self_nonneg _)).mp h
    exact pair_injective (Prod.ext (sub_eq_zero.mp (mul_self_eq_zero.mp hx))
      (sub_eq_zero.mp (mul_self_eq_zero.mp hy)))
  · rintro rfl
    simp [pointDistance]

/-! ### Least distances -/

variable {α : Type} {first c : WithTop ℚ} {f : α → WithTop ℚ} {l : List α}

theorem least_le_iff : least first f l ≤ c ↔ first ≤ c ∨ ∃ a ∈ l, f a ≤ c := by
  induction l generalizing first with
  | nil => simp [least]
  | cons a l ih =>
    have hstep : least first f (a :: l) = least (min first (f a)) f l := rfl
    rw [hstep, ih, min_le_iff, exists_mem_cons_iff, or_assoc]

theorem le_least (hfirst : c ≤ first) (hl : ∀ a ∈ l, c ≤ f a) : c ≤ least first f l := by
  induction l generalizing first with
  | nil => exact hfirst
  | cons a l ih =>
    rw [forall_mem_cons] at hl
    exact ih (le_min hfirst hl.1) hl.2

section
variable {c : ℚ}

variable {p : Point ℚ} {ls : LineString ℚ} {poly : Polygon ℚ}

theorem pointLinestringDistance_le_iff :
    pointLinestringDistance p ls ≤ (c : WithTop ℚ) ↔ (∃ q, ls.points = [q] ∧ pointDistance p q ≤ c) ∨
        ∃ s ∈ segments ls, pointSegmentDistance p s.1 s.2 ≤ c := by
  obtain ⟨pts⟩ := ls
  rcases pts with _ | ⟨a, _ | ⟨b, l⟩⟩
  · simp [pointLinestringDistance, segments]
  · simp [pointLinestringDistance, segments]
  · simp [pointLinestringDistance, least_le_iff]

theorem linestringLinestringDistance_le_iff {a b : LineString ℚ} :
    linestringLinestringDistance a b ≤ (c : WithTop ℚ) ↔
      (∃ p ∈ a.points, pointLinestringDistance p b ≤ c) ∨ ∃ p ∈ b.points, pointLinestringDistance p a ≤ c := by
  have hempty : ∀ p (ls : LineString ℚ), ls.points = [] → ¬pointLinestringDistance p ls ≤ (c : WithTop ℚ) :=
    fun p ls hls => by simp [pointLinestringDistance, hls]
  rw [linestringLinestringDistance]
  split_ifs with h
  · rw [Bool.or_eq_true, List.isEmpty_iff, List.isEmpty_iff] at h
    rcases h with h | h
    · simp [h, hempty _ a h]
    · simp [h, hempty _ b h]
  · simp [least_le_iff]

theorem pointPolygonDistance_le_iff (hc : 0 ≤ c) : pointPolygonDistance p poly ≤ (c : WithTop ℚ) ↔
      pointInPolygon p poly ≠ .outside ∨ ∃ ring ∈ poly.rings, pointLinestringDistance p ring ≤ c := by
  have hzero : (0 : WithTop ℚ) ≤ c := WithTop.coe_nonneg.mpr hc
  rw [pointPolygonDistance]
  cases pointInPolygon p poly <;> simp [least_le_iff, hzero]

theorem linestringPolygonDistance_le_iff (hc : 0 ≤ c) :
    linestringPolygonDistance ls poly ≤ (c : WithTop ℚ) ↔ (∃ p ∈ ls.points, pointInPolygon p poly ≠ .outside) ∨
        ∃ ring ∈ poly.rings, linestringLinestringDistance ls ring ≤ c := by
  rw [linestringPolygonDistance, least_le_iff, least_le_iff]
  simp only [WithTop.not_top_le_coe, false_or, pointPolygonDistance_le_iff hc]
  constructor
  · rintro (⟨p, hp, hin | ⟨ring, hring, hd⟩⟩ | h)
    · exact Or.inl ⟨p, hp, hin⟩
    · exact Or.inr ⟨ring, hring, linestringLinestringDistance_le_iff.mpr (Or.inl ⟨p, hp, hd⟩)⟩
    · exact Or.inr h
  · rintro (⟨p, hp, hin⟩ | h)
    · exact Or.inl ⟨p, hp, Or.inl hin⟩
    · exact Or.inr h

theorem polygonPolygonDistance_le_iff {a b : Polygon ℚ} : polygonPolygonDistance a b ≤ (c : WithTop ℚ) ↔
      (∃ p ∈ a.exterior.points, pointPolygonDistance p b ≤ c) ∨
        ∃ p ∈ b.exterior.points, pointPolygonDistance p a ≤ c := by simp [polygonPolygonDistance, least_le_iff]

end

end CenDB.Spatial.Exact
