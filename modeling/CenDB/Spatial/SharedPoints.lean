import CenDB.Spatial.Exact

/-! # Distances of geometries that share points

`distance` compares the vertices of each geometry with the other one.  Two geometries that meet only between
their vertices, such as two segments that cross, are at a positive distance for it, and so is a point on a
segment shorter than the tolerance, which counts as its first end. -/

namespace CenDB.Spatial.Exact

open List

/-! ### Points of geometries -/

def linePoints (ls : LineString ℚ) : Set (ℚ × ℚ) :=
  {z | (∃ p ∈ ls.points, pair p = z) ∨ ∃ s ∈ segments ls, z ∈ segment ℚ (pair s.1) (pair s.2)}

/-- The points of a ring, the closing segment included. -/
def ringPoints (ring : LineString ℚ) : Set (ℚ × ℚ) :=
  {z | (∃ p ∈ ring.points, pair p = z) ∨ z ∈ EvenOdd.trace (edges ring)}

/-- The points that the exterior ring encloses, without those strictly inside a hole. -/
def polygonPoints (poly : Polygon ℚ) : Set (ℚ × ℚ) :=
  {z | (z ∈ ringPoints poly.exterior ∨ EvenOdd.parity (edges poly.exterior) z = true) ∧
    ∀ hole ∈ poly.interiors, z ∈ ringPoints hole ∨ EvenOdd.parity (edges hole) z = false}

def Shape.pointSet : Shape → Set (ℚ × ℚ)
  | .point p => {pair p}
  | .lineString ls => linePoints ls
  | .polygon poly => polygonPoints poly

def Share (a b : Shape) : Prop := ∃ z ∈ a.pointSet, z ∈ b.pointSet

/-! ### Vertices -/

/-- The point is on the segment; one shorter than the tolerance counts as its first end. -/
def OnSegment (p a b : Point ℚ) : Prop :=
  if pointDistance b a < eps then p = a else pair p ∈ segment ℚ (pair a) (pair b)

def OnLine (p : Point ℚ) (ls : LineString ℚ) : Prop := ls.points = [p] ∨ ∃ s ∈ segments ls, OnSegment p s.1 s.2

def OnPolygon (p : Point ℚ) (poly : Polygon ℚ) : Prop :=
  pointInPolygon p poly ≠ .outside ∨ ∃ ring ∈ poly.rings, OnLine p ring

/-- A vertex of one geometry is on the other one; of two polygons, a vertex of an exterior ring. -/
def VertexTouches : Shape → Shape → Prop
  | .point p, .point q => p = q
  | .point p, .lineString ls => OnLine p ls
  | .lineString ls, .point p => OnLine p ls
  | .point p, .polygon poly => OnPolygon p poly
  | .polygon poly, .point p => OnPolygon p poly
  | .lineString a, .lineString b => (∃ p ∈ a.points, OnLine p b) ∨ ∃ p ∈ b.points, OnLine p a
  | .lineString ls, .polygon poly =>
    (∃ p ∈ ls.points, OnPolygon p poly) ∨ ∃ ring ∈ poly.rings, ∃ p ∈ ring.points, OnLine p ls
  | .polygon poly, .lineString ls =>
    (∃ p ∈ ls.points, OnPolygon p poly) ∨ ∃ ring ∈ poly.rings, ∃ p ∈ ring.points, OnLine p ls
  | .polygon a, .polygon b =>
    (∃ p ∈ a.exterior.points, OnPolygon p b) ∨ ∃ p ∈ b.exterior.points, OnPolygon p a

/-! ### Zero distances -/

variable {p : Point ℚ} {poly : Polygon ℚ}

variable {a b : Point ℚ} {ls : LineString ℚ}

/-- The projection of a point of a segment is the point. -/
theorem pointSegmentDistance_of_mem (hlong : ¬pointDistance b a < eps)
    (h : pair p ∈ segment ℚ (pair a) (pair b)) : pointSegmentDistance p a b = 0 := by
  have heps : (0 : ℚ) < eps := by norm_num [eps]
  have hpos : 0 < pointDistance b a := heps.trans_le (not_lt.mp hlong)
  rw [segment_eq_image'] at h
  obtain ⟨t, ⟨ht, ht'⟩, hp⟩ := h
  have hx : a.x + t * (b.x - a.x) = p.x := congrArg Prod.fst hp
  have hy : a.y + t * (b.y - a.y) = p.y := congrArg Prod.snd hp
  have hratio : ((p.x - a.x) * (b.x - a.x) + (p.y - a.y) * (b.y - a.y)) / pointDistance b a = t := by
    rw [div_eq_iff hpos.ne', pointDistance, ← hx, ← hy]
    ring
  have hclamp : clamp t 0 1 = t := by
    rw [clamp, if_neg (not_lt.mpr ht), if_neg (not_lt.mpr ht')]
  calc pointSegmentDistance p a b = pointDistance p ⟨a.x + t * (b.x - a.x), a.y + t * (b.y - a.y)⟩ := by
        refine (if_neg hlong).trans ?_
        dsimp only
        rw [pointDistance] at hratio
        rw [hratio, hclamp]
    _ = 0 := by rw [hx, hy, pointDistance_eq_zero_iff]

theorem pointSegmentDistance_le_zero_iff : pointSegmentDistance p a b ≤ 0 ↔ OnSegment p a b := by
  obtain ⟨q, hq, hdist, hshort⟩ := exists_nearest p a b
  have hzero : pointSegmentDistance p a b ≤ 0 → p = q := by
    intro h
    rw [hdist] at h
    exact pointDistance_eq_zero_iff.mp (le_antisymm h (pointDistance_nonneg p q))
  rw [OnSegment]
  split_ifs with hlen
  · refine ⟨fun h => (hzero h).trans (hshort hlen), fun h => ?_⟩
    rw [hdist, hshort hlen, h, pointDistance_eq_zero_iff.mpr rfl]
  · refine ⟨fun h => ?_, fun h => (pointSegmentDistance_of_mem hlen h).le⟩
    rw [hzero h]
    exact hq

theorem pointLinestringDistance_le_zero_iff :
    pointLinestringDistance p ls ≤ ((0 : ℚ) : WithTop ℚ) ↔ OnLine p ls := by
  rw [pointLinestringDistance_le_iff, OnLine]
  refine or_congr ?_ (by simp only [pointSegmentDistance_le_zero_iff])
  constructor
  · rintro ⟨q, hls, hq⟩
    rw [hls, pointDistance_eq_zero_iff.mp (le_antisymm hq (pointDistance_nonneg p q))]
  · exact fun hls => ⟨p, hls, (pointDistance_eq_zero_iff.mpr rfl).le⟩

theorem pointPolygonDistance_le_zero_iff :
    pointPolygonDistance p poly ≤ ((0 : ℚ) : WithTop ℚ) ↔ OnPolygon p poly := by
  simp only [pointPolygonDistance_le_iff le_rfl, pointLinestringDistance_le_zero_iff, OnPolygon]

theorem linestringLinestringDistance_le_zero_iff {a b : LineString ℚ} :
    linestringLinestringDistance a b ≤ ((0 : ℚ) : WithTop ℚ) ↔
      (∃ p ∈ a.points, OnLine p b) ∨ ∃ p ∈ b.points, OnLine p a := by
  simp only [linestringLinestringDistance_le_iff, pointLinestringDistance_le_zero_iff]

theorem linestringPolygonDistance_le_zero_iff : linestringPolygonDistance ls poly ≤ ((0 : ℚ) : WithTop ℚ) ↔
      (∃ p ∈ ls.points, OnPolygon p poly) ∨ ∃ ring ∈ poly.rings, ∃ p ∈ ring.points, OnLine p ls := by
  rw [linestringPolygonDistance_le_iff le_rfl]
  simp only [linestringLinestringDistance_le_zero_iff]
  constructor
  · rintro (⟨p, hp, hin⟩ | ⟨ring, hring, ⟨p, hp, hon⟩ | hvertex⟩)
    · exact Or.inl ⟨p, hp, Or.inl hin⟩
    · exact Or.inl ⟨p, hp, Or.inr ⟨ring, hring, hon⟩⟩
    · exact Or.inr ⟨ring, hring, hvertex⟩
  · rintro (⟨p, hp, hin | ⟨ring, hring, hon⟩⟩ | ⟨ring, hring, hvertex⟩)
    · exact Or.inl ⟨p, hp, hin⟩
    · exact Or.inr ⟨ring, hring, Or.inl ⟨p, hp, hon⟩⟩
    · exact Or.inr ⟨ring, hring, Or.inr hvertex⟩

theorem distance_nonneg (a b : Shape) : 0 ≤ distance a b := by
  have hpoint : ∀ p q, (0 : WithTop ℚ) ≤ pointDistance p q :=
    fun p q => WithTop.coe_nonneg.mpr (pointDistance_nonneg p q)
  have hline : ∀ p ls, 0 ≤ pointLinestringDistance p ls := by
    intro p ls
    rw [pointLinestringDistance]
    split
    · exact le_top
    · exact hpoint _ _
    · refine le_least le_top fun s _ => WithTop.coe_nonneg.mpr ?_
      obtain ⟨q, -, hdist, -⟩ := exists_nearest p s.1 s.2
      rw [hdist]
      exact pointDistance_nonneg p q
  have hlines : ∀ a b, 0 ≤ linestringLinestringDistance a b := by
    intro a b
    rw [linestringLinestringDistance]
    split_ifs
    · exact le_top
    · exact le_least (le_least le_top fun p _ => hline p b) fun p _ => hline p a
  have hpoly : ∀ p poly, 0 ≤ pointPolygonDistance p poly := by
    intro p poly
    rw [pointPolygonDistance]
    split
    · exact le_rfl
    · exact le_rfl
    · exact le_least le_top fun ring _ => hline p ring
  have hlinePoly : ∀ ls poly, 0 ≤ linestringPolygonDistance ls poly := fun ls poly =>
    le_least (le_least le_top fun p _ => hpoly p poly) fun ring _ => hlines ls ring
  rcases a with p | a | a <;> rcases b with q | b | b
  · exact hpoint p q
  · exact hline p b
  · exact hpoly p b
  · exact hline q a
  · exact hlines a b
  · exact hlinePoly a b
  · exact hpoly q a
  · exact hlinePoly b a
  · exact le_least (le_least le_top fun p _ => hpoly p b) fun p _ => hpoly p a

theorem distance_eq_zero (a b : Shape) : distance a b = 0 ↔ VertexTouches a b := by
  have hle : distance a b = 0 ↔ distance a b ≤ ((0 : ℚ) : WithTop ℚ) :=
    ⟨fun h => h.le, fun h => le_antisymm h (distance_nonneg a b)⟩
  rw [hle]
  rcases a with p | a | a <;> rcases b with q | b | b
  · exact WithTop.coe_le_coe.trans ⟨fun h => pointDistance_eq_zero_iff.mp (le_antisymm h
      (pointDistance_nonneg p q)), fun h => (pointDistance_eq_zero_iff.mpr h).le⟩
  · exact pointLinestringDistance_le_zero_iff
  · exact pointPolygonDistance_le_zero_iff
  · exact pointLinestringDistance_le_zero_iff
  · exact linestringLinestringDistance_le_zero_iff
  · exact linestringPolygonDistance_le_zero_iff
  · exact pointPolygonDistance_le_zero_iff
  · exact linestringPolygonDistance_le_zero_iff
  · exact polygonPolygonDistance_le_iff.trans (by simp only [pointPolygonDistance_le_zero_iff]; rfl)

/-! ### Shared points -/

/-- The geometries share points, but none of them is a vertex. -/
def MeetBetweenVertices (a b : Shape) : Prop := Share a b ∧ ¬VertexTouches a b

/-- **Geometries that share a point are at distance zero, unless they meet only between their vertices.** -/
theorem zero_on_shared_iff (a b : Shape) : (Share a b → distance a b = 0) ↔ ¬MeetBetweenVertices a b := by
  rw [distance_eq_zero, MeetBetweenVertices, not_and_not_right]

/-- The diagonals of a square. -/
def diagonal : Shape := .lineString ⟨[⟨0, 0⟩, ⟨2, 2⟩]⟩

def antidiagonal : Shape := .lineString ⟨[⟨0, 2⟩, ⟨2, 0⟩]⟩

/-- The diagonals cross in the middle of the square. -/
theorem diagonals_apart : ¬(Share diagonal antidiagonal → distance diagonal antidiagonal = 0) := by
  intro h
  have hshare : Share diagonal antidiagonal :=
    ⟨(1, 1), Or.inr ⟨_, mem_cons_self, 1 / 2, 1 / 2, by norm_num [pair]⟩,
      Or.inr ⟨_, mem_cons_self, 1 / 2, 1 / 2, by norm_num [pair]⟩⟩
  have hdistance : distance diagonal antidiagonal ≠ 0 := by decide +kernel
  exact hdistance (h hshare)

end CenDB.Spatial.Exact
