import CenDB.Spatial.Nesting

/-! # The spatial index

A list of entries, each with the bounding box of its geometry.  A query passes over the entries whose box rules
them out and tests the others.  The boxes are compared exactly and the predicates with a tolerance, so the
boxes rule out points that are equal only up to the tolerance; and the box of a polygon says nothing of
its holes, nor that of an empty one of anything.  `queries_exact_iff` says for which entries the queries agree
with the predicates. -/

namespace CenDB.Spatial.Exact

open List Function

structure RTreeEntry where
  bbox : BoundingBox
  id : ℕ
  geometry : Option Shape

structure RTree where
  entries : List RTreeEntry

/-- The box of the geometry; an empty one has that of the origin. -/
def entryBox (geom : Shape) : BoundingBox := geom.boundingBox.getD ⟨0, 0, 0, 0⟩

namespace RTree

def new : RTree := ⟨[]⟩

def insertGeometry (t : RTree) (id : ℕ) (geom : Shape) : RTree :=
  ⟨t.entries ++ [⟨entryBox geom, id, some geom⟩]⟩

/-- The index of some geometries, inserted in order. -/
def build (geoms : List (ℕ × Shape)) : RTree := geoms.foldl (fun t g => t.insertGeometry g.1 g.2) new

/-- The elements that pass a test, where every test returns. -/
def select {α : Type} (test : α → Option Bool) : List α → Option (List α)
  | [] => some []
  | a :: l => do
    let keep ← test a
    let rest ← select test l
    return if keep then a :: rest else rest

def queryIntersects (t : RTree) (geom : Shape) : List ℕ :=
  match geom.boundingBox with
  | none => []
  | some queryBbox =>
    (t.entries.filter fun e =>
      if !e.bbox.intersects queryBbox then false
      else match e.geometry with
        | some g => intersects g geom
        | none => true).map RTreeEntry.id

/-- Takes the number of nested calls that `contains` may make. -/
def queryContains (depth : ℕ) (t : RTree) (geom : Shape) : Option (List ℕ) :=
  match geom.boundingBox with
  | none => some []
  | some queryBbox =>
    (select (fun e =>
      if !e.bbox.containsBbox queryBbox then some false
      else match e.geometry with
        | some g => contains depth g geom
        | none => some true) t.entries).map (List.map RTreeEntry.id)

/-- The boxes are at most the distance apart. -/
def bboxWithinDistance (a b : BoundingBox) (dist : ℚ) : Bool :=
  let dx := if a.maxX < b.minX then b.minX - a.maxX else if b.maxX < a.minX then a.minX - b.maxX else 0
  let dy := if a.maxY < b.minY then b.minY - a.maxY else if b.maxY < a.minY then a.minY - b.maxY else 0
  dx * dx + dy * dy ≤ dist * dist

/-- A distance, given by its square, is at most a number. -/
def atMost (d : WithTop ℚ) (dist : ℚ) : Bool := decide (0 ≤ dist) && decide (d ≤ (dist * dist : ℚ))

/-- The results carry the squares of the distances. -/
def queryWithinDistance (t : RTree) (geom : Shape) (dist : ℚ) : List (ℕ × WithTop ℚ) :=
  match geom.boundingBox with
  | none => []
  | some queryBbox =>
    (t.entries.filterMap fun e =>
      if !bboxWithinDistance e.bbox queryBbox dist then none
      else
        let d := match e.geometry with
          | some g => distance g geom
          | none => distance (.point ⟨(e.bbox.minX + e.bbox.maxX) / 2, (e.bbox.minY + e.bbox.maxY) / 2⟩) geom
        if atMost d dist then some (e.id, d) else none).mergeSort fun a b => a.2 ≤ b.2

theorem entries_build (geoms : List (ℕ × Shape)) :
    (build geoms).entries = geoms.map fun g => ⟨entryBox g.2, g.1, some g.2⟩ := by
  have hfold : ∀ t : RTree, (geoms.foldl (fun t g => t.insertGeometry g.1 g.2) t).entries =
      t.entries ++ geoms.map fun g => ⟨entryBox g.2, g.1, some g.2⟩ := by
    induction geoms with
    | nil => simp
    | cons g geoms ih =>
      intro t
      rw [foldl_cons, ih, insertGeometry, map_cons, append_assoc, singleton_append]
  exact hfold new

theorem select_eq_some_iff {α : Type} {test : α → Option Bool} {l r : List α} :
    select test l = some r ↔ (∀ a ∈ l, test a ≠ none) ∧ l.filter (fun a => test a == some true) = r := by
  induction l generalizing r with
  | nil => simp [select]
  | cons a l ih =>
    rw [select, forall_mem_cons, filter_cons]
    cases ha : test a with
    | none => simp
    | some keep =>
      cases hl : select test l with
      | none =>
        have hne : ¬∀ a ∈ l, test a ≠ none := fun hall => by
          have hsome := ih.mpr ⟨hall, rfl⟩
          rw [hl] at hsome
          cases hsome
        simp [hne]
      | some rest =>
        obtain ⟨hall, hrest⟩ := ih.mp hl
        cases keep with
        | false | true =>
          simp only [Option.bind_eq_bind, Option.bind_some, Option.pure_def, Option.some_inj, hrest]
          exact ⟨fun h => ⟨⟨by simp, hall⟩, h⟩, fun h => h.2⟩

end RTree

/-! ### Boxes -/

namespace BoundingBox
variable {a b c : BoundingBox} {p q r : Point ℚ}

/-- The point is in the box. -/
def Has (a : BoundingBox) (p : Point ℚ) : Prop := (a.minX ≤ p.x ∧ p.x ≤ a.maxX) ∧ a.minY ≤ p.y ∧ p.y ≤ a.maxY

theorem containsBbox_iff : a.containsBbox b = true ↔
    (a.minX ≤ b.minX ∧ b.maxX ≤ a.maxX) ∧ a.minY ≤ b.minY ∧ b.maxY ≤ a.maxY := by
  simp [containsBbox, and_assoc]

theorem containsBbox_fromPoint : a.containsBbox (.fromPoint p) = true ↔ a.Has p := containsBbox_iff

/-- A box has the segments between its points. -/
theorem Has.segment (hp : a.Has p) (hq : a.Has q) (hr : pair r ∈ segment ℚ (pair p) (pair q)) : a.Has r := by
  obtain ⟨⟨hleft, hright⟩, hbelow, habove⟩ := EvenOdd.bounds_of_mem hr
  exact ⟨⟨(le_min hp.1.1 hq.1.1).trans hleft, hright.trans (max_le hp.1.2 hq.1.2)⟩,
    (le_min hp.2.1 hq.2.1).trans hbelow, habove.trans (max_le hp.2.2 hq.2.2)⟩

theorem foldl_grow (a : BoundingBox) (pts : List (Point ℚ)) (acc : BoundingBox) : ∃ box,
    pts.foldl grow (some acc) = some box ∧
      (a.containsBbox box = true ↔ a.containsBbox acc = true ∧ ∀ p ∈ pts, a.Has p) := by
  induction pts generalizing acc with
  | nil => exact ⟨acc, rfl, by simp⟩
  | cons p pts ih =>
    obtain ⟨box, hbox, hiff⟩ := ih ⟨min acc.minX p.x, min acc.minY p.y, max acc.maxX p.x, max acc.maxY p.y⟩
    refine ⟨box, hbox, hiff.trans ?_⟩
    rw [forall_mem_cons, ← and_assoc, containsBbox_iff, containsBbox_iff, Has, le_min_iff, le_min_iff,
      max_le_iff, max_le_iff]
    tauto

end BoundingBox

variable {ls : LineString ℚ} {box : BoundingBox}

/-- The box of a linestring is the least one that has its points. -/
theorem containsBbox_lineBoundingBox (h : lineBoundingBox ls = some box) (a : BoundingBox) :
    a.containsBbox box = true ↔ ∀ p ∈ ls.points, a.Has p := by
  obtain ⟨_ | ⟨p, pts⟩⟩ := ls
  · cases h
  · obtain ⟨box', hbox', hiff⟩ := BoundingBox.foldl_grow a pts (.fromPoint p)
    obtain rfl : box' = box := Option.some_inj.mp (hbox'.symm.trans h)
    rw [hiff, forall_mem_cons, BoundingBox.containsBbox_fromPoint]

theorem exists_lineBoundingBox (h : ls.points ≠ []) : ∃ box, lineBoundingBox ls = some box := by
  obtain ⟨_ | ⟨p, pts⟩⟩ := ls
  · exact absurd rfl h
  · obtain ⟨box, hbox, -⟩ := BoundingBox.foldl_grow (.fromPoint p) pts (.fromPoint p)
    exact ⟨box, hbox⟩

theorem lineBoundingBox_eq_none_iff : lineBoundingBox ls = none ↔ ls.points = [] := by
  constructor
  · intro h
    by_contra hne
    obtain ⟨box, hbox⟩ := exists_lineBoundingBox hne
    rw [h] at hbox
    cases hbox
  · intro h
    rw [lineBoundingBox, h]
    rfl

/-- The box that an entry for a linestring has. -/
def lineBox (ls : LineString ℚ) : BoundingBox := (lineBoundingBox ls).getD ⟨0, 0, 0, 0⟩

variable {p : Point ℚ} {dist : ℚ} {poly : Polygon ℚ}

theorem lineBox_has (hp : p ∈ ls.points) : (lineBox ls).Has p := by
  obtain ⟨box, hbox⟩ := exists_lineBoundingBox (ne_nil_of_mem hp)
  have hself : box.containsBbox box = true :=
    BoundingBox.containsBbox_iff.mpr ⟨⟨le_rfl, le_rfl⟩, le_rfl, le_rfl⟩
  rw [lineBox, hbox]
  exact (containsBbox_lineBoundingBox hbox box).mp hself p hp

theorem lineBox_has_segment {s : Point ℚ × Point ℚ} (hs : s ∈ segments ls) {q : Point ℚ}
    (hq : pair q ∈ segment ℚ (pair s.1) (pair s.2)) : (lineBox ls).Has q := by
  obtain ⟨hfst, hsnd⟩ := of_mem_zip hs
  exact (lineBox_has hfst).segment (lineBox_has (mem_of_mem_tail hsnd)) hq

/-- What is inside a ring is in its box. -/
theorem lineBox_has_inside {ring : LineString ℚ} (h : pointInRing p ring = .inside) : (lineBox ring).Has p := by
  have hodd := ((pointInRing_eq_inside_iff p ring).mp h).2
  have hends : ∀ e ∈ edges ring, ∃ a b, (lineBox ring).Has a ∧ (lineBox ring).Has b ∧ e = (pair a, pair b) := by
    intro e he
    obtain ⟨s, hs, rfl⟩ := List.mem_map.mp he
    obtain ⟨hfst, hsnd⟩ := ends_of_mem_ringSegments hs
    exact ⟨s.1, s.2, lineBox_has hfst, lineBox_has hsnd, rfl⟩
  refine ⟨⟨?_, ?_⟩, ?_, ?_⟩
  · obtain ⟨e, he, hle⟩ := EvenOdd.exists_left (closed_edges ring) hodd
    obtain ⟨a, b, ha, hb, rfl⟩ := hends e he
    exact (le_min ha.1.1 hb.1.1).trans hle
  · obtain ⟨e, he, hlt⟩ := EvenOdd.exists_right hodd
    obtain ⟨a, b, ha, hb, rfl⟩ := hends e he
    exact hlt.le.trans (max_le ha.1.2 hb.1.2)
  · obtain ⟨e, he, hle⟩ := EvenOdd.exists_below hodd
    obtain ⟨a, b, ha, hb, rfl⟩ := hends e he
    exact (le_min ha.2.1 hb.2.1).trans hle
  · obtain ⟨e, he, hle⟩ := EvenOdd.exists_above hodd
    obtain ⟨a, b, ha, hb, rfl⟩ := hends e he
    exact hle.trans (max_le ha.2.2 hb.2.2)

/-! ### Boxes apart -/

/-- All points of one box are further than the distance from those of the other. -/
def Apart (a b : BoundingBox) (dist : ℚ) : Prop := ∀ p q, a.Has p → b.Has q → ¬pointDistance p q ≤ dist * dist

theorem pointDistance_comm (p q : Point ℚ) : pointDistance p q = pointDistance q p := by
  dsimp only [pointDistance]
  ring

theorem Apart.symm {a b : BoundingBox} (h : Apart a b dist) : Apart b a dist := fun p q hp hq => by
  rw [pointDistance_comm]
  exact h q p hq hp

/-- The gap between two intervals is at most the difference of numbers in them. -/
theorem gap_le {lo hi lo' hi' x y : ℚ} (hx : lo ≤ x ∧ x ≤ hi) (hy : lo' ≤ y ∧ y ≤ hi') :
    let d := if hi < lo' then lo' - hi else if hi' < lo then lo - hi' else 0
    d * d ≤ (x - y) * (x - y) := by
  dsimp only
  split_ifs with hleft hright
  · have hle : lo' - hi ≤ y - x := by linarith
    have hnonneg : 0 ≤ lo' - hi := by linarith
    calc (lo' - hi) * (lo' - hi) ≤ (y - x) * (y - x) := mul_self_le_mul_self hnonneg hle
      _ = (x - y) * (x - y) := by ring
  · exact mul_self_le_mul_self (by linarith) (by linarith)
  · rw [mul_zero]
    exact mul_self_nonneg _

theorem apart_of_not_within {a b : BoundingBox} (h : RTree.bboxWithinDistance a b dist = false) :
    Apart a b dist := by
  intro p q hp hq hle
  have hgap := (add_le_add (gap_le hp.1 hq.1) (gap_le hp.2 hq.2)).trans hle
  exact of_decide_eq_false h hgap

section
variable {dist : ℚ} {p : Point ℚ} {ls a b : LineString ℚ}

/-- Apart from each other, linestrings are further than the distance. -/
theorem exists_near (h : pointLinestringDistance p ls ≤ ((dist * dist : ℚ) : WithTop ℚ)) :
    ∃ q, (lineBox ls).Has q ∧ pointDistance p q ≤ dist * dist := by
  rcases pointLinestringDistance_le_iff.mp h with ⟨q, hls, hq⟩ | ⟨s, hs, hle⟩
  · exact ⟨q, lineBox_has (by rw [hls]; exact mem_singleton_self q), hq⟩
  · obtain ⟨q, hq, hdist, -⟩ := exists_nearest p s.1 s.2
    exact ⟨q, lineBox_has_segment hs hq, hdist ▸ hle⟩

theorem pointLinestringDistance_of_apart {box : BoundingBox} (hp : box.Has p) (h : Apart box (lineBox ls) dist) :
    ¬pointLinestringDistance p ls ≤ ((dist * dist : ℚ) : WithTop ℚ) := fun hle => by
  obtain ⟨q, hq, hnear⟩ := exists_near hle
  exact h p q hp hq hnear

theorem linestringLinestringDistance_of_apart (h : Apart (lineBox a) (lineBox b) dist) :
    ¬linestringLinestringDistance a b ≤ ((dist * dist : ℚ) : WithTop ℚ) := fun hle => by
  rcases linestringLinestringDistance_le_iff.mp hle with ⟨p, hp, hnear⟩ | ⟨p, hp, hnear⟩
  · exact pointLinestringDistance_of_apart (lineBox_has hp) h hnear
  · exact pointLinestringDistance_of_apart (lineBox_has hp) h.symm hnear

end

/-! ### What the boxes do not tell -/

/-- The point is on the exterior ring up to the tolerance, or near a hole. -/
def NearPolygon (p : Point ℚ) (poly : Polygon ℚ) (dist : ℚ) : Prop :=
  pointInRing p poly.exterior = .boundary ∨
    ∃ hole ∈ poly.interiors, pointLinestringDistance p hole ≤ ((dist * dist : ℚ) : WithTop ℚ)

/-- Where a polygon may be near although its box is not: a vertex of one geometry on the exterior ring of the
other, up to the tolerance, or near one of its holes. -/
def Overreach (a b : Shape) (dist : ℚ) : Prop :=
  match a, b with
  | .point p, .polygon poly => NearPolygon p poly dist
  | .polygon poly, .point p => NearPolygon p poly dist
  | .lineString ls, .polygon poly => (∃ p ∈ ls.points, pointInRing p poly.exterior = .boundary) ∨
    ∃ hole ∈ poly.interiors, linestringLinestringDistance ls hole ≤ ((dist * dist : ℚ) : WithTop ℚ)
  | .polygon poly, .lineString ls => (∃ p ∈ ls.points, pointInRing p poly.exterior = .boundary) ∨
    ∃ hole ∈ poly.interiors, linestringLinestringDistance ls hole ≤ ((dist * dist : ℚ) : WithTop ℚ)
  | .polygon a, .polygon b =>
    (∃ p ∈ a.exterior.points, NearPolygon p b dist) ∨ ∃ p ∈ b.exterior.points, NearPolygon p a dist
  | _, _ => False

section
variable {dist : ℚ} {box : BoundingBox} {p : Point ℚ}

variable {poly : Polygon ℚ}

/-- Out of its box, a point can only be on the boundary of a polygon. -/
theorem pointInPolygon_of_apart (hp : box.Has p) (h : Apart box (lineBox poly.exterior) dist) :
    pointInPolygon p poly ≠ .outside ↔ pointInRing p poly.exterior = .boundary := by
  have hoff : pointInRing p poly.exterior ≠ .inside := fun hinside => by
    refine h p p hp (lineBox_has_inside hinside) ?_
    rw [pointDistance_eq_zero_iff.mpr rfl]
    exact mul_self_nonneg dist
  rw [pointInPolygon]
  cases hloc : pointInRing p poly.exterior with
  | boundary | outside => simp
  | inside => exact absurd hloc hoff

theorem pointPolygonDistance_of_apart (hp : box.Has p) (h : Apart box (lineBox poly.exterior) dist) :
    pointPolygonDistance p poly ≤ ((dist * dist : ℚ) : WithTop ℚ) ↔ NearPolygon p poly dist := by
  rw [pointPolygonDistance_le_iff (mul_self_nonneg dist), pointInPolygon_of_apart hp h, Polygon.rings,
    exists_mem_cons_iff, NearPolygon, or_iff_right (pointLinestringDistance_of_apart hp h)]

theorem linestringPolygonDistance_of_apart {ls : LineString ℚ}
    (h : Apart (lineBox ls) (lineBox poly.exterior) dist) :
    linestringPolygonDistance ls poly ≤ ((dist * dist : ℚ) : WithTop ℚ) ↔
      Overreach (.lineString ls) (.polygon poly) dist := by
  rw [linestringPolygonDistance_le_iff (mul_self_nonneg dist), Polygon.rings, exists_mem_cons_iff,
    or_iff_right (linestringLinestringDistance_of_apart h), Overreach]
  exact or_congr_left (exists_congr fun p => and_congr_right fun hp =>
    pointInPolygon_of_apart (lineBox_has hp) h)

theorem polygonPolygonDistance_of_apart {a b : Polygon ℚ}
    (h : Apart (lineBox a.exterior) (lineBox b.exterior) dist) :
    polygonPolygonDistance a b ≤ ((dist * dist : ℚ) : WithTop ℚ) ↔
      Overreach (.polygon a) (.polygon b) dist := by
  rw [polygonPolygonDistance_le_iff, Overreach]
  exact or_congr
    (exists_congr fun p => and_congr_right fun hp => pointPolygonDistance_of_apart (lineBox_has hp) h)
    (exists_congr fun p => and_congr_right fun hp => pointPolygonDistance_of_apart (lineBox_has hp) h.symm)

/-- **Geometries with boxes apart are near only where a polygon overreaches its box.** -/
theorem distance_le_iff_of_apart {a b : Shape} (h : Apart (entryBox a) (entryBox b) dist) :
    distance a b ≤ ((dist * dist : ℚ) : WithTop ℚ) ↔ Overreach a b dist := by
  have hself : ∀ p : Point ℚ, (BoundingBox.fromPoint p).Has p := fun p => ⟨⟨le_rfl, le_rfl⟩, le_rfl, le_rfl⟩
  rcases a with p | a | a <;> rcases b with q | b | b
  · exact iff_of_false (fun hle => h p q (hself p) (hself q) (WithTop.coe_le_coe.mp hle)) id
  · exact iff_of_false (pointLinestringDistance_of_apart (hself p) h) id
  · exact pointPolygonDistance_of_apart (hself p) h
  · exact iff_of_false (pointLinestringDistance_of_apart (hself q) h.symm) id
  · exact iff_of_false (linestringLinestringDistance_of_apart h) id
  · exact linestringPolygonDistance_of_apart h
  · exact pointPolygonDistance_of_apart (hself q) h.symm
  · exact linestringPolygonDistance_of_apart h.symm
  · exact polygonPolygonDistance_of_apart h

end

/-! ### Containment and boxes -/

/-- The points that a bounding box is made of. -/
def Shape.vertices : Shape → List (Point ℚ)
  | .point p => [p]
  | .lineString ls => ls.points
  | .polygon poly => poly.exterior.points

theorem boundingBox_eq (g : Shape) : g.boundingBox = lineBoundingBox ⟨g.vertices⟩ := by
  cases g <;> rfl

/-- Between these kinds `contains` returns. -/
def Settled : Shape → Shape → Prop
  | .point _, .point _ => True
  | .polygon _, _ => True
  | _, _ => False

variable {b q g : Shape}

variable {a : Shape}

theorem contains_of_not_settled (h : ¬Settled a b) (depth : ℕ) :
    contains depth a b = none ∧ within depth b a = none := by
  induction depth with
  | zero => exact ⟨by rw [contains], by rw [within]⟩
  | succ depth ih =>
    constructor
    · cases a <;> cases b <;> first | exact absurd trivial h | exact ih.2
    · rw [within]
      exact ih.1

theorem contains_of_settled (h : Settled a b) : ∃ r, ∀ depth, contains (depth + 1) a b = some r := by
  cases a <;> cases b <;> first | exact ⟨_, fun _ => rfl⟩ | exact h.elim

/-- A polygon contains what has its vertices inside. -/
theorem vertices_inside (h : Contains (.polygon poly) b) :
    ∀ p ∈ b.vertices, pointInPolygon p poly = .inside := by
  cases b with
  | point p => exact forall_mem_singleton.mpr (contains_polygon_point.mp h)
  | polygon b => exact vertices_of_contains h
  | lineString ls =>
    obtain ⟨_ | depth, h⟩ := h
    · cases h
    · have hall := Option.some_inj.mp h
      rw [Bool.and_eq_true, all_eq_true] at hall
      exact fun p hp => beq_iff_eq.mp (hall.1 p hp)

theorem containsBbox_of_contains (hbox : b.boundingBox = some box) (h : Contains (.polygon poly) b) :
    (entryBox (.polygon poly)).containsBbox box = true := by
  rw [boundingBox_eq] at hbox
  exact (containsBbox_lineBoundingBox hbox _).mpr fun p hp =>
    lineBox_has_inside (pointInPolygon_eq_inside_iff.mp (vertices_inside h p hp)).1

/-- The box of the stored geometry rules out no containment, and passes no call that does not return. -/
def ContainsAgrees (g q : Shape) (box : BoundingBox) : Prop :=
  match g, q with
  | .point p, .point r => approxEqPoint p r = true → p = r
  | .polygon _, _ => True
  | _, _ => (entryBox g).containsBbox box = false

theorem containsAgrees_iff (hbox : q.boundingBox = some box) :
    ContainsAgrees g q box ↔ ((entryBox g).containsBbox box = true → Settled g q) ∧
      (Contains g q → (entryBox g).containsBbox box = true) := by
  have hunsettled : ¬Settled g q → ¬Contains g q := fun h ⟨depth, htrue⟩ => by
    rw [(contains_of_not_settled h depth).1] at htrue
    cases htrue
  have hfalse : ¬Settled g q → ((entryBox g).containsBbox box = false ↔
      ((entryBox g).containsBbox box = true → Settled g q) ∧
        (Contains g q → (entryBox g).containsBbox box = true)) := fun h => by
    rw [← Bool.not_eq_true]
    exact ⟨fun hno => ⟨fun hyes => absurd hyes hno, fun hc => absurd hc (hunsettled h)⟩,
      fun hall hyes => h (hall.1 hyes)⟩
  cases g with
  | lineString ls => exact hfalse (by cases q <;> exact id)
  | polygon poly => exact iff_of_true trivial ⟨fun _ => trivial, containsBbox_of_contains hbox⟩
  | point p =>
    cases q with
    | lineString ls | polygon poly => exact hfalse id
    | point r =>
      cases hbox
      have hsame : (entryBox (.point p)).containsBbox (.fromPoint r) = true ↔ p = r := by
        rw [BoundingBox.containsBbox_fromPoint]
        refine ⟨fun h => ?_, fun h => h ▸ ⟨⟨le_rfl, le_rfl⟩, le_rfl, le_rfl⟩⟩
        exact pair_injective (Prod.ext (le_antisymm h.1.1 h.1.2) (le_antisymm h.2.1 h.2.2))
      have hcontains : Contains (.point p) (.point r) ↔ approxEqPoint p r = true :=
        ⟨fun ⟨depth, h⟩ => by cases depth with
          | zero => cases h
          | succ depth => exact Option.some_inj.mp h, fun h => ⟨1, congrArg some h⟩⟩
      rw [hsame, hcontains]
      exact ⟨fun h => ⟨fun _ => trivial, h⟩, fun h => h.2⟩

/-! ### Intersections and boxes -/

def Shape.lines : Shape → List (Point ℚ × Point ℚ)
  | .point _ => []
  | .lineString ls => segments ls
  | .polygon poly => poly.rings.flatMap segments

/-- The geometry has a box, or that of the origin does not rule the query out, or no lines meet. -/
def IntersectsAgrees (g q : Shape) (box : BoundingBox) : Prop :=
  g.boundingBox = none → (entryBox g).intersects box = true ∨
    ∀ s ∈ g.lines, ∀ t ∈ q.lines, segmentsIntersect s.1 s.2 t.1 t.2 = false

theorem segmentsIntersect_comm (p1 p2 p3 p4 : Point ℚ) :
    segmentsIntersect p1 p2 p3 p4 = segmentsIntersect p3 p4 p1 p2 := by
  dsimp only [segmentsIntersect]
  rw [Bool.and_comm (orientation p1 p2 p3 != orientation p1 p2 p4)]
  simp only [Bool.or_assoc]
  generalize (orientation p1 p2 p3 == 0 && onSegment p1 p2 p3) = a
  generalize (orientation p1 p2 p4 == 0 && onSegment p1 p2 p4) = b
  cases a <;> cases b <;> simp

/-- Without points of its own, a geometry meets another one where their lines do. -/
theorem intersectsExact_of_empty (hg : g.boundingBox = none) :
    intersectsExact g q = true ↔ ∃ s ∈ g.lines, ∃ t ∈ q.lines, segmentsIntersect s.1 s.2 t.1 t.2 = true := by
  cases g with
  | point p => cases hg
  | lineString ls =>
    have hempty : ls.points = [] := lineBoundingBox_eq_none_iff.mp hg
    have hsegments : segments ls = [] := by rw [segments, hempty, zip_nil_left]
    cases q <;> simp [intersectsExact, Shape.lines, pointOnLinestring, linestringIntersectsLinestring,
      linestringIntersectsPolygon, hsegments, hempty]
  | polygon poly =>
    have hempty : poly.exterior.points = [] := lineBoundingBox_eq_none_iff.mp hg
    have houtside : ∀ p, pointInPolygon p poly = .outside := fun p => by
      simp [pointInPolygon, pointInRing, hempty]
    cases q with
    | point p => simp [intersectsExact, Shape.lines, houtside]
    | lineString ls =>
      rw [intersectsExact, linestringIntersectsPolygon]
      simp only [houtside, Shape.lines, bne_self_eq_false, Bool.or_eq_true, any_eq_true,
        mem_flatMap, Bool.false_eq_true, and_false, exists_false, false_or]
      constructor
      · rintro ⟨t, ht, ring, hring, s, hs, hmeet⟩
        exact ⟨s, ⟨ring, hring, hs⟩, t, ht, segmentsIntersect_comm t.1 t.2 s.1 s.2 ▸ hmeet⟩
      · rintro ⟨s, ⟨ring, hring, hs⟩, t, ht, hmeet⟩
        exact ⟨t, ht, ring, hring, s, hs, segmentsIntersect_comm s.1 s.2 t.1 t.2 ▸ hmeet⟩
    | polygon b =>
      rw [intersectsExact, polygonIntersectsPolygon]
      simp only [houtside, hempty, Shape.lines, bne_self_eq_false, Bool.or_eq_true, any_eq_true,
        mem_flatMap, not_mem_nil, Bool.false_eq_true, and_false, false_and, exists_false, false_or]
      constructor
      · rintro ⟨ring, hring, s, hs, ring', hring', t, ht, hmeet⟩
        exact ⟨s, ⟨ring, hring, hs⟩, t, ⟨ring', hring', ht⟩, hmeet⟩
      · rintro ⟨s, ⟨ring, hring, hs⟩, t, ⟨ring', hring', ht⟩, hmeet⟩
        exact ⟨ring, hring, s, hs, ring', hring', t, ht, hmeet⟩

theorem intersectsAgrees_iff (hbox : q.boundingBox = some box) :
    IntersectsAgrees g q box ↔ (intersects g q = true → (entryBox g).intersects box = true) := by
  rw [IntersectsAgrees, intersects, boxesApart, hbox, entryBox]
  cases hg : g.boundingBox with
  | some b => cases hmeet : b.intersects box <;> simp [hmeet]
  | none =>
    have hnone : (¬∃ s ∈ g.lines, ∃ t ∈ q.lines, segmentsIntersect s.1 s.2 t.1 t.2 = true) ↔
        ∀ s ∈ g.lines, ∀ t ∈ q.lines, segmentsIntersect s.1 s.2 t.1 t.2 = false := by simp
    rw [← hnone, ← intersectsExact_of_empty hg]
    simp only [forall_const, Option.getD_none, Bool.false_eq_true, if_false]
    exact or_comm.trans (imp_iff_not_or).symm

/-! ### Distances and boxes -/

/-- The box of the stored geometry is within the distance, or tells that the geometry is not. -/
def DistanceAgrees (g q : Shape) (box : BoundingBox) (dist : ℚ) : Prop :=
  RTree.bboxWithinDistance (entryBox g) box dist = true ∨ ¬Overreach g q dist

theorem distanceAgrees_iff (hbox : q.boundingBox = some box) :
    DistanceAgrees g q box dist ↔ (distance g q ≤ ((dist * dist : ℚ) : WithTop ℚ) →
      RTree.bboxWithinDistance (entryBox g) box dist = true) := by
  rw [DistanceAgrees]
  cases hwithin : RTree.bboxWithinDistance (entryBox g) box dist with
  | true => simp
  | false =>
    have hquery : entryBox q = box := by rw [entryBox, hbox, Option.getD_some]
    rw [distance_le_iff_of_apart (hquery ▸ apart_of_not_within hwithin)]
    simp

/-! ### The queries -/

namespace RTree
variable {geoms : List (ℕ × Shape)} {q : Shape} {box : BoundingBox} {dist : ℚ}

open Classical in
/-- The geometries for which a predicate holds. -/
noncomputable def matching (P : Shape → Prop) (geoms : List (ℕ × Shape)) : List (ℕ × Shape) :=
  geoms.filter fun g => P g.2

/-- Each query gives the geometries for which its predicate holds, that for distances in some order. -/
structure QueriesExact (geoms : List (ℕ × Shape)) (q : Shape) (dist : ℚ) : Prop where
  contains : ∃ depth, queryContains depth (build geoms) q =
    some ((matching (fun g => Contains g q) geoms).map Prod.fst)
  intersects : queryIntersects (build geoms) q =
    (matching (fun g => Exact.intersects g q = true) geoms).map Prod.fst
  within : (queryWithinDistance (build geoms) q dist).Perm
    ((matching (fun g => distance g q ≤ ((dist * dist : ℚ) : WithTop ℚ)) geoms).map
      fun g => (g.1, distance g.2 q))

/-- What a geometry must be like for its box not to mislead a query. -/
structure Agrees (g q : Shape) (box : BoundingBox) (dist : ℚ) : Prop where
  contains : ContainsAgrees g q box
  intersects : IntersectsAgrees g q box
  distance : DistanceAgrees g q box dist

section
variable {P : Shape → Prop} {f : ℕ × Shape → Bool}

theorem mem_matching {g : ℕ × Shape} : g ∈ matching P geoms ↔ g ∈ geoms ∧ P g.2 := by simp [matching]

theorem filter_eq_matching (h : ∀ g ∈ geoms, f g = true ↔ P g.2) : geoms.filter f = matching P geoms := by
  classical
  exact filter_congr fun g hg => by rw [Bool.eq_iff_iff, h g hg, decide_eq_true_eq]

/-- A test that is stricter than the predicate, but lets as many geometries through. -/
theorem test_of_length (hle : ∀ g ∈ geoms, f g = true → P g.2)
    (hlen : (geoms.filter f).length = (matching P geoms).length) : ∀ g ∈ geoms, P g.2 → f g = true := by
  classical
  have hsub : geoms.filter f = (matching P geoms).filter f := by
    rw [matching, filter_filter]
    refine filter_congr fun g hg => ?_
    cases hf : f g with
    | false => rw [Bool.false_and]
    | true => rw [Bool.true_and, decide_eq_true (hle g hg hf)]
  rw [hsub, length_filter_eq_length_iff] at hlen
  exact fun g hg hP => hlen g (mem_matching.mpr ⟨hg, hP⟩)

end

theorem queryIntersects_build (hbox : q.boundingBox = some box) :
    queryIntersects (build geoms) q = (geoms.filter fun g =>
      (entryBox g.2).intersects box && Exact.intersects g.2 q).map Prod.fst := by
  rw [queryIntersects, hbox, entries_build]
  simp only [filter_map, map_map, comp_def]
  congr 1
  refine filter_congr fun g _ => ?_
  cases (entryBox g.2).intersects box <;> simp

theorem queryIntersects_iff (hbox : q.boundingBox = some box) :
    queryIntersects (build geoms) q = (matching (fun g => Exact.intersects g q = true) geoms).map Prod.fst ↔
      ∀ g ∈ geoms, IntersectsAgrees g.2 q box := by
  rw [queryIntersects_build hbox]
  simp only [intersectsAgrees_iff hbox]
  constructor
  · intro h g hg hmeet
    have hlen := congrArg List.length h
    rw [length_map, length_map] at hlen
    have htest := test_of_length (fun g _ htest => (Bool.and_eq_true_iff.mp htest).2) hlen g hg hmeet
    exact (Bool.and_eq_true_iff.mp htest).1
  · intro h
    rw [filter_eq_matching fun g hg => ?_]
    rw [Bool.and_eq_true]
    exact ⟨fun hboth => hboth.2, fun hmeet => ⟨h g hg hmeet, hmeet⟩⟩

theorem queryContains_build (hbox : q.boundingBox = some box) (depth : ℕ) {ids : List ℕ} :
    queryContains depth (build geoms) q = some ids ↔
      (∀ g ∈ geoms, (entryBox g.2).containsBbox box = true → Exact.contains depth g.2 q ≠ none) ∧
      (geoms.filter fun g => (entryBox g.2).containsBbox box &&
        Exact.contains depth g.2 q == some true).map Prod.fst = ids := by
  rw [queryContains, hbox, entries_build]
  simp only [Option.map_eq_some_iff, select_eq_some_iff, forall_mem_map, filter_map, and_assoc,
    exists_and_left, exists_eq_left', map_map, comp_def]
  refine and_congr (forall₂_congr fun g _ => ?_) ?_
  · cases (entryBox g.2).containsBbox box <;> simp
  · rw [filter_congr fun g _ => ?_]
    cases (entryBox g.2).containsBbox box <;> simp

theorem queryContains_iff (hbox : q.boundingBox = some box) : (∃ depth, queryContains depth (build geoms) q =
        some ((matching (fun g => Contains g q) geoms).map Prod.fst)) ↔
      ∀ g ∈ geoms, ContainsAgrees g.2 q box := by
  simp only [queryContains_build hbox, containsAgrees_iff hbox]
  constructor
  · rintro ⟨depth, hreturns, hids⟩ g hg
    constructor
    · intro hin
      by_contra hunsettled
      exact hreturns g hg hin (contains_of_not_settled hunsettled depth).1
    · intro hcontains
      have hlen := congrArg List.length hids
      rw [length_map, length_map] at hlen
      have htest := test_of_length (fun g _ htest =>
        ⟨depth, beq_iff_eq.mp (Bool.and_eq_true_iff.mp htest).2⟩) hlen g hg hcontains
      exact (Bool.and_eq_true_iff.mp htest).1
  · intro h
    refine ⟨1, fun g hg hin => ?_, ?_⟩
    · obtain ⟨r, hr⟩ := contains_of_settled ((h g hg).1 hin)
      rw [hr 0]
      exact Option.some_ne_none r
    · rw [filter_eq_matching fun g hg => ?_]
      rw [Bool.and_eq_true, beq_iff_eq]
      refine ⟨fun hboth => ⟨1, hboth.2⟩, fun hcontains => ?_⟩
      have hin := (h g hg).2 hcontains
      obtain ⟨r, hr⟩ := contains_of_settled ((h g hg).1 hin)
      obtain ⟨depth, htrue⟩ := hcontains
      cases depth with
      | zero =>
        rw [Exact.contains] at htrue
        cases htrue
      | succ depth => exact ⟨hin, (hr 0).trans ((hr depth).symm.trans htrue)⟩

theorem queryWithinDistance_build (hbox : q.boundingBox = some box) (hdist : 0 ≤ dist) :
    (queryWithinDistance (build geoms) q dist).Perm ((geoms.filter fun g =>
      bboxWithinDistance (entryBox g.2) box dist &&
        decide (Exact.distance g.2 q ≤ ((dist * dist : ℚ) : WithTop ℚ))).map
          fun g => (g.1, Exact.distance g.2 q)) := by
  rw [queryWithinDistance, hbox, entries_build]
  refine (mergeSort_perm _ _).trans (List.Perm.of_eq ?_)
  rw [filterMap_map, ← filterMap_eq_map', filterMap_filter]
  refine filterMap_congr fun g _ => ?_
  have hatMost : atMost (Exact.distance g.2 q) dist =
      decide (Exact.distance g.2 q ≤ ((dist * dist : ℚ) : WithTop ℚ)) := by
    rw [atMost, decide_eq_true hdist, Bool.true_and]
  dsimp only [comp_apply]
  rw [hatMost]
  cases bboxWithinDistance (entryBox g.2) box dist <;> simp

theorem queryWithinDistance_iff (hbox : q.boundingBox = some box) (hdist : 0 ≤ dist) :
    (queryWithinDistance (build geoms) q dist).Perm
        ((matching (fun g => Exact.distance g q ≤ ((dist * dist : ℚ) : WithTop ℚ)) geoms).map
          fun g => (g.1, Exact.distance g.2 q)) ↔
      ∀ g ∈ geoms, DistanceAgrees g.2 q box dist := by
  simp only [distanceAgrees_iff hbox]
  constructor
  · intro h g hg hnear
    have hlen := ((queryWithinDistance_build hbox hdist).symm.trans h).length_eq
    rw [length_map, length_map] at hlen
    have htest := test_of_length (P := fun g => Exact.distance g q ≤ ((dist * dist : ℚ) : WithTop ℚ))
      (fun g _ htest => of_decide_eq_true (Bool.and_eq_true_iff.mp htest).2) hlen g hg hnear
    exact (Bool.and_eq_true_iff.mp htest).1
  · intro h
    refine (queryWithinDistance_build hbox hdist).trans (List.Perm.of_eq ?_)
    rw [filter_eq_matching fun g hg => ?_]
    rw [Bool.and_eq_true, decide_eq_true_eq]
    exact ⟨fun hboth => hboth.2, fun hnear => ⟨h g hg hnear, hnear⟩⟩

/-- **The queries agree with the predicates exactly if no box misleads them.** -/
theorem queries_exact_iff (geoms : List (ℕ × Shape)) (q : Shape) (box : BoundingBox) (dist : ℚ)
    (hbox : q.boundingBox = some box) (hdist : 0 ≤ dist) :
    QueriesExact geoms q dist ↔ ∀ g ∈ geoms, Agrees g.2 q box dist := by
  constructor
  · rintro ⟨hcontains, hintersects, hwithin⟩ g hg
    exact ⟨(queryContains_iff hbox).mp hcontains g hg, (queryIntersects_iff hbox).mp hintersects g hg,
      (queryWithinDistance_iff hbox hdist).mp hwithin g hg⟩
  · intro h
    exact ⟨(queryContains_iff hbox).mpr fun g hg => (h g hg).contains,
      (queryIntersects_iff hbox).mpr fun g hg => (h g hg).intersects,
      (queryWithinDistance_iff hbox hdist).mpr fun g hg => (h g hg).distance⟩

/-- The index of one polygon, asked for a point inside. -/
theorem queries_exact_block : QueriesExact [(1, .polygon block.poly)] (.point ⟨5, 5⟩) 1 ↔
    ∀ g ∈ [(1, Shape.polygon block.poly)], Agrees g.2 (.point ⟨5, 5⟩) (.fromPoint ⟨5, 5⟩) 1 :=
  queries_exact_iff [(1, .polygon block.poly)] (.point ⟨5, 5⟩) (.fromPoint ⟨5, 5⟩) 1 rfl zero_le_one

/-- A point contains one that equals it up to the tolerance, but its box does not. -/
theorem nearby_point_dropped : ¬QueriesExact [(1, .point ⟨0, 0⟩)] (.point ⟨1 / 10 ^ 13, 0⟩) 0 := by
  intro h
  have hagrees := (queryContains_iff rfl).mp h.contains _ (mem_singleton_self _)
  have hequal : (⟨0, 0⟩ : Point ℚ) = ⟨1 / 10 ^ 13, 0⟩ := hagrees (by norm_num [approxEqPoint, eps])
  have hdifferent : (⟨0, 0⟩ : Point ℚ) ≠ ⟨1 / 10 ^ 13, 0⟩ := by norm_num
  exact hdifferent hequal

end RTree

end CenDB.Spatial.Exact
