import Mathlib.Tactic

/-! # Geometries

The OGC geometries over coordinates of a type `F`: binary64 numbers for the predicates, their bit
patterns for the binary format, numbers with a text for the textual formats.

A collection holds geometries of any kind, collections too.  `Geometry.induction` goes down into them;
functions on geometries come in pairs, one for a geometry and one for a list of them. -/

namespace CenDB.Spatial

open List

structure Point (F : Type) where
  x : F
  y : F
deriving DecidableEq, Repr

structure LineString (F : Type) where
  points : List (Point F)
deriving DecidableEq, Repr

structure Polygon (F : Type) where
  exterior : LineString F
  interiors : List (LineString F)
deriving DecidableEq, Repr

/-- The exterior ring, then the interior ones. -/
def Polygon.rings {F : Type} (poly : Polygon F) : List (LineString F) := poly.exterior :: poly.interiors

structure MultiPoint (F : Type) where
  points : List (Point F)
deriving DecidableEq, Repr

structure MultiLineString (F : Type) where
  linestrings : List (LineString F)
deriving DecidableEq, Repr

structure MultiPolygon (F : Type) where
  polygons : List (Polygon F)
deriving DecidableEq, Repr

inductive Geometry (F : Type) where
  | point (p : Point F)
  | lineString (ls : LineString F)
  | polygon (poly : Polygon F)
  | multiPoint (mp : MultiPoint F)
  | multiLineString (mls : MultiLineString F)
  | multiPolygon (mp : MultiPolygon F)
  | geometryCollection (gs : List (Geometry F))

namespace Geometry

variable {F : Type}

/-- Induction on the nesting of collections. -/
@[elab_as_elim]
theorem induction {P : Geometry F → Prop} (point : ∀ p, P (.point p))
    (lineString : ∀ ls, P (.lineString ls)) (polygon : ∀ poly, P (.polygon poly))
    (multiPoint : ∀ mp, P (.multiPoint mp)) (multiLineString : ∀ mls, P (.multiLineString mls))
    (multiPolygon : ∀ mp, P (.multiPolygon mp))
    (geometryCollection : ∀ gs, (∀ g ∈ gs, P g) → P (.geometryCollection gs)) (g : Geometry F) : P g :=
  @Geometry.rec F P (fun gs => ∀ g ∈ gs, P g) point lineString polygon multiPoint multiLineString
    multiPolygon geometryCollection (fun _ hg => absurd hg not_mem_nil)
    (fun _ _ hg hgs => forall_mem_cons.mpr ⟨hg, hgs⟩) g

end Geometry

/-! ### Coordinates -/

section Coordinates

variable {F G : Type} (h : F → G) (r : F → G → Prop)

def Point.map (p : Point F) : Point G := ⟨h p.x, h p.y⟩

def LineString.map (ls : LineString F) : LineString G := ⟨ls.points.map (Point.map h)⟩

def Polygon.map (poly : Polygon F) : Polygon G := ⟨poly.exterior.map h, poly.interiors.map (LineString.map h)⟩

def Point.coordinates (p : Point F) : List F := [p.x, p.y]

def LineString.coordinates (ls : LineString F) : List F := ls.points.flatMap Point.coordinates

def Polygon.coordinates (poly : Polygon F) : List F := poly.rings.flatMap LineString.coordinates

def Point.Same (p : Point F) (q : Point G) : Prop := r p.x q.x ∧ r p.y q.y

def LineString.Same (a : LineString F) (b : LineString G) : Prop :=
  List.Forall₂ (Point.Same r) a.points b.points

def Polygon.Same (a : Polygon F) (b : Polygon G) : Prop :=
  a.exterior.Same r b.exterior ∧ List.Forall₂ (LineString.Same r) a.interiors b.interiors

namespace Geometry

mutual

/-- The geometry with every coordinate replaced. -/
def map : Geometry F → Geometry G
  | .point p => .point (p.map h)
  | .lineString ls => .lineString (ls.map h)
  | .polygon poly => .polygon (poly.map h)
  | .multiPoint mp => .multiPoint ⟨mp.points.map (Point.map h)⟩
  | .multiLineString mls => .multiLineString ⟨mls.linestrings.map (LineString.map h)⟩
  | .multiPolygon mp => .multiPolygon ⟨mp.polygons.map (Polygon.map h)⟩
  | .geometryCollection gs => .geometryCollection (mapAll gs)

def mapAll : List (Geometry F) → List (Geometry G)
  | [] => []
  | g :: gs => map g :: mapAll gs

end

mutual

/-- All coordinates, in order. -/
def coordinates : Geometry F → List F
  | .point p => p.coordinates
  | .lineString ls => ls.coordinates
  | .polygon poly => poly.coordinates
  | .multiPoint mp => mp.points.flatMap Point.coordinates
  | .multiLineString mls => mls.linestrings.flatMap LineString.coordinates
  | .multiPolygon mp => mp.polygons.flatMap Polygon.coordinates
  | .geometryCollection gs => allCoordinates gs

def allCoordinates : List (Geometry F) → List F
  | [] => []
  | g :: gs => coordinates g ++ allCoordinates gs

end

mutual

/-- Two geometries of the same shape, with related coordinates. -/
def Same : Geometry F → Geometry G → Prop
  | .point p, .point q => p.Same r q
  | .lineString a, .lineString b => a.Same r b
  | .polygon a, .polygon b => a.Same r b
  | .multiPoint a, .multiPoint b => List.Forall₂ (Point.Same r) a.points b.points
  | .multiLineString a, .multiLineString b => List.Forall₂ (LineString.Same r) a.linestrings b.linestrings
  | .multiPolygon a, .multiPolygon b => List.Forall₂ (Polygon.Same r) a.polygons b.polygons
  | .geometryCollection gs, .geometryCollection hs => AllSame gs hs
  | _, _ => False

def AllSame : List (Geometry F) → List (Geometry G) → Prop
  | [], [] => True
  | g :: gs, h :: hs => Same g h ∧ AllSame gs hs
  | _, _ => False

end

theorem mapAll_eq (gs : List (Geometry F)) : mapAll h gs = gs.map (map h) := by
  induction gs with
  | nil => rfl
  | cons g gs ih => rw [mapAll, ih, map_cons]

theorem allCoordinates_eq (gs : List (Geometry F)) : allCoordinates gs = gs.flatMap coordinates := by
  induction gs with
  | nil => rfl
  | cons g gs ih => rw [allCoordinates, ih, flatMap_cons]

end Geometry

variable {h r}

theorem Point.same_map {p : Point F} (hp : ∀ f ∈ p.coordinates, r f (h f)) : p.Same r (p.map h) :=
  ⟨hp p.x (by simp [coordinates]), hp p.y (by simp [coordinates])⟩

/-- What a list is related to by replacing its members. -/
theorem forall₂_map {α β : Type} {R : α → β → Prop} {k : α → β} {coordinates : α → List F} {l : List α}
    (hmember : ∀ a ∈ l, (∀ f ∈ coordinates a, r f (h f)) → R a (k a))
    (hl : ∀ f ∈ l.flatMap coordinates, r f (h f)) : List.Forall₂ R l (l.map k) := by
  rw [forall₂_map_right_iff, forall₂_same]
  exact fun a ha => hmember a ha fun f hf => hl f (mem_flatMap.mpr ⟨a, ha, hf⟩)

theorem LineString.same_map {ls : LineString F} (hls : ∀ f ∈ ls.coordinates, r f (h f)) :
    ls.Same r (ls.map h) := forall₂_map (fun _ _ hp => Point.same_map hp) hls

theorem Polygon.same_map {poly : Polygon F} (hpoly : ∀ f ∈ poly.coordinates, r f (h f)) :
    poly.Same r (poly.map h) := by
  rw [coordinates, rings, flatMap_cons] at hpoly
  exact ⟨LineString.same_map fun f hf => hpoly f (mem_append_left _ hf),
    forall₂_map (fun _ _ hls => LineString.same_map hls) fun f hf => hpoly f (mem_append_right _ hf)⟩

/-- **Related coordinates make a geometry of the same shape.** -/
theorem Geometry.same_map {g : Geometry F} (hg : ∀ f ∈ g.coordinates, r f (h f)) : g.Same r (g.map h) := by
  induction g using Geometry.induction with
  | point p => exact Point.same_map hg
  | lineString ls => exact LineString.same_map hg
  | polygon poly => exact Polygon.same_map hg
  | multiPoint mp => exact forall₂_map (fun _ _ hp => Point.same_map hp) hg
  | multiLineString mls => exact forall₂_map (fun _ _ hls => LineString.same_map hls) hg
  | multiPolygon mp => exact forall₂_map (fun _ _ hpoly => Polygon.same_map hpoly) hg
  | geometryCollection gs ih =>
    rw [coordinates, allCoordinates_eq] at hg
    rw [map, Same]
    induction gs with
    | nil => trivial
    | cons g gs ihgs =>
      rw [forall_mem_cons] at ih
      rw [flatMap_cons] at hg
      exact ⟨ih.1 fun f hf => hg f (mem_append_left _ hf),
        ihgs ih.2 fun f hf => hg f (mem_append_right _ hf)⟩

end Coordinates

end CenDB.Spatial
