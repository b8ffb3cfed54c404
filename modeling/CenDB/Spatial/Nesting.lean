import CenDB.Spatial.Exact

/-! # Polygons inside polygons

`contains` of two polygons looks at the vertices of the inner exterior ring and at crossings of rings.  What the
inner exterior ring encloses is then enclosed by the outer one, but not all of it belongs to the outer
polygon: a hole of the outer polygon may lie inside the inner one, where no ring crosses it. -/

namespace CenDB.Spatial.Exact

open List

/-! ### Simple polygons -/

/-- A ring that ends where it starts, and of which two edges only meet where one follows the other. -/
structure SimpleRing (ring : LineString ℚ) : Prop where
  closed : ring.points.head? = ring.points.getLast?
  four : 4 ≤ ring.points.length
  meets : ∀ i j e e', i < j → (edges ring)[i]? = some e → (edges ring)[j]? = some e' →
    ∀ z ∈ segment ℚ e.1 e.2, z ∈ segment ℚ e'.1 e'.2 →
      (j = i + 1 ∧ z = e.2) ∨ (i = 0 ∧ j + 1 = (edges ring).length ∧ z = e.1)

/-- The ring encloses all of the hole. -/
def Encloses (ring hole : LineString ℚ) : Prop :=
  ∀ z ∈ EvenOdd.trace (edges hole), EvenOdd.parity (edges ring) z = true ∧ z ∉ EvenOdd.trace (edges ring)

/-- A polygon of simple rings, with its holes inside the exterior one. -/
structure SimplePolygon where
  poly : Polygon ℚ
  simple : ∀ ring ∈ poly.rings, SimpleRing ring
  enclosed : ∀ hole ∈ poly.interiors, Encloses poly.exterior hole

/-! ### Containment of polygons -/

variable {poly a b : Polygon ℚ} {p : Point ℚ}

theorem contains_polygon_point : Contains (.polygon poly) (.point p) ↔ pointInPolygon p poly = .inside := by
  rw [← beq_iff_eq]
  constructor
  · rintro ⟨_ | depth, h⟩
    · cases h
    · exact Option.some_inj.mp h
  · exact fun h => ⟨1, congrArg some h⟩

/-- The vertices of the inner exterior ring are inside. -/
theorem vertices_of_contains (h : Contains (.polygon a) (.polygon b)) :
    ∀ p ∈ b.exterior.points, pointInPolygon p a = .inside := by
  obtain ⟨_ | depth, h⟩ := h
  · cases h
  · have hall := Option.some_inj.mp h
    rw [Bool.and_eq_true, all_eq_true] at hall
    exact fun p hp => beq_iff_eq.mp (hall.1 p hp)

theorem pointInHoles_eq_inside_iff {holes : List (LineString ℚ)} :
    pointInHoles p holes = .inside ↔ ∀ hole ∈ holes, pointInRing p hole = .outside := by
  induction holes with
  | nil => simp [pointInHoles]
  | cons hole holes ih =>
    rw [forall_mem_cons, pointInHoles]
    cases pointInRing p hole with
    | boundary | inside => simp
    | outside => simp [ih]

theorem pointInPolygon_eq_inside_iff : pointInPolygon p poly = .inside ↔
      pointInRing p poly.exterior = .inside ∧ ∀ hole ∈ poly.interiors, pointInRing p hole = .outside := by
  rw [pointInPolygon]
  cases pointInRing p poly.exterior with
  | boundary | outside => simp
  | inside => simp [pointInHoles_eq_inside_iff]

section Rectangles
variable {x₀ y₀ x₁ y₁ : ℚ}

def rectangle (x₀ y₀ x₁ y₁ : ℚ) : LineString ℚ := ⟨[⟨x₀, y₀⟩, ⟨x₁, y₀⟩, ⟨x₁, y₁⟩, ⟨x₀, y₁⟩, ⟨x₀, y₀⟩]⟩

theorem edges_rectangle : edges (rectangle x₀ y₀ x₁ y₁) =
    [((x₀, y₀), (x₁, y₀)), ((x₁, y₀), (x₁, y₁)), ((x₁, y₁), (x₀, y₁)), ((x₀, y₁), (x₀, y₀))] := by
  simp [edges, rectangle, ringSegments, pair]

variable {z : ℚ × ℚ}

/-- The box of a side, in either direction. -/
theorem mem_side {x y x' y' : ℚ} (hx : x ≤ x') (hy : y ≤ y')
    (h : z ∈ segment ℚ (x, y) (x', y') ∨ z ∈ segment ℚ (x', y') (x, y)) :
    (x ≤ z.1 ∧ z.1 ≤ x') ∧ y ≤ z.2 ∧ z.2 ≤ y' := by
  rw [segment_symm ℚ (x', y'), or_self] at h
  have hbounds := EvenOdd.bounds_of_mem h
  dsimp only at hbounds
  rwa [min_eq_left hx, max_eq_right hx, min_eq_left hy, max_eq_right hy] at hbounds

theorem mem_bottom (hx : x₀ < x₁) (h : z ∈ segment ℚ (x₀, y₀) (x₁, y₀)) : (x₀ ≤ z.1 ∧ z.1 ≤ x₁) ∧ z.2 = y₀ :=
  (mem_side hx.le le_rfl (Or.inl h)).imp_right fun hy => le_antisymm hy.2 hy.1

theorem mem_right (hy : y₀ < y₁) (h : z ∈ segment ℚ (x₁, y₀) (x₁, y₁)) : z.1 = x₁ ∧ y₀ ≤ z.2 ∧ z.2 ≤ y₁ :=
  (mem_side le_rfl hy.le (Or.inl h)).imp_left fun hx => le_antisymm hx.2 hx.1

theorem mem_top (hx : x₀ < x₁) (h : z ∈ segment ℚ (x₁, y₁) (x₀, y₁)) : (x₀ ≤ z.1 ∧ z.1 ≤ x₁) ∧ z.2 = y₁ :=
  (mem_side hx.le le_rfl (Or.inr h)).imp_right fun hy => le_antisymm hy.2 hy.1

theorem mem_left (hy : y₀ < y₁) (h : z ∈ segment ℚ (x₀, y₁) (x₀, y₀)) : z.1 = x₀ ∧ y₀ ≤ z.2 ∧ z.2 ≤ y₁ :=
  (mem_side le_rfl hy.le (Or.inr h)).imp_left fun hx => le_antisymm hx.2 hx.1

theorem simple_rectangle (hx : x₀ < x₁) (hy : y₀ < y₁) : SimpleRing (rectangle x₀ y₀ x₁ y₁) := by
  refine ⟨rfl, Nat.le_succ 4, fun i j e e' hij he he' z hz hz' => ?_⟩
  rw [edges_rectangle] at he he' ⊢
  have hj : j < 4 := (List.getElem?_eq_some_iff.mp he').1
  rcases j with _ | _ | _ | _ | j
  · omega
  · obtain rfl : i = 0 := by omega
    cases he
    cases he'
    exact Or.inl ⟨rfl, Prod.ext (mem_right hy hz').1 (mem_bottom hx hz).2⟩
  · rcases i with _ | _ | i
    · cases he
      cases he'
      exact absurd ((mem_bottom hx hz).2.symm.trans (mem_top hx hz').2) hy.ne
    · cases he
      cases he'
      exact Or.inl ⟨rfl, Prod.ext (mem_right hy hz).1 (mem_top hx hz').2⟩
    · omega
  · rcases i with _ | _ | _ | i
    · cases he
      cases he'
      exact Or.inr ⟨rfl, rfl, Prod.ext (mem_left hy hz').1 (mem_bottom hx hz).2⟩
    · cases he
      cases he'
      exact absurd ((mem_left hy hz').1.symm.trans (mem_right hy hz).1) hx.ne
    · cases he
      cases he'
      exact Or.inl ⟨rfl, Prod.ext (mem_left hy hz').1 (mem_top hx hz).2⟩
    · omega
  · omega

theorem mem_trace_rectangle (hx : x₀ < x₁) (hy : y₀ < y₁)
    (h : z ∈ EvenOdd.trace (edges (rectangle x₀ y₀ x₁ y₁))) :
    ((x₀ ≤ z.1 ∧ z.1 ≤ x₁) ∧ y₀ ≤ z.2 ∧ z.2 ≤ y₁) ∧ (z.1 = x₀ ∨ z.1 = x₁ ∨ z.2 = y₀ ∨ z.2 = y₁) := by
  obtain ⟨e, he, hz⟩ := h
  rw [edges_rectangle] at he
  simp only [mem_cons, not_mem_nil, or_false] at he
  rcases he with rfl | rfl | rfl | rfl
  · obtain ⟨hbox, hside⟩ := mem_bottom hx hz
    exact ⟨⟨hbox, hside.ge, hside.le.trans hy.le⟩, Or.inr (Or.inr (Or.inl hside))⟩
  · obtain ⟨hside, hbox⟩ := mem_right hy hz
    exact ⟨⟨⟨hx.le.trans hside.ge, hside.le⟩, hbox⟩, Or.inr (Or.inl hside)⟩
  · obtain ⟨hbox, hside⟩ := mem_top hx hz
    exact ⟨⟨hbox, hy.le.trans hside.ge, hside.le⟩, Or.inr (Or.inr (Or.inr hside))⟩
  · obtain ⟨hside, hbox⟩ := mem_left hy hz
    exact ⟨⟨⟨hside.ge, hside.le.trans hx.le⟩, hbox⟩, Or.inl hside⟩

theorem parity_rectangle (hx : x₀ ≤ z.1 ∧ z.1 < x₁) (hy : y₀ ≤ z.2 ∧ z.2 < y₁) :
    EvenOdd.parity (edges (rectangle x₀ y₀ x₁ y₁)) z = true := by
  have hbelow : ¬y₀ > z.2 := not_lt.mpr hy.1
  have habove : y₁ > z.2 := hy.2
  have hleft : ¬x₀ > z.1 := not_lt.mpr hx.1
  have hright : x₁ > z.1 := hx.2
  rw [edges_rectangle]
  simp [EvenOdd.parity, EvenOdd.crosses, EvenOdd.interX, hbelow, habove, hleft, hright]

theorem encloses_rectangle {u₀ v₀ u₁ v₁ : ℚ} (hu : u₀ < u₁) (hv : v₀ < v₁) (hx : x₀ < u₀ ∧ u₁ < x₁)
    (hy : y₀ < v₀ ∧ v₁ < y₁) : Encloses (rectangle x₀ y₀ x₁ y₁) (rectangle u₀ v₀ u₁ v₁) := by
  intro z hz
  obtain ⟨⟨⟨hleft, hright⟩, hbelow, habove⟩, -⟩ := mem_trace_rectangle hu hv hz
  have hx₀ : x₀ < z.1 := hx.1.trans_le hleft
  have hx₁ : z.1 < x₁ := hright.trans_lt hx.2
  have hy₀ : y₀ < z.2 := hy.1.trans_le hbelow
  have hy₁ : z.2 < y₁ := habove.trans_lt hy.2
  refine ⟨parity_rectangle ⟨hx₀.le, hx₁⟩ ⟨hy₀.le, hy₁⟩, fun htrace => ?_⟩
  rcases (mem_trace_rectangle (hx₀.trans hx₁) (hy₀.trans hy₁) htrace).2 with h | h | h | h
  · exact hx₀.ne' h
  · exact hx₁.ne h
  · exact hy₀.ne' h
  · exact hy₁.ne h

end Rectangles

/-- A square without holes. -/
def block : SimplePolygon where
  poly := ⟨rectangle 3 3 7 7, []⟩
  simple := forall_mem_singleton.mpr (simple_rectangle (by norm_num) (by norm_num))
  enclosed := fun _ h => absurd h not_mem_nil

/-- A square with a square hole, which is inside the block. -/
def frame : SimplePolygon where
  poly := ⟨rectangle 0 0 10 10, [rectangle 4 4 6 6]⟩
  simple := forall_mem_cons.mpr ⟨simple_rectangle (by norm_num) (by norm_num),
    forall_mem_singleton.mpr (simple_rectangle (by norm_num) (by norm_num))⟩
  enclosed := forall_mem_singleton.mpr
    (encloses_rectangle (by norm_num) (by norm_num) (by norm_num) (by norm_num))

end CenDB.Spatial.Exact
