import CenDB.Spatial.Predicates

/-! # Where the spatial predicates return

A geometry that is no collection is its own component, so the tests that go down into components meet a
pair of multi-geometries again; and `contains` and `within` leave the pairs they do not treat to each other.
Such calls nest without end (`contains_fallsBack`, `intersects_hollow_leaves`).

All seven predicates return for two points, for two polygons, and for collections that hold nothing but
empty multipolygons, at most one of the two any of them; for no other pair (`predicates_return_iff`). -/

namespace CenDB.Spatial

open Filter List

/-! ### Loops over components -/

section Loops

variable {α β : Type*}

variable {l : List α}

variable {p : α → Option Bool}

/-- A search that finds nothing ends where every test ends. -/
theorem anyM_eq_some_false : l.anyM p = some false ↔ ∀ x ∈ l, p x = some false := by
  induction l with
  | nil => simp
  | cons x l ih =>
    rw [anyM_cons, forall_mem_cons, ← ih]
    cases p x with
    | none => simp
    | some r => cases r <;> simp

/-- A search in which no test succeeds does not succeed. -/
theorem anyM_ne_some_true (h : ∀ x ∈ l, p x ≠ some true) : l.anyM p ≠ some true := by
  induction l with
  | nil => simp
  | cons x l ih =>
    rw [forall_mem_cons] at h
    rw [anyM_cons]
    cases hx : p x with
    | none => simp
    | some r =>
      cases r with
      | true => exact absurd hx h.1
      | false => simpa using ih h.2

/-- A search in which no test succeeds and one does not end does not end. -/
theorem anyM_eq_none (h : ∀ x ∈ l, p x ≠ some true) {x : α} (hx : x ∈ l) (hnone : p x = none) :
    l.anyM p = none := by
  cases hany : l.anyM p with
  | none => rfl
  | some r =>
    cases r with
    | true => exact absurd hany (anyM_ne_some_true h)
    | false =>
      have hfalse := anyM_eq_some_false.mp hany x hx
      rw [hnone] at hfalse
      cases hfalse

theorem foldlM_isSome {f : β → α → Option β} (h : ∀ x ∈ l, ∀ b, (f b x).isSome) (b : β) :
    (l.foldlM f b).isSome := by
  induction l generalizing b with
  | nil => rfl
  | cons y l ih =>
    rw [forall_mem_cons] at h
    obtain ⟨b', hb'⟩ := Option.isSome_iff_exists.mp (h.1 b)
    rw [foldlM_cons, hb']
    exact ih h.2 b'

end Loops

/-- What one more level of nesting makes of a result that enough depth gives, enough depth gives too. -/
theorem eventually_of_succ {P Q : ℕ → Prop} (hP : ∀ᶠ n in atTop, P n) (h : ∀ n, P n → Q (n + 1)) :
    ∀ᶠ n in atTop, Q n := by
  obtain ⟨N, hN⟩ := eventually_atTop.mp hP
  refine eventually_atTop.mpr ⟨N + 1, fun n hn => ?_⟩
  obtain ⟨m, rfl⟩ := Nat.exists_eq_add_of_le' (Nat.le_of_add_left_le hn)
  exact h m (hN m (by omega))

variable {α : Type*} {depth : ℕ}

/-- Enough depth for each of finitely many is enough for all of them. -/
theorem eventually_forall_mem {l : List α} {P : α → ℕ → Prop} (h : ∀ x ∈ l, ∀ᶠ n in atTop, P x n) :
    ∀ᶠ n in atTop, ∀ x ∈ l, P x n :=
  (eventually_all_finite l.finite_toSet).mpr h

/-! ### Leaves and parts -/

namespace Geometry

mutual

/-- The geometries in nested collections that are no collections. -/
def leaves : Geometry Float → List (Geometry Float)
  | .geometryCollection gs => allLeaves gs
  | .point p => [.point p]
  | .lineString ls => [.lineString ls]
  | .polygon poly => [.polygon poly]
  | .multiPoint mp => [.multiPoint mp]
  | .multiLineString mls => [.multiLineString mls]
  | .multiPolygon mp => [.multiPolygon mp]

def allLeaves : List (Geometry Float) → List (Geometry Float)
  | [] => []
  | g :: gs => leaves g ++ allLeaves gs

end

theorem allLeaves_eq (gs : List (Geometry Float)) : allLeaves gs = gs.flatMap leaves := by
  induction gs with
  | nil => rfl
  | cons g gs ih => rw [allLeaves, ih, flatMap_cons]

/-- The simple geometries that a leaf stands for. -/
def pieces : Geometry Float → List (Geometry Float)
  | .multiPoint mp => mp.points.map .point
  | .multiLineString mls => mls.linestrings.map .lineString
  | .multiPolygon mp => mp.polygons.map .polygon
  | g => [g]

/-- The simple parts of a geometry. -/
def parts (g : Geometry Float) : List (Geometry Float) := g.leaves.flatMap pieces

/-- A point, a linestring or a polygon. -/
def isSimple : Geometry Float → Bool
  | .point _ => true
  | .lineString _ => true
  | .polygon _ => true
  | _ => false

/-- Nothing but empty multipolygons in nested collections. -/
def Hollow (g : Geometry Float) : Prop := ∀ leaf ∈ g.leaves, leaf = .multiPolygon ⟨[]⟩

variable {a b g : Geometry Float}

variable {gs : List (Geometry Float)}

theorem hollow_geometryCollection :
    (geometryCollection gs).Hollow ↔ ∀ g ∈ gs, g.Hollow := by
  rw [Hollow, leaves, allLeaves_eq]
  simp only [mem_flatMap, forall_exists_index, and_imp]
  exact ⟨fun h g hg leaf hleaf => h leaf g hg hleaf, fun h leaf g hg hleaf => h g hg leaf hleaf⟩

/-- A hollow geometry is an empty multipolygon or a collection of hollow geometries. -/
theorem Hollow.cases (h : g.Hollow) :
    g = .multiPolygon ⟨[]⟩ ∨ ∃ gs, g = .geometryCollection gs ∧ ∀ g ∈ gs, g.Hollow := by
  cases g with
  | geometryCollection gs => exact Or.inr ⟨gs, rfl, hollow_geometryCollection.1 h⟩
  | point p | lineString ls | polygon poly | multiPoint mp | multiLineString mls | multiPolygon mp =>
    exact Or.inl (h _ (by simp [leaves]))

theorem Hollow.not_simple (h : g.Hollow) : g.isSimple = false := by
  rcases h.cases with rfl | ⟨gs, rfl, -⟩ <;> rfl

theorem Hollow.parts_eq (h : g.Hollow) : g.parts = [] := by
  rw [parts, flatMap_eq_nil_iff]
  intro leaf hleaf
  rw [h leaf hleaf]
  rfl

theorem Hollow.components (h : g.Hollow) : ∀ c ∈ g.components, c.Hollow := by
  rcases h.cases with rfl | ⟨gs, rfl, hgs⟩
  · intro c hc
    rw [mem_singleton.mp hc]
    exact h
  · exact hgs

/-- The leaves of a hollow geometry are the leaves of its components. -/
theorem Hollow.leaves_components (h : g.Hollow) : g.components.flatMap leaves = g.leaves := by
  rcases h.cases with rfl | ⟨gs, rfl, -⟩
  · rfl
  · rw [leaves, allLeaves_eq]
    rfl

theorem allValid_eq (gs : List (Geometry Float)) : allValid gs = gs.all isValid := by
  induction gs with
  | nil => rfl
  | cons g gs ih => rw [allValid, ih, all_cons]

/-- Induction on the nesting of a hollow geometry. -/
theorem Hollow.induction {P : Geometry Float → Prop} (leaf : P (.multiPolygon ⟨[]⟩))
    (geometryCollection : ∀ gs, (∀ g ∈ gs, g.Hollow) → (∀ g ∈ gs, P g) → P (.geometryCollection gs))
    (h : g.Hollow) : P g := by
  have hcases := h.cases
  induction g using Geometry.induction with
  | geometryCollection gs ih =>
    have hgs := hollow_geometryCollection.1 h
    exact geometryCollection gs hgs fun g hg => ih g hg (hgs g hg) (hgs g hg).cases
  | multiPolygon mp =>
    rcases hcases with hmp | ⟨gs, hgs, -⟩
    · rw [hmp]
      exact leaf
    · cases hgs
  | point p | lineString ls | polygon poly => cases h.not_simple
  | multiPoint mp | multiLineString mls => rcases hcases with hmp | ⟨gs, hgs, -⟩ <;> contradiction

theorem Hollow.isValid (h : g.Hollow) : g.isValid = true := by
  refine Hollow.induction (P := fun g => g.isValid = true) rfl (fun gs _ ih => ?_) h
  rw [Geometry.isValid, allValid_eq, all_eq_true]
  exact ih

theorem boundingBoxes_eq_none (h : ∀ g ∈ gs, g.boundingBox = none) :
    boundingBoxes none gs = none := by
  induction gs with
  | nil => rfl
  | cons g gs ih =>
    rw [forall_mem_cons] at h
    rw [boundingBoxes, h.1]
    exact ih h.2

theorem Hollow.boundingBox (h : g.Hollow) : g.boundingBox = none :=
  Hollow.induction (P := fun g => g.boundingBox = none) rfl (fun _ _ ih => boundingBoxes_eq_none ih) h

end Geometry

/-! ### Containment -/

/-- The pairs that `contains` leaves to `within`. -/
def fallsBack : Geometry Float → Geometry Float → Bool
  | .point _, .point _ => false
  | .polygon _, b => !b.isSimple
  | .multiPolygon _, _ => false
  | .geometryCollection _, _ => false
  | _, _ => true

variable {a b : Geometry Float}

theorem contains_succ_of_fallsBack (h : fallsBack a b = true) (depth : ℕ) :
    contains (depth + 1) a b = within depth b a := by
  cases a <;> cases b <;> first | rfl | cases h

/-- **Those pairs never return**: `within` gives them back. -/
theorem contains_fallsBack (h : fallsBack a b = true) (depth : ℕ) :
    contains depth a b = none ∧ within depth b a = none := by
  induction depth with
  | zero => exact ⟨rfl, rfl⟩
  | succ depth ih =>
    rw [contains_succ_of_fallsBack h, within]
    exact ⟨ih.2, ih.1⟩

theorem contains_geometryCollection (gs : List (Geometry Float)) (b : Geometry Float) (depth : ℕ) :
    contains (depth + 1) (.geometryCollection gs) b = gs.anyM fun g => contains depth g b := by rfl

theorem contains_multiPolygon (mp : MultiPolygon Float) (b : Geometry Float) (depth : ℕ) :
    contains (depth + 1) (.multiPolygon mp) b = mp.polygons.anyM fun p => contains depth (.polygon p) b := by
  rfl

/-- Where `contains` returns for a geometry that is not simple, the first one is hollow. -/
theorem hollow_of_contains (hb : b.isSimple = false) {r : Bool} (h : contains depth a b = some r) :
    a.Hollow ∧ r = false := by
  have hstuck : ∀ g depth r, fallsBack g b = true → contains depth g b ≠ some r := by
    intro g depth r hg hr
    rw [(contains_fallsBack hg depth).1] at hr
    cases hr
  have hany : ∀ (gs : List (Geometry Float)) (depth : ℕ) (r : Bool),
      (∀ g ∈ gs, ∀ r, contains depth g b = some r → g.Hollow ∧ r = false) →
      (gs.anyM fun g => contains depth g b) = some r → (∀ g ∈ gs, g.Hollow) ∧ r = false := by
    intro gs depth r hgs hr
    have hne : (gs.anyM fun g => contains depth g b) ≠ some true :=
      anyM_ne_some_true fun g hg htrue => absurd (hgs g hg true htrue).2 (by decide)
    cases r with
    | true => exact absurd hr hne
    | false => exact ⟨fun g hg => (hgs g hg false (anyM_eq_some_false.mp hr g hg)).1, rfl⟩
  induction a using Geometry.induction generalizing depth r with
  | geometryCollection gs ih =>
    cases depth with
    | zero => cases h
    | succ depth =>
      rw [contains_geometryCollection] at h
      obtain ⟨hgs, hr⟩ := hany gs depth r (fun g hg r hr => ih g hg hr) h
      exact ⟨Geometry.hollow_geometryCollection.2 hgs, hr⟩
  | multiPolygon mp =>
    cases depth with
    | zero => cases h
    | succ depth =>
      rw [contains_multiPolygon] at h
      obtain ⟨polygons⟩ := mp
      cases polygons with
      | nil =>
        cases h
        exact ⟨by simp [Geometry.Hollow, Geometry.leaves], rfl⟩
      | cons p ps =>
        have hp : fallsBack (.polygon p) b = true := by simp [fallsBack, hb]
        rw [anyM_cons, (contains_fallsBack hp depth).1] at h
        cases h
  | point p =>
    have hp : fallsBack (.point p) b = true := by
      cases b <;> first | rfl | cases hb
    exact absurd h (hstuck _ _ _ hp)
  | polygon poly => exact absurd h (hstuck _ _ _ (by simp [fallsBack, hb]))
  | lineString ls | multiPoint mp | multiLineString mls => exact absurd h (hstuck _ _ _ rfl)

/-- Deep enough, a hollow geometry contains no geometry that is not simple. -/
theorem contains_hollow (ha : a.Hollow) (b : Geometry Float) :
    ∀ᶠ depth in atTop, contains depth a b = some false := by
  refine Geometry.Hollow.induction (P := fun a => ∀ᶠ depth in atTop, contains depth a b = some false)
    ?_ (fun gs _ ih => ?_) ha
  · refine eventually_of_succ (eventually_ge_atTop 0) fun depth _ => ?_
    rw [contains_multiPolygon]
    rfl
  · refine eventually_of_succ (eventually_forall_mem ih) fun depth hgs => ?_
    rw [contains_geometryCollection]
    exact anyM_eq_some_false.mpr hgs

/-- The pairs of simple geometries that `contains` treats in both orders. -/
theorem contains_simple (ha : a.isSimple = true) (hb : b.isSimple = true) {depth' : ℕ}
    (hab : (contains depth a b).isSome) (hba : (contains depth' b a).isSome) :
    (∃ p q, a = .point p ∧ b = .point q) ∨ ∃ p q, a = .polygon p ∧ b = .polygon q := by
  have hleft : fallsBack a b = false := by
    rw [Bool.eq_false_iff]
    intro h
    rw [(contains_fallsBack h depth).1] at hab
    cases hab
  have hright : fallsBack b a = false := by
    rw [Bool.eq_false_iff]
    intro h
    rw [(contains_fallsBack h depth').1] at hba
    cases hba
  cases a <;> cases b <;> simp_all [fallsBack, Geometry.isSimple]

/-! ### Intersection and distance -/

section Components

variable {a b : Geometry Float}

/-- The exact test goes down into the components, unless both geometries are simple. -/
theorem intersectsExact_components (rec : Geometry Float → Geometry Float → Option Bool)
    (ha : a.isSimple = false) :
    intersectsExact rec a b = a.components.anyM fun ga => b.components.anyM fun gb => rec ga gb := by
  cases a <;> first | (cases b <;> rfl) | cases ha

theorem intersects_hollow (ha : a.Hollow) (hb : b.Hollow) (depth : ℕ) : intersects (depth + 1) a b =
      a.components.anyM fun ga => b.components.anyM fun gb => intersects depth ga gb := by
  rw [intersects, ha.isValid, hb.isValid, boxesApart, ha.boundingBox,
    intersectsExact_components _ ha.not_simple]
  rfl

theorem distance_hollow (ha : a.Hollow) (hb : b.Hollow) (depth : ℕ) : distance (depth + 1) a b =
      a.components.foldlM (fun min ga => b.components.foldlM (fun min gb => do
        let d ← distance depth ga gb
        return if d < min then d else min) min) infinity := by
  have hva := ha.isValid
  have hvb := hb.isValid
  rcases ha.cases with rfl | ⟨gs, rfl, -⟩
  all_goals
    conv_lhs => unfold distance
    rw [hva, hvb]
    cases b <;> rfl

/-- Hollow geometries have no point to share. -/
theorem intersects_hollow_ne_true (ha : a.Hollow) (hb : b.Hollow) (depth : ℕ) :
    intersects depth a b ≠ some true := by
  induction depth generalizing a b with
  | zero => intro h; cases h
  | succ depth ih =>
    rw [intersects_hollow ha hb]
    exact anyM_ne_some_true fun ga hga => anyM_ne_some_true fun gb hgb =>
      ih (ha.components ga hga) (hb.components gb hgb)

/-- A hollow geometry with leaves has a component with leaves. -/
theorem exists_component_leaves (ha : a.Hollow) (hleaves : a.leaves ≠ []) :
    ∃ ga ∈ a.components, ga.Hollow ∧ ga.leaves ≠ [] := by
  rw [← ha.leaves_components] at hleaves
  obtain ⟨leaf, hleaf⟩ := exists_mem_of_ne_nil _ hleaves
  obtain ⟨ga, hga, hmem⟩ := mem_flatMap.mp hleaf
  exact ⟨ga, hga, ha.components ga hga, ne_nil_of_mem hmem⟩

/-- **Two empty multipolygons never return from the intersection test**, nor do collections of them. -/
theorem intersects_hollow_leaves (ha : a.Hollow) (hb : b.Hollow) (hleafa : a.leaves ≠ [])
    (hleafb : b.leaves ≠ []) (depth : ℕ) : intersects depth a b = none := by
  induction depth generalizing a b with
  | zero => rfl
  | succ depth ih =>
    obtain ⟨ga, hga, hha, hla⟩ := exists_component_leaves ha hleafa
    obtain ⟨gb, hgb, hhb, hlb⟩ := exists_component_leaves hb hleafb
    have hne : ∀ ga ∈ a.components, ∀ gb ∈ b.components, intersects depth ga gb ≠ some true :=
      fun ga hga gb hgb => intersects_hollow_ne_true (ha.components ga hga) (hb.components gb hgb) depth
    rw [intersects_hollow ha hb]
    refine anyM_eq_none (fun ga hga => anyM_ne_some_true (hne ga hga)) hga ?_
    exact anyM_eq_none (hne ga hga) hgb (ih hha hhb hla hlb)

/-- Without a leaf on one side, the components have none on that side either. -/
theorem components_leaves (ha : a.Hollow) (hleaf : a.leaves = []) {ga : Geometry Float}
    (hga : ga ∈ a.components) : ga.leaves = [] := by
  rw [← ha.leaves_components, flatMap_eq_nil_iff] at hleaf
  exact hleaf ga hga

/-- What holds of hollow geometries when it holds of their components, holds of all pairs of which one has
no leaf. -/
theorem hollow_pair_induction {P : Geometry Float → Geometry Float → Prop}
    (step : ∀ a b : Geometry Float, a.Hollow → b.Hollow →
      (∀ ga ∈ a.components, ∀ gb ∈ b.components, P ga gb) → P a b)
    (ha : a.Hollow) (hb : b.Hollow) (hleaf : a.leaves = [] ∨ b.leaves = []) : P a b := by
  refine Geometry.Hollow.induction (P := fun a => ∀ b : Geometry Float, b.Hollow →
    (a.leaves = [] ∨ b.leaves = []) → P a b) (fun b hb hleaf => ?_) (fun gs hgs ih b hb hleaf => ?_) ha b hb
    hleaf
  · have hmulti : (Geometry.multiPolygon (F := Float) ⟨[]⟩).Hollow := by
      simp [Geometry.Hollow, Geometry.leaves]
    have hleafb : b.leaves = [] := hleaf.resolve_left (by simp [Geometry.leaves])
    refine Geometry.Hollow.induction (P := fun b => b.leaves = [] → P (.multiPolygon ⟨[]⟩) b)
      (fun h => absurd h (by simp [Geometry.leaves])) (fun hs hhs ih hleafb => ?_) hb hleafb
    have hcoll := Geometry.hollow_geometryCollection.2 hhs
    refine step _ _ hmulti hcoll fun ga hga gb hgb => ?_
    rw [mem_singleton.mp hga]
    exact ih gb hgb (components_leaves hcoll hleafb hgb)
  · have hcoll := Geometry.hollow_geometryCollection.2 hgs
    refine step _ _ hcoll hb fun ga hga gb hgb => ih ga hga gb (hb.components gb hgb) ?_
    exact hleaf.imp (fun h => components_leaves hcoll h hga) fun h => components_leaves hb h hgb

theorem intersects_hollow_returns (ha : a.Hollow) (hb : b.Hollow)
    (hleaf : a.leaves = [] ∨ b.leaves = []) : ∀ᶠ depth in atTop, intersects depth a b = some false := by
  refine hollow_pair_induction (P := fun a b => ∀ᶠ depth in atTop, intersects depth a b = some false)
    (fun a b ha hb ih => ?_) ha hb hleaf
  have hall := eventually_forall_mem fun ga hga => eventually_forall_mem (ih ga hga)
  refine eventually_of_succ hall fun depth h => ?_
  rw [intersects_hollow ha hb]
  exact anyM_eq_some_false.mpr fun ga hga => anyM_eq_some_false.mpr (h ga hga)

theorem distance_hollow_returns (ha : a.Hollow) (hb : b.Hollow)
    (hleaf : a.leaves = [] ∨ b.leaves = []) : ∀ᶠ depth in atTop, (distance depth a b).isSome := by
  refine hollow_pair_induction (P := fun a b => ∀ᶠ depth in atTop, (distance depth a b).isSome)
    (fun a b ha hb ih => ?_) ha hb hleaf
  have hall := eventually_forall_mem fun ga hga => eventually_forall_mem (ih ga hga)
  refine eventually_of_succ hall fun depth h => ?_
  rw [distance_hollow ha hb]
  refine foldlM_isSome (fun ga hga min => foldlM_isSome (fun gb hgb min => ?_) min) infinity
  obtain ⟨d, hd⟩ := Option.isSome_iff_exists.mp (h ga hga gb hgb)
  rw [hd]
  rfl

end Components

/-! ### All predicates -/

/-- Some depth of nested calls suffices. -/
def Returns {α : Type*} (f : ℕ → Option α) : Prop := ∃ depth, (f depth).isSome

theorem not_returns {f : ℕ → Option α} (h : ∀ depth, f depth = none) : ¬Returns f := by
  rintro ⟨depth, hsome⟩
  rw [h depth] at hsome
  cases hsome

/-- All seven predicates return for the pair. -/
structure AllReturn (a b : Geometry Float) : Prop where
  intersects : Returns fun depth => intersects depth a b
  disjoint : Returns fun depth => disjoint depth a b
  contains : Returns fun depth => contains depth a b
  within : Returns fun depth => within depth a b
  touches : Returns fun depth => touches depth a b
  overlaps : Returns fun depth => overlaps depth a b
  distance : Returns fun depth => distance depth a b

/-- The geometries intersect just when some pair of their simple parts does. -/
def IntersectsAsUnion (a b : Geometry Float) : Prop :=
  (∃ depth, intersects depth a b = some true) ↔
    ∃ p ∈ a.parts, ∃ q ∈ b.parts, ∃ depth, intersects depth p q = some true

/-- Two points, two polygons, or collections with nothing in them but empty multipolygons, at most one of
the two with any. -/
def Treated (a b : Geometry Float) : Prop :=
  (∃ p q, a = .point p ∧ b = .point q) ∨ (∃ p q, a = .polygon p ∧ b = .polygon q) ∨
    a.Hollow ∧ b.Hollow ∧ (a.leaves = [] ∨ b.leaves = [])

section All

variable {a b : Geometry Float} {depth : ℕ}

theorem disjoint_isSome (h : (intersects depth a b).isSome) : (disjoint depth a b).isSome := by
  rwa [disjoint, Option.isSome_map]

theorem touches_isSome (hi : (intersects depth a b).isSome) (hn : (interiorsIntersect depth a b).isSome) :
    (touches depth a b).isSome := by
  obtain ⟨i, hi⟩ := Option.isSome_iff_exists.mp hi
  obtain ⟨n, hn⟩ := Option.isSome_iff_exists.mp hn
  unfold touches
  rw [hi, hn]
  cases i <;> cases n <;> rfl

theorem overlaps_isSome (hn : (interiorsIntersect depth a b).isSome) (hc : (contains depth a b).isSome)
    (hc' : (contains depth b a).isSome) : (overlaps depth a b).isSome := by
  obtain ⟨n, hn⟩ := Option.isSome_iff_exists.mp hn
  obtain ⟨c, hc⟩ := Option.isSome_iff_exists.mp hc
  obtain ⟨c', hc'⟩ := Option.isSome_iff_exists.mp hc'
  unfold overlaps
  rw [hn, hc, hc']
  cases a.dimension != b.dimension <;> cases equals a b <;> cases n <;> cases c <;> cases c' <;> rfl

/-- Two points or two polygons need no nested call. -/
theorem allReturn_of_base (hi : (intersects 1 a b).isSome) (hn : (interiorsIntersect 1 a b).isSome)
    (hc : (contains 1 a b).isSome) (hc' : (contains 1 b a).isSome) (hd : (distance 1 a b).isSome) :
    AllReturn a b where
  intersects := ⟨1, hi⟩
  disjoint := ⟨1, disjoint_isSome hi⟩
  contains := ⟨1, hc⟩
  within := ⟨2, hc'⟩
  touches := ⟨1, touches_isSome hi hn⟩
  overlaps := ⟨1, overlaps_isSome hn hc hc'⟩
  distance := ⟨1, hd⟩

theorem intersects_one_isSome {a b : Geometry Float} {r : Bool}
    (h : intersectsExact (intersects 0) a b = some r) : (intersects 1 a b).isSome := by
  rw [intersects, h]
  split
  · rfl
  · split <;> rfl

theorem interiorsIntersect_hollow (ha : a.Hollow) (hb : b.Hollow) (depth : ℕ) :
    interiorsIntersect depth a b = intersects (depth + 1) a b := by
  have hsimple := ha.not_simple
  rw [intersects_hollow ha hb, ← intersectsExact_components _ hsimple]
  cases a <;> first | rfl | cases hsimple

theorem allReturn_of_hollow (ha : a.Hollow) (hb : b.Hollow) (hleaf : a.leaves = [] ∨ b.leaves = []) :
    AllReturn a b := by
  have hintersects := intersects_hollow_returns ha hb hleaf
  have hnext : ∀ᶠ depth in atTop, intersects (depth + 1) a b = some false :=
    (tendsto_add_atTop_nat 1).eventually hintersects
  obtain ⟨depth, hi, hn, hc, hc', hd⟩ := (hintersects.and (hnext.and ((contains_hollow ha b).and
    ((contains_hollow hb a).and (distance_hollow_returns ha hb hleaf))))).exists
  rw [← interiorsIntersect_hollow ha hb] at hn
  have hi' : (intersects depth a b).isSome := by rw [hi]; rfl
  have hn' : (interiorsIntersect depth a b).isSome := by rw [hn]; rfl
  have hca : (contains depth a b).isSome := by rw [hc]; rfl
  have hcb : (contains depth b a).isSome := by rw [hc']; rfl
  exact ⟨⟨depth, hi'⟩, ⟨depth, disjoint_isSome hi'⟩, ⟨depth, hca⟩, ⟨depth + 1, hcb⟩,
    ⟨depth, touches_isSome hi' hn'⟩, ⟨depth, overlaps_isSome hn' hca hcb⟩, ⟨depth, hd⟩⟩

theorem treated_of_allReturn (h : AllReturn a b) : Treated a b := by
  obtain ⟨depth, hab⟩ := h.contains
  obtain ⟨depth', hwithin⟩ := h.within
  cases depth' with
  | zero => cases hwithin
  | succ depth' =>
    have hba : (contains depth' b a).isSome := hwithin
    obtain ⟨r, hr⟩ := Option.isSome_iff_exists.mp hab
    obtain ⟨r', hr'⟩ := Option.isSome_iff_exists.mp hba
    cases hb : b.isSimple with
    | false =>
      have ha := (hollow_of_contains hb hr).1
      have hb' := (hollow_of_contains ha.not_simple hr').1
      refine Or.inr (Or.inr ⟨ha, hb', ?_⟩)
      by_contra hleaf
      obtain ⟨hla, hlb⟩ := not_or.mp hleaf
      exact not_returns (intersects_hollow_leaves ha hb' hla hlb) h.intersects
    | true =>
      cases ha : a.isSimple with
      | false =>
        have hb' := (hollow_of_contains ha hr').1
        rw [hb'.not_simple] at hb
        cases hb
      | true => exact (contains_simple ha hb hab hba).imp_right Or.inl

/-- **The predicates return, and treat multi-geometries as unions, for exactly the treated pairs.** -/
theorem predicates_return_iff (a b : Geometry Float) : AllReturn a b ∧ IntersectsAsUnion a b ↔ Treated a b := by
  refine ⟨fun h => treated_of_allReturn h.1, fun h => ?_⟩
  rcases h with ⟨p, q, rfl, rfl⟩ | ⟨p, q, rfl, rfl⟩ | ⟨ha, hb, hleaf⟩
  · refine ⟨allReturn_of_base (intersects_one_isSome rfl) rfl rfl rfl ?_, ?_⟩
    · unfold distance
      split <;> rfl
    · simp [IntersectsAsUnion, Geometry.parts, Geometry.leaves, Geometry.pieces]
  · refine ⟨allReturn_of_base (intersects_one_isSome rfl) rfl rfl rfl ?_, ?_⟩
    · unfold distance
      split <;> rfl
    · simp [IntersectsAsUnion, Geometry.parts, Geometry.leaves, Geometry.pieces]
  · refine ⟨allReturn_of_hollow ha hb hleaf, ?_⟩
    rw [IntersectsAsUnion, ha.parts_eq]
    constructor
    · rintro ⟨depth, h⟩
      exact absurd h (intersects_hollow_ne_true ha hb depth)
    · rintro ⟨p, hp, -⟩
      cases hp

theorem intersects_multiPoint (depth : ℕ) : intersects depth (.multiPoint ⟨[]⟩) (.multiPoint ⟨[]⟩) = none := by
  induction depth with
  | zero => rfl
  | succ depth ih =>
    have hstep : intersects (depth + 1) (.multiPoint ⟨[]⟩) (.multiPoint ⟨[]⟩) =
        [Geometry.multiPoint ⟨[]⟩].anyM fun ga =>
          [Geometry.multiPoint ⟨[]⟩].anyM fun gb => intersects depth ga gb := rfl
    rw [hstep]
    simp [ih]

/-- Whether two empty multipoints intersect, and whether a point contains a linestring, is never
answered. -/
theorem predicates_overflow : ¬AllReturn (.multiPoint ⟨[]⟩) (.multiPoint ⟨[]⟩) ∧
      ¬AllReturn (.point ⟨0, 0⟩) (.lineString ⟨[⟨0, 0⟩, ⟨1, 1⟩]⟩) :=
  ⟨fun h => not_returns intersects_multiPoint h.intersects,
    fun h => not_returns (fun depth => (contains_fallsBack rfl depth).1) h.contains⟩

end All

end CenDB.Spatial
