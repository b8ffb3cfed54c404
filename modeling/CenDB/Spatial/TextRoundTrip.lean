import CenDB.Spatial.GeoJson
import CenDB.Spatial.Wkt

/-! # Round trips of the textual formats

Both readers return the geometry with every coordinate read back from its text (`fromWkt_toWkt_eq`,
`fromGeojson_toGeojson_eq`); the coordinates are equal to the ones that were printed. -/

namespace CenDB.Spatial

open Text (i64Text)

section RoundTrip

variable {F : Type} {num : Decimals F} {finite : F → Prop} {ofI64 : ℤ → F}

/-- Two geometries of the same shape, with coordinates that compare equal. -/
def Geometry.Equal (num : Decimals F) (g g' : Geometry F) : Prop := g.Same (fun a b => num.eq a b = true) g'

theorem Geometry.equal_reread (h : num.Lawful finite ofI64) {g : Geometry F}
    (hg : ∀ f ∈ g.coordinates, finite f) : g.Equal num (g.map (num.reread ofI64)) :=
  Geometry.same_map fun f hf => h.eq_reread (hg f hf)

/-- **A geometry with finite coordinates is read back from its text and from its GeoJSON.** -/
theorem fromText_toText (h : num.Lawful finite ofI64) {alphabetic : Char → Bool}
    (halpha : ∀ c : Char, c.toNat < 128 → alphabetic c = c.isAlpha) (g : Geometry F)
    (hg : ∀ f ∈ g.coordinates, finite f) :
    (∃ g', fromWkt num alphabetic (toWkt num g) = .ok g' ∧ g.Equal num g') ∧
      ∃ g', fromGeojson num (toGeojson num g) = .ok g' ∧ g.Equal num g' := by
  have hequal := Geometry.equal_reread h hg
  have hwkt := fromWkt_toWkt_eq h halpha hg
  have hgeojson := fromGeojson_toGeojson_eq h hg
  exact ⟨⟨_, hwkt, hequal⟩, ⟨_, hgeojson, hequal⟩⟩

end RoundTrip

/-! ### Whole numbers -/

/-- Digits after a minus sign or none. -/
def parseWhole (s : List Char) : Option ℤ :=
  match s with
  | '-' :: digits => if digits.all Char.isDigit then some (-Nat.ofDigitChars 10 digits 0) else none
  | digits => if digits.all Char.isDigit then some (Nat.ofDigitChars 10 digits 0) else none

/-- Numbers without fractions. -/
def wholeNumbers : Decimals ℤ where
  nan := 0
  eq a b := a == b
  lt a b := decide (a < b)
  trunc n := n
  abs n := |n|
  e16 := 10 ^ 16
  toI64 n := max (-2 ^ 63) (min n (2 ^ 63 - 1))
  display := i64Text
  parse := parseWhole

theorem parseWhole_i64Text (n : ℤ) : parseWhole (i64Text n) = some n := by
  have hall : (Nat.toDigits 10 n.natAbs).all Char.isDigit = true := by
    rw [List.all_eq_true]
    exact fun c hc => Nat.isDigit_of_mem_toDigits (by decide : 0 < 10) (by decide : 10 ≤ 10) hc
  unfold i64Text
  split
  · rename_i hn
    rw [parseWhole, if_pos hall, Nat.ofDigitChars_ten_toDigits]
    congr 1
    omega
  · rename_i hn
    obtain ⟨c, t, hdigits⟩ := List.exists_cons_of_ne_nil (Nat.toDigits_ne_nil (b := 10) (n := n.natAbs))
    have hminus : c ≠ '-' := by
      rintro rfl
      rw [hdigits] at hall
      cases hall
    unfold parseWhole
    split
    · rename_i digits heq
      rw [hdigits] at heq
      exact absurd (List.cons.inj heq).1 hminus
    · rw [if_pos hall, Nat.ofDigitChars_ten_toDigits]
      congr 1
      omega

theorem lawful_wholeNumbers : wholeNumbers.Lawful (fun _ => True) id where
  eq_refl f _ := by simp [wholeNumbers]
  display_numeral f _ := numeral_i64Text f
  parse_display f _ := parseWhole_i64Text f
  parse_i64 n _ _ := parseWhole_i64Text n
  toI64_range f := by simp only [wholeNumbers]; omega
  eq_ofI64 f _ _ hlt := by
    simp only [wholeNumbers, decide_eq_true_eq, abs_lt] at hlt
    simp only [wholeNumbers, id, beq_iff_eq]
    omega

/-- A collection with an empty member, an empty ring and a hole. -/
def nestedCollection : Geometry ℤ :=
  .geometryCollection [.point ⟨1, -2⟩, .geometryCollection [], .polygon ⟨⟨[]⟩, [⟨[⟨0, 30⟩]⟩]⟩]

theorem fromText_toText_nested :
    (∃ g', fromWkt wholeNumbers Char.isAlpha (toWkt wholeNumbers nestedCollection) = .ok g' ∧
      nestedCollection.Equal wholeNumbers g') ∧
    ∃ g', fromGeojson wholeNumbers (toGeojson wholeNumbers nestedCollection) = .ok g' ∧
      nestedCollection.Equal wholeNumbers g' :=
  fromText_toText lawful_wholeNumbers (fun _ _ => rfl) nestedCollection fun _ _ => trivial

end CenDB.Spatial
