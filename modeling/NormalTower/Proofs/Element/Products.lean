import NormalTower.Proofs.Element.Field

/-!
# Products and sums of many elements

The laws of a field for products and sums of any length: `Bracketing.prod_eq_of_perm` for the order
and the bracketing of the factors, `mapM_inv?_eq` for the inverse of a product, and
`field_laws_of_lists` for all of them together.
-/

namespace NormalTower.Element

variable {l : Level}

/-- A way to bracket a product. -/
inductive Bracketing (l : Level) where
  /-- The product of no factors. -/
  | empty
  /-- A single factor. -/
  | factor (x : Element l)
  /-- The product of two products. -/
  | times (s t : Bracketing l)

namespace Bracketing

/-- The factors from left to right. -/
def factors : Bracketing l → List (Element l)
  | .empty => []
  | .factor x => [x]
  | .times s t => s.factors ++ t.factors

/-- The product, multiplied as the brackets say. -/
def prod : Bracketing l → Element l
  | .empty => 1
  | .factor x => x
  | .times s t => s.prod * t.prod

theorem prod_eq (t : Bracketing l) : t.prod = t.factors.prod := by
  induction t with
  | empty => rfl
  | factor x => exact (List.prod_singleton).symm
  | times s t hs ht =>
    show s.prod * t.prod = (s.factors ++ t.factors).prod
    rw [List.prod_append, hs, ht]

theorem prod_eq_of_perm {t : Bracketing l} {xs : List (Element l)} (h : t.factors.Perm xs) :
    t.prod = xs.prod :=
  t.prod_eq.trans h.prod_eq

end Bracketing

/-! ## Inverses -/

theorem inv?_eq_none_iff {x : Element l} : x.inv? = none ↔ x = 0 := by
  unfold inv?
  by_cases h : x = 0
  · simp [h]
  · simp [h]

theorem inv?_of_ne_zero {x : Element l} (h : x ≠ 0) : x.inv? = some x⁻¹ := if_neg h

/-- The inverses of the factors, if all of them have one, multiply to the inverse of the product. -/
theorem mapM_inv?_eq : ∀ xs : List (Element l),
    (xs.mapM inv?).map List.prod = xs.prod.inv?
  | [] => by
    rw [List.prod_nil, inv?_of_ne_zero one_ne_zero, inv_one]
    rfl
  | x :: xs => by
    have ih := mapM_inv?_eq xs
    rw [List.mapM_cons, List.prod_cons]
    by_cases hx : x = 0
    · rw [inv?_eq_none_iff.mpr hx, inv?_eq_none_iff.mpr (by rw [hx, zero_mul])]
      rfl
    rw [inv?_of_ne_zero hx]
    by_cases hp : xs.prod = 0
    · rw [inv?_eq_none_iff.mpr hp, Option.map_eq_none_iff] at ih
      rw [ih, inv?_eq_none_iff.mpr (by rw [hp, mul_zero])]
      rfl
    · rw [inv?_of_ne_zero hp, Option.map_eq_some_iff] at ih
      obtain ⟨ys, hys, hprod⟩ := ih
      rw [hys, inv?_of_ne_zero (mul_ne_zero hx hp), mul_inv, ← hprod]
      rfl

/-- **The field laws for products and sums of any length.** -/
theorem field_laws_of_lists (xs : List (Element l)) (y : Element l) :
    (∀ t : Bracketing l, t.factors.Perm xs → t.prod = xs.prod) ∧
    y * xs.sum = (xs.map (y * ·)).sum ∧
    (xs.prod = 0 ↔ 0 ∈ xs) ∧
    (xs.prod.inv? = none ↔ 0 ∈ xs) ∧
    xs.prod.inv? = (xs.mapM inv?).map List.prod ∧
    ∀ z, xs.prod.inv? = some z → z * xs.prod = 1 := by
  refine ⟨fun t h => Bracketing.prod_eq_of_perm h, ?_, List.prod_eq_zero_iff, ?_,
    (mapM_inv?_eq xs).symm, fun z hz => ?_⟩
  · rw [List.sum_map_mul_left, List.map_id']
  · rw [inv?_eq_none_iff, List.prod_eq_zero_iff]
  · have hne : xs.prod ≠ 0 := fun h0 => by
      rw [inv?_eq_none_iff.mpr h0] at hz
      cases hz
    rw [inv?_of_ne_zero hne, Option.some.injEq] at hz
    rw [← hz]
    exact inv_mul_cancel₀ hne

/-- A product of three elements in another order and bracketing, and its inverse. -/
theorem field_laws_of_three_nibbles :
    let xs : List Gf16 := [ofMasked .gf16 0x3, ofMasked .gf16 0x7, ofMasked .gf16 0xa]
    let t : Bracketing .gf16 :=
      .times (.times (.factor (ofMasked .gf16 0xa)) .empty)
        (.times (.factor (ofMasked .gf16 0x3)) (.factor (ofMasked .gf16 0x7)))
    t.factors.Perm xs ∧ t.prod = xs.prod ∧
      ∃ z, xs.prod.inv? = some z ∧ z * xs.prod = 1 := by
  intro xs t
  have ht : t.factors.Perm xs := by decide
  have hz : xs.prod.inv? = some xs.prod⁻¹ := by decide
  have h := field_laws_of_lists xs 1
  exact ⟨ht, h.1 t ht, _, hz, h.2.2.2.2.2 _ hz⟩

end NormalTower.Element
