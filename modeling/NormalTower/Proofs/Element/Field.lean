import NormalTower.Proofs.Element.Coordinates

/-!
# Every level is a field

The additive laws hold at every level because addition is exclusive or. `FieldLaws l` collects the
laws of the product and the inverse. They hold for the four elements of the lowest level, and a
quadratic step carries them up (`FieldLaws.step`): the laws of the product are ring arithmetic in
the coordinates, and the inverse needs that the norm vanishes at zero only. That in turn says that
the basis elements of the step do not lie in the level below, which is checked on its elements
(`norm_ne`).

So `Element l` is a field of characteristic two for every level `l`.
-/

namespace NormalTower.Element

variable {l base top : Level}

/-! ## Addition -/

/-- Every element is its own negative. -/
instance : Neg (Element l) := ⟨id⟩

instance : AddCommGroup (Element l) where
  add_assoc x y z := Element.ext (UInt8.xor_assoc x.val y.val z.val)
  zero_add _ := Element.ext UInt8.zero_xor
  add_zero _ := Element.ext UInt8.xor_zero
  add_comm x y := Element.ext (UInt8.xor_comm x.val y.val)
  neg_add_cancel _ := Element.ext UInt8.xor_self
  sub_eq_add_neg _ _ := rfl
  nsmul := nsmulRec
  zsmul := zsmulRec

/-! ## The laws of product and inverse -/

theorem square_eq_mul (x : Element l) : x.square = x * x := by
  cases l with
  | gf4 =>
    revert x
    decide
  | gf16 => rfl
  | gf256 => rfl

/-- The laws of a field that are not laws of addition. -/
structure FieldLaws (l : Level) : Prop where
  mul_assoc : ∀ x y z : Element l, x * y * z = x * (y * z)
  mul_comm : ∀ x y : Element l, x * y = y * x
  one_mul : ∀ x : Element l, 1 * x = x
  mul_add : ∀ x y z : Element l, x * (y + z) = x * y + x * z
  mul_inv_cancel : ∀ x : Element l, x ≠ 0 → x * x⁻¹ = 1
  inv_zero : (0 : Element l)⁻¹ = 0

namespace FieldLaws

/-- The field that the laws make of a level. -/
@[reducible] def toField (h : FieldLaws l) : Field (Element l) where
  mul_assoc := h.mul_assoc
  mul_comm := h.mul_comm
  one_mul := h.one_mul
  mul_one x := (h.mul_comm x 1).trans (h.one_mul x)
  left_distrib := h.mul_add
  right_distrib x y z := by rw [h.mul_comm, h.mul_add, h.mul_comm z, h.mul_comm z]
  zero_mul x := by
    have h0 := h.mul_add x 0 0
    rw [add_zero] at h0
    rw [h.mul_comm]
    exact left_eq_add.mp h0
  mul_zero x := by
    have h0 := h.mul_add x 0 0
    rw [add_zero] at h0
    exact left_eq_add.mp h0
  neg_add_cancel := neg_add_cancel
  zsmul := zsmulRec
  exists_pair_ne := ⟨0, 1, by cases l <;> decide⟩
  mul_inv_cancel := h.mul_inv_cancel
  inv_zero := h.inv_zero
  nnqsmul := _
  nnqsmul_def _ _ := rfl
  qsmul := _
  qsmul_def _ _ := rfl

/-- The field of 4 elements, element by element. -/
theorem gf4 : FieldLaws .gf4 where
  mul_assoc := by decide
  mul_comm := by decide
  one_mul := by decide
  mul_add := by decide
  mul_inv_cancel := by decide
  inv_zero := by decide

/-- The basis elements of a step are the roots of `u² - u + norm`, and none lies in the level
below. -/
theorem norm_ne (e : Extension base top) : ∀ u : Element base, u * u - u + e.norm ≠ 0 := by
  cases e <;> decide

/-- **The norm vanishes at zero only.** -/
theorem normDown_ne_zero (h : FieldLaws base) (e : Extension base top) {a b : Element base}
    (hab : ¬(a = 0 ∧ b = 0)) : normDown e a b ≠ 0 := by
  let := h.toField
  unfold normDown
  intro hN
  by_cases hs : a - b = 0
  · -- the norm of `a v + a w = a` is `a²`
    have hb : a = b := sub_eq_zero.mp hs
    subst hb
    rw [hs, zero_mul, zero_mul, zero_add] at hN
    have ha : a = 0 := mul_self_eq_zero.mp hN
    exact hab ⟨ha, ha⟩
  · -- divided by `(a - b)²` the norm is the polynomial at `a / (a - b)`
    have hinv : (a - b) * (a - b)⁻¹ = 1 := mul_inv_cancel₀ hs
    apply norm_ne e (a * (a - b)⁻¹)
    linear_combination (a - b)⁻¹ * (a - b)⁻¹ * hN -
      (e.norm * ((a - b) * (a - b)⁻¹ + 1) - a * (a - b)⁻¹) * hinv

theorem step (h : FieldLaws base) (e : Extension base top) : FieldLaws top := by
  let := h.toField
  refine ⟨fun x y z => ?_, fun x y => ?_, fun x => ?_, fun x y z => ?_, fun x hx => ?_, ?_⟩
  · obtain ⟨a, b, rfl⟩ := exists_ofHalves e x
    obtain ⟨c, d, rfl⟩ := exists_ofHalves e y
    obtain ⟨f, g, rfl⟩ := exists_ofHalves e z
    simp only [ofHalves_mul]
    congr 2 <;> ring
  · obtain ⟨a, b, rfl⟩ := exists_ofHalves e x
    obtain ⟨c, d, rfl⟩ := exists_ofHalves e y
    simp only [ofHalves_mul]
    congr 2 <;> ring
  · obtain ⟨a, b, rfl⟩ := exists_ofHalves e x
    rw [← ofHalves_one e, ofHalves_mul]
    congr 2 <;> ring
  · obtain ⟨a, b, rfl⟩ := exists_ofHalves e x
    obtain ⟨c, d, rfl⟩ := exists_ofHalves e y
    obtain ⟨f, g, rfl⟩ := exists_ofHalves e z
    simp only [ofHalves_mul, ofHalves_add]
    congr 2 <;> ring
  · obtain ⟨a, b, rfl⟩ := exists_ofHalves e x
    have hab : ¬(a = 0 ∧ b = 0) := by
      rintro ⟨rfl, rfl⟩
      exact hx (ofHalves_zero e)
    have hN : normDown e a b * (normDown e a b)⁻¹ = 1 :=
      mul_inv_cancel₀ (h.normDown_ne_zero e hab)
    rw [ofHalves_inv, ofHalves_mul, ← ofHalves_one e]
    generalize (normDown e a b)⁻¹ = t at hN ⊢
    unfold normDown at hN
    congr 2 <;> linear_combination hN
  · rw [← ofHalves_zero e, ofHalves_inv, mul_zero]

end FieldLaws

theorem fieldLaws : ∀ l : Level, FieldLaws l
  | .gf4 => .gf4
  | .gf16 => FieldLaws.gf4.step .gf16
  | .gf256 => (FieldLaws.gf4.step .gf16).step .gf256

instance : Field (Element l) := (fieldLaws l).toField

end NormalTower.Element
