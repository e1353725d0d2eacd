import NormalTower.Proofs.Element.Field

/-!
# Powers of elements

A level has `2 ^ bits` elements, so the nonzero ones are a group of `2 ^ bits - 1`, and a sum of two
equal elements is zero, so squaring is additive.

* `inv_eq_pow`: the inverse is a power, also for zero.
* `iterate_square`: squaring again and again is a power.
-/

namespace NormalTower.Element

variable {l : Level}

theorem card_eq (l : Level) : Fintype.card (Element l) = 2 ^ l.bits := by
  rw [Fintype.card_congr (equivFin l), Fintype.card_fin]
  exact l.size_eq

theorem add_self (x : Element l) : x + x = 0 := Element.ext UInt8.xor_self

instance : CharP (Element l) 2 :=
  CharTwo.of_one_ne_zero_of_two_eq_zero one_ne_zero (one_add_one_eq_two.symm.trans (add_self 1))

theorem square_eq_pow (x : Element l) : x.square = x ^ 2 := by
  rw [square_eq_mul, pow_two]

theorem iterate_square (x : Element l) (k : Nat) : square^[k] x = x ^ 2 ^ k := by
  induction k with
  | zero => rw [Function.iterate_zero_apply, pow_zero, pow_one]
  | succ k ih => rw [Function.iterate_succ_apply', ih, square_eq_pow, ← pow_mul, ← pow_succ]

theorem pow_card (x : Element l) : x ^ 2 ^ l.bits = x := by
  rw [← card_eq]
  exact FiniteField.pow_card x

theorem pow_card_sub_one {x : Element l} (hx : x ≠ 0) : x ^ (2 ^ l.bits - 1) = 1 := by
  rw [← card_eq]
  exact FiniteField.pow_card_sub_one_eq_one x hx

theorem two_lt_card (l : Level) : 2 < 2 ^ l.bits := by
  cases l <;> decide

/-- **The inverse is a power**, and zero is its own. -/
theorem inv_eq_pow (x : Element l) : x⁻¹ = x ^ (2 ^ l.bits - 2) := by
  have hl := two_lt_card l
  by_cases hx : x = 0
  · rw [hx, inv_zero, zero_pow (by omega)]
  · refine inv_eq_of_mul_eq_one_right ?_
    rw [← pow_succ', show 2 ^ l.bits - 2 + 1 = 2 ^ l.bits - 1 by omega]
    exact pow_card_sub_one hx

end NormalTower.Element
