import NormalTower.Packed.Arith
import NormalTower.Proofs.Bits

/-!
# Linearity of the packed operations

Taking a byte apart, putting it together, scaling by a norm and squaring respect exclusive or, and
every product respects it in each operand. Nothing is asked of the bytes: the stray bits above the
width are dropped by linear maps too.

* `split_hi_linear`, `split_lo_linear`, `join_linear`: coordinates.
* `square4_linear`, `scaleN_linear`, `scaledSquare16_linear`, …: the maps of one operand.
* `mul_bilinear`: the product at every level.
-/

namespace NormalTower.Packed

/-! ## Coordinates -/

theorem and_linear (m : UInt8) : XorLinear fun x => x &&& m :=
  fun x y => and_xor_left x y m

theorem split_hi_linear (l : Level) : XorLinear fun x => (split l x).hi := by
  intro x y
  show ((x ^^^ y) &&& l.mask) >>> l.halfBits = _
  rw [and_xor_left, UInt8.shiftRight_xor]
  rfl

theorem split_lo_linear (l : Level) : XorLinear fun x => (split l x).lo :=
  and_linear l.halfMask

/-- The two halves of a packed byte have no bit in common. -/
theorem join_eq_xor (l : Level) (hi lo : UInt8) :
    join l hi lo = ((hi &&& l.halfMask) <<< l.halfBits) ^^^ (lo &&& l.halfMask) := by
  refine eq_of_bits fun i hi => ?_
  rcases bit_cases hi with rfl | rfl | rfl | rfl | rfl | rfl | rfl | rfl <;> cases l <;>
    simp [join, Level.halfMask, Level.halfBits, BitVec.getElem_shiftLeft]

theorem join_linear (l : Level) : XorLinear₂ (join l) := by
  intro x x' y y'
  simp only [join_eq_xor, and_xor_left, UInt8.shiftLeft_xor]
  rw [xor_xor_xor_comm]

/-! ## Maps of one operand -/

theorem sum_linear (l : Level) : XorLinear fun x => (split l x).hi ^^^ (split l x).lo :=
  (split_hi_linear l).xor (split_lo_linear l)

theorem square4_linear : XorLinear square4 :=
  (join_linear .gf4).comp (split_lo_linear .gf4) (split_hi_linear .gf4)

theorem scaleN_linear : XorLinear scaleN :=
  (join_linear .gf4).comp (split_lo_linear .gf4) (sum_linear .gf4)

theorem scaleNSquared_linear : XorLinear scaleNSquared :=
  (join_linear .gf4).comp (sum_linear .gf4) (split_hi_linear .gf4)

theorem scaledSquare16_linear : XorLinear scaledSquare16 :=
  (join_linear .gf16).comp (square4_linear.comp (sum_linear .gf16))
    (scaleNSquared_linear.comp (square4_linear.comp (split_lo_linear .gf16)))

/-! ## Products -/

theorem and_bilinear : XorBilinear (· &&& ·) where
  left y := and_linear y
  right x := fun y y' => and_xor_right x y y'

theorem product_bilinear (l : Level) {times : UInt8 → UInt8 → UInt8} {scale : UInt8 → UInt8}
    (ht : XorBilinear times) (hs : XorLinear scale) : XorBilinear (product l times scale) where
  left y := by
    have he : XorLinear fun x => crossTerm l times scale x y :=
      hs.comp ((ht.left _).comp (sum_linear l))
    exact (join_linear l).comp (((ht.left _).comp (split_hi_linear l)).xor he)
      (((ht.left _).comp (split_lo_linear l)).xor he)
  right x := by
    have he : XorLinear (crossTerm l times scale x) := hs.comp ((ht.right _).comp (sum_linear l))
    exact (join_linear l).comp (((ht.right _).comp (split_hi_linear l)).xor he)
      (((ht.right _).comp (split_lo_linear l)).xor he)

theorem mul4_bilinear : XorBilinear mul4 := product_bilinear .gf4 and_bilinear XorLinear.id

theorem mul16_bilinear : XorBilinear mul16 := product_bilinear .gf16 mul4_bilinear scaleN_linear

theorem mul256_bilinear : XorBilinear mul256 :=
  product_bilinear .gf256 mul16_bilinear (mul16_bilinear.left nu)

theorem mul_bilinear (l : Level) : XorBilinear (mul l) := by
  cases l with
  | gf4 => exact mul4_bilinear
  | gf16 => exact mul16_bilinear
  | gf256 => exact mul256_bilinear

end NormalTower.Packed
