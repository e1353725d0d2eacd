import NormalTower.Packed.Arith
import NormalTower.Proofs.Packed.Width

/-!
# Stray bits

A byte stands for the element in its low bits; the bits above the width are stray. Only a sum keeps
them. Every other operation looks at its operands through `split`, which drops them, and packs its
result with `join`, which leaves none:

* `split_and_mask`, `join_and_halfMask`: taking apart and putting together.
* `mul_and_mask`, `square_and_mask`, `inv_and_mask`, …: an operation on masked operands gives the
  same byte.
-/

namespace NormalTower.Packed

/-! ## Coordinates -/

/-- A coordinate takes up bits of the element. -/
theorem mask_and_halfMask (l : Level) : l.mask &&& l.halfMask = l.halfMask := by
  cases l <;> decide

theorem split_and_mask (l : Level) (x : UInt8) : split l (x &&& l.mask) = split l x := by
  unfold split
  rw [UInt8.and_assoc, UInt8.and_self, UInt8.and_assoc, mask_and_halfMask]

theorem join_and_halfMask (l : Level) (hi lo : UInt8) :
    join l (hi &&& l.halfMask) (lo &&& l.halfMask) = join l hi lo := by
  unfold join
  rw [UInt8.and_assoc, UInt8.and_self, UInt8.and_assoc, UInt8.and_self]

theorem join_congr {l : Level} {hi hi' lo lo' : UInt8}
    (hhi : hi &&& l.halfMask = hi' &&& l.halfMask) (hlo : lo &&& l.halfMask = lo' &&& l.halfMask) :
    join l hi lo = join l hi' lo' := by
  rw [← join_and_halfMask, hhi, hlo, join_and_halfMask]

/-! ## Operations -/

theorem product_and_mask (l : Level) (times : UInt8 → UInt8 → UInt8) (scale : UInt8 → UInt8)
    (x y : UInt8) :
    product l times scale (x &&& l.mask) (y &&& l.mask) = product l times scale x y := by
  simp only [product, crossTerm, split_and_mask]

theorem inverse_and_mask (l : Level) (times : UInt8 → UInt8 → UInt8)
    (scaledSquare invert : UInt8 → UInt8) (x : UInt8) :
    inverse l times scaledSquare invert (x &&& l.mask) =
      inverse l times scaledSquare invert x := by
  simp only [inverse, split_and_mask]

theorem scaleN_and_mask (x : UInt8) : scaleN (x &&& Level.mask .gf4) = scaleN x := by
  simp only [scaleN, split_and_mask]

theorem scaleNSquared_and_mask (x : UInt8) :
    scaleNSquared (x &&& Level.mask .gf4) = scaleNSquared x := by
  simp only [scaleNSquared, split_and_mask]

theorem square4_and_mask (x : UInt8) : square4 (x &&& Level.mask .gf4) = square4 x := by
  simp only [square4, split_and_mask]

theorem scaledSquare16_and_mask (x : UInt8) :
    scaledSquare16 (x &&& Level.mask .gf16) = scaledSquare16 x := by
  simp only [scaledSquare16, split_and_mask]

/-! ## By level -/

theorem mul_and_mask (l : Level) (x y : UInt8) :
    mul l (x &&& l.mask) (y &&& l.mask) = mul l x y := by
  cases l with
  | gf4 => exact product_and_mask .gf4 _ _ x y
  | gf16 => exact product_and_mask .gf16 _ _ x y
  | gf256 => exact product_and_mask .gf256 _ _ x y

theorem square_and_mask (l : Level) (x : UInt8) : square l (x &&& l.mask) = square l x := by
  cases l with
  | gf4 => exact square4_and_mask x
  | gf16 => exact mul_and_mask .gf16 x x
  | gf256 => exact mul_and_mask .gf256 x x

theorem inv_and_mask (l : Level) (x : UInt8) : inv l (x &&& l.mask) = inv l x := by
  cases l with
  | gf4 => exact square4_and_mask x
  | gf16 => simp only [inv, inv16, inverse_and_mask]
  | gf256 => simp only [inv, inv256, inverse_and_mask]

end NormalTower.Packed
