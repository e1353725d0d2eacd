import Mathlib
import NormalTower.Packed.Basic

/-!
# Bytes that fit a width

The sizes of a level are powers of two, so masking leaves a byte alone that fits (`and_mask_of_lt`).
On bytes without stray bits, taking apart and putting together undo each other exactly.
-/

namespace NormalTower.Packed

/-- Masking leaves a byte alone that fits. -/
theorem and_of_lt_two_pow {w : Nat} {m x : UInt8} (hm : m.toNat = 2 ^ w - 1)
    (hx : x.toNat < 2 ^ w) : x &&& m = x := by
  apply UInt8.toNat_inj.mp
  rw [UInt8.toNat_and, hm, Nat.and_two_pow_sub_one_eq_mod, Nat.mod_eq_of_lt hx]

theorem and_mask_of_lt {l : Level} {x : UInt8} (h : x.toNat < l.size) : x &&& l.mask = x :=
  and_of_lt_two_pow (by cases l <;> rfl) (h.trans_eq l.size_eq)

theorem and_halfMask_of_lt {l : Level} {x : UInt8} (h : x.toNat < l.halfSize) :
    x &&& l.halfMask = x :=
  and_of_lt_two_pow (by cases l <;> rfl) (h.trans_eq l.halfSize_eq)

theorem join_split_of_lt {l : Level} {x : UInt8} (h : x.toNat < l.size) :
    join l (split l x).hi (split l x).lo = x := by
  rw [join_split, and_mask_of_lt h]

theorem split_join_of_lt {l : Level} {hi lo : UInt8} (hhi : hi.toNat < l.halfSize)
    (hlo : lo.toNat < l.halfSize) : split l (join l hi lo) = ⟨hi, lo⟩ := by
  rw [split_join, and_halfMask_of_lt hhi, and_halfMask_of_lt hlo]

end NormalTower.Packed
