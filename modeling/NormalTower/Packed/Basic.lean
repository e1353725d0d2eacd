import NormalTower.Level

/-!
# Packed elements: taking a byte apart and putting it together

`split l x` reads the two coordinates of the element of level `l` packed in `x`, and `join l hi lo`
packs two coordinates. Both look only at the bits that belong to their operands, so a byte with
stray bits above the width stands for the element in its low bits.

* `split_join`, `join_split`: each undoes the other, up to stray bits.
* `toNat_join_lt`, `toNat_split_hi_lt`, `toNat_split_lo_lt`: the results fit their width.
* `toNat_xor_lt_two_pow`, `toNat_xor_lt`: so does the sum of two bytes that fit.
-/

namespace NormalTower.Packed

/-- The coordinates of the element packed in `x`. -/
def split (l : Level) (x : UInt8) : Halves UInt8 :=
  ⟨(x &&& l.mask) >>> l.halfBits, x &&& l.halfMask⟩

/-- The element with coordinates `hi` and `lo`. -/
def join (l : Level) (hi lo : UInt8) : UInt8 :=
  ((hi &&& l.halfMask) <<< l.halfBits) ||| (lo &&& l.halfMask)

/-! ## Bit by bit -/

theorem eq_of_bits {x y : UInt8} (h : ∀ (i : Nat) (hi : i < 8), x.toBitVec[i] = y.toBitVec[i]) :
    x = y :=
  UInt8.eq_of_toBitVec_eq (BitVec.eq_of_getElem_eq h)

theorem bit_cases {i : Nat} (h : i < 8) :
    i = 0 ∨ i = 1 ∨ i = 2 ∨ i = 3 ∨ i = 4 ∨ i = 5 ∨ i = 6 ∨ i = 7 := by
  omega

theorem join_split (l : Level) (x : UInt8) :
    join l (split l x).hi (split l x).lo = x &&& l.mask := by
  refine eq_of_bits fun i hi => ?_
  rcases bit_cases hi with rfl | rfl | rfl | rfl | rfl | rfl | rfl | rfl <;> cases l <;>
    simp [split, join, Level.mask, Level.halfMask, Level.halfBits, BitVec.getElem_shiftLeft]

theorem split_join (l : Level) (hi lo : UInt8) :
    split l (join l hi lo) = ⟨hi &&& l.halfMask, lo &&& l.halfMask⟩ := by
  refine (Halves.mk.injEq ..).mpr ⟨eq_of_bits fun i hi => ?_, eq_of_bits fun i hi => ?_⟩ <;>
    rcases bit_cases hi with rfl | rfl | rfl | rfl | rfl | rfl | rfl | rfl <;> cases l <;>
    simp [join, Level.mask, Level.halfMask, Level.halfBits, BitVec.getElem_shiftLeft]

/-! ## Results fit their width -/

theorem toNat_and_halfMask_lt (l : Level) (x : UInt8) :
    (x &&& l.halfMask).toNat < l.halfSize := by
  rw [UInt8.toNat_and]
  exact Nat.lt_of_le_of_lt Nat.and_le_right l.toNat_halfMask_lt

theorem toNat_and_mask_lt (l : Level) (x : UInt8) : (x &&& l.mask).toNat < l.size := by
  rw [UInt8.toNat_and]
  exact Nat.lt_of_le_of_lt Nat.and_le_right l.toNat_mask_lt

theorem toNat_split_lo_lt (l : Level) (x : UInt8) : (split l x).lo.toNat < l.halfSize :=
  toNat_and_halfMask_lt l x

theorem toNat_split_hi_lt (l : Level) (x : UInt8) : (split l x).hi.toNat < l.halfSize := by
  have h := toNat_and_mask_lt l x
  simp only [split, UInt8.toNat_shiftRight, Nat.shiftRight_eq_div_pow]
  refine Nat.div_lt_of_lt_mul (Nat.lt_of_lt_of_eq h ?_)
  cases l <;> rfl

theorem toNat_join_lt (l : Level) (hi lo : UInt8) : (join l hi lo).toNat < l.size := by
  have h := toNat_and_halfMask_lt l hi
  have h' := toNat_and_halfMask_lt l lo
  have hlo : (lo &&& l.halfMask).toNat < Nat.pow 2 l.bits :=
    Nat.lt_of_lt_of_le h' (l.size_eq ▸ l.halfSize_le_size)
  simp only [join, UInt8.toNat_or, UInt8.toNat_shiftLeft]
  rw [l.size_eq]
  refine Nat.or_lt_two_pow (Nat.lt_of_le_of_lt (Nat.mod_le _ _) ?_) hlo
  rw [Nat.shiftLeft_eq]
  generalize (hi &&& l.halfMask).toNat = a at h
  cases l <;> simp [Level.halfBits, Level.halfSize, Level.bits] at h ⊢ <;> omega

theorem toNat_xor_lt_two_pow {w : Nat} {x y : UInt8} (hx : x.toNat < Nat.pow 2 w)
    (hy : y.toNat < Nat.pow 2 w) : (x ^^^ y).toNat < Nat.pow 2 w := by
  rw [UInt8.toNat_xor]
  exact Nat.xor_lt_two_pow hx hy

theorem toNat_xor_lt {l : Level} {x y : UInt8} (hx : x.toNat < l.size) (hy : y.toNat < l.size) :
    (x ^^^ y).toNat < l.size := by
  rw [l.size_eq] at hx hy ⊢
  exact toNat_xor_lt_two_pow hx hy

end NormalTower.Packed
