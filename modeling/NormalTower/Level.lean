/-!
# The levels of the tower

The tower climbs from the field of two elements to the field of 256 in three quadratic steps, each
over a normal basis. A `Level` names the field a step arrives at. Its elements are packed into the
low `bits` of a byte: the high half holds the coordinate of the first basis element, the low half
that of the second, and a coordinate is an element of the level below.

The two elements of a normal basis sum to one, so `one` has every bit of the width set. The sizes are
powers of two (`size_eq`, `halfSize_eq`).
-/

namespace NormalTower

/-- A field of the tower above the field of two elements. -/
inductive Level where
  /-- The field of 4 elements. -/
  | gf4
  /-- The field of 16 elements. -/
  | gf16
  /-- The field of 256 elements. -/
  | gf256
deriving DecidableEq

namespace Level

/-- The width of a packed element. -/
def bits : Level → Nat
  | .gf4 => 2
  | .gf16 => 4
  | .gf256 => 8

/-- The number of elements. -/
def size : Level → Nat
  | .gf4 => 4
  | .gf16 => 16
  | .gf256 => 256

/-- The bits of a byte that a packed element occupies. -/
def mask : Level → UInt8
  | .gf4 => 0x3
  | .gf16 => 0xf
  | .gf256 => 0xff

/-- The width of one coordinate. -/
def halfBits : Level → UInt8
  | .gf4 => 1
  | .gf16 => 2
  | .gf256 => 4

/-- The number of values of one coordinate. -/
def halfSize : Level → Nat
  | .gf4 => 2
  | .gf16 => 4
  | .gf256 => 16

/-- The bits of a byte that one coordinate occupies. -/
def halfMask : Level → UInt8
  | .gf4 => 0x1
  | .gf16 => 0x3
  | .gf256 => 0xf

/-- The packed one. -/
def one : Level → UInt8
  | .gf4 => 0x3
  | .gf16 => 0xf
  | .gf256 => 0xff

theorem toNat_mask_lt (l : Level) : l.mask.toNat < l.size := by
  cases l <;> decide

theorem toNat_halfMask_lt (l : Level) : l.halfMask.toNat < l.halfSize := by
  cases l <;> decide

theorem bits_le (l : Level) : l.bits ≤ 8 := by
  cases l <;> decide

-- `Nat.pow` and not `^`, whose meaning depends on how much algebra is in scope
theorem size_eq (l : Level) : l.size = Nat.pow 2 l.bits := by
  cases l <;> rfl

theorem halfSize_eq (l : Level) : l.halfSize = Nat.pow 2 (l.bits / 2) := by
  cases l <;> rfl

theorem halfSize_le_size (l : Level) : l.halfSize ≤ l.size := by
  cases l <;> decide

end Level

/-- The two coordinates of a value over a normal basis. -/
structure Halves (α : Type) where
  /-- The coordinate of the first basis element, held in the high half. -/
  hi : α
  /-- The coordinate of the second basis element, held in the low half. -/
  lo : α
deriving DecidableEq

/-- `Extension base top`: the elements of `top` have coordinates in `base`. The step up to
`Level.gf4` is not listed, because its coordinates are single bits. -/
inductive Extension : Level → Level → Type where
  /-- The field of 16 elements over the field of 4. -/
  | gf16 : Extension .gf4 .gf16
  /-- The field of 256 elements over the field of 16. -/
  | gf256 : Extension .gf16 .gf256

theorem Extension.halfSize_eq {base top : Level} (e : Extension base top) :
    top.halfSize = base.size := by
  cases e <;> rfl

end NormalTower
