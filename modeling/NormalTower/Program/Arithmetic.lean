import NormalTower.Element.Basic

/-!
# Representations of elements

A program over registers can be read in more than one way: its registers may hold elements, or
bytes that merely stand for elements. `Arithmetic E` collects what a program needs of a
representation `E`, so that there is one evaluator and a reading of it for every representation.
Updates in place are operations of their own, and must write what the operators give.

* `Arithmetic.elements`: registers hold elements.
* `Arithmetic.bytes`: registers hold bytes, with whatever bits they have above the width.
-/

namespace NormalTower

/-- The operations of the tower on a representation `E` of its elements. -/
structure Arithmetic (E : Level → Type) where
  /-- The representation of an element. -/
  ofElement {l : Level} : Element l → E l
  /-- The element that is represented. -/
  toElement {l : Level} : E l → Element l
  /-- Sum. -/
  add {l : Level} : E l → E l → E l
  /-- Difference. -/
  sub {l : Level} : E l → E l → E l
  /-- Product. -/
  mul {l : Level} : E l → E l → E l
  /-- What a sum in place writes. -/
  addAssign {l : Level} : E l → E l → E l
  /-- What a difference in place writes. -/
  subAssign {l : Level} : E l → E l → E l
  /-- What a product in place writes. -/
  mulAssign {l : Level} : E l → E l → E l
  addAssign_eq {l : Level} : ∀ x y : E l, addAssign x y = add x y
  subAssign_eq {l : Level} : ∀ x y : E l, subAssign x y = sub x y
  mulAssign_eq {l : Level} : ∀ x y : E l, mulAssign x y = mul x y
  /-- Square. -/
  square {l : Level} : E l → E l
  /-- Inverse, zero for zero. -/
  inv {l : Level} : E l → E l
  /-- `n` times an element. -/
  scaleN : E .gf4 → E .gf4
  /-- `n²` times an element. -/
  scaleNSquared : E .gf4 → E .gf4
  /-- `nu` times the square of an element. -/
  scaledSquare : E .gf16 → E .gf16
  /-- The coordinates of an element. -/
  halves {base top : Level} : Extension base top → E top → Halves (E base)
  /-- The element with the given coordinates. -/
  ofHalves {base top : Level} : Extension base top → Halves (E base) → E top

namespace Arithmetic

/-- The arithmetic of the elements themselves. -/
def elements : Arithmetic Element where
  ofElement := id
  toElement := id
  add := (· + ·)
  sub := (· - ·)
  mul := (· * ·)
  addAssign := Element.addAssign
  subAssign := Element.subAssign
  mulAssign := Element.mulAssign
  addAssign_eq := Element.addAssign_eq
  subAssign_eq := Element.subAssign_eq
  mulAssign_eq := Element.mulAssign_eq
  square := Element.square
  inv := (·⁻¹)
  scaleN := Element.scaleN
  scaleNSquared := Element.scaleNSquared
  scaledSquare := Element.scaledSquare
  halves := Element.halves
  ofHalves := Element.ofHalves

/-- The arithmetic of packed bytes. No result is masked, and sums keep stray bits. -/
def bytes : Arithmetic (fun _ => UInt8) where
  ofElement := Element.val
  toElement := Element.ofMasked _
  add := (· ^^^ ·)
  sub := (· ^^^ ·)
  mul {l} := Packed.mul l
  addAssign := (· ^^^ ·)
  subAssign := (· ^^^ ·)
  mulAssign {l} := Packed.mul l
  addAssign_eq _ _ := rfl
  subAssign_eq _ _ := rfl
  mulAssign_eq _ _ := rfl
  square {l} := Packed.square l
  inv {l} := Packed.inv l
  scaleN := Packed.scaleN
  scaleNSquared := Packed.scaleNSquared
  scaledSquare := Packed.scaledSquare16
  halves {_ top} _ := Packed.split top
  ofHalves {_ top} _ h := Packed.join top h.hi h.lo

end Arithmetic

end NormalTower
