import NormalTower.Packed.Arith
import NormalTower.Sharing.And

/-!
# Tower arithmetic on sharings

The formulas of a quadratic step, computed on sharings: sums, norm scalings and squares act on each
share alone because they are linear, and every product of coordinates is a masked product one level
down, until the coordinates are bits and the masked AND multiplies them. Products draw their random
bytes in the order in which they are written.
-/

namespace NormalTower.Sharing

variable {n : Nat}

/-! ## One quadratic step -/

/-- The product over a normal basis; `times` multiplies sharings and `scale` multiplies one share by
the norm on the level below. -/
def product (l : Level) (times : Sharing n → Sharing n → Draw (Sharing n))
    (scale : UInt8 → UInt8) (x y : Sharing n) : Draw (Sharing n) := do
  let s := x.split l
  let t := y.split l
  let c ← times (s.hi ^^^ s.lo) (t.hi ^^^ t.lo)
  let e := c.map scale
  let p ← times s.hi t.hi
  let q ← times s.lo t.lo
  return join l (p ^^^ e) (q ^^^ e)

/-- The inverse over a normal basis, zero for zero; `scaledSquare` sends one share `s` to `ν s²` and
`invert` inverts sharings on the level below. -/
def inverse (l : Level) (times : Sharing n → Sharing n → Draw (Sharing n))
    (scaledSquare : UInt8 → UInt8) (invert : Sharing n → Draw (Sharing n)) (x : Sharing n) :
    Draw (Sharing n) := do
  let s := x.split l
  let d ← times s.hi s.lo
  let t ← invert ((s.hi ^^^ s.lo).map scaledSquare ^^^ d)
  let p ← times t s.lo
  let q ← times t s.hi
  return join l p q

/-! ## The levels -/

/-- Masked product in the field of 4. -/
def mul4 (x y : Sharing n) : Draw (Sharing n) :=
  product .gf4 and id x y

/-- Masked product in the field of 16. -/
def mul16 (x y : Sharing n) : Draw (Sharing n) :=
  product .gf16 mul4 Packed.scaleN x y

/-- `nu` times the square in the field of 16, which is linear and draws nothing. -/
def scaledSquare16 (x : Sharing n) : Sharing n :=
  x.map Packed.scaledSquare16

/-- Masked inverse in the field of 16, zero for zero. -/
def inv16 (x : Sharing n) : Draw (Sharing n) :=
  inverse .gf16 mul4 (fun s => Packed.scaleN (Packed.square4 s))
    (fun t => pure (t.map Packed.square4)) x

/-- Masked inverse in the field of 256, zero for zero. -/
def inv256 (x : Sharing n) : Draw (Sharing n) :=
  inverse .gf256 mul16 Packed.scaledSquare16 inv16 x

end NormalTower.Sharing
