import NormalTower.Packed.Basic

/-!
# Arithmetic on packed elements

Every level is a quadratic extension of the one below over a normal basis `v`, `w` with `v + w = 1`.
Writing `ν` for the norm `v * w`, an element of the level below,

* `(a v + b w) (c v + d w) = (a c + e) v + (b d + e) w` with `e = ν (a + b) (c + d)` (`product`);
* `(a v + b w)⁻¹ = t b v + t a w` with `t = (ν (a + b)² + a b)⁻¹` (`inverse`).

Addition is exclusive or at every level. The norms are `1` for the field of 4 elements, `n` for that
of 16 and `nu` for that of 256. Operands are arbitrary bytes: bits above the width do not count.
-/

namespace NormalTower.Packed

/-! ## One quadratic step -/

/-- The term `ν (a + b) (c + d)` that both coordinates of a product share; `times` multiplies and
`scale` multiplies by the norm on the level below. -/
def crossTerm (l : Level) (times : UInt8 → UInt8 → UInt8) (scale : UInt8 → UInt8) (x y : UInt8) :
    UInt8 :=
  let s := split l x
  let t := split l y
  scale (times (s.hi ^^^ s.lo) (t.hi ^^^ t.lo))

/-- The product over a normal basis. -/
def product (l : Level) (times : UInt8 → UInt8 → UInt8) (scale : UInt8 → UInt8) (x y : UInt8) :
    UInt8 :=
  let s := split l x
  let t := split l y
  let e := crossTerm l times scale x y
  join l (times s.hi t.hi ^^^ e) (times s.lo t.lo ^^^ e)

/-- The inverse over a normal basis, zero for zero; `scaledSquare` sends `s` to `ν s²` and `invert`
inverts on the level below. -/
def inverse (l : Level) (times : UInt8 → UInt8 → UInt8) (scaledSquare invert : UInt8 → UInt8)
    (x : UInt8) : UInt8 :=
  let s := split l x
  let t := invert (scaledSquare (s.hi ^^^ s.lo) ^^^ times s.hi s.lo)
  join l (times t s.lo) (times t s.hi)

/-! ## The field of 4 elements -/

/-- The norm of the step to 16 elements. -/
def n : UInt8 := 0x2

/-- The square of `n`. -/
def nSquared : UInt8 := 0x1

/-- Product of two elements of the field of 4. -/
def mul4 (x y : UInt8) : UInt8 :=
  product .gf4 (· &&& ·) id x y

/-- `n` times an element. -/
def scaleN (x : UInt8) : UInt8 :=
  let s := split .gf4 x
  join .gf4 s.lo (s.hi ^^^ s.lo)

/-- `n²` times an element. -/
def scaleNSquared (x : UInt8) : UInt8 :=
  let s := split .gf4 x
  join .gf4 (s.hi ^^^ s.lo) s.hi

/-- The square of an element, which is its conjugate: squaring exchanges the basis elements. It is
also the inverse, zero for zero. -/
def square4 (x : UInt8) : UInt8 :=
  let s := split .gf4 x
  join .gf4 s.lo s.hi

/-! ## The field of 16 elements -/

/-- The norm of the step to 256 elements. -/
def nu : UInt8 := 0x1

/-- The common term of a product in the field of 16. -/
def crossTerm16 (x y : UInt8) : UInt8 :=
  crossTerm .gf16 mul4 scaleN x y

/-- Product of two elements of the field of 16. -/
def mul16 (x y : UInt8) : UInt8 :=
  product .gf16 mul4 scaleN x y

/-- `nu` times the square of an element. -/
def scaledSquare16 (x : UInt8) : UInt8 :=
  let s := split .gf16 x
  join .gf16 (square4 (s.hi ^^^ s.lo)) (scaleNSquared (square4 s.lo))

/-- The inverse in the field of 16, zero for zero. -/
def inv16 (x : UInt8) : UInt8 :=
  inverse .gf16 mul4 (fun s => scaleN (square4 s)) square4 x

/-! ## The field of 256 elements -/

/-- Product of two elements of the field of 256. -/
def mul256 (x y : UInt8) : UInt8 :=
  product .gf256 mul16 (fun s => mul16 s nu) x y

/-- The square of an element of the field of 256. -/
def square256 (x : UInt8) : UInt8 :=
  mul256 x x

/-- The inverse in the field of 256, zero for zero. -/
def inv256 (x : UInt8) : UInt8 :=
  inverse .gf256 mul16 scaledSquare16 inv16 x

/-! ## By level -/

/-- The product at a level. -/
def mul : Level → UInt8 → UInt8 → UInt8
  | .gf4 => mul4
  | .gf16 => mul16
  | .gf256 => mul256

/-- The square at a level. -/
def square : Level → UInt8 → UInt8
  | .gf4 => square4
  | .gf16 => fun x => mul16 x x
  | .gf256 => square256

/-- The inverse at a level, zero for zero. -/
def inv : Level → UInt8 → UInt8
  | .gf4 => square4
  | .gf16 => inv16
  | .gf256 => inv256

/-! ## Results fit their width -/

theorem toNat_mul_lt (l : Level) (x y : UInt8) : (mul l x y).toNat < l.size := by
  cases l <;> exact toNat_join_lt _ _ _

theorem toNat_square_lt (l : Level) (x : UInt8) : (square l x).toNat < l.size := by
  cases l <;> exact toNat_join_lt _ _ _

theorem toNat_inv_lt (l : Level) (x : UInt8) : (inv l x).toNat < l.size := by
  cases l <;> exact toNat_join_lt _ _ _

end NormalTower.Packed
