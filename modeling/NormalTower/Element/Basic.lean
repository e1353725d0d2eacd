import NormalTower.Element.OutOfRange
import NormalTower.Packed.Arith

/-!
# Elements

An `Element l` is an element of the field at level `l`: a byte with no bit above the width. Its
operations are those on packed bytes, which give results that fit.

* `ext`: an element is determined by its byte.
* `val_add`, `val_mul`, …: what an operation does to the byte.
* `addAssign_eq`, `subAssign_eq`, `mulAssign_eq`: an update in place writes what the operator gives.
-/

namespace NormalTower

/-- An element of the field at level `l`. -/
structure Element (l : Level) where
  /-- The packed byte. -/
  val : UInt8
  /-- It has no bit above the width. -/
  val_lt : val.toNat < l.size

/-- The field of 4 elements. -/
abbrev Gf4 := Element .gf4

/-- The field of 16 elements. -/
abbrev Gf16 := Element .gf16

/-- The field of 256 elements. -/
abbrev Gf256 := Element .gf256

namespace Element

variable {l base top : Level}

@[ext] theorem ext {x y : Element l} (h : x.val = y.val) : x = y := by
  cases x; cases y
  cases h
  rfl

instance : DecidableEq (Element l) := fun x y =>
  decidable_of_iff (x.val = y.val) ⟨ext, congrArg val⟩

/-! ## Construction -/

/-- The element packed in `value`, which must fit. -/
def ofByte (l : Level) (value : UInt8) : Except OutOfRange (Element l) :=
  if h : value.toNat < l.size then .ok ⟨value, h⟩
  else .error ⟨UInt32.ofNat l.bits, value⟩

/-- The element in the low bits of `value`. -/
def ofMasked (l : Level) (value : UInt8) : Element l :=
  ⟨value &&& l.mask, Packed.toNat_and_mask_lt l value⟩

instance : Zero (Element l) := ⟨⟨0, by cases l <;> decide⟩⟩

instance : One (Element l) := ⟨⟨l.one, by cases l <;> decide⟩⟩

/-- The norm of the step to the field of 16. -/
def n : Gf4 := ⟨Packed.n, by decide⟩

/-- The norm of the step to the field of 256. -/
def nu : Gf16 := ⟨Packed.nu, by decide⟩

/-! ## Arithmetic -/

instance : Add (Element l) :=
  ⟨fun x y => ⟨x.val ^^^ y.val, Packed.toNat_xor_lt x.val_lt y.val_lt⟩⟩

/-- Every element is its own negative. -/
instance : Sub (Element l) :=
  ⟨fun x y => ⟨x.val ^^^ y.val, Packed.toNat_xor_lt x.val_lt y.val_lt⟩⟩

instance : Mul (Element l) :=
  ⟨fun x y => ⟨Packed.mul l x.val y.val, Packed.toNat_mul_lt l x.val y.val⟩⟩

/-- The square. -/
def square (x : Element l) : Element l :=
  ⟨Packed.square l x.val, Packed.toNat_square_lt l x.val⟩

/-- The inverse, zero for zero. -/
instance : Inv (Element l) :=
  ⟨fun x => ⟨Packed.inv l x.val, Packed.toNat_inv_lt l x.val⟩⟩

/-- The inverse of a nonzero element. -/
def inv? (x : Element l) : Option (Element l) :=
  if x = 0 then none else some x⁻¹

/-- `n` times an element. -/
def scaleN (x : Gf4) : Gf4 := ⟨Packed.scaleN x.val, Packed.toNat_join_lt .gf4 _ _⟩

/-- `n²` times an element. -/
def scaleNSquared (x : Gf4) : Gf4 := ⟨Packed.scaleNSquared x.val, Packed.toNat_join_lt .gf4 _ _⟩

/-- `nu` times the square of an element. -/
def scaledSquare (x : Gf16) : Gf16 := ⟨Packed.scaledSquare16 x.val, Packed.toNat_join_lt .gf16 _ _⟩

/-! ## Updates in place -/

/-- `x` after `y` has been added to it: the sum is written to the packed byte. -/
def addAssign (x y : Element l) : Element l :=
  { x with val := x.val ^^^ y.val, val_lt := Packed.toNat_xor_lt x.val_lt y.val_lt }

/-- `x` after `y` has been subtracted from it, which is written to the packed byte as a sum. -/
def subAssign (x y : Element l) : Element l :=
  { x with val := x.val ^^^ y.val, val_lt := Packed.toNat_xor_lt x.val_lt y.val_lt }

/-- `x` after it has been replaced by its product with `y`. -/
def mulAssign (x y : Element l) : Element l := x * y

theorem addAssign_eq (x y : Element l) : x.addAssign y = x + y := rfl

theorem subAssign_eq (x y : Element l) : x.subAssign y = x - y := rfl

theorem mulAssign_eq (x y : Element l) : x.mulAssign y = x * y := rfl

/-! ## Coordinates -/

/-- The coordinates of an element over the level below. -/
def halves (e : Extension base top) (x : Element top) : Halves (Element base) :=
  let s := Packed.split top x.val
  ⟨⟨s.hi, e.halfSize_eq ▸ Packed.toNat_split_hi_lt top x.val⟩,
    ⟨s.lo, e.halfSize_eq ▸ Packed.toNat_split_lo_lt top x.val⟩⟩

/-- The element with the given coordinates. -/
def ofHalves (_ : Extension base top) (h : Halves (Element base)) : Element top :=
  ⟨Packed.join top h.hi.val h.lo.val, Packed.toNat_join_lt top _ _⟩

/-! ## The packed byte of a result -/

@[simp] theorem val_ofMasked (v : UInt8) : (ofMasked l v).val = v &&& l.mask := rfl

@[simp] theorem val_zero : (0 : Element l).val = 0 := rfl

@[simp] theorem val_one : (1 : Element l).val = l.one := rfl

@[simp] theorem val_add (x y : Element l) : (x + y).val = x.val ^^^ y.val := rfl

@[simp] theorem val_sub (x y : Element l) : (x - y).val = x.val ^^^ y.val := rfl

@[simp] theorem val_mul (x y : Element l) : (x * y).val = Packed.mul l x.val y.val := rfl

@[simp] theorem val_square (x : Element l) : x.square.val = Packed.square l x.val := rfl

@[simp] theorem val_inv (x : Element l) : x⁻¹.val = Packed.inv l x.val := rfl

@[simp] theorem val_halves_hi (e : Extension base top) (x : Element top) :
    (x.halves e).hi.val = (Packed.split top x.val).hi := rfl

@[simp] theorem val_halves_lo (e : Extension base top) (x : Element top) :
    (x.halves e).lo.val = (Packed.split top x.val).lo := rfl

@[simp] theorem val_ofHalves (e : Extension base top) (h : Halves (Element base)) :
    (ofHalves e h).val = Packed.join top h.hi.val h.lo.val := rfl

theorem ofByte_eq_ok_iff {v : UInt8} {x : Element l} : ofByte l v = .ok x ↔ v = x.val := by
  unfold ofByte
  split
  · simp [Element.ext_iff]
  · rename_i h
    simp only [reduceCtorEq, false_iff]
    rintro rfl
    exact h x.val_lt

end Element

end NormalTower
