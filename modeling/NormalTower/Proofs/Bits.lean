import Mathlib
import NormalTower.Packed.Basic

/-!
# Bytes as vectors of bits

`bits` reads a byte as a vector over the field of two elements. Exclusive or becomes the sum and
conjunction the product, so an identity between the two is an identity in a commutative ring of
characteristic two, and the exclusive or of many bytes is a sum.

A map on bytes that respects exclusive or is called linear here. Linear maps are what can be
computed on each share of a secret alone, and what is known once it is known on eight bytes.

* `bits_xor`, `bits_and`, `bits_injective`: the reading is faithful.
* `XorLinear.ext`, `XorBilinear.ext`: linear maps agree if they agree on `unit i` for `i < 8`.
-/

namespace NormalTower

/-! ## The bits of a byte -/

/-- The bits of a byte, the lowest first. -/
def bits (x : UInt8) : Fin 8 → ZMod 2 := fun i => if x.toBitVec[i] then 1 else 0

theorem bits_injective : Function.Injective bits := by
  intro x y h
  refine Packed.eq_of_bits fun i hi => ?_
  have hb := congrFun h ⟨i, hi⟩
  simp only [bits, Fin.getElem_fin] at hb
  cases hx : x.toBitVec[i] <;> cases hy : y.toBitVec[i] <;> simp_all

@[simp] theorem bits_zero : bits 0 = 0 := by
  funext i
  simp [bits]

@[simp] theorem bits_xor (x y : UInt8) : bits (x ^^^ y) = bits x + bits y := by
  funext i
  simp only [bits, Pi.add_apply, Fin.getElem_fin, UInt8.toBitVec_xor, BitVec.getElem_xor]
  cases x.toBitVec[i.val] <;> cases y.toBitVec[i.val] <;> decide

@[simp] theorem bits_and (x y : UInt8) : bits (x &&& y) = bits x * bits y := by
  funext i
  simp only [bits, Pi.mul_apply, Fin.getElem_fin, UInt8.toBitVec_and, BitVec.getElem_and]
  cases x.toBitVec[i.val] <;> cases y.toBitVec[i.val] <;> decide

theorem and_xor_left (x y z : UInt8) : (x ^^^ y) &&& z = (x &&& z) ^^^ (y &&& z) :=
  bits_injective (by simp only [bits_and, bits_xor]; ring)

theorem and_xor_right (x y z : UInt8) : x &&& (y ^^^ z) = (x &&& y) ^^^ (x &&& z) :=
  bits_injective (by simp only [bits_and, bits_xor]; ring)

/-- The middle terms of two sums change places. -/
theorem xor_xor_xor_comm (a b c d : UInt8) : (a ^^^ b) ^^^ (c ^^^ d) = (a ^^^ c) ^^^ (b ^^^ d) :=
  bits_injective (by simp only [bits_xor]; ring)

/-! ## Linear maps -/

/-- `f` respects exclusive or. -/
def XorLinear (f : UInt8 → UInt8) : Prop := ∀ x y, f (x ^^^ y) = f x ^^^ f y

/-- `f` respects exclusive or taken in both operands at once. -/
def XorLinear₂ (f : UInt8 → UInt8 → UInt8) : Prop :=
  ∀ x x' y y', f (x ^^^ x') (y ^^^ y') = f x y ^^^ f x' y'

/-- `f` respects exclusive or in each operand while the other one is fixed. -/
structure XorBilinear (f : UInt8 → UInt8 → UInt8) : Prop where
  left : ∀ y, XorLinear fun x => f x y
  right : ∀ x, XorLinear (f x)

namespace XorLinear

variable {f g : UInt8 → UInt8}

theorem map_zero (hf : XorLinear f) : f 0 = 0 := by
  have h := hf 0 0
  rwa [UInt8.xor_self, UInt8.xor_self] at h

protected theorem id : XorLinear id := fun _ _ => rfl

theorem comp (hf : XorLinear f) (hg : XorLinear g) : XorLinear fun x => f (g x) := by
  intro x y
  show f (g (x ^^^ y)) = f (g x) ^^^ f (g y)
  rw [hg, hf]

theorem xor (hf : XorLinear f) (hg : XorLinear g) : XorLinear fun x => f x ^^^ g x := by
  intro x y
  show f (x ^^^ y) ^^^ g (x ^^^ y) = (f x ^^^ g x) ^^^ (f y ^^^ g y)
  rw [hf, hg, xor_xor_xor_comm]

end XorLinear

theorem XorLinear₂.map_zero {f : UInt8 → UInt8 → UInt8} (hf : XorLinear₂ f) : f 0 0 = 0 := by
  have h := hf 0 0 0 0
  rwa [UInt8.xor_self, UInt8.xor_self] at h

theorem XorLinear₂.comp {f : UInt8 → UInt8 → UInt8} {g h : UInt8 → UInt8} (hf : XorLinear₂ f)
    (hg : XorLinear g) (hh : XorLinear h) : XorLinear fun x => f (g x) (h x) := by
  intro x y
  show f (g (x ^^^ y)) (h (x ^^^ y)) = f (g x) (h x) ^^^ f (g y) (h y)
  rw [hg, hh, hf]

/-! ## Linear maps are determined by eight bytes -/

/-- The byte with bit `i` set and no other. -/
def unit (i : Fin 8) : UInt8 := 1 <<< UInt8.ofNat i

/-- A byte is the exclusive or of its single bits. -/
theorem xor_and_unit (x : UInt8) :
    (x &&& unit 0) ^^^ (x &&& unit 1) ^^^ (x &&& unit 2) ^^^ (x &&& unit 3) ^^^ (x &&& unit 4) ^^^
      (x &&& unit 5) ^^^ (x &&& unit 6) ^^^ (x &&& unit 7) = x := by
  refine Packed.eq_of_bits fun i hi => ?_
  rcases Packed.bit_cases hi with rfl | rfl | rfl | rfl | rfl | rfl | rfl | rfl <;>
    simp [unit]

theorem getElem_unit : ∀ i j : Fin 8, (unit i).toBitVec[j] = decide (j = i) := by
  decide

theorem and_unit_eq (x : UInt8) (i : Fin 8) : x &&& unit i = 0 ∨ x &&& unit i = unit i := by
  have hbit : ∀ j (hj : j < 8),
      (x &&& unit i).toBitVec[j] = (x.toBitVec[i] && (unit i).toBitVec[j]) := by
    intro j hj
    have hu := getElem_unit i ⟨j, hj⟩
    rw [Fin.getElem_fin] at hu
    by_cases hji : (⟨j, hj⟩ : Fin 8) = i
    · subst hji
      simp
    · simp [hu, hji]
  cases hx : x.toBitVec[i] with
  | false => exact Or.inl (Packed.eq_of_bits fun j hj => by rw [hbit, hx]; simp)
  | true => exact Or.inr (Packed.eq_of_bits fun j hj => by rw [hbit, hx, Bool.true_and])

theorem XorLinear.ext {f g : UInt8 → UInt8} (hf : XorLinear f) (hg : XorLinear g)
    (h : ∀ i, f (unit i) = g (unit i)) (x : UInt8) : f x = g x := by
  have hbit : ∀ i, f (x &&& unit i) = g (x &&& unit i) := by
    intro i
    rcases and_unit_eq x i with e | e
    · rw [e, hf.map_zero, hg.map_zero]
    · rw [e, h]
  rw [← xor_and_unit x]
  simp only [hf _ _, hg _ _, hbit]

theorem XorBilinear.ext {f g : UInt8 → UInt8 → UInt8} (hf : XorBilinear f) (hg : XorBilinear g)
    (h : ∀ i j, f (unit i) (unit j) = g (unit i) (unit j)) (x y : UInt8) : f x y = g x y :=
  (hf.left y).ext (hg.left y) (fun i => (hf.right _).ext (hg.right _) (h i) y) x

end NormalTower
