import NormalTower.Element.Basic
import NormalTower.Proofs.Packed.Linear
import NormalTower.Proofs.Packed.Width

/-!
# Elements in coordinates

An element of a level above the first is given by its two coordinates (`ofHalves_halves`,
`halves_ofHalves`), and the operations of the level are formulas in the operations of the level
below (`ofHalves_add`, `ofHalves_mul`, `ofHalves_inv`), with the norm of the step as their only
constant.

Sum and difference are the same operation. The formulas are written with differences because they
are then those of a quadratic extension in any characteristic, so what follows from them follows by
ring arithmetic.
-/

namespace NormalTower

/-- The norm `v w` of the normal basis `v`, `w` of a step. -/
def Extension.norm {base top : Level} : Extension base top → Element base
  | .gf16 => Element.n
  | .gf256 => Element.nu

namespace Element

variable {l base top : Level}

/-! ## All elements -/

/-- The elements of a level are numbered by their bytes. -/
def equivFin (l : Level) : Element l ≃ Fin l.size where
  toFun x := ⟨x.val.toNat, x.val_lt⟩
  invFun i := ⟨UInt8.ofNat i, Nat.lt_of_le_of_lt (Nat.mod_le _ _) i.isLt⟩
  left_inv _ := Element.ext UInt8.ofNat_toNat
  right_inv i := Fin.ext (UInt8.toNat_ofNat_of_lt'
    (Nat.lt_of_lt_of_le i.isLt (by cases l <;> decide)))

instance : Fintype (Element l) := Fintype.ofEquiv (Fin l.size) (equivFin l).symm

/-! ## Coordinates -/

theorem ofHalves_halves (e : Extension base top) (x : Element top) :
    ofHalves e (x.halves e) = x :=
  Element.ext (Packed.join_split_of_lt x.val_lt)

theorem halves_ofHalves (e : Extension base top) (h : Halves (Element base)) :
    (ofHalves e h).halves e = h := by
  have hjoin : Packed.split top (Packed.join top h.hi.val h.lo.val) = ⟨h.hi.val, h.lo.val⟩ :=
    Packed.split_join_of_lt (e.halfSize_eq ▸ h.hi.val_lt) (e.halfSize_eq ▸ h.lo.val_lt)
  have hhi : ((ofHalves e h).halves e).hi = h.hi := Element.ext (congrArg Halves.hi hjoin)
  have hlo : ((ofHalves e h).halves e).lo = h.lo := Element.ext (congrArg Halves.lo hjoin)
  cases h
  exact congrArg₂ Halves.mk hhi hlo

theorem ofHalves_inj (e : Extension base top) {a b c d : Element base} :
    ofHalves e ⟨a, b⟩ = ofHalves e ⟨c, d⟩ ↔ a = c ∧ b = d := by
  constructor
  · intro h
    have hh := congrArg (halves e) h
    rw [halves_ofHalves, halves_ofHalves, Halves.mk.injEq] at hh
    exact hh
  · rintro ⟨rfl, rfl⟩
    rfl

theorem exists_ofHalves (e : Extension base top) (x : Element top) :
    ∃ a b, x = ofHalves e ⟨a, b⟩ :=
  ⟨(x.halves e).hi, (x.halves e).lo, (ofHalves_halves e x).symm⟩

/-! ## Operations in coordinates -/

section Formulas

variable (e : Extension base top) (a b c d : Element base)

theorem ofHalves_zero : ofHalves e ⟨0, 0⟩ = 0 := by
  cases e <;> rfl

theorem ofHalves_one : ofHalves e ⟨1, 1⟩ = 1 := by
  cases e <;> rfl

theorem ofHalves_add : ofHalves e ⟨a, b⟩ + ofHalves e ⟨c, d⟩ = ofHalves e ⟨a + c, b + d⟩ :=
  Element.ext (Packed.join_linear top _ _ _ _).symm

theorem scaleN_eq_mul : ∀ x : Gf4, x.scaleN = x * n := by
  decide

theorem scaleN_square_eq_mul : ∀ x : Gf4, x.square.scaleN = x * x * n := by
  decide

theorem scaledSquare_eq_mul : ∀ x : Gf16, x.scaledSquare = x * x * nu := by
  decide

/-- **The product over a normal basis.** -/
theorem ofHalves_mul :
    ofHalves e ⟨a, b⟩ * ofHalves e ⟨c, d⟩ =
      ofHalves e ⟨a * c - (a - b) * (c - d) * e.norm, b * d - (a - b) * (c - d) * e.norm⟩ := by
  have hmul : ∀ x y : Element top, x * y =
      let s := x.halves e
      let t := y.halves e
      let c := (s.hi - s.lo) * (t.hi - t.lo) * e.norm
      ofHalves e ⟨s.hi * t.hi - c, s.lo * t.lo - c⟩ := by
    intro x y
    cases e with
    | gf16 =>
      simp only [Extension.norm, ← scaleN_eq_mul]
      rfl
    | gf256 => rfl
  rw [hmul, halves_ofHalves, halves_ofHalves]

/-- The norm of an element down to the level below. -/
def normDown (e : Extension base top) (a b : Element base) : Element base :=
  (a - b) * (a - b) * e.norm + a * b

/-- **The inverse over a normal basis**: the conjugate over the norm. -/
theorem ofHalves_inv :
    (ofHalves e ⟨a, b⟩)⁻¹ =
      ofHalves e ⟨(normDown e a b)⁻¹ * b, (normDown e a b)⁻¹ * a⟩ := by
  have hinv : ∀ x : Element top, x⁻¹ =
      let s := x.halves e
      ofHalves e ⟨(normDown e s.hi s.lo)⁻¹ * s.lo, (normDown e s.hi s.lo)⁻¹ * s.hi⟩ := by
    intro x
    cases e with
    | gf16 =>
      simp only [normDown, Extension.norm, ← scaleN_square_eq_mul]
      rfl
    | gf256 =>
      simp only [normDown, Extension.norm, ← scaledSquare_eq_mul]
      rfl
  rw [hinv, halves_ofHalves]

end Formulas

end Element

end NormalTower
