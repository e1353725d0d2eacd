import NormalTower.Proofs.Element.Expression
import NormalTower.Proofs.Element.Field

/-!
# The tower in polynomial basis

The field of a level is also the field of polynomials over two elements modulo an irreducible one.
There a sum is an exclusive or as well, and a product is shifted and reduced bit by bit (`mul`). A
change of basis leads from the tower to it (`ofTower`) and back (`toTower`).

Both products are bilinear, so it is enough to compare them on single bits (`ofTower_mul`). Inverses
then agree because an element has only one (`ofTower_inv`).

* `hom_ofTower`: the change of basis respects every operation.
* `exists_bijection_eval`: so it respects the value of every expression, in the field of 256 and in
  that of 16.
-/

namespace NormalTower.PolynomialBasis

/-! ## Shift and reduce -/

/-- The reducing polynomial of a level, with bit `i` for the coefficient of `xⁱ`. -/
def modulus : Level → UInt16
  | .gf4 => 0x7
  | .gf16 => 0x13
  | .gf256 => 0x11b

/-- `x` times a polynomial: shift it, and reduce it if its degree reaches that of the modulus. -/
def timesX (l : Level) (a : UInt16) : UInt16 :=
  if (a <<< 1).toBitVec.getLsbD l.bits then (a <<< 1) ^^^ modulus l else a <<< 1

/-- The loop of the product: as long as `b` has bits left, add `a` to `r` if the lowest is set. -/
def mulLoop (l : Level) (r a b : UInt16) : UInt16 :=
  if b = 0 then r
  else mulLoop l (if b.toBitVec.getLsbD 0 then r ^^^ a else r) (timesX l a) (b >>> 1)
termination_by b.toNat
decreasing_by
  have hb : b.toNat ≠ 0 := fun h => ‹¬b = 0› (UInt16.toNat_inj.mp h)
  rw [UInt16.toNat_shiftRight, Nat.shiftRight_eq_div_pow]
  exact Nat.div_lt_self (Nat.pos_of_ne_zero hb) (by decide)

/-- The product of two polynomials modulo that of the level. -/
def mul (l : Level) (a b : UInt8) : UInt8 := (mulLoop l 0 a.toUInt16 b.toUInt16).toUInt8

/-- The polynomials of a level. -/
def bytes (l : Level) : List UInt8 := (List.range l.size).map UInt8.ofNat

/-- The inverse of a polynomial, found by search; zero if there is none. -/
def inv (l : Level) (a : UInt8) : UInt8 := ((bytes l).find? fun b => mul l a b = 1).getD 0

/-- The operations of the field in polynomial basis. -/
def ops (l : Level) : FieldOps UInt8 where
  add := (· ^^^ ·)
  sub := (· ^^^ ·)
  mul := mul l
  square a := mul l a a
  inv := inv l

/-! ## The loop as rounds -/

/-- The loop, run for a fixed number of rounds. -/
def rounds (l : Level) : Nat → UInt16 → UInt16 → UInt16 → UInt16
  | 0, r, _, _ => r
  | k + 1, r, a, b =>
    rounds l k (if b.toBitVec.getLsbD 0 then r ^^^ a else r) (timesX l a) (b >>> 1)

theorem rounds_zero (l : Level) : ∀ (k : Nat) (r a : UInt16), rounds l k r a 0 = r
  | 0, _, _ => rfl
  | k + 1, r, a => rounds_zero l k r (timesX l a)

/-- Rounds without bits left do nothing. -/
theorem mulLoop_eq_rounds (l : Level) : ∀ (k : Nat) (r a b : UInt16), b.toNat < 2 ^ k →
    mulLoop l r a b = rounds l k r a b
  | 0, r, a, b, h => by
    have hb : b = 0 := UInt16.toNat_inj.mp (by rw [UInt16.toNat_zero]; omega)
    rw [mulLoop, if_pos hb]
    rfl
  | k + 1, r, a, b, h => by
    rw [mulLoop]
    by_cases hb : b = 0
    · rw [if_pos hb, hb, rounds_zero]
    · rw [if_neg hb]
      refine mulLoop_eq_rounds l k _ _ _ ?_
      rw [UInt16.toNat_shiftRight, Nat.shiftRight_eq_div_pow]
      exact Nat.div_lt_of_lt_mul (Nat.lt_of_lt_of_eq h (Nat.pow_succ' ..))

/-- A byte has bits for eight rounds. -/
theorem mul_eq_rounds (l : Level) (a b : UInt8) :
    mul l a b = (rounds l 8 0 a.toUInt16 b.toUInt16).toUInt8 := by
  unfold mul
  rw [mulLoop_eq_rounds l 8 _ _ _ (by rw [UInt8.toNat_toUInt16]; exact b.toNat_lt)]

example : mul .gf256 0x57 0x83 = 0xc1 := by cbv

/-! ## The product is bilinear -/

theorem xor_xor_xor_comm16 (a b c d : UInt16) :
    (a ^^^ b) ^^^ (c ^^^ d) = (a ^^^ c) ^^^ (b ^^^ d) := by
  ac_rfl

/-- A conditional addition is linear in the condition and the sum. -/
theorem ite_xor (p q : Bool) (r r' a : UInt16) :
    (if p ^^ q then (r ^^^ r') ^^^ a else r ^^^ r') =
      (if p then r ^^^ a else r) ^^^ if q then r' ^^^ a else r' := by
  cases p <;> cases q
  · rfl
  · exact UInt16.xor_assoc ..
  · show (r ^^^ r') ^^^ a = (r ^^^ a) ^^^ r'
    ac_rfl
  · show r ^^^ r' = (r ^^^ a) ^^^ (r' ^^^ a)
    rw [xor_xor_xor_comm16, UInt16.xor_self, UInt16.xor_zero]

theorem timesX_xor (l : Level) (a a' : UInt16) :
    timesX l (a ^^^ a') = timesX l a ^^^ timesX l a' := by
  unfold timesX
  rw [UInt16.shiftLeft_xor, UInt16.toBitVec_xor, BitVec.getLsbD_xor]
  exact ite_xor ..

theorem rounds_xor_left (l : Level) : ∀ (k : Nat) (r r' a a' b : UInt16),
    rounds l k (r ^^^ r') (a ^^^ a') b = rounds l k r a b ^^^ rounds l k r' a' b
  | 0, _, _, _, _, _ => rfl
  | k + 1, r, r', a, a', b => by
    simp only [rounds, timesX_xor]
    cases b.toBitVec.getLsbD 0
    · exact rounds_xor_left l k ..
    · simp only [if_true]
      rw [xor_xor_xor_comm16]
      exact rounds_xor_left l k ..

theorem rounds_xor_right (l : Level) : ∀ (k : Nat) (r r' a b b' : UInt16),
    rounds l k (r ^^^ r') a (b ^^^ b') = rounds l k r a b ^^^ rounds l k r' a b'
  | 0, _, _, _, _, _ => rfl
  | k + 1, r, r', a, b, b' => by
    simp only [rounds]
    rw [UInt16.toBitVec_xor, BitVec.getLsbD_xor, UInt16.shiftRight_xor, ite_xor]
    exact rounds_xor_right l k ..

theorem mul_bilinear (l : Level) : XorBilinear (mul l) where
  left b a a' := by
    have h := rounds_xor_left l 8 0 0 a.toUInt16 a'.toUInt16 b.toUInt16
    rw [UInt16.xor_self] at h
    simp only [mul_eq_rounds, UInt8.toUInt16_xor, h, UInt16.toUInt8_xor]
  right a b b' := by
    have h := rounds_xor_right l 8 0 0 a.toUInt16 b.toUInt16 b'.toUInt16
    rw [UInt16.xor_self] at h
    simp only [mul_eq_rounds, UInt8.toUInt16_xor, h, UInt16.toUInt8_xor]

/-! ## The change of basis -/

/-- The exclusive or of the bytes in `cols` at the places of the bits of `x`. -/
def combine : List UInt8 → UInt8 → UInt8
  | [], _ => 0
  | c :: cols, x => (if x.toBitVec.getLsbD 0 then c else 0) ^^^ combine cols (x >>> 1)

theorem combine_linear : ∀ cols : List UInt8, XorLinear (combine cols)
  | [] => fun _ _ => UInt8.xor_self.symm
  | c :: cols => fun x y => by
    simp only [combine]
    rw [UInt8.toBitVec_xor, BitVec.getLsbD_xor, UInt8.shiftRight_xor, combine_linear cols,
      xor_xor_xor_comm]
    congr 1
    cases x.toBitVec.getLsbD 0 <;> cases y.toBitVec.getLsbD 0 <;> simp

/-- The single bits of the tower in polynomial basis, the lowest first. -/
def columns : Level → List UInt8
  | .gf4 => [0x2, 0x3]
  | .gf16 => [0xd, 0x8, 0xb, 0xf]
  | .gf256 => [0x60, 0xde, 0x29, 0x68, 0x8c, 0x6e, 0x78, 0x64]

/-- The powers of `x` in the tower, the lowest first. -/
def powers : Level → List UInt8
  | .gf4 => [0x3, 0x1]
  | .gf16 => [0xf, 0x9, 0xc, 0x2]
  | .gf256 => [0xff, 0xa9, 0x81, 0x09, 0x48, 0xf2, 0xf3, 0x98]

/-- From the tower to polynomial basis. -/
def ofTower (l : Level) : UInt8 → UInt8 := combine (columns l)

/-- From polynomial basis to the tower. -/
def toTower (l : Level) : UInt8 → UInt8 := combine (powers l)

theorem toTower_ofTower (l : Level) : ∀ x, toTower l (ofTower l x) = x &&& l.mask := by
  refine XorLinear.ext ((combine_linear _).comp (combine_linear _)) (Packed.and_linear l.mask) ?_
  cases l <;> decide

theorem ofTower_toTower (l : Level) : ∀ x, ofTower l (toTower l x) = x &&& l.mask := by
  refine XorLinear.ext ((combine_linear _).comp (combine_linear _)) (Packed.and_linear l.mask) ?_
  cases l <;> decide

/-- **The change of basis respects products.** -/
theorem ofTower_mul (l : Level) : ∀ x y,
    ofTower l (Packed.mul l x y) = mul l (ofTower l x) (ofTower l y) := by
  have hlin : XorLinear (ofTower l) := combine_linear _
  have htower : XorBilinear fun x y => ofTower l (Packed.mul l x y) :=
    ⟨fun y => hlin.comp ((Packed.mul_bilinear l).left y),
      fun x => hlin.comp ((Packed.mul_bilinear l).right x)⟩
  have hpoly : XorBilinear fun x y => mul l (ofTower l x) (ofTower l y) :=
    ⟨fun y => ((mul_bilinear l).left _).comp hlin, fun x => ((mul_bilinear l).right _).comp hlin⟩
  refine htower.ext hpoly fun i j => ?_
  -- the loop does not reduce by evaluation, its rounds do
  simp only [mul_eq_rounds]
  revert i j
  cases l <;> decide

theorem ofTower_zero (l : Level) : ofTower l 0 = 0 := (combine_linear _).map_zero

theorem ofTower_one (l : Level) : ofTower l l.one = 1 := by
  cases l <;> decide

/-- Two maps that undo each other up to stray bits keep the width. -/
theorem mapsTo_of_and_mask {l : Level} {f g : UInt8 → UInt8} (hfg : ∀ x, f (g x) = x &&& l.mask)
    (hgf : ∀ x, g (f x) = x &&& l.mask) :
    Set.MapsTo f {v | v.toNat < l.size} {v | v.toNat < l.size} := by
  intro x hx
  have h := hfg (f x)
  rw [hgf, Packed.and_mask_of_lt hx] at h
  rw [h]
  exact Packed.toNat_and_mask_lt l _

theorem bijOn_ofTower (l : Level) :
    Set.BijOn (ofTower l) {v | v.toNat < l.size} {v | v.toNat < l.size} := by
  have hinv : Set.InvOn (toTower l) (ofTower l) {v | v.toNat < l.size} {v | v.toNat < l.size} :=
    ⟨fun x hx => (toTower_ofTower l x).trans (Packed.and_mask_of_lt hx),
      fun x hx => (ofTower_toTower l x).trans (Packed.and_mask_of_lt hx)⟩
  exact hinv.bijOn (mapsTo_of_and_mask (ofTower_toTower l) (toTower_ofTower l))
    (mapsTo_of_and_mask (toTower_ofTower l) (ofTower_toTower l))

/-! ## Inverses -/

theorem inv_zero (l : Level) : inv l 0 = 0 := by
  have hnone : (bytes l).find? (fun b => mul l 0 b = 1) = none := by
    refine List.find?_eq_none.mpr fun b _ => ?_
    rw [((mul_bilinear l).left b).map_zero]
    decide
  unfold inv
  rw [hnone]
  rfl

theorem mem_bytes {l : Level} {b : UInt8} : b ∈ bytes l ↔ b.toNat < l.size := by
  unfold bytes
  rw [List.mem_map]
  constructor
  · rintro ⟨k, hk, rfl⟩
    exact Nat.lt_of_le_of_lt (Nat.mod_le _ _) (List.mem_range.mp hk)
  · intro hb
    exact ⟨b.toNat, List.mem_range.mpr hb, UInt8.ofNat_toNat⟩

/-- The search finds an inverse if there is one. -/
theorem mul_inv_of_mul_eq_one {l : Level} {a b : UInt8} (hb : b.toNat < l.size)
    (h : mul l a b = 1) : (inv l a).toNat < l.size ∧ mul l a (inv l a) = 1 := by
  have hsome : ((bytes l).find? fun b => mul l a b = 1).isSome := by
    rw [List.find?_isSome]
    exact ⟨b, mem_bytes.mpr hb, decide_eq_true h⟩
  obtain ⟨c, hc⟩ := Option.isSome_iff_exists.mp hsome
  have hp := List.find?_some hc
  unfold inv
  rw [hc]
  exact ⟨mem_bytes.mp (List.mem_of_find?_eq_some hc), of_decide_eq_true hp⟩

theorem ofTower_inv {l : Level} (x : Element l) :
    ofTower l x⁻¹.val = inv l (ofTower l x.val) := by
  by_cases hx : x = 0
  · rw [hx, (Element.fieldLaws l).inv_zero, Element.val_zero, ofTower_zero, inv_zero]
  · have hone : ∀ y : Element l, mul l (ofTower l x.val) (ofTower l y.val) = 1 ↔ x * y = 1 := by
      intro y
      rw [← ofTower_mul, ← ofTower_one l, Element.ext_iff]
      exact (bijOn_ofTower l).injOn.eq_iff (x * y).val_lt (1 : Element l).val_lt
    have hinv : mul l (ofTower l x.val) (ofTower l x⁻¹.val) = 1 :=
      (hone x⁻¹).mpr (mul_inv_cancel₀ hx)
    obtain ⟨hlt, hw⟩ := mul_inv_of_mul_eq_one ((bijOn_ofTower l).mapsTo x⁻¹.val_lt) hinv
    -- what the search finds stands for some `y`, and `x` has one inverse only
    obtain ⟨y, hy, hyw⟩ := (bijOn_ofTower l).surjOn hlt
    rw [← hyw] at hw ⊢
    have hxy : x * ⟨y, hy⟩ = 1 := (hone ⟨y, hy⟩).mp hw
    rw [inv_eq_of_mul_eq_one_right hxy]

/-! ## Whole computations -/

theorem hom_ofTower (l : Level) : (Element.ops l).Hom (ops l) fun x => ofTower l x.val where
  add x y := combine_linear _ x.val y.val
  sub x y := combine_linear _ x.val y.val
  mul x y := ofTower_mul l x.val y.val
  square x := (congrArg (fun z => ofTower l z.val) x.square_eq_mul).trans
    (ofTower_mul l x.val x.val)
  inv x := ofTower_inv x

/-- **The tower is the field of polynomials**, for whole computations: a bijection takes the value
of every expression to the value of the same expression at the images of its leaves. -/
theorem exists_bijection_eval :
    (∃ φ : UInt8 → UInt8, Function.Bijective φ ∧ φ 0 = 0 ∧ φ 0xff = 1 ∧
      ∀ e : FieldExpr Gf256,
        φ (e.eval (Element.ops .gf256)).val = (e.map fun x => φ x.val).eval (ops .gf256)) ∧
    ∃ φ : UInt8 → UInt8, Set.BijOn φ {v | v.toNat < 16} {v | v.toNat < 16} ∧
      φ 0 = 0 ∧ φ 0xf = 1 ∧
      ∀ e : FieldExpr Gf16,
        φ (e.eval (Element.ops .gf16)).val = (e.map fun x => φ x.val).eval (ops .gf16) := by
  refine ⟨⟨ofTower .gf256, ?_, ofTower_zero _, ofTower_one .gf256, (hom_ofTower .gf256).map_eval⟩,
    ofTower .gf16, bijOn_ofTower .gf16, ofTower_zero _, ofTower_one .gf16,
    (hom_ofTower .gf16).map_eval⟩
  have huniv : {v : UInt8 | v.toNat < Level.size .gf256} = Set.univ :=
    Set.eq_univ_of_forall fun v => v.toNat_lt
  have h := bijOn_ofTower .gf256
  rwa [huniv, Set.bijOn_univ] at h

end NormalTower.PolynomialBasis
