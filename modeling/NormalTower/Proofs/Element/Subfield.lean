import NormalTower.Proofs.Element.Expression
import NormalTower.Proofs.Element.Powers

/-!
# Each level inside the next

An element whose two coordinates are equal is an element of the level below, because the basis
elements of a step sum to one. `embed` is this inclusion.

Squaring as often as the level below has bits fixes every element of that level, and it exchanges
the two basis elements of the step (`pow_basis`). So it exchanges the coordinates of every element
(`iterate_square_ofHalves`), and what it fixes is what has equal coordinates.

* `embed_mul_ofHalves`: an element of the level below acts on each coordinate by itself.
* `hom_embed`: the inclusion respects every operation.
* `subfield_of_extension`: so it respects the value of every expression, and its image is what
  repeated squaring fixes.
-/

namespace NormalTower

theorem Extension.bits_div_two {base top : Level} (e : Extension base top) :
    top.bits / 2 = base.bits := by
  cases e <;> rfl

namespace Element

variable {base top : Level}

/-- An element of the level below as an element with equal coordinates. -/
def embed (e : Extension base top) (x : Element base) : Element top := ofHalves e ⟨x, x⟩

variable (e : Extension base top)

/-! ## The inclusion is a homomorphism -/

theorem embed_add (x y : Element base) : embed e (x + y) = embed e x + embed e y :=
  (ofHalves_add e x x y y).symm

/-- The common term of a product vanishes where one factor has equal coordinates. -/
theorem embed_mul_ofHalves (s a b : Element base) :
    embed e s * ofHalves e ⟨a, b⟩ = ofHalves e ⟨s * a, s * b⟩ := by
  unfold embed
  rw [ofHalves_mul]
  simp only [sub_self, zero_mul, sub_zero]

theorem embed_mul (x y : Element base) : embed e (x * y) = embed e x * embed e y :=
  (embed_mul_ofHalves e x y y).symm

/-- The inclusion, as a homomorphism of rings. -/
def embedHom : Element base →+* Element top where
  toFun := embed e
  map_one' := ofHalves_one e
  map_mul' := embed_mul e
  map_zero' := ofHalves_zero e
  map_add' := embed_add e

theorem hom_embed : (ops base).Hom (ops top) (embed e) where
  add := embed_add e
  sub := map_sub (embedHom e)
  mul := embed_mul e
  square x := by
    show embed e x.square = (embed e x).square
    rw [square_eq_mul, square_eq_mul, embed_mul]
  inv := map_inv₀ (embedHom e)

/-! ## Conjugation -/

theorem ofHalves_eq (a b : Element base) :
    ofHalves e ⟨a, b⟩ = embed e a * ofHalves e ⟨1, 0⟩ + embed e b * ofHalves e ⟨0, 1⟩ := by
  rw [embed_mul_ofHalves, embed_mul_ofHalves, ofHalves_add]
  simp only [mul_one, mul_zero, add_zero, zero_add]

theorem embed_pow_card (x : Element base) : embed e x ^ 2 ^ base.bits = embed e x := by
  have h := map_pow (embedHom e) x (2 ^ base.bits)
  rw [pow_card] at h
  exact h.symm

/-- The basis elements of a step are conjugates of each other. -/
theorem pow_basis :
    (ofHalves e ⟨1, 0⟩) ^ 2 ^ base.bits = ofHalves e ⟨0, 1⟩ ∧
      (ofHalves e ⟨0, 1⟩) ^ 2 ^ base.bits = ofHalves e ⟨1, 0⟩ := by
  rw [← iterate_square, ← iterate_square]
  cases e <;> decide +kernel

/-- **Conjugation exchanges the coordinates.** -/
theorem iterate_square_ofHalves (a b : Element base) :
    square^[base.bits] (ofHalves e ⟨a, b⟩) = ofHalves e ⟨b, a⟩ := by
  rw [iterate_square, ofHalves_eq e a b, add_pow_char_pow, mul_pow, mul_pow, embed_pow_card,
    embed_pow_card, (pow_basis e).1, (pow_basis e).2, add_comm, ← ofHalves_eq]

theorem ofHalves_mem_range_embed_iff (a b : Element base) :
    ofHalves e ⟨a, b⟩ ∈ Set.range (embed e) ↔ a = b := by
  constructor
  · rintro ⟨x, hx⟩
    obtain ⟨ha, hb⟩ := (ofHalves_inj e).mp hx
    exact ha.symm.trans hb
  · rintro rfl
    exact ⟨a, rfl⟩

/-- **Each level is a subfield of the next.** The inclusion is injective and respects the value of
every expression, an element of the level below multiplies each coordinate by itself, and the image
of the inclusion is what half as many squarings as the level has bits give back. -/
theorem subfield_of_extension :
    Function.Injective (embed e) ∧
    (∀ t : FieldExpr (Element base),
      embed e (t.eval (ops base)) = (t.map (embed e)).eval (ops top)) ∧
    (∀ s a b : Element base, embed e s * ofHalves e ⟨a, b⟩ = ofHalves e ⟨s * a, s * b⟩) ∧
    ∀ x : Element top, x ∈ Set.range (embed e) ↔ square^[top.bits / 2] x = x := by
  refine ⟨(embedHom e).injective, (hom_embed e).map_eval, embed_mul_ofHalves e, fun x => ?_⟩
  obtain ⟨a, b, rfl⟩ := exists_ofHalves e x
  rw [e.bits_div_two, iterate_square_ofHalves, ofHalves_mem_range_embed_iff, ofHalves_inj]
  constructor
  · rintro rfl
    exact ⟨rfl, rfl⟩
  · rintro ⟨-, hab⟩
    exact hab

end Element

end NormalTower
