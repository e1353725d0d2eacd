import NormalTower.Proofs.Element.Powers

/-!
# Discrete logarithms

The nonzero elements of a level are the powers of one of them (`generator`), so they can be
multiplied by adding exponents. `antilogTable` lists the powers, `log` looks an element up in the
list, and `mulByLog` and `invByLog` compute with exponents modulo the number of nonzero elements.

All of it rests on the order of the generator (`orderOf_generator`): equal powers have congruent
exponents (`pow_eq_pow_iff_modEq_card`), so the first `2 ^ bits - 1` powers are distinct, and there
are no more nonzero elements than that (`exists_pow_eq`).

* `exists_discrete_logarithm`: the laws of exponents, and computing with the tables gives the
  product and the inverse.
-/

namespace NormalTower.Element

variable {l : Level}

/-! ## Tables -/

/-- The powers of `g`, from exponent zero on, as many as there are nonzero elements. -/
def antilogTable (g : Element l) : List (Element l) := List.iterate (· * g) 1 (2 ^ l.bits - 1)

/-- The power of `g` with an exponent, looked up in the table. -/
def antilog (g : Element l) (k : Nat) : Element l :=
  (antilogTable g).getD (k % (2 ^ l.bits - 1)) 0

/-- The exponent of `x`: its place in the table. -/
def log (g x : Element l) : Nat := (antilogTable g).idxOf x

/-- The product, by adding exponents. -/
def mulByLog (g x y : Element l) : Element l :=
  if x = 0 ∨ y = 0 then 0 else antilog g (log g x + log g y)

/-- The inverse, zero for zero, by multiplying the exponent. -/
def invByLog (g x : Element l) : Element l :=
  if x = 0 then 0 else antilog g (log g x * (2 ^ l.bits - 2))

theorem length_antilogTable (g : Element l) : (antilogTable g).length = 2 ^ l.bits - 1 :=
  List.length_iterate ..

theorem getElem_antilogTable (g : Element l) {k : Nat} (h : k < (antilogTable g).length) :
    (antilogTable g)[k] = g ^ k :=
  (List.getElem_iterate _ _ _ _ h).trans (mul_right_iterate_apply_one g)

theorem antilog_eq (g : Element l) (k : Nat) : antilog g k = g ^ (k % (2 ^ l.bits - 1)) := by
  have hl := two_lt_card l
  have hk : k % (2 ^ l.bits - 1) < (antilogTable g).length := by
    rw [length_antilogTable]
    exact Nat.mod_lt _ (by omega)
  unfold antilog
  rw [List.getD_eq_getElem _ _ hk, getElem_antilogTable]

/-! ## An element of full order -/

section FullOrder

variable {g : Element l} (hg : orderOf g = 2 ^ l.bits - 1)

include hg

theorem ne_zero_of_orderOf : g ≠ 0 := by
  have hl := two_lt_card l
  rintro rfl
  have h := pow_orderOf_eq_one (0 : Element l)
  rw [hg, zero_pow (by omega)] at h
  exact zero_ne_one h

theorem pow_eq_pow_iff_modEq_card (i j : Nat) : g ^ i = g ^ j ↔ i ≡ j [MOD 2 ^ l.bits - 1] := by
  have hl := two_lt_card l
  have hmod : ∀ k, k % orderOf g ∈ Set.Iio (orderOf g) := fun k => Nat.mod_lt k (by omega)
  rw [← hg, ← pow_mod_orderOf g i, ← pow_mod_orderOf g j]
  constructor
  · intro h
    exact pow_injOn_Iio_orderOf (hmod i) (hmod j) h
  · intro h
    rw [h]

/-- The powers of `g` are as many as the nonzero elements, and so they are all of them. -/
theorem exists_pow_eq {x : Element l} (hx : x ≠ 0) : ∃ k < 2 ^ l.bits - 1, g ^ k = x := by
  let powers := (Finset.range (2 ^ l.bits - 1)).image (g ^ ·)
  have hcard : powers.card = 2 ^ l.bits - 1 := by
    rw [Finset.card_image_of_injOn, Finset.card_range]
    rw [← hg, Finset.coe_range]
    exact pow_injOn_Iio_orderOf
  have hsub : powers ⊆ Finset.univ.erase 0 := by
    intro y hy
    obtain ⟨k, -, rfl⟩ := Finset.mem_image.mp hy
    exact Finset.mem_erase.mpr ⟨pow_ne_zero k (ne_zero_of_orderOf hg), Finset.mem_univ _⟩
  have hall : powers = Finset.univ.erase 0 := by
    refine Finset.eq_of_subset_of_card_le hsub ?_
    rw [Finset.card_erase_of_mem (Finset.mem_univ _), Finset.card_univ, card_eq, hcard]
  have hmem : x ∈ powers := by
    rw [hall]
    exact Finset.mem_erase.mpr ⟨hx, Finset.mem_univ _⟩
  obtain ⟨k, hk, hpow⟩ := Finset.mem_image.mp hmem
  exact ⟨k, Finset.mem_range.mp hk, hpow⟩

theorem antilog_eq_pow (k : Nat) : antilog g k = g ^ k := by
  rw [antilog_eq, ← hg, pow_mod_orderOf]

theorem pow_log {x : Element l} (hx : x ≠ 0) : g ^ log g x = x := by
  obtain ⟨k, hk, hpow⟩ := exists_pow_eq hg hx
  have hk' : k < (antilogTable g).length := by
    rw [length_antilogTable]
    exact hk
  have hmem : x ∈ antilogTable g := by
    rw [← hpow, ← getElem_antilogTable g hk']
    exact List.getElem_mem hk'
  have hlt : log g x < (antilogTable g).length := List.idxOf_lt_length_iff.mpr hmem
  rw [← getElem_antilogTable g hlt]
  exact List.getElem_idxOf hlt

theorem mulByLog_eq (x y : Element l) : mulByLog g x y = x * y := by
  unfold mulByLog
  by_cases hx : x = 0
  · rw [if_pos (Or.inl hx), hx, zero_mul]
  by_cases hy : y = 0
  · rw [if_pos (Or.inr hy), hy, mul_zero]
  rw [if_neg (not_or.mpr ⟨hx, hy⟩), antilog_eq_pow hg, pow_add, pow_log hg hx, pow_log hg hy]

theorem invByLog_eq (x : Element l) : invByLog g x = x⁻¹ := by
  unfold invByLog
  by_cases hx : x = 0
  · rw [if_pos hx, hx, inv_zero]
  · rw [if_neg hx, antilog_eq_pow hg, pow_mul, pow_log hg hx, inv_eq_pow]

end FullOrder

/-! ## A generator for each level -/

/-- An element whose powers are all nonzero elements. The norms of the two upper steps are such
elements of the level below. -/
def generator : (l : Level) → Element l
  | .gf4 => n
  | .gf16 => nu
  | .gf256 => ofMasked .gf256 0x2

theorem generator_ne_zero (l : Level) : generator l ≠ 0 := by
  cases l <;> decide

/-- The generator has full order: where the exponent `2 ^ bits - 1` is divided by one of its prime
factors, the power is not one. -/
theorem orderOf_generator (l : Level) : orderOf (generator l) = 2 ^ l.bits - 1 := by
  have hl := two_lt_card l
  have hprime : ∀ p ∈ (2 ^ l.bits - 1).primeFactors,
      generator l ^ ((2 ^ l.bits - 1) / p) ≠ 1 := by
    cases l <;> decide +kernel
  refine orderOf_eq_of_pow_and_pow_div_prime (by omega) (pow_card_sub_one (generator_ne_zero l)) ?_
  intro p hp hdvd
  exact hprime p (Nat.mem_primeFactors.mpr ⟨hp, hdvd, by omega⟩)

/-- **Discrete logarithms.** Some element has every nonzero element among its powers. Its powers are
equal exactly if their exponents are congruent modulo the number of nonzero elements; exponents are
added by a product, doubled by a square and multiplied by the exponent of the inverse. So tables of
exponents and powers give the product and the inverse of all elements. -/
theorem exists_discrete_logarithm (l : Level) : ∃ g : Element l,
    (∀ x : Element l, x = 0 ∨ ∃ k, x = g ^ k) ∧
    (∀ i j : Nat,
      (g ^ i = g ^ j ↔ i ≡ j [MOD 2 ^ l.bits - 1]) ∧
      g ^ i * g ^ j = g ^ (i + j) ∧
      (g ^ i).square = g ^ (2 * i) ∧
      (g ^ i)⁻¹ = g ^ (i * (2 ^ l.bits - 2))) ∧
    ∀ x y : Element l, mulByLog g x y = x * y ∧ invByLog g x = x⁻¹ := by
  have hg := orderOf_generator l
  refine ⟨generator l, fun x => ?_, fun i j => ⟨pow_eq_pow_iff_modEq_card hg i j, ?_, ?_, ?_⟩,
    fun x y => ⟨mulByLog_eq hg x y, invByLog_eq hg x⟩⟩
  · by_cases hx : x = 0
    · exact Or.inl hx
    · obtain ⟨k, -, hk⟩ := exists_pow_eq hg hx
      exact Or.inr ⟨k, hk.symm⟩
  · exact (pow_add _ i j).symm
  · rw [square_eq_pow, ← pow_mul, mul_comm]
  · rw [inv_eq_pow, ← pow_mul]

end NormalTower.Element
