import NormalTower.Proofs.Element.Subfield

/-!
# Repeated squaring

In characteristic two squaring respects sums as well as products, and so does every repetition of
it. Half as many squarings as a level has bits are the conjugation of its last quadratic step, which
exchanges the two coordinates. On the lowest level this is a single squaring and the coordinates are
single bits; above it, this is `iterate_square_ofHalves`. The exchange undoes itself, so only the
parity of the number of repetitions counts.

* `iterate_square_half`: half a round of squarings exchanges the coordinates.
* `square_frobenius`: repeated squaring of sums and products of any length, and its period.
-/

namespace NormalTower.Element

variable {l base top : Level}

/-! ## Sums and products -/

theorem iterate_square_eq_frobenius (k : Nat) :
    (square^[k] : Element l → Element l) = iterateFrobenius (Element l) 2 k := by
  funext x
  rw [iterate_square, iterateFrobenius_def]

/-! ## Conjugation -/

/-- The element with its two coordinates exchanged. -/
def exchange (x : Element l) : Element l :=
  let s := Packed.split l x.val
  ⟨Packed.join l s.lo s.hi, Packed.toNat_join_lt l s.lo s.hi⟩

theorem exchange_ofHalves (e : Extension base top) (a b : Element base) :
    exchange (ofHalves e ⟨a, b⟩) = ofHalves e ⟨b, a⟩ := by
  have h := halves_ofHalves e ⟨a, b⟩
  have hhi : (Packed.split top (ofHalves e ⟨a, b⟩).val).hi = a.val :=
    congrArg (fun s => s.hi.val) h
  have hlo : (Packed.split top (ofHalves e ⟨a, b⟩).val).lo = b.val :=
    congrArg (fun s => s.lo.val) h
  apply Element.ext
  show Packed.join top _ _ = Packed.join top b.val a.val
  rw [hhi, hlo]

theorem exchange_involutive : Function.Involutive (exchange (l := l)) := by
  intro x
  have hsplit : Packed.split l x.exchange.val =
      ⟨(Packed.split l x.val).lo, (Packed.split l x.val).hi⟩ :=
    Packed.split_join_of_lt (Packed.toNat_split_lo_lt l _) (Packed.toNat_split_hi_lt l _)
  apply Element.ext
  show Packed.join l (Packed.split l x.exchange.val).lo (Packed.split l x.exchange.val).hi = x.val
  rw [hsplit]
  exact Packed.join_split_of_lt x.val_lt

theorem iterate_square_eq_exchange (e : Extension base top) (x : Element top) :
    square^[top.bits / 2] x = x.exchange := by
  obtain ⟨a, b, rfl⟩ := exists_ofHalves e x
  rw [e.bits_div_two, iterate_square_ofHalves, exchange_ofHalves]

/-- **Half a round of squarings exchanges the coordinates.** -/
theorem iterate_square_half : (square^[l.bits / 2] : Element l → Element l) = exchange := by
  funext x
  cases l with
  | gf4 => rfl
  | gf16 => exact iterate_square_eq_exchange .gf16 x
  | gf256 => exact iterate_square_eq_exchange .gf256 x

theorem iterate_exchange (n : Nat) (x : Element l) :
    exchange^[n] x = if Even n then x else x.exchange := by
  by_cases hn : Even n
  · rw [if_pos hn, exchange_involutive.iterate_even hn, id]
  · rw [if_neg hn, exchange_involutive.iterate_odd (Nat.not_even_iff_odd.mp hn)]

/-- **Repeated squaring.** It respects sums and products of any length. So many half rounds of it
give an element back if their number is even, and exchange its two coordinates if it is odd. -/
theorem square_frobenius (n : Nat) (xs : List (Element l)) (x : Element l) :
    square^[n] xs.sum = (xs.map square^[n]).sum ∧
    square^[n] xs.prod = (xs.map square^[n]).prod ∧
    square^[n * (l.bits / 2)] x = if Even n then x else x.exchange := by
  refine ⟨?_, ?_, ?_⟩
  · rw [iterate_square_eq_frobenius]
    exact map_list_sum (iterateFrobenius (Element l) 2 n) xs
  · rw [iterate_square_eq_frobenius]
    exact map_list_prod (iterateFrobenius (Element l) 2 n) xs
  · rw [mul_comm, Function.iterate_mul, iterate_square_half, iterate_exchange]

end NormalTower.Element
