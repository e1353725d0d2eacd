import NormalTower.Proofs.Sharing.Recombine

/-!
# Computing on each share alone

Which maps may be computed on each share of a secret alone, so that the results are shares of the
map of the secret? Those that respect exclusive or, and no others if it is to work for every number
of shares.

For a fixed number `n` of shares there can be more. Sharings with two free shares and zeros behind
them show that `f` is linear up to the offset `f 0`. The results carry that offset once for each
share, the map of the secret carries it once. So it may be anything if `n` is odd, and is zero if
`n` is even: three shares do not tell a map with an offset from a linear one, two shares do.

* `recombine_zipWith_iff`, `recombine_map_iff`: the maps that work for `n` shares, for every `n`.
* `shareWise_iff_linear`: the maps that work for every `n` are the linear ones, and those that
  masked arithmetic computes share by share are among them.
-/

namespace NormalTower.Sharing

variable {n k : Nat}

/-! ## Secrets of few shares -/

theorem recombine_of_no_share (x : Sharing 0) : x.recombine = 0 :=
  bits_injective (by rw [bits_recombine, Fin.sum_univ_zero, bits_zero])

theorem recombine_of_one_share (x : Sharing 1) : x.recombine = x.get 0 :=
  bits_injective (by rw [bits_recombine, Fin.sum_univ_one])

/-- Two shares, and zeros behind them. -/
def ofPair (k : Nat) (a b : UInt8) : Sharing (k + 2) :=
  ofFn (Matrix.vecCons a (Matrix.vecCons b fun _ => 0))

@[simp] theorem get_ofPair_zero (a b : UInt8) : (ofPair k a b).get 0 = a :=
  getElem_ofFn _ 0 _

@[simp] theorem get_ofPair_one (a b : UInt8) : (ofPair k a b).get 1 = b :=
  getElem_ofFn _ 1 _

@[simp] theorem get_ofPair_succ_succ (a b : UInt8) (i : Fin k) :
    (ofPair k a b).get i.succ.succ = 0 :=
  getElem_ofFn _ (i + 2) _

theorem recombine_ofPair (a b : UInt8) : (ofPair k a b).recombine = a ^^^ b := by
  apply bits_injective
  rw [bits_recombine, Fin.sum_univ_succ, Fin.sum_univ_succ]
  simp

/-! ## A map on each share of two operands -/

theorem bits_recombine_zipWith (f : UInt8 → UInt8 → UInt8) (x y : Sharing n) :
    bits (zipWith f x y).recombine = ∑ i : Fin n, bits (f (x.get i) (y.get i)) := by
  rw [bits_recombine]
  refine Finset.sum_congr rfl fun i _ => ?_
  rw [get_eq_getElem, getElem_zipWith]
  rfl

theorem bits_recombine_zipWith_zero (f : UInt8 → UInt8 → UInt8) :
    bits (zipWith f (zero n) (zero n)).recombine = n • bits (f 0 0) := by
  rw [bits_recombine_zipWith]
  simp [get_eq_getElem]

theorem bits_recombine_zipWith_ofPair (f : UInt8 → UInt8 → UInt8) (a a' b b' : UInt8) :
    bits (zipWith f (ofPair k a a') (ofPair k b b')).recombine =
      bits (f a b) + bits (f a' b') + k • bits (f 0 0) := by
  rw [bits_recombine_zipWith, Fin.sum_univ_succ, Fin.sum_univ_succ, ← add_assoc]
  simp

/-- Equal terms in odd number sum to one of them, and in even number to zero. -/
theorem nsmul_bits_eq_iff (k : Nat) (c : UInt8) : k • bits c = bits c ↔ (Even k → c = 0) := by
  rcases Nat.even_or_odd' k with ⟨m, rfl | rfl⟩
  · have hsum : (2 * m) • bits c = 0 := by
      rw [mul_nsmul, two_nsmul, CharTwo.add_self_eq_zero, nsmul_zero]
    rw [hsum, ← bits_zero, bits_injective.eq_iff]
    exact ⟨fun h _ => h.symm, fun h => (h (even_two_mul m)).symm⟩
  · have hsum : (2 * m + 1) • bits c = bits c := by
      rw [succ_nsmul, mul_nsmul, two_nsmul, CharTwo.add_self_eq_zero, nsmul_zero, zero_add]
    exact ⟨fun _ h => absurd h (Nat.not_even_two_mul_add_one m), fun _ => hsum⟩

/-- A map that is linear up to an offset: the offset is added as often as there are shares. -/
theorem recombine_zipWith_of_offset {f : UInt8 → UInt8 → UInt8}
    (hf : XorLinear₂ fun a b => f a b ^^^ f 0 0) (h0 : Even n → f 0 0 = 0) (x y : Sharing n) :
    (zipWith f x y).recombine = f x.recombine y.recombine := by
  have hadd : ∀ a b, bits (f a b) = bits (f a b ^^^ f 0 0) + bits (f 0 0) := by
    intro a b
    rw [bits_xor, add_assoc, CharTwo.add_self_eq_zero, add_zero]
  apply bits_injective
  calc bits (zipWith f x y).recombine
      = ∑ i : Fin n, (bits (f (x.get i) (y.get i) ^^^ f 0 0) + bits (f 0 0)) := by
        rw [bits_recombine_zipWith]
        exact Finset.sum_congr rfl fun i _ => hadd _ _
    _ = bits (zipWith (fun a b => f a b ^^^ f 0 0) x y).recombine + n • bits (f 0 0) := by
        rw [Finset.sum_add_distrib, ← bits_recombine_zipWith fun a b => f a b ^^^ f 0 0]
        simp
    _ = bits (f x.recombine y.recombine ^^^ f 0 0) + bits (f 0 0) := by
        rw [recombine_zipWith hf, (nsmul_bits_eq_iff n _).mpr h0]
    _ = bits (f x.recombine y.recombine) := (hadd _ _).symm

/-- The maps of two operands that may be computed on each of `n` shares alone. With one share that
is every map; with more it has to be linear up to the offset `f 0 0`, and an even number of shares,
zero among them, leaves no offset. -/
theorem recombine_zipWith_iff {f : UInt8 → UInt8 → UInt8} :
    (∀ x y : Sharing n, (zipWith f x y).recombine = f x.recombine y.recombine) ↔
      (2 ≤ n → XorLinear₂ fun a b => f a b ^^^ f 0 0) ∧ (Even n → f 0 0 = 0) := by
  constructor
  · intro h
    have hzero : n • bits (f 0 0) = bits (f 0 0) := by
      rw [← bits_recombine_zipWith_zero, h, recombine_zero]
    refine ⟨fun hn => ?_, (nsmul_bits_eq_iff n _).mp hzero⟩
    obtain ⟨k, rfl⟩ := Nat.exists_eq_add_of_le' hn
    intro a a' b b'
    have hpair := congrArg bits (h (ofPair k a a') (ofPair k b b'))
    -- the zeros behind the pair give one offset, since two shares more make no difference
    rw [add_nsmul, two_nsmul, CharTwo.add_self_eq_zero, add_zero] at hzero
    rw [bits_recombine_zipWith_ofPair, hzero, recombine_ofPair, recombine_ofPair] at hpair
    apply bits_injective
    simp only [bits_xor, ← hpair]
    ring
  · rintro ⟨hf, h0⟩ x y
    by_cases hn : 2 ≤ n
    · exact recombine_zipWith_of_offset (hf hn) h0 x y
    · obtain rfl | rfl : n = 0 ∨ n = 1 := by omega
      · rw [recombine_of_no_share, recombine_of_no_share, recombine_of_no_share,
          h0 (by decide)]
      · rw [recombine_of_one_share, recombine_of_one_share, recombine_of_one_share]
        exact getElem_zipWith f x y 0 _

theorem forall_recombine_zipWith_iff {f : UInt8 → UInt8 → UInt8} :
    (∀ (n : Nat) (x y : Sharing n), (zipWith f x y).recombine = f x.recombine y.recombine) ↔
      XorLinear₂ f := by
  constructor
  · intro h
    obtain ⟨hf, h0⟩ := recombine_zipWith_iff.mp (h 2)
    have hlin := hf (le_refl 2)
    simpa only [h0 even_two, UInt8.xor_zero] using hlin
  · intro hf n x y
    exact recombine_zipWith hf x y

/-! ## A map on each share of one operand -/

theorem xorLinear₂_left_iff {f : UInt8 → UInt8} : (XorLinear₂ fun a _ => f a) ↔ XorLinear f :=
  ⟨fun h a b => h a b 0 0, fun h a a' _ _ => h a a'⟩

theorem forall_zipWith_left_iff {f : UInt8 → UInt8} :
    (∀ x y : Sharing n, (zipWith (fun a _ => f a) x y).recombine = f x.recombine) ↔
      ∀ x : Sharing n, (x.map f).recombine = f x.recombine := by
  simp only [zipWith_left]
  exact ⟨fun h x => h x x, fun h x _ => h x⟩

/-- The maps of one operand that may be computed on each of `n` shares alone. -/
theorem recombine_map_iff {f : UInt8 → UInt8} :
    (∀ x : Sharing n, (x.map f).recombine = f x.recombine) ↔
      (2 ≤ n → XorLinear fun a => f a ^^^ f 0) ∧ (Even n → f 0 = 0) := by
  rw [← forall_zipWith_left_iff, recombine_zipWith_iff, xorLinear₂_left_iff]

theorem forall_recombine_map_iff {f : UInt8 → UInt8} :
    (∀ (n : Nat) (x : Sharing n), (x.map f).recombine = f x.recombine) ↔ XorLinear f := by
  constructor
  · intro h
    obtain ⟨hf, h0⟩ := recombine_map_iff.mp (h 2)
    have hlin := hf (le_refl 2)
    simpa only [h0 even_two, UInt8.xor_zero] using hlin
  · intro hf n x
    exact recombine_map hf x

/-- The inverse is not linear, and so it takes masked products. -/
example : Packed.inv16 (0x1 ^^^ 0x4) ≠ Packed.inv16 0x1 ^^^ Packed.inv16 0x4 := by
  decide

/-! ## What masked arithmetic computes share by share -/

/-- **Share by share exactly for linear maps.** A map of one operand, or of two, may be computed on
the shares alone, whatever their number, if and only if it respects exclusive or. The squares and
scalings of masked arithmetic do, for all bytes, and so do the coordinates and the packing of every
level. Hence a sharing may be taken apart, or two be joined, before recombining or after. -/
theorem shareWise_iff_linear :
    (∀ f : UInt8 → UInt8,
      (∀ (n : Nat) (x : Sharing n), (x.map f).recombine = f x.recombine) ↔ XorLinear f) ∧
    (∀ f : UInt8 → UInt8 → UInt8,
      (∀ (n : Nat) (x y : Sharing n), (zipWith f x y).recombine = f x.recombine y.recombine) ↔
        XorLinear₂ f) ∧
    (XorLinear Packed.square4 ∧ XorLinear Packed.scaleN ∧
      (XorLinear fun s => Packed.scaleN (Packed.square4 s)) ∧ XorLinear Packed.scaledSquare16) ∧
    (∀ l : Level, (XorLinear fun s => (Packed.split l s).hi) ∧
      (XorLinear fun s => (Packed.split l s).lo) ∧ XorLinear₂ (Packed.join l)) ∧
    (∀ (l : Level) (n : Nat) (x : Sharing n),
      (⟨(x.split l).hi.recombine, (x.split l).lo.recombine⟩ : Halves UInt8) =
        Packed.split l x.recombine) ∧
    ∀ (l : Level) (n : Nat) (hi lo : Sharing n),
      (join l hi lo).recombine = Packed.join l hi.recombine lo.recombine := by
  refine ⟨fun f => forall_recombine_map_iff, fun f => forall_recombine_zipWith_iff,
    ⟨Packed.square4_linear, Packed.scaleN_linear,
      Packed.scaleN_linear.comp Packed.square4_linear, Packed.scaledSquare16_linear⟩,
    fun l => ⟨Packed.split_hi_linear l, Packed.split_lo_linear l, Packed.join_linear l⟩,
    fun l n x => ?_, fun l n hi lo => recombine_join l hi lo⟩
  rw [recombine_split_hi, recombine_split_lo]

end NormalTower.Sharing
