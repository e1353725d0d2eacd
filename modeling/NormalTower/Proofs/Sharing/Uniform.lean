import NormalTower.Proofs.Sharing.Masked

/-!
# Masked results are uniform

The random bytes a masked operation draws are counted here: over all byte strings of the length it
draws, every sharing of the right secret and width comes out equally often. No string gives any
other sharing, so the shares tell nothing beyond the secret, and all shares but one tell nothing at
all.

Counting needs no formula for the result. A change of the shares that keeps the secret is a change
of the tape (`Masked.shift`), so the strings for one sharing can be moved to those for another and
are as many (`card_fiber_mul`); the rest is the number of sharings of one secret (`card_sharings`).

* `count_and_eq`: the number of strings for every sharing, for the masked AND.
* `TowerOp.count_run_eq`: the same for every product and inverse of the tower.
-/

namespace NormalTower

/-! ## Fibres of one size -/

/-- If every fibre over `V` can be moved into every other one, all have the same size. -/
theorem card_fiber_mul {T Z : Type} [Fintype T] [DecidableEq Z] (f : T → Z) (V : Finset Z)
    (hV : ∀ t, f t ∈ V)
    (hmove : ∀ z ∈ V, ∀ z' ∈ V, ∃ e : T → T, Function.Injective e ∧ ∀ t, f t = z → f (e t) = z')
    {z : Z} (hz : z ∈ V) :
    (Finset.univ.filter fun t => f t = z).card * V.card = Fintype.card T := by
  have hle : ∀ a ∈ V, ∀ b ∈ V, (Finset.univ.filter fun t => f t = a).card ≤
      (Finset.univ.filter fun t => f t = b).card := by
    intro a ha b hb
    obtain ⟨e, he, hf⟩ := hmove a ha b hb
    refine Finset.card_le_card_of_injOn e (fun t ht => ?_) he.injOn
    exact Finset.mem_filter.mpr ⟨Finset.mem_univ _, hf t (Finset.mem_filter.mp ht).2⟩
  have hconst : ∀ b ∈ V, (Finset.univ.filter fun t => f t = b).card =
      (Finset.univ.filter fun t => f t = z).card :=
    fun b hb => le_antisymm (hle b hb z hz) (hle z hz b hb)
  calc (Finset.univ.filter fun t => f t = z).card * V.card
      = ∑ b ∈ V, (Finset.univ.filter fun t => f t = b).card := by
        rw [Finset.sum_congr rfl hconst, Finset.sum_const, smul_eq_mul, Nat.mul_comm]
    _ = Fintype.card T := (Finset.card_eq_sum_card_fiberwise fun t _ => hV t).symm

theorem card_byte : Fintype.card UInt8 = 256 := by
  rw [← FinEnum.card_eq_fintypeCard]
  rfl

theorem card_bytes_lt {w : Nat} (hw : w ≤ 8) :
    (Finset.univ.filter fun b : UInt8 => b.toNat < 2 ^ w).card = 2 ^ w := by
  refine (Finset.card_bij (t := Finset.range (2 ^ w)) (fun b _ => b.toNat) (fun b hb => ?_)
    (fun a _ b _ h => ?_) fun k hk => ?_).trans (Finset.card_range _)
  · exact Finset.mem_range.mpr (Finset.mem_filter.mp hb).2
  · exact UInt8.toNat_inj.mp h
  · have hlt : k < 2 ^ 8 :=
      Nat.lt_of_lt_of_le (Finset.mem_range.mp hk) (Nat.pow_le_pow_right Nat.two_pos hw)
    have hk' : (UInt8.ofNat k).toNat = k := UInt8.toNat_ofNat_of_lt' hlt
    exact ⟨UInt8.ofNat k, Finset.mem_filter.mpr ⟨Finset.mem_univ _, by
      rw [hk']; exact Finset.mem_range.mp hk⟩, hk'⟩

namespace Sharing

variable {n w d : Nat} {ι : Type}

/-! ## The sharings of one secret -/

/-- A sharing as the function of its shares. -/
def equivFun (n : Nat) : Sharing n ≃ (Fin n → UInt8) where
  toFun := get
  invFun := ofFn
  left_inv _ := Sharing.ext fun i hi => getElem_ofFn _ i hi
  right_inv f := funext fun i => getElem_ofFn f i i.isLt

instance : Fintype (Sharing n) := Fintype.ofEquiv (Fin n → UInt8) (equivFun n).symm

theorem recombine_addAt (x : Sharing n) (k : Fin n) (b : UInt8) :
    (x.addAt k b).recombine = x.recombine ^^^ b := by
  apply bits_injective
  rw [bits_xor, bits_recombine, bits_recombine]
  simp only [bits_get_addAt]
  rw [Finset.sum_add_distrib, Finset.sum_ite_eq]
  simp

/-- The sharing of `v` with the shares of `x` except at `k`. -/
def withSecret (x : Sharing n) (k : Fin n) (v : UInt8) : Sharing n :=
  x.addAt k (x.recombine ^^^ v)

theorem recombine_withSecret (x : Sharing n) (k : Fin n) (v : UInt8) :
    (x.withSecret k v).recombine = v := by
  unfold withSecret
  rw [recombine_addAt, ← UInt8.xor_assoc, UInt8.xor_self, UInt8.zero_xor]

theorem get_withSecret (x : Sharing n) {k i : Fin n} (v : UInt8) (h : i ≠ k) :
    (x.withSecret k v).get i = x.get i := by
  unfold withSecret
  rw [get_eq_getElem, getElem_addAt, if_neg fun e => h (Fin.ext e).symm, get_eq_getElem]

/-- All shares but one and the secret determine the sharing. -/
theorem eq_withSecret_iff {x z : Sharing n} {k : Fin n} :
    z = x.withSecret k z.recombine ↔ ∀ i, i ≠ k → z.get i = x.get i := by
  constructor
  · intro h i hi
    rw [h]
    exact get_withSecret x _ hi
  · intro h
    have hoff : ∀ i : Fin n, i ≠ k → z.get i = (x.withSecret k z.recombine).get i :=
      fun i hi => (h i hi).trans (get_withSecret x _ hi).symm
    -- the other shares have the same sum, so the secret leaves one choice for share `k`
    have hsum := bits_get_add_sum_erase (x.withSecret k z.recombine) k
    rw [recombine_withSecret, ← bits_get_add_sum_erase z k,
      Finset.sum_congr rfl fun i hi => congrArg bits (hoff i (Finset.ne_of_mem_erase hi))] at hsum
    have hk : z.get k = (x.withSecret k z.recombine).get k :=
      bits_injective (add_right_cancel hsum.symm)
    refine Sharing.ext fun i hi => ?_
    by_cases e : (⟨i, hi⟩ : Fin n) = k
    · subst e
      exact hk
    · exact hoff ⟨i, hi⟩ e

theorem eq_of_forall_ne {z z' : Sharing n} {k : Fin n} (h : ∀ i, i ≠ k → z.get i = z'.get i)
    (hr : z.recombine = z'.recombine) : z = z' := by
  rw [eq_withSecret_iff.mpr h, hr, ← eq_withSecret_iff.mpr fun _ _ => rfl]

theorem toNat_foldl_xor_lt : ∀ (l : List UInt8) (a : UInt8), a.toNat < 2 ^ w →
    (∀ b ∈ l, b.toNat < 2 ^ w) → (l.foldl (· ^^^ ·) a).toNat < 2 ^ w
  | [], _, ha, _ => ha
  | b :: l, _, ha, hl =>
    toNat_foldl_xor_lt l _ (Packed.toNat_xor_lt_two_pow ha (hl b List.mem_cons_self))
      fun c hc => hl c (List.mem_cons_of_mem b hc)

theorem Fits.toNat_recombine_lt {x : Sharing n} (h : x.Fits w) : x.recombine.toNat < 2 ^ w := by
  rw [recombine_eq_foldl, toList_eq_ofFn]
  refine toNat_foldl_xor_lt _ 0 (Nat.two_pow_pos w) fun b hb => ?_
  obtain ⟨i, rfl⟩ := (List.mem_ofFn' _ _).mp hb
  exact h i

/-- A sharing fits if its secret and all shares but one do. -/
theorem fits_of_forall_ne {z : Sharing n} {k : Fin n} (h : ∀ i, i ≠ k → (z.get i).toNat < 2 ^ w)
    (hv : z.recombine.toNat < 2 ^ w) : z.Fits w := by
  have hzero : (z.addAt k (z.get k)).Fits w := by
    intro i
    rw [get_eq_getElem, getElem_addAt]
    by_cases e : k = i
    · subst e
      rw [if_pos rfl]
      simp only [get_eq_getElem, UInt8.xor_self]
      exact Nat.two_pow_pos w
    · rw [if_neg fun e' => e (Fin.ext e')]
      exact h i (Ne.symm e)
  have hk : z.get k = z.recombine ^^^ (z.addAt k (z.get k)).recombine := by
    rw [recombine_addAt, ← UInt8.xor_assoc, UInt8.xor_self, UInt8.zero_xor]
  intro i
  by_cases e : i = k
  · rw [e, hk]
    exact Packed.toNat_xor_lt_two_pow hv hzero.toNat_recombine_lt
  · exact h i e

/-- A secret has as many sharings as there are choices for all shares but the last. -/
theorem card_sharings (hw : w ≤ 8) {v : UInt8} (hv : v.toNat < 2 ^ w) :
    (Finset.univ.filter fun z : Sharing (n + 1) => z.Fits w ∧ z.recombine = v).card =
      (2 ^ w) ^ n := by
  rw [← card_bytes_lt hw, ← Fintype.card_piFinset_const]
  refine Finset.card_bij (fun z _ i => z.get i.castSucc) (fun z hz => ?_) (fun z hz z' hz' h => ?_)
    fun f hf => ?_
  · obtain ⟨hfits, -⟩ := (Finset.mem_filter.mp hz).2
    exact Fintype.mem_piFinset.mpr fun i =>
      Finset.mem_filter.mpr ⟨Finset.mem_univ _, hfits i.castSucc⟩
  · obtain ⟨-, hr⟩ := (Finset.mem_filter.mp hz).2
    obtain ⟨-, hr'⟩ := (Finset.mem_filter.mp hz').2
    refine eq_of_forall_ne (k := Fin.last n) (fun i hi => ?_) (hr.trans hr'.symm)
    obtain ⟨j, rfl⟩ := Fin.exists_castSucc_eq.mpr hi
    exact congrFun h j
  · have hf' : ∀ i, (f i).toNat < 2 ^ w := fun i =>
      (Finset.mem_filter.mp (Fintype.mem_piFinset.mp hf i)).2
    obtain ⟨z, hz, hx⟩ : ∃ z : Sharing (n + 1),
        z.recombine = v ∧ ∀ i : Fin n, z.get i.castSucc = f i := by
      refine ⟨(ofFn (Fin.snoc f 0)).withSecret (Fin.last n) v, recombine_withSecret _ _ v,
        fun i => ?_⟩
      rw [get_withSecret _ v (Fin.castSucc_ne_last i), get_eq_getElem, getElem_ofFn]
      exact Fin.snoc_castSucc ..
    refine ⟨z, Finset.mem_filter.mpr ⟨Finset.mem_univ _, ?_, hz⟩, funext hx⟩
    refine fits_of_forall_ne (k := Fin.last n) (fun i hi => ?_) (by rw [hz]; exact hv)
    obtain ⟨j, rfl⟩ := Fin.exists_castSucc_eq.mpr hi
    rw [hx]
    exact hf' j

end Sharing

/-! ## Counting byte strings -/

/-- On how many byte strings of length `d` the result of `D` has the property `P`. -/
def Draw.count {α : Type} (D : Draw α) (d : Nat) (P : α → Prop) [DecidablePred P] : Nat :=
  (Finset.univ.filter fun b : Fin d → UInt8 => P (D.out (Tape.cycle (List.ofFn b)))).card

theorem cycle_ofFn {d k : Nat} (b : Fin d → UInt8) (h : k < d) :
    Tape.cycle (List.ofFn b) k = b ⟨k, h⟩ := by
  rw [Tape.cycle_eq_getElem _ k (by rw [List.length_ofFn]; exact h), List.getElem_ofFn]

namespace Sharing

variable {n w d : Nat} {ι : Type} {op : ι → Draw (Sharing (n + 1))} {value : ι → UInt8}

/-- **Every sharing of the result comes out equally often.** -/
theorem Masked.count_mul (h : Masked w d op value) (hw : w ≤ 8) (a : ι) {z : Sharing (n + 1)}
    (hz : z.Fits w) (hv : z.recombine = value a) :
    (op a).count d (· = z) * (2 ^ w) ^ n = 256 ^ d := by
  have hlt : (value a).toNat < 2 ^ w := hv ▸ hz.toNat_recombine_lt
  rw [← card_sharings hw hlt, ← card_byte, ← Fintype.card_fin d, ← Fintype.card_fun,
    Fintype.card_fin]
  refine card_fiber_mul _ _ (fun b => ?_) (fun y hy z hz => ?_)
    (Finset.mem_filter.mpr ⟨Finset.mem_univ z, hz, hv⟩)
  · exact Finset.mem_filter.mpr ⟨Finset.mem_univ _, h.fits a _, h.recombine a _⟩
  · obtain ⟨hyfits, hyv⟩ := (Finset.mem_filter.mp hy).2
    obtain ⟨hzfits, hzv⟩ := (Finset.mem_filter.mp hz).2
    obtain ⟨s, hs⟩ := h.shift (y ^^^ z)
      (fun i => by
        rw [get_eq_getElem, getElem_xor]
        exact Packed.toNat_xor_lt_two_pow (hyfits i) (hzfits i))
      (by rw [recombine_xor, hyv, hzv, UInt8.xor_self])
    refine ⟨fun b i => b i ^^^ s i, fun b b' e => funext fun i => ?_, fun b hb => ?_⟩
    · exact (UInt8.xor_left_inj (s i)).mp (congrFun e i)
    · have hout : (op a).out (Tape.cycle (List.ofFn fun i => b i ^^^ s i)) =
          (op a).out (Tape.cycle (List.ofFn b) ^^^ s) :=
        (h.reads a).out_congr fun k hk => by
          rw [Tape.xor_apply, cycle_ofFn _ hk, cycle_ofFn _ hk]
      rw [hout, hs, hb]
      refine Sharing.ext fun i hi => ?_
      rw [getElem_xor, getElem_xor, ← UInt8.xor_assoc, UInt8.xor_self, UInt8.zero_xor]

theorem Masked.dvd (h : Masked w d op value) (hw : w ≤ 8) (a : ι) : (2 ^ w) ^ n ∣ 256 ^ d :=
  Dvd.intro_left _ (h.count_mul hw a (h.fits a fun _ => 0) (h.recombine a _))

/-- The number of byte strings for a sharing: none if it is no sharing of the result. -/
theorem Masked.count_eq (h : Masked w d op value) (hw : w ≤ 8) (a : ι) (z : Sharing (n + 1)) :
    (op a).count d (· = z) =
      if z.Fits w ∧ z.recombine = value a then 256 ^ d / (2 ^ w) ^ n else 0 := by
  by_cases hz : z.Fits w ∧ z.recombine = value a
  · rw [if_pos hz, ← h.count_mul hw a hz.1 hz.2,
      Nat.mul_div_cancel _ (Nat.pow_pos (Nat.two_pow_pos w))]
  · rw [if_neg hz]
    refine Finset.card_eq_zero.mpr (Finset.filter_eq_empty_iff.mpr fun b _ hb => hz ?_)
    rw [← hb]
    exact ⟨h.fits a _, h.recombine a _⟩

/-- The number of byte strings for given shares at all places but `k`: the secret determines the
share at `k`, and it fits. -/
theorem Masked.count_forall_ne (h : Masked w d op value) (hw : w ≤ 8) (a : ι) (k : Fin (n + 1))
    (f : Fin (n + 1) → UInt8) :
    (op a).count d (fun z => ∀ i, i ≠ k → z.get i = f i) =
      if ∀ i, i ≠ k → (f i).toNat < 2 ^ w then 256 ^ d / (2 ^ w) ^ n else 0 := by
  have hone : (op a).count d (fun z => ∀ i, i ≠ k → z.get i = f i) =
      (op a).count d (· = (ofFn f).withSecret k (value a)) := by
    refine congrArg Finset.card (Finset.filter_congr fun b _ => ?_)
    rw [← h.recombine a (Tape.cycle (List.ofFn b))]
    refine Iff.trans ?_ eq_withSecret_iff.symm
    simp only [get_eq_getElem, getElem_ofFn]
  have hfits : ((ofFn f).withSecret k (value a)).Fits w ↔ ∀ i, i ≠ k → (f i).toNat < 2 ^ w := by
    have hget : ∀ i, i ≠ k → ((ofFn f).withSecret k (value a)).get i = f i := fun i hi => by
      rw [get_withSecret _ _ hi, get_eq_getElem, getElem_ofFn]
    constructor
    · intro hz i hi
      rw [← hget i hi]
      exact hz i
    · intro hf
      refine fits_of_forall_ne (k := k) (fun i hi => by rw [hget i hi]; exact hf i hi) ?_
      rw [recombine_withSecret, ← h.recombine a fun _ => 0]
      exact (h.fits a _).toNat_recombine_lt
  rw [hone, h.count_eq hw]
  simp only [recombine_withSecret, hfits, and_true]

/-- **The masked AND shares its result afresh.** It draws one byte for every pair of domains. Over all
byte strings of that length every sharing of the product comes out equally often, and no other: as
often as there are choices for the bytes of the pairs that leave one domain out. -/
theorem count_and_eq (x y : Sharing (n + 1)) :
    (∀ t pos, ((x.and y).runAt t pos).2 = pos + (n + 1) * n / 2) ∧
    Fintype.card (Fin ((n + 1) * n / 2) → UInt8) = 256 ^ ((n + 1) * n / 2) ∧
    ∀ z : Sharing (n + 1), (x.and y).count ((n + 1) * n / 2) (· = z) =
      if z.recombine = x.recombine &&& y.recombine then 256 ^ (n * (n - 1) / 2) else 0 := by
  have hpairs : (n + 1) * n / 2 = n * (n - 1) / 2 + n := Nat.triangle_succ n
  have hdiv : 256 ^ ((n + 1) * n / 2) / (2 ^ 8) ^ n = 256 ^ (n * (n - 1) / 2) := by
    rw [hpairs, Nat.pow_add]
    exact Nat.mul_div_cancel _ (Nat.pow_pos (by decide))
  refine ⟨fun t pos => ?_, ?_, fun z => ?_⟩
  · rw [(reads_and x y).runAt_eq]
    rfl
  · rw [Fintype.card_fun, Fintype.card_fin, card_byte]
  · have hcount := masked_and.count_eq (le_refl 8) (x, y) z
    simp only [fits_eight, true_and, Nat.add_sub_cancel, hdiv] at hcount
    exact hcount

/-- **Products and inverses of the tower give perfectly fresh sharings.** They draw a fixed number
of bytes, and over all byte strings of that length every sharing of the result into shares of the
field's width comes out equally often, and no other; so all shares but one are uniform, whatever
the operands are. -/
theorem TowerOp.count_run_eq (op : TowerOp (n + 1)) :
    (∀ t pos, (op.run.runAt t pos).2 = pos + op.draws) ∧
    (2 ^ op.level.bits) ^ n ∣ 256 ^ op.draws ∧
    (∀ z : Sharing (n + 1), op.run.count op.draws (· = z) =
      if z.Fits op.level.bits ∧ z.recombine = op.result then
        256 ^ op.draws / (2 ^ op.level.bits) ^ n else 0) ∧
    ∀ (k : Fin (n + 1)) (f : Fin (n + 1) → UInt8),
      op.run.count op.draws (fun z => ∀ i, i ≠ k → z.get i = f i) =
        if ∀ i, i ≠ k → (f i).toNat < 2 ^ op.level.bits then
          256 ^ op.draws / (2 ^ op.level.bits) ^ n else 0 := by
  have h := op.masked
  refine ⟨fun t pos => ?_, h.dvd op.level.bits_le (), h.count_eq op.level.bits_le (),
    h.count_forall_ne op.level.bits_le ()⟩
  rw [(h.reads ()).runAt_eq]

end Sharing

end NormalTower
