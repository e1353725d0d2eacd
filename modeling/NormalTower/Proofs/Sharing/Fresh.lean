import NormalTower.Proofs.Sharing.Uniform

/-!
# Fresh sharings

A fresh sharing draws all shares but the last, and the last one makes up the secret. It is a masked
operation like the products of the tower (`masked_share`): the secret is its value, and a change of
the drawn bytes moves it to every sharing of the same secret. So over all byte strings of the length
that is drawn every sharing of the secret comes out once, and counting byte strings is counting
sharings of the secret (`count_share`).

As long as one share is left open, any others may be given: the open share makes up the secret, and
the rest is free (`card_sharings_with`). It does not matter whether the open share is the last one.

* `count_share_eq`: the number of byte strings that give the shares of a set, which does not depend
  on the secret, and the one byte string for every sharing of the secret.
-/

namespace NormalTower.Sharing

variable {n w d : Nat} {ι : Type}

/-! ## A fresh sharing is a masked operation -/

theorem reads_share (secret : UInt8) : (share secret : Draw (Sharing (n + 1))).Reads n :=
  (Draw.Reads.bytes n).bind fun _ => Draw.Reads.pure _

/-- All shares but the last are bytes of the tape. -/
theorem get_castSucc_out_share (secret : UInt8) (t : Tape) (i : Fin n) :
    ((share secret : Draw (Sharing (n + 1))).out t).get i.castSucc = t i := by
  unfold Draw.out share
  rw [Draw.runAt_bind, Draw.runAt_bytes, Draw.runAt_pure, get_eq_getElem, getElem_mk]
  simp only [Fin.val_castSucc, Vector.getElem_push_lt i.isLt, Vector.getElem_ofFn, Nat.zero_add]

theorem masked_share : Masked 8 n (share (n := n)) id where
  reads := reads_share
  recombine secret t := recombine_runAt_share secret t 0
  fits secret t := fits_eight _
  shift δ _ h0 := by
    -- the drawn shares move with their bytes, and the last one follows because the secret stays
    refine ⟨Tape.cycle δ.toList, fun secret t => ?_⟩
    refine eq_of_forall_ne (k := Fin.last n) (fun i hi => ?_) ?_
    · obtain ⟨j, rfl⟩ := Fin.exists_castSucc_eq.mpr hi
      have hδ : Tape.cycle δ.toList j = δ.get j.castSucc := by
        rw [Tape.cycle_eq_getElem _ _ (by rw [toList, Vector.length_toList]; omega)]
        simp [toList, get_eq_getElem]
      rw [get_castSucc_out_share, Tape.xor_apply, hδ, ← get_castSucc_out_share secret t j]
      exact (getElem_xor _ δ j _).symm
    · rw [recombine_xor, h0, UInt8.xor_zero]
      exact (recombine_runAt_share secret _ 0).trans (recombine_runAt_share secret t 0).symm

/-! ## Sharings with some shares given -/

theorem card_functions_with (A : Finset (Fin n)) (g : Fin n → UInt8) :
    (Fintype.piFinset fun i => if i ∈ A then {g i} else Finset.univ).card =
      256 ^ (n - A.card) := by
  have hcard : ∀ i, (if i ∈ A then {g i} else Finset.univ : Finset UInt8).card =
      if i ∈ A then 1 else 256 := by
    intro i
    by_cases hi : i ∈ A
    · rw [if_pos hi, if_pos hi, Finset.card_singleton]
    · rw [if_neg hi, if_neg hi, Finset.card_univ, card_byte]
  rw [Fintype.card_piFinset, Finset.prod_congr rfl fun i _ => hcard i, Finset.prod_ite,
    Finset.prod_const_one, one_mul, Finset.prod_const, Finset.filter_notMem_eq_sdiff,
    Finset.card_univ_sdiff, Fintype.card_fin]

/-- A secret has as many sharings with given shares at `T`, one share `k` being left open, as there
are choices for the shares that are neither given nor at `k`. -/
theorem card_sharings_with {T : Finset (Fin (n + 1))} {k : Fin (n + 1)} (hk : k ∉ T) (v : UInt8)
    (f : Fin (n + 1) → UInt8) :
    (Finset.univ.filter fun z : Sharing (n + 1) =>
      z.recombine = v ∧ ∀ i ∈ T, z.get i = f i).card = 256 ^ (n - T.card) := by
  have hexp : n - T.card = n + 1 - (insert k T).card := by
    rw [Finset.card_insert_of_notMem hk]
    omega
  rw [hexp, ← card_functions_with (insert k T) (Function.update f k 0)]
  refine Finset.card_bij (fun z _ => Function.update z.get k 0) (fun z hz => ?_)
    (fun z hz z' hz' h => ?_) fun g hg => ?_
  · obtain ⟨-, hT⟩ := (Finset.mem_filter.mp hz).2
    refine Fintype.mem_piFinset.mpr fun i => ?_
    by_cases hi : i ∈ insert k T
    · rw [if_pos hi, Finset.mem_singleton]
      rcases Finset.mem_insert.mp hi with rfl | hiT
      · rw [Function.update_self, Function.update_self]
      · have hne : i ≠ k := fun e => hk (e ▸ hiT)
        rw [Function.update_of_ne hne, Function.update_of_ne hne, hT i hiT]
    · rw [if_neg hi]
      exact Finset.mem_univ _
  · obtain ⟨hr, -⟩ := (Finset.mem_filter.mp hz).2
    obtain ⟨hr', -⟩ := (Finset.mem_filter.mp hz').2
    refine eq_of_forall_ne (k := k) (fun i hi => ?_) (hr.trans hr'.symm)
    have hi' := congrFun h i
    rwa [Function.update_of_ne hi, Function.update_of_ne hi] at hi'
  · have hget : ∀ i, i ≠ k → ((ofFn g).withSecret k v).get i = g i := by
      intro i hi
      rw [get_withSecret _ v hi, get_eq_getElem, getElem_ofFn]
    have hgk : ∀ i ∈ insert k T, g i = Function.update f k 0 i := by
      intro i hi
      have hmem := Fintype.mem_piFinset.mp hg i
      rwa [if_pos hi, Finset.mem_singleton] at hmem
    refine ⟨(ofFn g).withSecret k v, Finset.mem_filter.mpr ⟨Finset.mem_univ _,
      recombine_withSecret _ k v, fun i hi => ?_⟩, funext fun i => ?_⟩
    · have hne : i ≠ k := fun e => hk (e ▸ hi)
      rw [hget i hne, hgk i (Finset.mem_insert_of_mem hi), Function.update_of_ne hne]
    · by_cases hi : i = k
      · rw [hi, Function.update_self, hgk k (Finset.mem_insert_self k T), Function.update_self]
      · rw [Function.update_of_ne hi, hget i hi]

/-! ## Counting byte strings -/

/-- The byte strings for a property are those for the sharings of the result that have it. -/
theorem Masked.count_eq_mul_card {op : ι → Draw (Sharing (n + 1))} {value : ι → UInt8}
    (h : Masked w d op value) (hw : w ≤ 8) (a : ι) (P : Sharing (n + 1) → Prop)
    [DecidablePred P] :
    (op a).count d P = (Finset.univ.filter fun z : Sharing (n + 1) =>
      (z.Fits w ∧ z.recombine = value a) ∧ P z).card * (256 ^ d / (2 ^ w) ^ n) := by
  rw [← smul_eq_mul, ← Finset.sum_const]
  unfold Draw.count
  refine (Finset.card_eq_sum_card_fiberwise (f := fun b => (op a).out (Tape.cycle (List.ofFn b)))
    fun b hb => ?_).trans (Finset.sum_congr rfl fun z hz => ?_)
  · exact Finset.mem_coe.mpr (Finset.mem_filter.mpr ⟨Finset.mem_univ _,
      ⟨h.fits a _, h.recombine a _⟩, (Finset.mem_filter.mp hb).2⟩)
  · obtain ⟨hz, hP⟩ := (Finset.mem_filter.mp hz).2
    have hcount := h.count_eq hw a z
    rw [if_pos hz] at hcount
    rw [← hcount, Finset.filter_filter]
    refine congrArg Finset.card (Finset.filter_congr fun b _ => ?_)
    constructor
    · rintro ⟨-, hb⟩
      exact hb
    · rintro hb
      exact ⟨by rw [hb]; exact hP, hb⟩

theorem pow_div_pow_eight (n : Nat) : 256 ^ n / (2 ^ 8) ^ n = 1 :=
  Nat.div_self (Nat.pow_pos (by decide))

theorem count_share (secret : UInt8) (P : Sharing (n + 1) → Prop) [DecidablePred P] :
    (share secret : Draw (Sharing (n + 1))).count n P =
      (Finset.univ.filter fun z : Sharing (n + 1) => z.recombine = secret ∧ P z).card := by
  rw [masked_share.count_eq_mul_card (le_refl 8), pow_div_pow_eight, mul_one]
  simp only [fits_eight, true_and, id]

/-- **A fresh sharing hides the secret.** It draws one byte for every share but one. Over all byte
strings of that length, given shares at the places of `T`, which may be any but not all, come out
equally often for every choice of them and for every secret; and every sharing of the secret comes
out exactly once, and no other. -/
theorem count_share_eq (secret : UInt8) :
    (∀ t pos, ((share secret : Draw (Sharing (n + 1))).runAt t pos).2 = pos + n) ∧
    (∀ (T : Finset (Fin (n + 1))) (f : Fin (n + 1) → UInt8), T ≠ Finset.univ →
      (share secret : Draw (Sharing (n + 1))).count n (fun z => ∀ i ∈ T, z.get i = f i) =
        256 ^ (n - T.card)) ∧
    ∀ z : Sharing (n + 1),
      (share secret).count n (· = z) = if z.recombine = secret then 1 else 0 := by
  refine ⟨fun t pos => ?_, fun T f hT => ?_, fun z => ?_⟩
  · rw [(reads_share secret).runAt_eq]
  · obtain ⟨k, hk⟩ : ∃ k, k ∉ T := by
      by_contra hall
      exact hT (Finset.eq_univ_of_forall fun i => not_not.mp fun hi => hall ⟨i, hi⟩)
    rw [count_share, card_sharings_with hk]
  · rw [masked_share.count_eq (le_refl 8), pow_div_pow_eight]
    simp only [fits_eight, true_and, id]

/-- The first and the last of three shares leave one choice for the second, whatever they are. -/
theorem count_share_first_last :
    ({0, 2} : Finset (Fin 3)) ≠ Finset.univ ∧
    (share 0x53 : Draw (Sharing 3)).count 2
      (fun z => ∀ i ∈ ({0, 2} : Finset (Fin 3)), z.get i = 0xff) = 1 :=
  ⟨by decide, (count_share_eq 0x53).2.1 {0, 2} (fun _ => 0xff) (by decide)⟩

end NormalTower.Sharing
