import NormalTower.Proofs.Sharing.And

/-!
# Where the masked AND reads its bytes

The loop over all pairs of domains reads one byte for each pair, the pairs of the first domain first.
So the byte of the pair `i < j` stands behind those of the domains before `i`, which are
`n - 1`, `n - 2`, … in number, and behind those of `i` with the domains up to `j` (`pairIndex`).

The order is one of recursion: behind the pairs of the first domain come those of all others, which
are the pairs of `n` domains with every index one up (`drawOrder_succ`). The formula follows the same
recursion (`pairIndex_succ_succ`), and that is the whole proof that it gives the position of every
pair (`getElem?_drawOrder`).

* `bijOn_pairIndex`: the positions are `0` to `n (n - 1) / 2 - 1`, without gap or repetition.
* `get_runAt_and`: each share of the result, as bytes of the tape.
* `get_runAt_and_eq_foldl`: all of this, and what of the operands a share of the result depends on.
-/

namespace NormalTower.Sharing

variable {n : Nat}

/-! ## The position of a pair -/

/-- The position of the byte that domains `i < j` of `n` draw. -/
def pairIndex (n i j : Nat) : Nat := i * n - i * (i + 1) / 2 + (j - i - 1)

theorem pairIndex_zero_succ (n j : Nat) : pairIndex n 0 (j + 1) = j := by
  simp [pairIndex]

theorem pairIndex_succ_succ {i n : Nat} (h : i < n) (j : Nat) :
    pairIndex (n + 1) (i + 1) (j + 1) = n + pairIndex n i j := by
  have htriangle : (i + 1) * (i + 1 + 1) / 2 = i * (i + 1) / 2 + (i + 1) := by
    rw [Nat.mul_comm, Nat.mul_comm i]
    exact Nat.triangle_succ (i + 1)
  have hsucc : (i + 1) * (n + 1) = i * n + n + (i + 1) := by ring
  -- the subtraction in the formula does not stop at zero
  have hle : i * (i + 1) ≤ i * n := Nat.mul_le_mul_left i h
  unfold pairIndex
  rw [htriangle, hsucc]
  omega

/-- The pairs of the first domain, then the pairs of the others. -/
theorem drawOrder_succ (n : Nat) :
    drawOrder (n + 1) = ((List.finRange n).map fun j => (0, j.succ)) ++
      (drawOrder n).map (Prod.map Fin.succ Fin.succ) := by
  have hfirst : (List.finRange (n + 1)).filter ((0 : Fin (n + 1)) < ·) =
      (List.finRange n).map Fin.succ := by
    rw [List.finRange_succ, List.filter_cons_of_neg (by simp), List.filter_map]
    exact congrArg _ (List.filter_eq_self.mpr fun j _ => decide_eq_true (Fin.succ_pos j))
  have hlater : ∀ i : Fin n, (List.finRange (n + 1)).filter (i.succ < ·) =
      ((List.finRange n).filter (i < ·)).map Fin.succ := by
    intro i
    rw [List.finRange_succ, List.filter_cons_of_neg (by simp), List.filter_map]
    simp only [Function.comp_def, Fin.succ_lt_succ_iff]
  rw [drawOrder_eq_flatMap, drawOrder_eq_flatMap, List.finRange_succ, List.flatMap_cons,
    List.flatMap_map, List.map_flatMap, ← List.finRange_succ, hfirst, List.map_map]
  simp only [hlater, List.map_map, Function.comp_def, Prod.map]

theorem getElem?_drawOrder {i j : Fin n} (h : i < j) :
    (drawOrder n)[pairIndex n i j]? = some (i, j) := by
  induction n with
  | zero => exact i.elim0
  | succ n ih =>
    obtain ⟨j, rfl⟩ := Fin.exists_succ_eq.mpr (Fin.ne_zero_of_lt h)
    rw [drawOrder_succ]
    cases i using Fin.cases with
    | zero =>
      rw [Fin.val_zero, Fin.val_succ, pairIndex_zero_succ, List.getElem?_append_left (by simp)]
      simp
    | succ i =>
      rw [Fin.val_succ, Fin.val_succ, pairIndex_succ_succ i.isLt,
        List.getElem?_append_right (by simp), List.length_map, List.length_finRange,
        Nat.add_sub_cancel_left, List.getElem?_map, ih (Fin.succ_lt_succ_iff.mp h)]
      rfl

theorem getElem?_drawOrder_eq_some_iff {q : Nat} {p : Fin n × Fin n} :
    (drawOrder n)[q]? = some p ↔ p.1 < p.2 ∧ pairIndex n p.1 p.2 = q := by
  constructor
  · intro h
    have hp : p.1 < p.2 := mem_drawOrder.mp (List.mem_of_getElem? h)
    exact ⟨hp, (idxOf_drawOrder (getElem?_drawOrder hp)).symm.trans (idxOf_drawOrder h)⟩
  · rintro ⟨hp, rfl⟩
    exact getElem?_drawOrder hp

/-- The positions of the pairs leave no gap, and no two pairs share one. -/
theorem bijOn_pairIndex (n : Nat) :
    Set.BijOn (fun p : Fin n × Fin n => pairIndex n p.1 p.2) {p | p.1 < p.2}
      (Set.Iio (n * (n - 1) / 2)) := by
  rw [← length_drawOrder]
  refine ⟨fun p hp => ?_, fun p hp p' hp' h => ?_, fun q hq => ?_⟩
  · exact (List.getElem?_eq_some_iff.mp (getElem?_drawOrder hp)).1
  · have hpos := getElem?_drawOrder hp
    rw [show pairIndex n p.1 p.2 = pairIndex n p'.1 p'.2 from h, getElem?_drawOrder hp'] at hpos
    exact (Option.some.inj hpos).symm
  · obtain ⟨p, hp⟩ : ∃ p, (drawOrder n)[q]? = some p := ⟨_, List.getElem?_eq_getElem hq⟩
    obtain ⟨hlt, rfl⟩ := getElem?_drawOrder_eq_some_iff.mp hp
    exact ⟨p, hlt, rfl⟩

/-! ## The shares of the result -/

theorem blind_eq_pairIndex (t : Tape) {k j : Fin n} (h : j ≠ k) :
    blind t k j = t (pairIndex n (min k j).val (max k j).val) := by
  unfold blind
  rw [idxOf_drawOrder (getElem?_drawOrder (min_lt_max.mpr h.symm))]

/-- The domains other than `k`. -/
def others (k : Fin n) : List (Fin n) := (List.finRange n).filter (· ≠ k)

theorem sum_map_others {M : Type} [AddCommMonoid M] (f : Fin n → M) (k : Fin n) :
    ((others k).map f).sum = ∑ j ∈ Finset.univ.erase k, f j := by
  unfold others
  rw [← List.sum_toFinset _ ((List.nodup_finRange n).filter _), List.toFinset_filter,
    List.toFinset_finRange, ← Finset.filter_ne']
  simp only [decide_eq_true_eq]

/-- Share `k` of the masked AND: the product of share `k` with the whole secret, and one byte of the
tape for every other domain. -/
theorem get_runAt_and (x y : Sharing n) (t : Tape) (pos : Nat) (k : Fin n) :
    ((x.and y).runAt t pos).1.get k =
      ((others k).map fun j => t (pos + pairIndex n (min k j).val (max k j).val)).foldl (· ^^^ ·)
        (x.get k &&& y.recombine) := by
  apply bits_injective
  rw [(reads_and x y).runAt_eq, bits_get_out_and, bits_foldl_xor, List.map_map, sum_map_others,
    bits_and]
  congr 1
  refine Finset.sum_congr rfl fun j hj => ?_
  rw [blind_eq_pairIndex _ (Finset.ne_of_mem_erase hj)]
  rfl

/-- **The masked AND, share by share.** Share `i` of the result is the product of share `i` of the
left operand with the secret of the right one, blinded by the byte of each pair that `i` is in. The
byte of a pair stands at its `pairIndex`: these positions follow the order in which the loop draws,
one for each pair, and fill the stretch of the tape that is read. So share `i` depends on the left
operand through share `i` alone, and on the right one through its secret. -/
theorem get_runAt_and_eq_foldl (x y : Sharing n) (t : Tape) (pos : Nat) :
    (∀ i : Fin n, ((x.and y).runAt t pos).1.get i =
      ((others i).map fun j => t (pos + pairIndex n (min i j).val (max i j).val)).foldl (· ^^^ ·)
        (x.get i &&& y.recombine)) ∧
    (∀ (q : Nat) (p : Fin n × Fin n),
      (drawOrder n)[q]? = some p ↔ p.1 < p.2 ∧ pairIndex n p.1 p.2 = q) ∧
    Set.BijOn (fun p : Fin n × Fin n => pairIndex n p.1 p.2) {p | p.1 < p.2}
      (Set.Iio (n * (n - 1) / 2)) ∧
    ∀ (x' y' : Sharing n) (i : Fin n), x.get i = x'.get i → y.recombine = y'.recombine →
      ((x.and y).runAt t pos).1.get i = ((x'.and y').runAt t pos).1.get i := by
  refine ⟨get_runAt_and x y t pos, fun _ _ => getElem?_drawOrder_eq_some_iff, bijOn_pairIndex n,
    fun x' y' i hx hy => ?_⟩
  rw [get_runAt_and, get_runAt_and, hx, hy]

/-- The second of three shares, for left operands that have only this share in common and right ones
that have only their secret in common. -/
theorem get_runAt_and_second_of_three :
    (⟨#v[0x0f, 0x33, 0x55]⟩ : Sharing 3).get 1 = (⟨#v[0xf0, 0x33, 0x00]⟩ : Sharing 3).get 1 ∧
    (⟨#v[0x12, 0x34, 0x56]⟩ : Sharing 3).recombine =
      (⟨#v[0x70, 0x01, 0x01]⟩ : Sharing 3).recombine ∧
    ((Sharing.and ⟨#v[0x0f, 0x33, 0x55]⟩ ⟨#v[0x12, 0x34, 0x56]⟩).runAt
      (Tape.cycle [7, 11, 13]) 0).1.get (1 : Fin 3) =
    ((Sharing.and ⟨#v[0xf0, 0x33, 0x00]⟩ ⟨#v[0x70, 0x01, 0x01]⟩).runAt
      (Tape.cycle [7, 11, 13]) 0).1.get (1 : Fin 3) :=
  ⟨rfl, by decide, (get_runAt_and_eq_foldl _ _ _ 0).2.2.2 _ _ 1 rfl (by decide)⟩

end NormalTower.Sharing
