import NormalTower.Sharing.And
import NormalTower.Proofs.Sharing.Recombine
import NormalTower.Proofs.Sharing.Window

/-!
# The masked AND in closed form

`drawOrder n` lists the pairs of domains in the order in which they read the tape. No pair occurs
twice, so the byte that blinds the pair `i`, `j` is the tape's at the position of that pair
(`blind`), and the loop can be run on a table of blinding bytes instead of a tape (`out_and`).

Each step adds to shares, and what all steps add to share `k` is the product of `x[k]` with the
whole secret of `y`, blinded by one byte for every other domain:

* `bits_get_out_and`: `x[k] &&& recombine y`, plus `blind k j` over all `j ≠ k`.
* `reads_and`: one byte for every pair, `n (n - 1) / 2` in all.
* `recombine_out_and`: every blinding byte enters two shares, so it leaves no trace in the secret.
* `out_and_shift`: the bytes of the first domain can move the result to every sharing of the same
  secret, whatever the operands are.
-/

namespace NormalTower.Sharing

variable {n : Nat}

/-! ## The order of the draws -/

/-- The pair of domains a step draws a byte for. -/
def AndStep.pair? : AndStep n → Option (Fin n × Fin n)
  | .own _ => none
  | .cross i j => some (i, j)

/-- The pairs of domains, in the order in which they read the tape. -/
def drawOrder (n : Nat) : List (Fin n × Fin n) := (andSteps n).filterMap AndStep.pair?

theorem drawOrder_eq_flatMap (n : Nat) :
    drawOrder n =
      (List.finRange n).flatMap fun i => ((List.finRange n).filter (i < ·)).map (Prod.mk i) := by
  unfold drawOrder andSteps
  rw [List.filterMap_flatMap]
  congr 1
  funext i
  show List.filterMap AndStep.pair? (List.map (AndStep.cross i) _) = _
  rw [List.filterMap_map]
  exact congrFun List.filterMap_eq_map' _

theorem nodup_drawOrder (n : Nat) : (drawOrder n).Nodup := by
  rw [drawOrder_eq_flatMap, List.nodup_flatMap]
  refine ⟨fun i _ => ?_, (List.nodup_finRange n).imp fun {i j} hij => ?_⟩
  · exact ((List.nodup_finRange n).filter _).map fun j j' h => congrArg Prod.snd h
  · intro p hi hj
    obtain ⟨_, _, rfl⟩ := List.mem_map.mp hi
    obtain ⟨_, _, h⟩ := List.mem_map.mp hj
    exact hij (congrArg Prod.fst h).symm

/-- Every pair of domains draws exactly one byte. -/
theorem length_drawOrder (n : Nat) : (drawOrder n).length = n * (n - 1) / 2 := by
  have hlater : ∀ i : Fin n, ((List.finRange n).filter (i < ·)).length = n - 1 - i := by
    intro i
    rw [← Fin.card_Ioi, ← List.toFinset_card_of_nodup ((List.nodup_finRange n).filter _)]
    congr 1
    ext j
    simp
  rw [drawOrder_eq_flatMap, List.length_flatMap]
  simp only [List.length_map, hlater]
  rw [← Fin.sum_univ_def, Fin.sum_univ_eq_sum_range (fun i => n - 1 - i) n,
    Finset.sum_range_reflect (fun i => i) n, Finset.sum_range_id]

theorem idxOf_drawOrder {k : Nat} {p : Fin n × Fin n} (h : (drawOrder n)[k]? = some p) :
    (drawOrder n).idxOf p = k := by
  obtain ⟨hlt, rfl⟩ := List.getElem?_eq_some_iff.mp h
  exact (nodup_drawOrder n).idxOf_getElem k hlt

/-! ## Running the loop on a table of blinding bytes -/

section Table

variable (x y : Sharing n) (r : Fin n → Fin n → UInt8)

/-- The accumulated shares after one more step, where the pair `i`, `j` is blinded by `r i j`. -/
def AndStep.apply (acc : Sharing n) : AndStep n → Sharing n
  | .own i => acc.addAt i (x.get i &&& y.get i)
  | .cross i j =>
    (acc.addAt i ((x.get i &&& y.get j) ^^^ r i j)).addAt j ((x.get j &&& y.get i) ^^^ r i j)

/-- What a step adds to share `k`. -/
def AndStep.term (k : Fin n) : AndStep n → Fin 8 → ZMod 2
  | .own i => if i = k then bits (x.get i) * bits (y.get i) else 0
  | .cross i j =>
    (if i = k then bits (x.get i) * bits (y.get j) + bits (r i j) else 0) +
      if j = k then bits (x.get j) * bits (y.get i) + bits (r i j) else 0

theorem bits_get_addAt (acc : Sharing n) (i k : Fin n) (b : UInt8) :
    bits ((acc.addAt i b).get k) = bits (acc.get k) + if i = k then bits b else 0 := by
  rw [get_eq_getElem, getElem_addAt]
  by_cases h : i = k
  · rw [if_pos (congrArg Fin.val h), if_pos h, bits_xor, get_eq_getElem]
  · rw [if_neg fun e => h (Fin.ext e), if_neg h, add_zero, get_eq_getElem]

theorem AndStep.bits_get_apply (acc : Sharing n) (s : AndStep n) (k : Fin n) :
    bits ((s.apply x y r acc).get k) = bits (acc.get k) + s.term x y r k := by
  cases s with
  | own i =>
    show bits ((acc.addAt i (x.get i &&& y.get i)).get k) = _
    rw [bits_get_addAt, bits_and]
    rfl
  | cross i j =>
    show bits (((acc.addAt i ((x.get i &&& y.get j) ^^^ r i j)).addAt j
      ((x.get j &&& y.get i) ^^^ r i j)).get k) = _
    rw [bits_get_addAt, bits_get_addAt]
    simp only [bits_xor, bits_and, AndStep.term, add_assoc]

theorem bits_get_foldl_apply (k : Fin n) : ∀ (L : List (AndStep n)) (acc : Sharing n),
    bits ((L.foldl (AndStep.apply x y r) acc).get k) =
      bits (acc.get k) + (L.map (AndStep.term x y r k)).sum
  | [], acc => by simp
  | s :: L, acc => by
    rw [List.foldl_cons, bits_get_foldl_apply k L, AndStep.bits_get_apply, List.map_cons,
      List.sum_cons, add_assoc]

/-- If the tape holds the table's bytes in the order in which the steps read them, the loop gives
the same on the tape as on the table. -/
theorem runAt_foldlM_run (t : Tape) : ∀ (L : List (AndStep n)) (acc : Sharing n) (pos : Nat),
    (∀ k p, (L.filterMap AndStep.pair?)[k]? = some p → t (pos + k) = r p.1 p.2) →
    (L.foldlM (AndStep.run x y) acc).runAt t pos =
      (L.foldl (AndStep.apply x y r) acc, pos + (L.filterMap AndStep.pair?).length)
  | [], _, _, _ => rfl
  | .own i :: L, acc, pos, h => by
    rw [List.foldlM_cons, Draw.runAt_bind]
    exact runAt_foldlM_run t L _ pos h
  | .cross i j :: L, acc, pos, h => by
    have hr : t pos = r i j := h 0 (i, j) rfl
    rw [List.foldlM_cons, Draw.runAt_bind]
    have ih := runAt_foldlM_run t L ((AndStep.cross i j).apply x y r acc) (pos + 1)
      fun k p hk => by rw [Nat.add_assoc, Nat.add_comm 1 k]; exact h (k + 1) p hk
    show (L.foldlM (AndStep.run x y) ((acc.addAt i ((x.get i &&& y.get j) ^^^ t pos)).addAt j
      ((x.get j &&& y.get i) ^^^ t pos))).runAt t (pos + 1) = _
    rw [hr]
    refine ih.trans (Prod.ext rfl ?_)
    show pos + 1 + _ = pos + (_ + 1)
    omega

/-! ## The sum of all steps -/

/-- The domains other than `k` are those before it and those behind it. -/
theorem sum_erase_eq {M : Type} [AddCommMonoid M] (f : Fin n → M) (k : Fin n) :
    ∑ j ∈ Finset.univ.erase k, f j =
      ∑ j, ((if k < j then f j else 0) + if j < k then f j else 0) := by
  rw [← Finset.filter_ne', Finset.sum_filter]
  refine Finset.sum_congr rfl fun j _ => ?_
  rcases lt_trichotomy j k with h | h | h
  · simp [h, h.ne, h.not_gt]
  · simp [h]
  · simp [h, h.ne', h.not_gt]

/-- Of terms over all pairs `i < j`, those that go to domain `k`. -/
theorem sum_pairs_at {M : Type} [AddCommMonoid M] (A B : Fin n → Fin n → M) (k : Fin n) :
    ∑ i, ∑ j, (if i < j then (if i = k then A i j else 0) + (if j = k then B i j else 0) else 0) =
      ∑ j, ((if k < j then A k j else 0) + if j < k then B j k else 0) := by
  have hfst : ∑ i, ∑ j, (if i < j then if i = k then A i j else 0 else 0) =
      ∑ j, if k < j then A k j else 0 := by
    rw [Finset.sum_eq_single k]
    · simp
    · intro i _ hi
      exact Finset.sum_eq_zero fun j _ => by simp [hi]
    · simp
  have hsnd : ∑ i, ∑ j, (if i < j then if j = k then B i j else 0 else 0) =
      ∑ i, if i < k then B i k else 0 := by
    refine Finset.sum_congr rfl fun i _ => ?_
    rw [Finset.sum_eq_single k]
    · simp
    · intro j _ hj
      simp [hj]
    · simp
  rw [Finset.sum_add_distrib, ← hfst, ← hsnd, ← Finset.sum_add_distrib]
  refine Finset.sum_congr rfl fun i _ => ?_
  rw [← Finset.sum_add_distrib]
  refine Finset.sum_congr rfl fun j _ => ?_
  by_cases h : i < j
  · rw [if_pos h, if_pos h, if_pos h]
  · rw [if_neg h, if_neg h, if_neg h, add_zero]

theorem sum_term_domainSteps (k i : Fin n) :
    ((domainSteps i).map (AndStep.term x y r k)).sum =
      AndStep.term x y r k (.own i) +
        ∑ j, if i < j then AndStep.term x y r k (.cross i j) else 0 := by
  unfold domainSteps
  rw [List.map_cons, List.sum_cons, List.map_map,
    ← List.sum_toFinset _ ((List.nodup_finRange n).filter _), List.toFinset_filter,
    List.toFinset_finRange, Finset.sum_filter]
  simp only [decide_eq_true_eq, Function.comp_apply]

/-- Share `k` gets its own product, and for every other domain a cross product with its byte. -/
theorem sum_term_andSteps (k : Fin n) :
    ((andSteps n).map (AndStep.term x y r k)).sum =
      bits (x.get k) * ∑ j : Fin n, bits (y.get j) +
        ∑ j ∈ Finset.univ.erase k, bits (r (min k j) (max k j)) := by
  have hown : ∑ i, AndStep.term x y r k (.own i) =
      ∑ j : Fin n, if j = k then bits (x.get k) * bits (y.get j) else 0 := by
    refine Finset.sum_congr rfl fun i _ => ?_
    show (if i = k then bits (x.get i) * bits (y.get i) else 0) = _
    by_cases h : i = k
    · rw [if_pos h, if_pos h, h]
    · rw [if_neg h, if_neg h]
  unfold andSteps
  rw [List.map_flatMap, List.flatMap_def, List.sum_flatten, List.map_map, ← Fin.sum_univ_def]
  simp only [Function.comp_apply, sum_term_domainSteps, AndStep.term]
  rw [Finset.sum_add_distrib,
    sum_pairs_at (fun i j => bits (x.get i) * bits (y.get j) + bits (r i j))
      (fun i j => bits (x.get j) * bits (y.get i) + bits (r i j))]
  refine (congrArg (· + _) hown).trans ?_
  rw [← Finset.sum_add_distrib, Finset.mul_sum, sum_erase_eq, ← Finset.sum_add_distrib]
  refine Finset.sum_congr rfl fun j _ => ?_
  rcases lt_trichotomy j k with h | h | h
  · simp [h, h.ne, h.not_gt, min_eq_right h.le, max_eq_left h.le]
  · simp [h]
  · simp [h, h.ne', h.not_gt, min_eq_left h.le, max_eq_right h.le]

end Table

/-! ## The closed form -/

/-- The byte that blinds the products between domains `k` and `j`. -/
def blind (t : Tape) (k j : Fin n) : UInt8 := t ((drawOrder n).idxOf (min k j, max k j))

theorem blind_comm (t : Tape) (k j : Fin n) : blind t k j = blind t j k := by
  unfold blind
  rw [min_comm, max_comm]

/-- The loop on a tape is the loop on the table of the bytes at the pairs' positions. -/
theorem out_and (x y : Sharing n) (t : Tape) :
    (x.and y).out t = (andSteps n).foldl
      (AndStep.apply x y fun i j => t ((drawOrder n).idxOf (i, j))) (zero n) := by
  unfold Draw.out Sharing.and
  rw [runAt_foldlM_run x y fun i j => t ((drawOrder n).idxOf (i, j))]
  intro k p hk
  show t (0 + k) = t ((drawOrder n).idxOf p)
  rw [idxOf_drawOrder hk, Nat.zero_add]

/-- **The masked AND, share by share.** -/
theorem bits_get_out_and (x y : Sharing n) (t : Tape) (k : Fin n) :
    bits (((x.and y).out t).get k) =
      bits (x.get k) * bits y.recombine + ∑ j ∈ Finset.univ.erase k, bits (blind t k j) := by
  rw [out_and, bits_get_foldl_apply, sum_term_andSteps, get_eq_getElem, getElem_zero,
    bits_zero, zero_add, bits_recombine]
  rfl

theorem AndStep.reads_run (x y acc : Sharing n) (s : AndStep n) :
    (s.run x y acc).Reads s.pair?.toList.length := by
  cases s with
  | own i => exact Draw.Reads.pure _
  | cross i j => exact Draw.Reads.byte.bind fun _ => Draw.Reads.pure _

theorem reads_and (x y : Sharing n) : (x.and y).Reads (n * (n - 1) / 2) := by
  refine (Draw.Reads.foldlM (AndStep.reads_run x y) (andSteps n) (zero n)).cast ?_
  rw [← List.length_flatMap, ← List.filterMap_eq_flatMap_toList]
  exact length_drawOrder n

/-! ## The secret of the result -/

/-- The blinding bytes cancel: each of them enters two shares. -/
theorem sum_blind (t : Tape) :
    ∑ k : Fin n, ∑ j ∈ Finset.univ.erase k, bits (blind t k j) = 0 := by
  have hswap : ∑ k : Fin n, ∑ j, (if j < k then bits (blind t k j) else 0) =
      ∑ k : Fin n, ∑ j, if k < j then bits (blind t k j) else 0 := by
    rw [Finset.sum_comm]
    simp only [blind_comm t]
  simp only [sum_erase_eq, Finset.sum_add_distrib]
  rw [hswap, CharTwo.add_self_eq_zero]

theorem recombine_out_and (x y : Sharing n) (t : Tape) :
    ((x.and y).out t).recombine = x.recombine &&& y.recombine := by
  apply bits_injective
  rw [bits_recombine, bits_and, bits_recombine x]
  simp only [bits_get_out_and]
  rw [Finset.sum_add_distrib, sum_blind, add_zero, Finset.sum_mul]

/-! ## Moving the result -/

theorem mem_drawOrder {p : Fin n × Fin n} : p ∈ drawOrder n ↔ p.1 < p.2 := by
  rw [drawOrder_eq_flatMap, List.mem_flatMap]
  constructor
  · rintro ⟨i, _, hp⟩
    obtain ⟨j, hj, rfl⟩ := List.mem_map.mp hp
    simpa using hj
  · intro h
    exact ⟨p.1, List.mem_finRange _, List.mem_map.mpr ⟨p.2, by simpa using h, rfl⟩⟩

/-- The tape that holds `r i j` at the position of the pair `i`, `j`, and zero elsewhere. -/
def pairTape (r : Fin n → Fin n → UInt8) : Tape := fun q =>
  match (drawOrder n)[q]? with
  | some (i, j) => r i j
  | none => 0

theorem pairTape_idxOf (r : Fin n → Fin n → UInt8) {i j : Fin n} (h : i < j) :
    pairTape r ((drawOrder n).idxOf (i, j)) = r i j := by
  have hmem : (i, j) ∈ drawOrder n := mem_drawOrder.mpr h
  unfold pairTape
  rw [List.getElem?_eq_getElem (List.idxOf_lt_length_of_mem hmem), List.getElem_idxOf]

/-- The tape that holds share `j` of `δ` at the pair of the first domain with domain `j`, and zero
elsewhere. -/
def starTape (δ : Sharing (n + 1)) : Tape := pairTape fun i j => if i = 0 then δ.get j else 0

theorem blind_starTape (δ : Sharing (n + 1)) {k j : Fin (n + 1)} (h : j ≠ k) :
    blind (starTape δ) k j = if min k j = 0 then δ.get (max k j) else 0 :=
  pairTape_idxOf _ (min_lt_max.mpr h.symm)

/-- What the first domain's bytes add to share `k` is share `k` of `δ`, if the shares of `δ` cancel:
domain `k` has one of them, and the first domain has all. -/
theorem sum_blind_starTape (δ : Sharing (n + 1)) (h0 : δ.recombine = 0) (k : Fin (n + 1)) :
    ∑ j ∈ Finset.univ.erase k, bits (blind (starTape δ) k j) = bits (δ.get k) := by
  have hstar : ∀ j ∈ Finset.univ.erase k, bits (blind (starTape δ) k j) =
      bits (if min k j = 0 then δ.get (max k j) else 0) := fun j hj => by
    rw [blind_starTape δ (Finset.ne_of_mem_erase hj)]
  rw [Finset.sum_congr rfl hstar]
  by_cases hk : k = 0
  · subst hk
    have htotal := bits_get_add_sum_erase δ 0
    rw [h0, bits_zero, CharTwo.add_eq_zero] at htotal
    rw [htotal]
    exact Finset.sum_congr rfl fun j _ => by simp
  · rw [Finset.sum_eq_single 0]
    · simp
    · intro j _ hj
      have hmin : min k j ≠ 0 := by
        rcases min_choice k j with e | e <;> rw [e] <;> assumption
      rw [if_neg hmin, bits_zero]
    · intro h
      exact absurd (Finset.mem_erase.mpr ⟨Ne.symm hk, Finset.mem_univ _⟩) h

/-- **Every change of the shares that keeps the secret is a change of the tape**, the same one for
all operands. -/
theorem out_and_shift (δ : Sharing n) (h0 : δ.recombine = 0) :
    ∃ s : Tape, ∀ (x y : Sharing n) (t : Tape),
      (x.and y).out (t ^^^ s) = (x.and y).out t ^^^ δ := by
  cases n with
  | zero => exact ⟨fun _ => 0, fun _ _ _ => Sharing.ext fun i hi => absurd hi (Nat.not_lt_zero i)⟩
  | succ n =>
    refine ⟨starTape δ, fun x y t => Sharing.ext fun i hi => bits_injective ?_⟩
    have hx := bits_get_out_and x y (t ^^^ starTape δ) ⟨i, hi⟩
    have hblind : ∀ j, bits (blind (t ^^^ starTape δ) ⟨i, hi⟩ j) =
        bits (blind t ⟨i, hi⟩ j) + bits (blind (starTape δ) ⟨i, hi⟩ j) := fun j => bits_xor _ _
    simp only [hblind] at hx
    rw [Finset.sum_add_distrib, sum_blind_starTape δ h0, ← add_assoc, ← bits_get_out_and] at hx
    rw [getElem_xor, bits_xor]
    exact hx

end NormalTower.Sharing
