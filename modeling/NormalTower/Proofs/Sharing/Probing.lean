import NormalTower.Proofs.Sharing.Uniform

/-!
# Probing the masked AND

An observer who reads some values while the masked AND runs should not learn the secrets. The
values that occur are the `Wire`s: the shares of the operands, their products, the random bytes, the
blinded products, and what each domain has accumulated after any number of steps. Their values come
from the loop itself, stopped where the wire is computed (`Wire.read`), and are those of the loop on
a table of blinding bytes (`Wire.out_read`).

Of a set `P` of wires, every wire tells about at most one share of the left operand and at most one
of the right one (`leftShares`, `rightShares`). The right shares need care: a domain whose
accumulated share is probed (`probedDomains`) holds a product with every share of the right operand.
Each of these products is blinded by a byte of its own, so it stays hidden unless that byte is
probed too, bare or in the blinded product of the other domain; then the wire with the byte tells
about the other domain's share.

So if the other shares of the operands change, the bytes can be changed along with them such that no
wire of `P` notices (`move`, `Wire.eval_move`). The change of the bytes is a bijection:

* `exists_shares_countProbes_eq`: every tuple of values on `P` comes out equally often for all
  operands that agree on at most as many shares as `P` has wires.
-/

namespace NormalTower.Sharing

variable {n : Nat}

/-! ## Wires -/

/-- A value that occurs while the masked AND of `x` and `y` runs. -/
inductive Wire (n : Nat) where
  /-- Share `i` of `x`. -/
  | left (i : Fin n)
  /-- Share `j` of `y`. -/
  | right (j : Fin n)
  /-- The product of share `i` of `x` and share `j` of `y`. -/
  | product (i j : Fin n)
  /-- The byte that domains `i` and `j` draw. -/
  | random (i j : Fin n) (h : i < j)
  /-- The product of share `i` of `x` and share `j` of `y`, blinded by their byte. -/
  | blinded (i j : Fin n) (h : i ≠ j)
  /-- What domain `k` has accumulated after the first `p` steps. -/
  | accumulator (k : Fin n) (p : Nat)
deriving DecidableEq

/-- The accumulated shares after the first `p` steps. -/
def accumulated (x y : Sharing n) (p : Nat) : Draw (Sharing n) :=
  ((andSteps n).take p).foldlM (AndStep.run x y) (zero n)

/-- The byte that domains `i` and `j` draw: the next one when all steps before theirs are done. -/
def drawnByte (x y : Sharing n) (i j : Fin n) : Draw UInt8 := do
  let _ ← accumulated x y ((andSteps n).idxOf (.cross i j))
  Draw.byte

/-- The value of a wire. -/
def Wire.read (x y : Sharing n) : Wire n → Draw UInt8
  | .left i => pure (x.get i)
  | .right j => pure (y.get j)
  | .product i j => pure (x.get i &&& y.get j)
  | .random i j _ => drawnByte x y i j
  | .blinded i j _ => do
    let r ← drawnByte x y (min i j) (max i j)
    return (x.get i &&& y.get j) ^^^ r
  | .accumulator k p => do
    let acc ← accumulated x y p
    return acc.get k

/-! ## Wires on a table of blinding bytes -/

/-- The value of a wire, where the pair `i`, `j` is blinded by `r i j`. -/
def Wire.eval (x y : Sharing n) (r : Fin n → Fin n → UInt8) : Wire n → UInt8
  | .left i => x.get i
  | .right j => y.get j
  | .product i j => x.get i &&& y.get j
  | .random i j _ => r i j
  | .blinded i j _ => (x.get i &&& y.get j) ^^^ r (min i j) (max i j)
  | .accumulator k p => (((andSteps n).take p).foldl (AndStep.apply x y r) (zero n)).get k

theorem runAt_accumulated (x y : Sharing n) (p : Nat) (t : Tape) :
    (accumulated x y p).runAt t 0 =
      (((andSteps n).take p).foldl
        (AndStep.apply x y fun i j => t ((drawOrder n).idxOf (i, j))) (zero n),
        (((andSteps n).take p).filterMap AndStep.pair?).length) := by
  unfold accumulated
  rw [runAt_foldlM_run x y fun i j => t ((drawOrder n).idxOf (i, j)), Nat.zero_add]
  intro k q hk
  obtain ⟨hlt, rfl⟩ := List.getElem?_eq_some_iff.mp hk
  have hk' := List.prefix_iff_getElem?.mp
    ((List.take_prefix p (andSteps n)).filterMap AndStep.pair?) k hlt
  show t (0 + k) = t ((drawOrder n).idxOf _)
  rw [idxOf_drawOrder hk', Nat.zero_add]

theorem cross_mem_andSteps {i j : Fin n} : AndStep.cross i j ∈ andSteps n ↔ i < j := by
  rw [← mem_drawOrder (p := (i, j))]
  unfold drawOrder
  rw [List.mem_filterMap]
  constructor
  · intro h
    exact ⟨_, h, rfl⟩
  · rintro ⟨s, hs, hp⟩
    cases s with
    | own k => cases hp
    | cross i' j' =>
      cases hp
      exact hs

/-- The steps before `s` read as many bytes as there are pairs before the pair of `s`. -/
theorem length_pairs_before {s : AndStep n} {q : Fin n × Fin n} (hq : s.pair? = some q) :
    ∀ L : List (AndStep n), s ∈ L → (L.filterMap AndStep.pair?).Nodup →
      ((L.take (L.idxOf s)).filterMap AndStep.pair?).length =
        (L.filterMap AndStep.pair?).idxOf q
  | [], hs, _ => absurd hs List.not_mem_nil
  | a :: L, hs, hnodup => by
    by_cases ha : a = s
    · subst ha
      rw [List.idxOf_cons_self, List.filterMap_cons_some hq, List.idxOf_cons_self]
      rfl
    · have hL : s ∈ L := (List.mem_cons.mp hs).resolve_left (Ne.symm ha)
      rw [List.idxOf_cons_ne _ ha, List.take_succ_cons]
      cases hp : a.pair? with
      | none =>
        rw [List.filterMap_cons_none hp] at hnodup ⊢
        rw [List.filterMap_cons_none hp]
        exact length_pairs_before hq L hL hnodup
      | some p =>
        rw [List.filterMap_cons_some hp, List.nodup_cons] at hnodup
        have hpq : p ≠ q := by
          rintro rfl
          exact hnodup.1 (List.mem_filterMap.mpr ⟨s, hL, hq⟩)
        rw [List.filterMap_cons_some hp, List.filterMap_cons_some hp, List.length_cons,
          List.idxOf_cons_ne _ hpq, length_pairs_before hq L hL hnodup.2]

theorem out_drawnByte (x y : Sharing n) {i j : Fin n} (h : i < j) (t : Tape) :
    (drawnByte x y i j).out t = t ((drawOrder n).idxOf (i, j)) := by
  unfold Draw.out drawnByte
  rw [Draw.runAt_bind, runAt_accumulated, Draw.runAt_byte]
  exact congrArg t
    (length_pairs_before rfl _ (cross_mem_andSteps.mpr h) (nodup_drawOrder n))

theorem Wire.out_read (x y : Sharing n) (t : Tape) (w : Wire n) :
    (w.read x y).out t = w.eval x y fun i j => t ((drawOrder n).idxOf (i, j)) := by
  cases w with
  | left i => rfl
  | right j => rfl
  | product i j => rfl
  | random i j h => exact out_drawnByte x y h t
  | blinded i j h =>
    show (x.get i &&& y.get j) ^^^ (drawnByte x y (min i j) (max i j)).out t = _
    rw [out_drawnByte x y (min_lt_max.mpr h)]
    rfl
  | accumulator k p =>
    show ((accumulated x y p).runAt t 0).1.get k = _
    rw [runAt_accumulated]
    rfl

/-! ## The shares that a set of wires tells about -/

/-- The indices that `f` gives on a set of wires. -/
def collect (f : Wire n → Option (Fin n)) (P : Finset (Wire n)) : Finset (Fin n) :=
  P.biUnion fun w => (f w).toFinset

theorem mem_collect {f : Wire n → Option (Fin n)} {P : Finset (Wire n)} {w : Wire n} {i : Fin n}
    (hw : w ∈ P) (hf : f w = some i) : i ∈ collect f P :=
  Finset.mem_biUnion.mpr ⟨w, hw, Option.mem_toFinset.mpr hf⟩

theorem card_collect_le (f : Wire n → Option (Fin n)) (P : Finset (Wire n)) :
    (collect f P).card ≤ P.card := by
  have h : ∀ w ∈ P, (f w).toFinset.card ≤ 1 := by
    intro w _
    cases f w with
    | none => exact Nat.zero_le 1
    | some i => exact le_refl 1
  have hcard := Finset.card_biUnion_le_card_mul P (fun w => (f w).toFinset) 1 h
  rwa [Nat.mul_one] at hcard

namespace Wire

/-- The domain whose accumulated share the wire carries. -/
def domain? : Wire n → Option (Fin n)
  | .accumulator k _ => some k
  | _ => none

/-- The share of the left operand that the wire tells about. -/
def leftShare? : Wire n → Option (Fin n)
  | .left i => some i
  | .right _ => none
  | .product i _ => some i
  | .random _ _ _ => none
  | .blinded i _ _ => some i
  | .accumulator k _ => some k

/-- The share of the right operand that the wire tells about, where the accumulated shares of the
domains `K` are known too. A byte that blinds a product in such a domain bares the other factor. -/
def rightShare? (K : Finset (Fin n)) : Wire n → Option (Fin n)
  | .left _ => none
  | .right j => some j
  | .product _ j => some j
  | .random i j _ => some (if i ∈ K then j else i)
  | .blinded i j _ => some (if j ∈ K then i else j)
  | .accumulator k _ => some k

/-- What has to be known of the operands for the wire, if the domains `K` are probed. -/
def Covered (K I J : Finset (Fin n)) : Wire n → Prop
  | .left i => i ∈ I
  | .right j => j ∈ J
  | .product i j => i ∈ I ∧ j ∈ J
  | .random i j _ => (i ∈ K → j ∈ J) ∧ (j ∈ K → i ∈ J)
  | .blinded i j _ => i ∈ I ∧ j ∈ J ∧ (j ∈ K → i ∈ J)
  | .accumulator k _ => k ∈ K

end Wire

section Shares

variable (P : Finset (Wire n))

/-- The domains whose accumulated shares are probed. -/
def probedDomains : Finset (Fin n) := collect Wire.domain? P

/-- The shares of the left operand that a set of wires tells about. -/
def leftShares : Finset (Fin n) := collect Wire.leftShare? P

/-- The shares of the right operand that a set of wires tells about. -/
def rightShares : Finset (Fin n) := collect (Wire.rightShare? (probedDomains P)) P

variable {P}

theorem exists_accumulator_of_mem {k : Fin n} (h : k ∈ probedDomains P) :
    ∃ p, Wire.accumulator k p ∈ P := by
  obtain ⟨w, hw, hk⟩ := Finset.mem_biUnion.mp h
  rw [Option.mem_toFinset] at hk
  cases w with
  | accumulator k' p =>
    cases hk
    exact ⟨p, hw⟩
  | _ => cases hk

theorem probedDomains_subset_left : probedDomains P ⊆ leftShares P := by
  intro k hk
  obtain ⟨p, hp⟩ := exists_accumulator_of_mem hk
  exact mem_collect hp rfl

theorem probedDomains_subset_right : probedDomains P ⊆ rightShares P := by
  intro k hk
  obtain ⟨p, hp⟩ := exists_accumulator_of_mem hk
  exact mem_collect hp rfl

theorem Wire.covered_of_mem {w : Wire n} (hw : w ∈ P) :
    w.Covered (probedDomains P) (leftShares P) (rightShares P) := by
  have hright : ∀ j, w.rightShare? (probedDomains P) = some j → j ∈ rightShares P :=
    fun j hj => mem_collect hw hj
  cases w with
  | left i => exact mem_collect hw rfl
  | right j => exact mem_collect hw rfl
  | product i j => exact ⟨mem_collect hw rfl, mem_collect hw rfl⟩
  | random i j h =>
    constructor
    · intro hi
      exact hright j (congrArg some (if_pos hi))
    · intro _
      by_cases hi : i ∈ probedDomains P
      · exact probedDomains_subset_right hi
      · exact hright i (congrArg some (if_neg hi))
  | blinded i j h =>
    refine ⟨mem_collect hw rfl, ?_, fun hj => hright i (congrArg some (if_pos hj))⟩
    by_cases hj : j ∈ probedDomains P
    · exact probedDomains_subset_right hj
    · exact hright j (congrArg some (if_neg hj))
  | accumulator k p => exact mem_collect hw rfl

end Shares

/-! ## Changing the operands and the bytes together -/

section Move

variable (K J : Finset (Fin n)) (x y x' y' : Sharing n)

/-- The change of the byte of domains `i` and `j` that makes up for the change of the operands: only
a probed domain needs it, for its product with a share that is not known. -/
def move (i j : Fin n) : UInt8 :=
  if i ∈ K ∧ j ∉ J then (x.get i &&& y.get j) ^^^ (x'.get i &&& y'.get j)
  else if j ∈ K ∧ i ∉ J then (x.get j &&& y.get i) ^^^ (x'.get j &&& y'.get i)
  else 0

variable {K J x y x' y'}

theorem move_comm (hKJ : K ⊆ J) (i j : Fin n) :
    move K J x y x' y' i j = move K J x y x' y' j i := by
  unfold move
  by_cases hi : i ∈ K ∧ j ∉ J
  · have hj : ¬(j ∈ K ∧ i ∉ J) := fun hj => hj.2 (hKJ hi.1)
    rw [if_pos hi, if_neg hj, if_pos hi]
  · rw [if_neg hi, if_neg hi]

theorem move_eq_zero {i j : Fin n} (hi : i ∈ K → j ∈ J) (hj : j ∈ K → i ∈ J) :
    move K J x y x' y' i j = 0 := by
  unfold move
  rw [if_neg fun h => h.2 (hi h.1), if_neg fun h => h.2 (hj h.1)]

/-- A probed domain gets the same blinded product before and after the change. -/
theorem blinded_move (hKJ : K ⊆ J) {k : Fin n} (hk : k ∈ K) (hx : x.get k = x'.get k)
    (hy : ∀ j ∈ J, y.get j = y'.get j) (j : Fin n) (r : UInt8) :
    (x.get k &&& y.get j) ^^^ r =
      (x'.get k &&& y'.get j) ^^^ (r ^^^ move K J x y x' y' k j) := by
  by_cases hj : j ∈ J
  · rw [move_eq_zero (fun _ => hj) fun _ => hKJ hk, UInt8.xor_zero, hx, hy j hj]
  · unfold move
    rw [if_pos ⟨hk, hj⟩]
    apply bits_injective
    simp only [bits_xor]
    have h2 : bits (x'.get k &&& y'.get j) + bits (x'.get k &&& y'.get j) = 0 :=
      CharTwo.add_self_eq_zero _
    linear_combination -h2

/-- What a step adds to the share of a probed domain stays the same. -/
theorem AndStep.term_move (hKJ : K ⊆ J) {k : Fin n} (hk : k ∈ K) (hx : x.get k = x'.get k)
    (hy : ∀ j ∈ J, y.get j = y'.get j) {r r' : Fin n → Fin n → UInt8}
    (hr : ∀ i j, i < j → r' i j = r i j ^^^ move K J x y x' y' i j) {s : AndStep n}
    (hs : s ∈ andSteps n) : s.term x y r k = s.term x' y' r' k := by
  have hblind : ∀ j b, bits (x.get k) * bits (y.get j) + bits b =
      bits (x'.get k) * bits (y'.get j) + bits (b ^^^ move K J x y x' y' k j) := by
    intro j b
    rw [← bits_and, ← bits_and, ← bits_xor, ← bits_xor]
    exact congrArg bits (blinded_move hKJ hk hx hy j b)
  cases s with
  | own i =>
    simp only [AndStep.term]
    by_cases hi : i = k
    · subst hi
      rw [if_pos rfl, if_pos rfl, hx, hy i (hKJ hk)]
    · rw [if_neg hi, if_neg hi]
  | cross i j =>
    have hij := hr i j (cross_mem_andSteps.mp hs)
    simp only [AndStep.term]
    congr 1
    · by_cases hi : i = k
      · subst hi
        rw [if_pos rfl, if_pos rfl, hij]
        exact hblind j (r i j)
      · rw [if_neg hi, if_neg hi]
    · by_cases hj : j = k
      · subst hj
        rw [if_pos rfl, if_pos rfl, hij, move_comm hKJ]
        exact hblind i (r i j)
      · rw [if_neg hj, if_neg hj]

/-- **A covered wire does not notice the change.** -/
theorem Wire.eval_move {I : Finset (Fin n)} (hKI : K ⊆ I) (hKJ : K ⊆ J)
    (hx : ∀ i ∈ I, x.get i = x'.get i) (hy : ∀ j ∈ J, y.get j = y'.get j)
    {r r' : Fin n → Fin n → UInt8}
    (hr : ∀ i j, i < j → r' i j = r i j ^^^ move K J x y x' y' i j) {w : Wire n}
    (hw : w.Covered K I J) : w.eval x y r = w.eval x' y' r' := by
  cases w with
  | left i => exact hx i hw
  | right j => exact hy j hw
  | product i j =>
    obtain ⟨hi, hj⟩ := hw
    show x.get i &&& y.get j = x'.get i &&& y'.get j
    rw [hx i hi, hy j hj]
  | random i j h =>
    obtain ⟨hi, hj⟩ := hw
    show r i j = r' i j
    rw [hr i j h, move_eq_zero hi hj, UInt8.xor_zero]
  | blinded i j h =>
    obtain ⟨hi, hj, hij⟩ := hw
    have hzero : move K J x y x' y' (min i j) (max i j) = 0 := by
      rcases lt_or_gt_of_ne h with hlt | hlt
      · rw [min_eq_left hlt.le, max_eq_right hlt.le]
        exact move_eq_zero (fun _ => hj) hij
      · rw [min_eq_right hlt.le, max_eq_left hlt.le]
        exact move_eq_zero hij fun _ => hj
    show (x.get i &&& y.get j) ^^^ r (min i j) (max i j) =
      (x'.get i &&& y'.get j) ^^^ r' (min i j) (max i j)
    rw [hr _ _ (min_lt_max.mpr h), hzero, UInt8.xor_zero, hx i hi, hy j hj]
  | accumulator k p =>
    -- a sum over the steps so far, and no term of it changes
    apply bits_injective
    simp only [Wire.eval, bits_get_foldl_apply]
    congr 2
    exact List.map_congr_left fun s hs =>
      AndStep.term_move hKJ hw (hx k (hKI hw)) hy hr (List.mem_of_mem_take hs)

end Move

/-! ## Counting byte strings -/

/-- On how many byte strings of length `d` the wires in `P` have the values `v`. -/
def countProbes (P : Finset (Wire n)) (x y : Sharing n) (d : Nat) (v : Wire n → UInt8) : Nat :=
  (Finset.univ.filter fun b : Fin d → UInt8 =>
    ∀ w ∈ P, (w.read x y).out (Tape.cycle (List.ofFn b)) = v w).card

/-- Operands that agree on the shares a set of wires tells about give every tuple of values on these
wires equally often. -/
theorem countProbes_eq_of_agree {P : Finset (Wire n)} {x y x' y' : Sharing n}
    (hx : ∀ i ∈ leftShares P, x.get i = x'.get i)
    (hy : ∀ j ∈ rightShares P, y.get j = y'.get j) (v : Wire n → UInt8) :
    countProbes P x y (n * (n - 1) / 2) v = countProbes P x' y' (n * (n - 1) / 2) v := by
  let s := pairTape (move (probedDomains P) (rightShares P) x y x' y')
  have hinv : Function.Involutive fun (b : Fin (n * (n - 1) / 2) → UInt8) q => b q ^^^ s q := by
    intro b
    funext q
    show b q ^^^ s q ^^^ s q = b q
    rw [UInt8.xor_assoc, UInt8.xor_self, UInt8.xor_zero]
  refine Finset.card_bijective _ hinv.bijective fun b => ?_
  have hread : ∀ w ∈ P, (w.read x y).out (Tape.cycle (List.ofFn b)) =
      (w.read x' y').out (Tape.cycle (List.ofFn fun q => b q ^^^ s q)) := by
    intro w hw
    rw [Wire.out_read, Wire.out_read]
    refine Wire.eval_move probedDomains_subset_left probedDomains_subset_right hx hy
      (fun i j hij => ?_) (Wire.covered_of_mem hw)
    have hlt : (drawOrder n).idxOf (i, j) < n * (n - 1) / 2 := by
      rw [← length_drawOrder]
      exact List.idxOf_lt_length_of_mem (mem_drawOrder.mpr hij)
    rw [cycle_ofFn _ hlt, cycle_ofFn _ hlt]
    exact congrArg _ (pairTape_idxOf _ hij)
  rw [Finset.mem_filter, Finset.mem_filter]
  constructor
  · rintro ⟨_, hb⟩
    exact ⟨Finset.mem_univ _, fun w hw => (hread w hw).symm.trans (hb w hw)⟩
  · rintro ⟨_, hb⟩
    exact ⟨Finset.mem_univ _, fun w hw => (hread w hw).trans (hb w hw)⟩

/-- **The masked AND is non-interfering.** A set of wires tells about at most as many shares of each
operand as it has wires, so fewer wires than there are domains leave a share of each operand out.
Over all byte strings of the length that is drawn, operands that agree on these shares give every
tuple of values on the wires equally often. -/
theorem exists_shares_countProbes_eq (P : Finset (Wire n)) :
    ∃ I J : Finset (Fin n), I.card ≤ P.card ∧ J.card ≤ P.card ∧
      (P.card < n → (∃ i, i ∉ I) ∧ ∃ j, j ∉ J) ∧
      ∀ x y x' y' : Sharing n, (∀ i ∈ I, x.get i = x'.get i) → (∀ j ∈ J, y.get j = y'.get j) →
        ∀ v, countProbes P x y (n * (n - 1) / 2) v = countProbes P x' y' (n * (n - 1) / 2) v := by
  have hI : (leftShares P).card ≤ P.card := card_collect_le _ P
  have hJ : (rightShares P).card ≤ P.card := card_collect_le _ P
  have hout : ∀ S : Finset (Fin n), S.card < n → ∃ i, i ∉ S := by
    intro S hS
    have hlt : S.card < (Finset.univ : Finset (Fin n)).card := by rwa [Finset.card_fin]
    obtain ⟨i, -, hi⟩ := Finset.exists_mem_notMem_of_card_lt_card hlt
    exact ⟨i, hi⟩
  refine ⟨leftShares P, rightShares P, hI, hJ, fun hP => ⟨hout _ (by omega), hout _ (by omega)⟩, ?_⟩
  intro x y x' y' hx hy v
  exact countProbes_eq_of_agree hx hy v

/-- Of three domains, what the second one has accumulated after four steps and its byte in the
blinded product of the first one: other secrets give the same values equally often. -/
theorem countProbes_two_of_three :
    ∃ x y x' y' : Sharing 3, x.recombine ≠ x'.recombine ∧ y.recombine ≠ y'.recombine ∧
      ∀ v, countProbes {.accumulator 1 4, .blinded 0 1 Fin.zero_ne_one} x y 3 v =
        countProbes {.accumulator 1 4, .blinded 0 1 Fin.zero_ne_one} x' y' 3 v := by
  obtain ⟨I, J, -, -, hout, h⟩ := exists_shares_countProbes_eq (n := 3)
    {.accumulator 1 4, .blinded 0 1 Fin.zero_ne_one}
  obtain ⟨⟨i, hi⟩, j, hj⟩ := hout (by decide)
  have hsecret : ∀ k : Fin 3, (zero 3).recombine ≠ ((zero 3).addAt k 1).recombine := by decide
  have hagree : ∀ (S : Finset (Fin 3)) k, k ∉ S → ∀ l ∈ S, (zero 3).get l =
      ((zero 3).addAt k 1).get l := by
    intro S k hk l hl
    rw [get_eq_getElem, get_eq_getElem, getElem_addAt, if_neg]
    intro e
    exact hk (Fin.ext e ▸ hl)
  exact ⟨zero 3, zero 3, (zero 3).addAt i 1, (zero 3).addAt j 1, hsecret i, hsecret j,
    h _ _ _ _ (hagree I i hi) (hagree J j hj)⟩

end NormalTower.Sharing
