import NormalTower.Sharing.Basic
import NormalTower.Proofs.Packed.Linear

/-!
# Recombination

The secret of a sharing is the sum of its shares (`bits_recombine`), so a map that respects
exclusive or may be applied to each share alone: recombining first and mapping then gives the same
(`recombine_map`, `recombine_zipWith`). Taking sharings apart and joining them are such maps.
A fresh sharing recombines to the secret it was made from (`recombine_runAt_share`).
-/

namespace NormalTower.Sharing

variable {n : Nat}

/-! ## The secret as a sum -/

theorem bits_foldl_xor : ∀ (l : List UInt8) (a : UInt8),
    bits (l.foldl (· ^^^ ·) a) = bits a + (l.map bits).sum
  | [], a => by simp
  | x :: l, a => by
    rw [List.foldl_cons, bits_foldl_xor l, bits_xor, List.map_cons, List.sum_cons, add_assoc]

theorem recombine_eq_foldl (x : Sharing n) : x.recombine = x.toList.foldl (· ^^^ ·) 0 :=
  (Vector.foldl_toList _).symm

theorem toList_eq_ofFn (x : Sharing n) : x.toList = List.ofFn x.get := by
  refine List.ext_getElem (by simp [toList]) fun i hi hi' => ?_
  simp [toList, get_eq_getElem]

/-- The bits of the secret are the sums of the bits of the shares. -/
theorem bits_recombine (x : Sharing n) : bits x.recombine = ∑ i : Fin n, bits (x.get i) := by
  rw [recombine_eq_foldl, bits_foldl_xor, bits_zero, zero_add, toList_eq_ofFn, List.map_ofFn,
    List.sum_ofFn]
  rfl

theorem bits_get_add_sum_erase (x : Sharing n) (k : Fin n) :
    bits (x.get k) + ∑ i ∈ Finset.univ.erase k, bits (x.get i) = bits x.recombine := by
  rw [bits_recombine, Finset.add_sum_erase _ (fun i => bits (x.get i)) (Finset.mem_univ k)]

/-- The last share of a fresh sharing makes up for all others. -/
theorem recombine_runAt_share (secret : UInt8) (t : Tape) (pos : Nat) :
    ((share secret : Draw (Sharing (n + 1))).runAt t pos).1.recombine = secret := by
  show ((Sharing.mk (((Draw.bytes n).runAt t pos).1.push
    (((Draw.bytes n).runAt t pos).1.foldl (· ^^^ ·) secret))).recombine) = secret
  generalize ((Draw.bytes n).runAt t pos).1 = v
  apply bits_injective
  show bits ((v.push (v.foldl (· ^^^ ·) secret)).foldl (· ^^^ ·) 0) = bits secret
  rw [Vector.foldl_push, bits_xor, ← Vector.foldl_toList, ← Vector.foldl_toList, bits_foldl_xor,
    bits_foldl_xor, bits_zero, zero_add, add_left_comm, CharTwo.add_self_eq_zero, add_zero]

/-! ## Maps on shares -/

theorem foldl_xor_zipWith {f : UInt8 → UInt8 → UInt8} (hf : XorLinear₂ f) :
    ∀ (l l' : List UInt8) (a b : UInt8), l.length = l'.length →
      (List.zipWith f l l').foldl (· ^^^ ·) (f a b) =
        f (l.foldl (· ^^^ ·) a) (l'.foldl (· ^^^ ·) b)
  | [], [], _, _, _ => rfl
  | x :: l, y :: l', a, b, h => by
    rw [List.zipWith_cons_cons, List.foldl_cons, ← hf]
    exact foldl_xor_zipWith hf l l' _ _ (Nat.succ.inj h)

theorem recombine_zipWith {f : UInt8 → UInt8 → UInt8} (hf : XorLinear₂ f) (x y : Sharing n) :
    (zipWith f x y).recombine = f x.recombine y.recombine := by
  have h := foldl_xor_zipWith hf x.toList y.toList 0 0 (by simp [toList])
  rw [hf.map_zero] at h
  rw [recombine_eq_foldl, recombine_eq_foldl x, recombine_eq_foldl y, ← h]
  simp [zipWith, toList]

theorem zipWith_left (f : UInt8 → UInt8) (x y : Sharing n) :
    zipWith (fun a _ => f a) x y = x.map f := by
  ext i hi
  rw [getElem_zipWith, getElem_map]

theorem recombine_map {f : UInt8 → UInt8} (hf : XorLinear f) (x : Sharing n) :
    (x.map f).recombine = f x.recombine := by
  rw [← zipWith_left f x x]
  exact recombine_zipWith (fun a a' _ _ => hf a a') x x

@[simp] theorem recombine_xor (x y : Sharing n) :
    (x ^^^ y).recombine = x.recombine ^^^ y.recombine :=
  recombine_zipWith xor_xor_xor_comm x y

@[simp] theorem recombine_zero : (zero n).recombine = 0 := by
  apply bits_injective
  rw [bits_recombine, bits_zero]
  exact Finset.sum_eq_zero fun i _ => by rw [get_eq_getElem, getElem_zero, bits_zero]

@[simp] theorem recombine_split_hi (l : Level) (x : Sharing n) :
    (x.split l).hi.recombine = (Packed.split l x.recombine).hi :=
  recombine_map (Packed.split_hi_linear l) x

@[simp] theorem recombine_split_lo (l : Level) (x : Sharing n) :
    (x.split l).lo.recombine = (Packed.split l x.recombine).lo :=
  recombine_map (Packed.split_lo_linear l) x

@[simp] theorem recombine_join (l : Level) (hi lo : Sharing n) :
    (join l hi lo).recombine = Packed.join l hi.recombine lo.recombine :=
  recombine_zipWith (Packed.join_linear l) hi lo

end NormalTower.Sharing
