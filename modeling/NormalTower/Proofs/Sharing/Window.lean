import Mathlib
import NormalTower.Sharing.Draw

/-!
# How much of the tape a computation reads

`D.Reads d` says that `D` reads the next `d` bytes whatever they are, stops right behind them, and
gives a result that depends on these bytes alone. The result is then `D.out` of the tape that starts
where `D` starts, and a sequence of computations reads consecutive windows of the tape.

* `Reads.pure`, `Reads.byte`, `Reads.bytes`, `Reads.bind`, `Reads.foldlM`: how much a computation
  reads.
* `Reads.out_bind`: the second of two computations starts on the tape behind the first.
-/

namespace NormalTower

namespace Tape

/-- The tape from position `k` on. -/
def drop (t : Tape) (k : Nat) : Tape := fun i => t (k + i)

/-- The first `k` bytes of `s`, then the bytes of `s'`. -/
def append (k : Nat) (s s' : Tape) : Tape := fun i => if i < k then s i else s' (i - k)

/-- Two tapes added byte by byte. -/
instance : XorOp Tape := ⟨fun t s i => t i ^^^ s i⟩

@[simp] theorem xor_apply (t s : Tape) (i : Nat) : (t ^^^ s) i = t i ^^^ s i := rfl

@[simp] theorem drop_zero (t : Tape) : t.drop 0 = t :=
  funext fun i => congrArg t (Nat.zero_add i)

theorem drop_drop (t : Tape) (j k : Nat) : (t.drop j).drop k = t.drop (j + k) :=
  funext fun i => congrArg t (Nat.add_assoc j k i).symm

theorem drop_xor (t s : Tape) (k : Nat) : (t ^^^ s).drop k = t.drop k ^^^ s.drop k := rfl

theorem append_of_lt {k i : Nat} (s s' : Tape) (h : i < k) : append k s s' i = s i :=
  if_pos h

@[simp] theorem drop_append (k : Nat) (s s' : Tape) : (append k s s').drop k = s' := by
  funext i
  show (if k + i < k then s (k + i) else s' (k + i - k)) = s' i
  rw [if_neg (by omega), Nat.add_sub_cancel_left]

end Tape

namespace Draw

variable {α β : Type} {D : Draw α} {f : α → Draw β} {d d' : Nat}

/-- The result of `D` on a tape that is read from its start. -/
def out (D : Draw α) (t : Tape) : α := (D.runAt t 0).1

/-- `D` reads the next `d` bytes and nothing else. -/
structure Reads (D : Draw α) (d : Nat) : Prop where
  runAt_eq : ∀ t pos, D.runAt t pos = (D.out (t.drop pos), pos + d)
  out_congr : ∀ {t t' : Tape}, (∀ k < d, t k = t' k) → D.out t = D.out t'

namespace Reads

protected theorem pure (a : α) : Reads (pure a) 0 where
  runAt_eq _ _ := rfl
  out_congr _ := rfl

protected theorem byte : Reads byte 1 where
  runAt_eq _ _ := rfl
  out_congr h := h 0 Nat.one_pos

theorem out_bind (hD : Reads D d) (hf : ∀ a, Reads (f a) d') (t : Tape) :
    (D >>= f).out t = (f (D.out t)).out (t.drop d) := by
  show ((f (D.runAt t 0).1).runAt t (D.runAt t 0).2).1 = _
  rw [hD.runAt_eq, (hf _).runAt_eq, Tape.drop_zero, Nat.zero_add]

theorem bind (hD : Reads D d) (hf : ∀ a, Reads (f a) d') : Reads (D >>= f) (d + d') where
  runAt_eq t pos := by
    rw [runAt_bind, hD.runAt_eq, (hf _).runAt_eq, hD.out_bind hf, Tape.drop_drop, Nat.add_assoc]
  out_congr {t t'} h := by
    have hfst : D.out t = D.out t' := hD.out_congr fun k hk => h k (by omega)
    rw [hD.out_bind hf, hD.out_bind hf, hfst]
    exact (hf _).out_congr fun k hk => h (d + k) (by omega)

protected theorem bytes : ∀ n, Reads (bytes n) n
  | 0 => Reads.pure _
  | n + 1 => (Reads.bytes n).bind fun _ => Reads.byte.bind fun _ => Reads.pure _

theorem counted (hD : Reads D d) : Reads D.counted d where
  runAt_eq t pos := by
    unfold out
    rw [runAt_counted, runAt_counted, hD.runAt_eq, hD.runAt_eq, Tape.drop_zero]
    simp
  out_congr {t t'} h := by
    unfold out
    rw [runAt_counted, runAt_counted, hD.runAt_eq, hD.runAt_eq, Tape.drop_zero, Tape.drop_zero,
      hD.out_congr h]

theorem foldlM {σ : Type} {g : α → σ → Draw α} {c : σ → Nat} (hg : ∀ a s, Reads (g a s) (c s)) :
    ∀ (L : List σ) (a : α), Reads (L.foldlM g a) (L.map c).sum
  | [], a => Reads.pure a
  | s :: L, a => by
    rw [List.foldlM_cons, List.map_cons, List.sum_cons]
    exact (hg a s).bind fun b => foldlM hg L b

theorem cast (hD : Reads D d) (h : d = d') : Reads D d' := h ▸ hD

/-- A change behind the window does not count. -/
theorem out_xor_append (hD : Reads D d) (t s s' : Tape) :
    D.out (t ^^^ Tape.append d s s') = D.out (t ^^^ s) :=
  hD.out_congr fun k hk => by rw [Tape.xor_apply, Tape.append_of_lt s s' hk, Tape.xor_apply]

theorem out_xor_append_zero (hD : Reads D d) (t s : Tape) :
    D.out (t ^^^ Tape.append d (fun _ => 0) s) = D.out t := by
  rw [hD.out_xor_append]
  exact congrArg D.out (funext fun _ => UInt8.xor_zero)

end Reads

end Draw

end NormalTower
