/-!
# Random bytes read off a tape

A `Tape` fixes every random byte in advance, and a `Draw` is a computation that reads a tape from
some position on. What it returns and where it stops are then functions of the tape and the
position, so a statement about random choices is a statement about tapes.

* `runAt_byte`, `runAt_pure`, `runAt_bind`: how a computation moves along the tape.
* `runAt_bytes`: a run of bytes is the next stretch of the tape.
* `cycle_eq_getElem`: the repeated tape of a list starts with that list.
-/

namespace NormalTower

/-- The random bytes, by position. -/
abbrev Tape := Nat → UInt8

/-- The tape that repeats `bytes` for ever, and is all zero if there are none. -/
def Tape.cycle (bytes : List UInt8) : Tape := fun k =>
  bytes.getD (k % bytes.length) 0

theorem Tape.cycle_eq_getElem (bytes : List UInt8) (k : Nat) (h : k < bytes.length) :
    Tape.cycle bytes k = bytes[k] := by
  simp [Tape.cycle, Nat.mod_eq_of_lt h, h]

/-- A computation that reads a tape; its state is the position of the next unread byte. -/
abbrev Draw := ReaderT Tape (StateM Nat)

namespace Draw

/-- The result of `d` on the tape `t` read from `pos` on, and the position it stops at. -/
def runAt {α : Type} (d : Draw α) (t : Tape) (pos : Nat) : α × Nat :=
  StateT.run (ReaderT.run d t) pos

/-- The next byte of the tape. -/
def byte : Draw UInt8 := fun t pos => (t pos, pos + 1)

/-- The next `n` bytes of the tape, in order. -/
def bytes : (n : Nat) → Draw (Vector UInt8 n)
  | 0 => pure #v[]
  | n + 1 => do
    let v ← bytes n
    let b ← byte
    return v.push b

/-- The result of `d` and the number of bytes it read. -/
def counted {α : Type} (d : Draw α) : Draw (α × Nat) := fun t pos =>
  let (a, stop) := d.runAt t pos
  ((a, stop - pos), stop)

@[simp] theorem runAt_byte (t : Tape) (pos : Nat) : byte.runAt t pos = (t pos, pos + 1) := rfl

@[simp] theorem runAt_pure {α : Type} (a : α) (t : Tape) (pos : Nat) :
    (pure a : Draw α).runAt t pos = (a, pos) := rfl

@[simp] theorem runAt_bind {α β : Type} (d : Draw α) (f : α → Draw β) (t : Tape) (pos : Nat) :
    (d >>= f).runAt t pos = (f (d.runAt t pos).1).runAt t (d.runAt t pos).2 := rfl

@[simp] theorem runAt_counted {α : Type} (d : Draw α) (t : Tape) (pos : Nat) :
    d.counted.runAt t pos = (((d.runAt t pos).1, (d.runAt t pos).2 - pos), (d.runAt t pos).2) := rfl

theorem runAt_bytes (n : Nat) (t : Tape) (pos : Nat) :
    (bytes n).runAt t pos = (Vector.ofFn fun i : Fin n => t (pos + i), pos + n) := by
  induction n with
  | zero => rfl
  | succ n ih =>
    simp only [bytes, runAt_bind, runAt_byte, runAt_pure, ih]
    refine Prod.ext (Vector.ext fun i hi => ?_) rfl
    simp only [Vector.getElem_push, Vector.getElem_ofFn]
    split
    · rfl
    · rw [show i = n by omega]

end Draw

end NormalTower
