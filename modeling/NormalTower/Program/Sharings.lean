import NormalTower.Program.Registers
import NormalTower.Sharing.Arith
import NormalTower.Sharing.Text

/-!
# Programs over sharings

A program over registers that hold sharings into `n` shares. All its steps read one tape of random
bytes, each from where the one before it stopped. A step that is refused draws nothing and changes
nothing.

`Step.plain` reads the same program over bare bytes: it is what the program computes on the secrets.
-/

namespace NormalTower.SharingProgram

variable {n : Nat}

/-- Operations on one sharing. -/
inductive UnaryOp where
  | copy
  | scaledSquare16
  | inv16
  | inv256
deriving DecidableEq

/-- Operations on two sharings. -/
inductive BinaryOp where
  | xor
  | and
  | mul4
  | mul16
deriving DecidableEq

/-- A step of a program over sharings. -/
inductive Step (n : Nat) where
  /-- Append a fresh sharing of a secret. -/
  | share (secret : UInt8)
  /-- Append the given sharing. -/
  | given (x : Sharing n)
  /-- Append the result of an operation on register `a`. -/
  | unary (op : UnaryOp) (a : Nat)
  /-- Append the result of an operation on registers `a` and `b`. -/
  | binary (op : BinaryOp) (a b : Nat)
  /-- Set every share of register `a` to zero. -/
  | wipe (a : Nat)
  /-- Ask whether registers `a` and `b` have the same shares. -/
  | same (a b : Nat)
  /-- Ask for the text of register `a` that a directive asks for, in a field of the given width. -/
  | text (directive : Directive) (width : Nat) (a : Nat)
  /-- A step that names no operation. -/
  | unknown

/-- What a step that is not refused tells. -/
inductive Answer (n : Nat) where
  /-- The sharing it appended and the number of random bytes it drew. -/
  | appended (x : Sharing n) (drawn : Nat)
  /-- The register it changed. -/
  | changed (x : Sharing n)
  /-- A truth value. -/
  | truth (value : Bool)
  /-- A text. -/
  | text (value : String)

/-- Why a step is refused. -/
inductive Refusal where
  /-- It is not understood. -/
  | unknown
  /-- There is no such register. -/
  | noRegister (index : Nat)
  /-- A secret cannot be split into no shares. -/
  | noShares
  /-- A sharing has no such text. -/
  | noText
deriving DecidableEq

/-- The operation on sharings. -/
def UnaryOp.apply (x : Sharing n) : UnaryOp → Draw (Sharing n)
  | .copy => pure x
  | .scaledSquare16 => pure x.scaledSquare16
  | .inv16 => x.inv16
  | .inv256 => x.inv256

/-- The operation on sharings. -/
def BinaryOp.apply (x y : Sharing n) : BinaryOp → Draw (Sharing n)
  | .xor => pure (x ^^^ y)
  | .and => x.and y
  | .mul4 => x.mul4 y
  | .mul16 => x.mul16 y

/-- A fresh sharing into `n` shares, unless `n` is zero. -/
def freshSharing (secret : UInt8) : (n : Nat) → Except Refusal (Draw (Sharing n))
  | 0 => .error .noShares
  | _ + 1 => .ok (Sharing.share secret)

/-- Append the sharing that `d` draws. -/
def append (regs : Array (Sharing n)) (d : Draw (Sharing n)) :
    Draw (Answer n × Array (Sharing n)) := do
  let (x, drawn) ← d.counted
  return (.appended x drawn, regs.push x)

/-- What a step does to the registers and the tape, or why it is refused. -/
def Step.plan (regs : Array (Sharing n)) :
    Step n → Except Refusal (Draw (Answer n × Array (Sharing n)))
  | .share secret => do
    let d ← freshSharing secret n
    return append regs d
  | .given x => .ok (append regs (pure x))
  | .unary op a => do
    let x ← fetch .noRegister regs a
    return append regs (op.apply x)
  | .binary op a b => do
    let x ← fetch .noRegister regs a
    let y ← fetch .noRegister regs b
    return append regs (op.apply x y)
  | .wipe a => do
    let _ ← fetch .noRegister regs a
    return pure (.changed (Sharing.zero n), regs.setIfInBounds a (Sharing.zero n))
  | .same a b => do
    let x ← fetch .noRegister regs a
    let y ← fetch .noRegister regs b
    return pure (.truth (x = y), regs)
  | .text d width a => do
    let x ← fetch .noRegister regs a
    match x.format? width d with
    | some s => return pure (.text s, regs)
    | none => throw .noText
  | .unknown => .error .unknown

/-- The outcome of a step and the registers after it. -/
def Step.exec (regs : Array (Sharing n)) (s : Step n) :
    Draw (Except Refusal (Answer n) × Array (Sharing n)) :=
  match s.plan regs with
  | .ok d => do
    let (answer, regs') ← d
    return (.ok answer, regs')
  | .error e => pure (.error e, regs)

/-- The outcomes of all steps in order, and the registers at the end. -/
def runAll : List (Step n) → Array (Sharing n) →
    Draw (List (Except Refusal (Answer n)) × Array (Sharing n))
  | [], regs => pure ([], regs)
  | s :: ss, regs => do
    let (outcome, regs) ← s.exec regs
    let (outcomes, regs) ← runAll ss regs
    return (outcome :: outcomes, regs)

/-! ## The program on the secrets -/

/-- The operation on secrets. -/
def UnaryOp.plain (x : UInt8) : UnaryOp → UInt8
  | .copy => x
  | .scaledSquare16 => Packed.scaledSquare16 x
  | .inv16 => Packed.inv16 x
  | .inv256 => Packed.inv256 x

/-- The operation on secrets. -/
def BinaryOp.plain (x y : UInt8) : BinaryOp → UInt8
  | .xor => x ^^^ y
  | .and => x &&& y
  | .mul4 => Packed.mul4 x y
  | .mul16 => Packed.mul16 x y

/-- The secrets after a step; a refused step leaves them as they are. -/
def Step.plain (regs : Array UInt8) : Step n → Array UInt8
  | .share secret => if n = 0 then regs else regs.push secret
  | .given x => regs.push x.recombine
  | .unary op a =>
    match regs[a]? with
    | some x => regs.push (op.plain x)
    | none => regs
  | .binary op a b =>
    match regs[a]?, regs[b]? with
    | some x, some y => regs.push (op.plain x y)
    | _, _ => regs
  | .wipe a => regs.setIfInBounds a 0
  | .same _ _ => regs
  | .text _ _ _ => regs
  | .unknown => regs

end NormalTower.SharingProgram
