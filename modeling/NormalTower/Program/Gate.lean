import NormalTower.Program.Arithmetic
import NormalTower.Program.Registers

/-!
# Straight-line programs

A register holds an element of one of the levels (`Cell`). A `Gate` names the registers it reads and
appends its results to them, so a list of gates computes on a growing list of registers. A gate
fails if a register is missing or if the operands are not of the levels it needs.
-/

namespace NormalTower

/-- A register: an element of some level, in the representation `E`. -/
structure Cell (E : Level → Type) where
  /-- The level of the element. -/
  level : Level
  /-- The element. -/
  val : E level

/-- Two operands of one level. -/
structure Operands (E : Level → Type) where
  /-- The level of both. -/
  level : Level
  /-- The first operand. -/
  fst : E level
  /-- The second operand. -/
  snd : E level

/-- Two registers as operands of one operation, if they are of one level. -/
def Cell.operands? {E : Level → Type} : Cell E → Cell E → Option (Operands E)
  | ⟨.gf4, x⟩, ⟨.gf4, y⟩ => some ⟨.gf4, x, y⟩
  | ⟨.gf16, x⟩, ⟨.gf16, y⟩ => some ⟨.gf16, x, y⟩
  | ⟨.gf256, x⟩, ⟨.gf256, y⟩ => some ⟨.gf256, x, y⟩
  | _, _ => none

/-- Operations on one element that give one element. -/
inductive UnaryOp where
  | square
  | inv
  | scaleN
  | scaleNSquared
  | scaledSquare
deriving DecidableEq

/-- Operations on two elements of one level that give a third. -/
inductive BinaryOp where
  | add
  | sub
  | mul
deriving DecidableEq

/-- A step of a straight-line program. -/
inductive Gate where
  /-- An operation on register `a`. -/
  | unary (op : UnaryOp) (a : Nat)
  /-- An operation on registers `a` and `b`. -/
  | binary (op : BinaryOp) (a b : Nat)
  /-- Register `b` if `choice` is set, else register `a`. -/
  | select (choice : Bool) (a b : Nat)
  /-- The two coordinates of register `a`, the high one first. -/
  | halves (a : Nat)
  /-- The element with the coordinates in registers `hi` and `lo`. -/
  | ofHalves (hi lo : Nat)
deriving DecidableEq

/-- Why a gate gives nothing. -/
inductive GateError where
  /-- There is no such register. -/
  | noRegister (index : Nat)
  /-- The operands are not of levels the operation is for. -/
  | wrongLevel
deriving DecidableEq

variable {E : Level → Type}

/-- The registers at two indices, as operands of one operation. -/
def fetchOperands (regs : Array (Cell E)) (a b : Nat) : Except GateError (Operands E) := do
  let x ← fetch .noRegister regs a
  let y ← fetch .noRegister regs b
  match x.operands? y with
  | some o => .ok o
  | none => .error .wrongLevel

/-- The result of an operation on one element; scalings exist on one level only. -/
def UnaryOp.apply (A : Arithmetic E) : UnaryOp → Cell E → Except GateError (Cell E)
  | .square, ⟨l, x⟩ => .ok ⟨l, A.square x⟩
  | .inv, ⟨l, x⟩ => .ok ⟨l, A.inv x⟩
  | .scaleN, ⟨.gf4, x⟩ => .ok ⟨.gf4, A.scaleN x⟩
  | .scaleNSquared, ⟨.gf4, x⟩ => .ok ⟨.gf4, A.scaleNSquared x⟩
  | .scaledSquare, ⟨.gf16, x⟩ => .ok ⟨.gf16, A.scaledSquare x⟩
  | _, _ => .error .wrongLevel

/-- The result of an operation on two elements. -/
def BinaryOp.apply (A : Arithmetic E) (o : Operands E) : BinaryOp → Cell E
  | .add => ⟨o.level, A.add o.fst o.snd⟩
  | .sub => ⟨o.level, A.sub o.fst o.snd⟩
  | .mul => ⟨o.level, A.mul o.fst o.snd⟩

/-- The second operand if `choice` is set, else the first. -/
def Operands.select (o : Operands E) (choice : Bool) : Cell E :=
  ⟨o.level, if choice then o.snd else o.fst⟩

/-- The coordinates of a register. -/
def Cell.halves (A : Arithmetic E) : Cell E → Except GateError (Halves (Cell E))
  | ⟨.gf4, _⟩ => .error .wrongLevel
  | ⟨.gf16, x⟩ =>
    let h := A.halves .gf16 x
    .ok ⟨⟨.gf4, h.hi⟩, ⟨.gf4, h.lo⟩⟩
  | ⟨.gf256, x⟩ =>
    let h := A.halves .gf256 x
    .ok ⟨⟨.gf16, h.hi⟩, ⟨.gf16, h.lo⟩⟩

/-- The element one level up with the operands as coordinates. -/
def Operands.join (A : Arithmetic E) : Operands E → Except GateError (Cell E)
  | ⟨.gf4, hi, lo⟩ => .ok ⟨.gf16, A.ofHalves .gf16 ⟨hi, lo⟩⟩
  | ⟨.gf16, hi, lo⟩ => .ok ⟨.gf256, A.ofHalves .gf256 ⟨hi, lo⟩⟩
  | ⟨.gf256, _, _⟩ => .error .wrongLevel

/-- The results of a gate, in the order in which they are appended. -/
def Gate.results (A : Arithmetic E) (regs : Array (Cell E)) :
    Gate → Except GateError (List (Cell E))
  | .unary op a => do
    let c ← op.apply A (← fetch .noRegister regs a)
    return [c]
  | .binary op a b => do
    let o ← fetchOperands regs a b
    return [op.apply A o]
  | .select choice a b => do
    let o ← fetchOperands regs a b
    return [o.select choice]
  | .halves a => do
    let h ← (← fetch .noRegister regs a).halves A
    return [h.hi, h.lo]
  | .ofHalves hi lo => do
    let c ← (← fetchOperands regs hi lo).join A
    return [c]

/-- The registers after a straight-line program, if no gate of it fails. -/
def Gate.runAll (A : Arithmetic E) : List Gate → Array (Cell E) →
    Except GateError (Array (Cell E))
  | [], regs => .ok regs
  | g :: gs, regs => do
    let cs ← g.results A regs
    runAll A gs (regs ++ cs)

end NormalTower
