import NormalTower.Element.Codec
import NormalTower.Element.Text
import NormalTower.Program.Gate

/-!
# Programs over elements

A program is a list of steps that make elements, compute with them, change registers in place or ask
about them. A step that fails leaves the registers as they were, and the program goes on with the
next one.

* `BinaryOp.assign_eq_apply`: an operation in place writes what the operation gives.
* `exec_error`: a failed step changes no register.
-/

namespace NormalTower

variable {E : Level → Type}

/-- The first operand after the operation has been carried out on it in place. -/
def BinaryOp.assign (A : Arithmetic E) (o : Operands E) : BinaryOp → Cell E
  | .add => ⟨o.level, A.addAssign o.fst o.snd⟩
  | .sub => ⟨o.level, A.subAssign o.fst o.snd⟩
  | .mul => ⟨o.level, A.mulAssign o.fst o.snd⟩

/-- An operation in place writes what the operation gives. -/
theorem BinaryOp.assign_eq_apply (A : Arithmetic E) (o : Operands E) (op : BinaryOp) :
    op.assign A o = op.apply A o := by
  cases op with
  | add => exact congrArg (Cell.mk o.level) (A.addAssign_eq o.fst o.snd)
  | sub => exact congrArg (Cell.mk o.level) (A.subAssign_eq o.fst o.snd)
  | mul => exact congrArg (Cell.mk o.level) (A.mulAssign_eq o.fst o.snd)

namespace ElementProgram

/-- Where a new element of level `l` comes from. -/
inductive Origin : Level → Type where
  /-- A byte that must fit. -/
  | checked {l : Level} (value : UInt8) : Origin l
  /-- The low bits of a byte. -/
  | masked {l : Level} (value : UInt8) : Origin l
  /-- Zero. -/
  | zero {l : Level} : Origin l
  /-- One. -/
  | one {l : Level} : Origin l
  /-- The norm of the step to the field of 16. -/
  | n : Origin .gf4
  /-- The norm of the step to the field of 256. -/
  | nu : Origin .gf16
  /-- JSON text. -/
  | json {l : Level} (text : String) : Origin l
  /-- The start of a byte string. -/
  | bytes {l : Level} (bytes : List UInt8) : Origin l

/-- A question about one register. -/
inductive Query where
  /-- Whether it is zero. -/
  | isZero
  /-- Its packed byte. -/
  | byte
  /-- Its JSON text. -/
  | json
  /-- Its byte string. -/
  | bytes
  /-- The text that a directive asks for, in a field of the given width. -/
  | text (directive : Directive) (width : Nat)

/-- A question about two registers of one level. -/
inductive Comparison where
  /-- Whether they are equal, as a truth value. -/
  | same
  /-- Whether they are equal, as a bit. -/
  | equalBit
  /-- Whether they differ, as a bit. -/
  | differBit

/-- A step of a program over elements. -/
inductive Step where
  /-- Append a new element. -/
  | make (l : Level) (origin : Origin l)
  /-- Append the results of a gate. -/
  | gate (g : Gate)
  /-- Append the inverse of register `a`, which must not be zero. -/
  | invert (a : Nat)
  /-- The operation is carried out on register `a` in place, with register `b`. -/
  | assign (op : BinaryOp) (a b : Nat)
  /-- If `choice` is set, register `a` becomes register `b`. -/
  | conditionalAssign (choice : Bool) (a b : Nat)
  /-- If `choice` is set, registers `a` and `b` change places. -/
  | conditionalSwap (choice : Bool) (a b : Nat)
  /-- Ask about register `a`. -/
  | ask (query : Query) (a : Nat)
  /-- Compare registers `a` and `b`. -/
  | compare (comparison : Comparison) (a b : Nat)
  /-- A step that names no operation. -/
  | unknown

/-- What a step that succeeds tells. -/
inductive Answer (E : Level → Type) where
  /-- The elements it appended. -/
  | appended (cells : List (Cell E))
  /-- The register it changed. -/
  | changed (cell : Cell E)
  /-- The two registers it may have exchanged. -/
  | exchanged (a b : Cell E)
  /-- A bit. -/
  | bit (value : Bool)
  /-- A truth value. -/
  | truth (value : Bool)
  /-- A byte. -/
  | byte (value : UInt8)
  /-- A text. -/
  | text (value : String)
  /-- A byte string. -/
  | bytes (value : List UInt8)

/-- Why a step fails. -/
inductive Failure where
  /-- It is not understood. -/
  | unknown
  /-- Its registers are missing or of the wrong level. -/
  | gate (e : GateError)
  /-- The byte does not fit. -/
  | outOfRange (e : OutOfRange)
  /-- The JSON text is no element. -/
  | json (e : Element.JsonError)
  /-- The byte string starts with no element. -/
  | bytes (e : Element.BytesError)
  /-- Zero has no inverse. -/
  | noInverse
deriving DecidableEq

/-- The new element. -/
def Origin.build (A : Arithmetic E) {l : Level} : Origin l → Except Failure (E l)
  | .checked v => (A.ofElement <$> Element.ofByte l v).mapError .outOfRange
  | .masked v => .ok (A.ofElement (Element.ofMasked l v))
  | .zero => .ok (A.ofElement 0)
  | .one => .ok (A.ofElement 1)
  | .n => .ok (A.ofElement Element.n)
  | .nu => .ok (A.ofElement Element.nu)
  | .json text => (A.ofElement <$> Element.ofJson l text).mapError .json
  | .bytes bs => (A.ofElement <$> Element.ofBytes l bs).mapError .bytes

/-- What there is to tell about a register. -/
def Query.answer (A : Arithmetic E) (c : Cell E) : Query → Answer E
  | .isZero => .bit (A.toElement c.val = 0)
  | .byte => .byte (A.toElement c.val).val
  | .json => .text (A.toElement c.val).toJson
  | .bytes => .bytes (A.toElement c.val).toBytes
  | .text d width => .text ((A.toElement c.val).format width d)

/-- What there is to tell about two registers. -/
def Comparison.answer (A : Arithmetic E) (o : Operands E) : Comparison → Answer E
  | .same => .truth (A.toElement o.fst = A.toElement o.snd)
  | .equalBit => .bit (A.toElement o.fst = A.toElement o.snd)
  | .differBit => .bit (A.toElement o.fst ≠ A.toElement o.snd)

/-- The answer to a step and the registers after it, or why it fails. -/
def Step.run (A : Arithmetic E) (regs : Array (Cell E)) :
    Step → Except Failure (Answer E × Array (Cell E))
  | .make l origin => do
    let c : Cell E := ⟨l, ← origin.build A⟩
    return (.appended [c], regs.push c)
  | .gate g => do
    let cs ← (g.results A regs).mapError .gate
    return (.appended cs, regs ++ cs)
  | .invert a => do
    let c ← (fetch .noRegister regs a).mapError .gate
    if A.toElement c.val = 0 then throw .noInverse
    let c : Cell E := ⟨c.level, A.inv c.val⟩
    return (.appended [c], regs.push c)
  | .assign op a b => do
    let o ← (fetchOperands regs a b).mapError .gate
    let c := op.assign A o
    return (.changed c, regs.setIfInBounds a c)
  | .conditionalAssign choice a b => do
    let o ← (fetchOperands regs a b).mapError .gate
    let c := o.select choice
    return (.changed c, regs.setIfInBounds a c)
  | .conditionalSwap choice a b => do
    let o ← (fetchOperands regs a b).mapError .gate
    let x := o.select choice
    let y := o.select (!choice)
    return (.exchanged x y, (regs.setIfInBounds a x).setIfInBounds b y)
  | .ask query a => do
    let c ← (fetch .noRegister regs a).mapError .gate
    return (query.answer A c, regs)
  | .compare comparison a b => do
    let o ← (fetchOperands regs a b).mapError .gate
    return (comparison.answer A o, regs)
  | .unknown => .error .unknown

/-- The outcome of a step and the registers after it. -/
def Step.exec (A : Arithmetic E) (regs : Array (Cell E)) (s : Step) :
    Except Failure (Answer E) × Array (Cell E) :=
  match s.run A regs with
  | .ok (answer, regs') => (.ok answer, regs')
  | .error e => (.error e, regs)

/-- The outcomes of all steps in order, and the registers at the end. -/
def runAll (A : Arithmetic E) : List Step → Array (Cell E) →
    List (Except Failure (Answer E)) × Array (Cell E)
  | [], regs => ([], regs)
  | s :: ss, regs =>
    let (outcome, regs) := s.exec A regs
    let (outcomes, regs) := runAll A ss regs
    (outcome :: outcomes, regs)

theorem exec_error {A : Arithmetic E} {regs : Array (Cell E)} {s : Step} {e : Failure}
    (h : (s.exec A regs).1 = .error e) : (s.exec A regs).2 = regs := by
  unfold Step.exec at h ⊢
  split at h <;> simp_all

end ElementProgram

end NormalTower
