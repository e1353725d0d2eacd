import NormalTower.Proofs.Element.Powers
import NormalTower.Proofs.Program.StraightLine

/-!
# Programs without shortcuts

Squares, scalings and inverses are shortcuts: each of them is a product of many factors, computed in
fewer steps. `Gate.expand` spells a gate out as a formula that has sums, products and constants
only, and leaves the coordinates alone. A square becomes a product of two factors, a scaling a
product with its constant, and an inverse a product of `2 ^ bits - 2` factors. How many factors an
inverse has depends on the level of its operand, so a program is spelt out along the levels of its
registers (`Gate.expandAll`).

A shortcut and its formula give the same element, zero included, and they fail in the same way where
a register is missing or of the wrong level (`UnaryOp.eval_formula`).

* `Gate.results_expand`: a gate and its formula give the same results.
* `Gate.states_expandAll`: so the registers of a whole program are the same after every gate.
-/

namespace NormalTower

/-! ## Formulas -/

/-- The operations of a ring. -/
inductive RingOp where
  | add
  | mul

/-- The result of an operation on two elements. -/
def RingOp.apply {l : Level} (x y : Element l) : RingOp → Element l
  | .add => x + y
  | .mul => x * y

/-- A formula over registers. -/
inductive Formula where
  /-- A register. -/
  | reg (a : Nat)
  /-- A constant. -/
  | const (l : Level) (c : Element l)
  /-- A sum or a product. -/
  | op (o : RingOp) (s t : Formula)

namespace Formula

/-- The value of a formula; both sides of an operation must be of one level. -/
def eval (regs : Array (Cell Element)) : Formula → Except GateError (Cell Element)
  | .reg a => fetch .noRegister regs a
  | .const l c => .ok ⟨l, c⟩
  | .op o s t => do
    let x ← s.eval regs
    let y ← t.eval regs
    match x.operands? y with
    | some p => .ok ⟨p.level, o.apply p.fst p.snd⟩
    | none => .error .wrongLevel

/-- The product of `k` copies of a formula of level `l`. -/
def power (l : Level) (t : Formula) : Nat → Formula
  | 0 => .const l 1
  | k + 1 => .op .mul (power l t k) t

/-- Of two registers of level `l` the second if `choice` is set, else the first: `a + c (a + b)`
with `c` one or zero. -/
def select (l : Level) (choice : Bool) (a b : Nat) : Formula :=
  .op .add (.reg a)
    (.op .mul (.const l (if choice then 1 else 0)) (.op .add (.reg a) (.reg b)))

end Formula

/-- A gate that has a formula for all its arithmetic. -/
inductive RingGate where
  /-- The value of a formula. -/
  | formula (t : Formula)
  /-- The two coordinates of register `a`, the high one first. -/
  | halves (a : Nat)
  /-- The element with the coordinates in registers `hi` and `lo`. -/
  | ofHalves (hi lo : Nat)

namespace RingGate

/-- The results of a gate, in the order in which they are appended. -/
def results (regs : Array (Cell Element)) : RingGate → Except GateError (List (Cell Element))
  | .formula t => do
    let c ← t.eval regs
    return [c]
  | .halves a => do
    let h ← (← fetch .noRegister regs a).halves .elements
    return [h.hi, h.lo]
  | .ofHalves hi lo => do
    let c ← (← fetchOperands regs hi lo).join .elements
    return [c]

/-- The registers after a gate, if no gate before it failed. -/
def next (st : Except GateError (Array (Cell Element))) (g : RingGate) :
    Except GateError (Array (Cell Element)) := do
  let regs ← st
  let cs ← g.results regs
  return regs ++ cs

/-- The registers before the first gate and after every gate; behind a gate that fails there is only
its error. -/
def states (regs : Array (Cell Element)) (gs : List RingGate) :
    List (Except GateError (Array (Cell Element))) :=
  gs.scanl next (.ok regs)

end RingGate

/-! ## Spelling a program out -/

/-- The operation on register `a` of level `l`, spelt out. -/
def UnaryOp.formula (l : Level) (a : Nat) : UnaryOp → Formula
  | .square => .op .mul (.reg a) (.reg a)
  | .inv => .power l (.reg a) (2 ^ l.bits - 2)
  | .scaleN => .op .mul (.const .gf4 Element.n) (.reg a)
  | .scaleNSquared =>
    .op .mul (.op .mul (.const .gf4 Element.n) (.const .gf4 Element.n)) (.reg a)
  | .scaledSquare => .op .mul (.const .gf16 Element.nu) (.op .mul (.reg a) (.reg a))

/-- The operation of a ring that gives the result; a difference is a sum. -/
def BinaryOp.ringOp : BinaryOp → RingOp
  | .add => .add
  | .sub => .add
  | .mul => .mul

namespace Gate

/-- A gate spelt out, on registers of the levels `Γ`. -/
def expand (Γ : Array Level) : Gate → RingGate
  | .unary op a => .formula (op.formula (levelAt Γ a) a)
  | .binary op a b => .formula (.op op.ringOp (.reg a) (.reg b))
  | .select choice a b => .formula (.select (levelAt Γ a) choice a b)
  | .halves a => .halves a
  | .ofHalves hi lo => .ofHalves hi lo

/-- A program spelt out gate by gate, where the first gate finds registers of the levels `Γ`. -/
def expandAll : Array Level → List Gate → List RingGate
  | _, [] => []
  | Γ, g :: gs => g.expand Γ :: expandAll (Γ ++ g.levels Γ) gs

end Gate

/-! ## The value of a formula -/

section Values

variable {regs : Array (Cell Element)} {a b : Nat} {l : Level}

theorem Cell.operands?_of_ne {c d : Cell Element} (h : c.level ≠ d.level) :
    c.operands? d = none := by
  cases ho : c.operands? d with
  | none => rfl
  | some o =>
    obtain ⟨rfl, rfl⟩ := Cell.eq_of_operands? ho
    exact absurd rfl h

theorem levelAt_of_fetch {c : Cell Element} (h : fetch GateError.noRegister regs a = .ok c) :
    levelAt (regs.map Cell.level) a = c.level :=
  levelAt_eq (level_of_fetch h)

namespace Formula

variable {o : RingOp} {s t : Formula} {c d : Cell Element} {x y : Element l} {e : GateError}

theorem eval_op (hs : s.eval regs = .ok ⟨l, x⟩) (ht : t.eval regs = .ok ⟨l, y⟩) :
    (op o s t).eval regs = .ok ⟨l, o.apply x y⟩ := by
  simp only [eval, hs, ht, bind, Except.bind, Cell.operands?_mk]

theorem eval_op_of_ne (hs : s.eval regs = .ok c) (ht : t.eval regs = .ok d)
    (h : c.level ≠ d.level) : (op o s t).eval regs = .error .wrongLevel := by
  simp only [eval, hs, ht, bind, Except.bind, Cell.operands?_of_ne h]

theorem eval_op_error_left (hs : s.eval regs = .error e) : (op o s t).eval regs = .error e := by
  simp only [eval, hs, bind, Except.bind]

theorem eval_op_error_right (hs : s.eval regs = .ok c) (ht : t.eval regs = .error e) :
    (op o s t).eval regs = .error e := by
  simp only [eval, hs, ht, bind, Except.bind]

theorem eval_power (ht : t.eval regs = .ok ⟨l, x⟩) (k : Nat) :
    (power l t k).eval regs = .ok ⟨l, x ^ k⟩ := by
  induction k with
  | zero => rfl
  | succ k ih =>
    rw [pow_succ]
    exact eval_op ih ht

theorem eval_power_error (ht : t.eval regs = .error e) (l : Level) {k : Nat} (hk : 0 < k) :
    (power l t k).eval regs = .error e := by
  induction k with
  | zero => omega
  | succ k ih =>
    rcases Nat.eq_zero_or_pos k with rfl | hpos
    · exact eval_op_error_right rfl ht
    · exact eval_op_error_left (ih hpos)

/-- An operation on two registers reads them as a gate does. -/
theorem eval_op_reg (o : RingOp) (regs : Array (Cell Element)) (a b : Nat) :
    (op o (reg a) (reg b)).eval regs =
      (fetchOperands regs a b).map fun p => ⟨p.level, o.apply p.fst p.snd⟩ := by
  simp only [eval, fetchOperands]
  cases fetch GateError.noRegister regs a with
  | error e => rfl
  | ok c =>
    cases fetch GateError.noRegister regs b with
    | error e => rfl
    | ok d =>
      simp only [bind, Except.bind]
      cases c.operands? d <;> rfl

theorem eval_select (choice : Bool) (regs : Array (Cell Element)) (a b : Nat) :
    (select (levelAt (regs.map Cell.level) a) choice a b).eval regs =
      (fetchOperands regs a b).map fun p => p.select choice := by
  have hsum := eval_op_reg .add regs a b
  cases ho : fetchOperands regs a b with
  | error e =>
    rw [ho] at hsum
    cases ha : (reg a).eval regs with
    | error e' =>
      -- the first register is missing, and this is what the gate says as well
      have he : (op .add (reg a) (reg b)).eval regs = .error e' := eval_op_error_left ha
      rw [hsum] at he
      exact (eval_op_error_left ha).trans he.symm
    | ok c => exact eval_op_error_right ha (eval_op_error_right rfl hsum)
  | ok p =>
    rw [ho] at hsum
    have ha : (reg a).eval regs = .ok ⟨p.level, p.fst⟩ := (fetch_of_fetchOperands ho).1
    rw [levelAt_of_fetch ha]
    refine (eval_op ha (eval_op rfl hsum)).trans ?_
    cases choice with
    | false =>
      show Except.ok (Cell.mk p.level (p.fst + 0 * (p.fst + p.snd))) = .ok ⟨p.level, p.fst⟩
      rw [zero_mul, add_zero]
    | true =>
      show Except.ok (Cell.mk p.level (p.fst + 1 * (p.fst + p.snd))) = .ok ⟨p.level, p.snd⟩
      rw [one_mul, ← add_assoc, Element.add_self, zero_add]

end Formula

/-! ## Each operation and its formula -/

theorem Element.scaleN_eq (x : Gf4) : x.scaleN = n * x := by
  rw [scaleN_eq_mul, mul_comm]

theorem Element.scaleNSquared_eq : ∀ x : Gf4, x.scaleNSquared = n * n * x := by
  decide

theorem Element.scaledSquare_eq (x : Gf16) : x.scaledSquare = nu * (x * x) := by
  rw [scaledSquare_eq_mul, mul_comm]

namespace UnaryOp

theorem apply_of_not_appliesTo {op : UnaryOp} (h : ¬ op.AppliesTo l) (x : Element l) :
    op.apply .elements ⟨l, x⟩ = .error .wrongLevel := by
  cases op with
  | square => exact absurd trivial h
  | inv => exact absurd trivial h
  | scaleN =>
    cases l with
    | gf4 => exact absurd rfl h
    | gf16 => rfl
    | gf256 => rfl
  | scaleNSquared =>
    cases l with
    | gf4 => exact absurd rfl h
    | gf16 => rfl
    | gf256 => rfl
  | scaledSquare =>
    cases l with
    | gf4 => rfl
    | gf16 => exact absurd rfl h
    | gf256 => rfl

theorem eval_formula_missing {e : GateError} (h : fetch GateError.noRegister regs a = .error e)
    (op : UnaryOp) (l : Level) : (op.formula l a).eval regs = .error e := by
  have ha : (Formula.reg a).eval regs = .error e := h
  cases op with
  | square => exact Formula.eval_op_error_left ha
  | inv =>
    have hl := Element.two_lt_card l
    exact Formula.eval_power_error ha l (by omega)
  | scaleN => exact Formula.eval_op_error_right rfl ha
  | scaleNSquared => exact Formula.eval_op_error_right (Formula.eval_op rfl rfl) ha
  | scaledSquare => exact Formula.eval_op_error_right rfl (Formula.eval_op_error_left ha)

theorem eval_formula_of_not_appliesTo {op : UnaryOp} (hop : ¬ op.AppliesTo l) {x : Element l}
    (h : fetch GateError.noRegister regs a = .ok ⟨l, x⟩) :
    (op.formula l a).eval regs = .error .wrongLevel := by
  have ha : (Formula.reg a).eval regs = .ok ⟨l, x⟩ := h
  cases op with
  | square => exact absurd trivial hop
  | inv => exact absurd trivial hop
  | scaleN => exact Formula.eval_op_of_ne rfl ha (Ne.symm hop)
  | scaleNSquared =>
    exact Formula.eval_op_of_ne (Formula.eval_op rfl rfl) ha (Ne.symm hop)
  | scaledSquare => exact Formula.eval_op_of_ne rfl (Formula.eval_op ha ha) (Ne.symm hop)

theorem eval_formula_of_appliesTo {op : UnaryOp} (hop : op.AppliesTo l) {x : Element l}
    (h : fetch GateError.noRegister regs a = .ok ⟨l, x⟩) :
    (op.formula l a).eval regs = op.apply .elements ⟨l, x⟩ := by
  have ha : (Formula.reg a).eval regs = .ok ⟨l, x⟩ := h
  cases op with
  | square =>
    refine (Formula.eval_op ha ha).trans ?_
    exact congrArg (fun y => Except.ok (Cell.mk l y)) x.square_eq_mul.symm
  | inv =>
    refine (Formula.eval_power ha _).trans ?_
    exact congrArg (fun y => Except.ok (Cell.mk l y)) x.inv_eq_pow.symm
  | scaleN =>
    subst hop
    refine (Formula.eval_op rfl ha).trans ?_
    exact congrArg (fun y => Except.ok (Cell.mk .gf4 y)) x.scaleN_eq.symm
  | scaleNSquared =>
    subst hop
    refine (Formula.eval_op (Formula.eval_op rfl rfl) ha).trans ?_
    exact congrArg (fun y => Except.ok (Cell.mk .gf4 y)) x.scaleNSquared_eq.symm
  | scaledSquare =>
    subst hop
    refine (Formula.eval_op rfl (Formula.eval_op ha ha)).trans ?_
    exact congrArg (fun y => Except.ok (Cell.mk .gf16 y)) x.scaledSquare_eq.symm

/-- **A shortcut is its formula**, on every operand and where it fails. -/
theorem eval_formula (op : UnaryOp) (regs : Array (Cell Element)) (a : Nat) :
    (op.formula (levelAt (regs.map Cell.level) a) a).eval regs =
      fetch GateError.noRegister regs a >>= op.apply .elements := by
  cases h : fetch GateError.noRegister regs a with
  | error e => exact eval_formula_missing h op _
  | ok c =>
    rw [levelAt_of_fetch h]
    by_cases hop : op.AppliesTo c.level
    · exact eval_formula_of_appliesTo hop h
    · exact (eval_formula_of_not_appliesTo hop h).trans (apply_of_not_appliesTo hop c.val).symm

end UnaryOp

theorem BinaryOp.apply_eq_ringOp (op : BinaryOp) (p : Operands Element) :
    op.apply .elements p = ⟨p.level, op.ringOp.apply p.fst p.snd⟩ := by
  cases op <;> rfl

/-! ## Whole programs -/

namespace Gate

theorem results_expand (g : Gate) (regs : Array (Cell Element)) :
    (g.expand (regs.map Cell.level)).results regs = g.results .elements regs := by
  cases g with
  | unary op a =>
    show ((op.formula _ a).eval regs >>= fun c => pure [c]) = _
    rw [op.eval_formula]
    simp only [results, bind_assoc]
  | binary op a b =>
    show ((Formula.op op.ringOp (.reg a) (.reg b)).eval regs >>= fun c => pure [c]) = _
    rw [Formula.eval_op_reg]
    simp only [results, op.apply_eq_ringOp]
    cases fetchOperands regs a b <;> rfl
  | select choice a b =>
    show ((Formula.select _ choice a b).eval regs >>= fun c => pure [c]) = _
    rw [Formula.eval_select]
    simp only [results]
    cases fetchOperands regs a b <;> rfl
  | halves a => rfl
  | ofHalves hi lo => rfl

theorem next_expand (g : Gate) {Γ : Array Level} {st : Except GateError (Array (Cell Element))}
    (hst : ∀ regs, st = .ok regs → regs.map Cell.level = Γ) :
    (g.expand Γ).next st = next .elements st g := by
  cases st with
  | error e => rfl
  | ok regs =>
    rw [← hst regs rfl]
    show ((g.expand (regs.map Cell.level)).results regs >>= fun cs => pure (regs ++ cs)) =
      (g.results .elements regs >>= fun cs => pure (regs ++ cs))
    rw [results_expand]

theorem levels_next {g : Gate} {Γ : Array Level} {st : Except GateError (Array (Cell Element))}
    (hst : ∀ regs, st = .ok regs → regs.map Cell.level = Γ) (regs : Array (Cell Element))
    (h : next .elements st g = .ok regs) : regs.map Cell.level = Γ ++ g.levels Γ := by
  obtain ⟨regs₀, h₀, h⟩ := bind_eq_ok_iff.mp h
  obtain ⟨cs, hcs, h⟩ := bind_eq_ok_iff.mp h
  cases h
  rw [← hst regs₀ h₀, ← levels_eq_of_results hcs]
  exact map_appendList Cell.level regs₀ cs

/-- Along a run the levels that a program is spelt out for are those of its registers. -/
theorem scanl_next_expandAll : ∀ (gs : List Gate) {Γ : Array Level}
    {st : Except GateError (Array (Cell Element))},
    (∀ regs, st = .ok regs → regs.map Cell.level = Γ) →
    (expandAll Γ gs).scanl RingGate.next st = gs.scanl (next .elements) st
  | [], _, _, _ => rfl
  | g :: gs, Γ, st, hst => by
    unfold expandAll
    rw [List.scanl_cons, List.scanl_cons, g.next_expand hst,
      scanl_next_expandAll gs (levels_next hst)]

/-- **Shortcuts change nothing.** A program and the same program spelt out in sums, products and
constants have the same registers before the first gate and after every gate, and they fail at the
same gate in the same way. A well-typed program does not fail. -/
theorem states_expandAll (gs : List Gate) (regs : Array (Cell Element)) :
    RingGate.states regs (expandAll (regs.map Cell.level) gs) = states .elements regs gs ∧
    (WellTypedFrom (regs.map Cell.level) gs →
      ∀ st ∈ RingGate.states regs (expandAll (regs.map Cell.level) gs),
        ∃ regs', st = .ok regs') := by
  have hstates : RingGate.states regs (expandAll (regs.map Cell.level) gs) =
      states .elements regs gs := by
    refine scanl_next_expandAll gs fun regs' h => ?_
    cases h
    rfl
  refine ⟨hstates, fun h => ?_⟩
  rw [hstates]
  exact h.states_ok .elements

/-- Every shortcut once, on the way up to the field of 256 and back down. -/
theorem states_expandAll_of_all_shortcuts :
    let gs : List Gate := [.unary .square 0, .unary .scaleN 1, .unary .scaleNSquared 0,
      .ofHalves 2 3, .unary .scaledSquare 4, .unary .inv 5, .ofHalves 6 5, .unary .inv 7, .halves 8]
    let regs : Array (Cell Element) := #[⟨.gf4, Element.n⟩]
    WellTypedFrom #[.gf4] gs ∧
    RingGate.states regs (expandAll #[.gf4] gs) = states .elements regs gs ∧
    ∀ st ∈ RingGate.states regs (expandAll #[.gf4] gs), ∃ regs', st = .ok regs' := by
  intro gs regs
  have h : WellTypedFrom #[.gf4] gs :=
    .cons (.unary rfl trivial) (.cons (.unary rfl rfl) (.cons (.unary rfl rfl)
      (.cons (.ofHalves .gf16 rfl rfl) (.cons (.unary rfl rfl) (.cons (.unary rfl trivial)
        (.cons (.ofHalves .gf256 rfl rfl) (.cons (.unary rfl trivial) (.cons (.halves .gf256 rfl)
          .nil))))))))
  have hlevels : regs.map Cell.level = #[.gf4] := by simp [regs]
  obtain ⟨hstates, hok⟩ := states_expandAll gs regs
  rw [hlevels] at hstates hok
  exact ⟨h, hstates, hok h⟩

end Gate

end Values

end NormalTower
