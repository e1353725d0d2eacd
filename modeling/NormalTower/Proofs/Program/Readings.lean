import Mathlib
import NormalTower.Program.Elements

/-!
# Programs under a change of representation

A program runs on any representation of the elements that has the arithmetic. A map between two
representations that goes through the arithmetic (`Arithmetic.Hom`) goes through every program: a
step on the images of the registers gives the image of its answer and leaves the images of its
registers, and it fails on the one side as it fails on the other.

* `Gate.results_map`, `Step.exec_map`: one gate, and one step of a program over elements.
* `states_map`, `runAll_map`: all registers along a run, and all its answers.
-/

namespace NormalTower

variable {E F : Level → Type} {A : Arithmetic E} {B : Arithmetic F} {f : (l : Level) → E l → F l}

/-- `f` takes the arithmetic of `E` to that of `F`. Updates in place need no mention, because they
write what the operators give. -/
structure Arithmetic.Hom (A : Arithmetic E) (B : Arithmetic F) (f : (l : Level) → E l → F l) :
    Prop where
  ofElement : ∀ {l : Level} (x : Element l), B.ofElement x = f l (A.ofElement x)
  toElement : ∀ {l : Level} (x : E l), B.toElement (f l x) = A.toElement x
  add : ∀ {l : Level} (x y : E l), B.add (f l x) (f l y) = f l (A.add x y)
  sub : ∀ {l : Level} (x y : E l), B.sub (f l x) (f l y) = f l (A.sub x y)
  mul : ∀ {l : Level} (x y : E l), B.mul (f l x) (f l y) = f l (A.mul x y)
  square : ∀ {l : Level} (x : E l), B.square (f l x) = f l (A.square x)
  inv : ∀ {l : Level} (x : E l), B.inv (f l x) = f l (A.inv x)
  scaleN : ∀ x : E .gf4, B.scaleN (f _ x) = f _ (A.scaleN x)
  scaleNSquared : ∀ x : E .gf4, B.scaleNSquared (f _ x) = f _ (A.scaleNSquared x)
  scaledSquare : ∀ x : E .gf16, B.scaledSquare (f _ x) = f _ (A.scaledSquare x)
  halves : ∀ {base top : Level} (e : Extension base top) (x : E top),
    B.halves e (f top x) = ⟨f base (A.halves e x).hi, f base (A.halves e x).lo⟩
  ofHalves : ∀ {base top : Level} (e : Extension base top) (h : Halves (E base)),
    B.ofHalves e ⟨f base h.hi, f base h.lo⟩ = f top (A.ofHalves e h)

/-- The register in the other representation. -/
def Cell.map (f : (l : Level) → E l → F l) (c : Cell E) : Cell F := ⟨c.level, f c.level c.val⟩

/-- The operands in the other representation. -/
def Operands.map (f : (l : Level) → E l → F l) (o : Operands E) : Operands F :=
  ⟨o.level, f o.level o.fst, f o.level o.snd⟩

/-- A map that goes through the second of two computations goes through both. -/
theorem map_bind_eq {ε α α' β β' : Type} {h : α → α'} {k : β → β'} {g : α → Except ε β}
    {g' : α' → Except ε β'} (hg : ∀ a, g' (h a) = (g a).map k) (m : Except ε α) :
    (m.map h >>= g') = (m >>= g).map k := by
  cases m with
  | error e => rfl
  | ok a => exact hg a

theorem mapError_map {ε ε' α β : Type} (h : α → β) (k : ε → ε') (m : Except ε α) :
    (m.map h).mapError k = (m.mapError k).map h := by
  cases m <;> rfl

theorem map_appendList {α β : Type} (h : α → β) (xs : Array α) (ys : List α) :
    (xs ++ ys).map h = xs.map h ++ ys.map h := by
  refine Array.toList_inj.mp ?_
  simp only [Array.toList_map, Array.toList_appendList, List.map_append]

/-! ## Gates -/

theorem Cell.operands?_map (f : (l : Level) → E l → F l) (x y : Cell E) :
    (x.map f).operands? (y.map f) = (x.operands? y).map (Operands.map f) := by
  obtain ⟨l, x⟩ := x
  obtain ⟨l', y⟩ := y
  cases l <;> cases l' <;> rfl

theorem fetchOperands_map (f : (l : Level) → E l → F l) (regs : Array (Cell E)) (a b : Nat) :
    fetchOperands (regs.map (Cell.map f)) a b = (fetchOperands regs a b).map (Operands.map f) := by
  unfold fetchOperands
  rw [fetch_map, fetch_map]
  refine map_bind_eq (fun x => ?_) _
  refine map_bind_eq (fun y => ?_) _
  rw [Cell.operands?_map]
  cases x.operands? y <;> rfl

section Hom

variable (hf : Arithmetic.Hom A B f)

include hf

theorem UnaryOp.apply_map (op : UnaryOp) (c : Cell E) :
    op.apply B (c.map f) = (op.apply A c).map (Cell.map f) := by
  obtain ⟨l, x⟩ := c
  cases op with
  | square => exact congrArg (fun y => Except.ok (Cell.mk l y)) (hf.square x)
  | inv => exact congrArg (fun y => Except.ok (Cell.mk l y)) (hf.inv x)
  | scaleN =>
    cases l with
    | gf4 => exact congrArg (fun y => Except.ok (Cell.mk .gf4 y)) (hf.scaleN x)
    | gf16 => rfl
    | gf256 => rfl
  | scaleNSquared =>
    cases l with
    | gf4 => exact congrArg (fun y => Except.ok (Cell.mk .gf4 y)) (hf.scaleNSquared x)
    | gf16 => rfl
    | gf256 => rfl
  | scaledSquare =>
    cases l with
    | gf4 => rfl
    | gf16 => exact congrArg (fun y => Except.ok (Cell.mk .gf16 y)) (hf.scaledSquare x)
    | gf256 => rfl

theorem BinaryOp.apply_map (op : BinaryOp) (o : Operands E) :
    op.apply B (o.map f) = (op.apply A o).map f := by
  cases op with
  | add => exact congrArg (Cell.mk o.level) (hf.add o.fst o.snd)
  | sub => exact congrArg (Cell.mk o.level) (hf.sub o.fst o.snd)
  | mul => exact congrArg (Cell.mk o.level) (hf.mul o.fst o.snd)

omit hf in
theorem Operands.select_map (o : Operands E) (choice : Bool) :
    (o.map f).select choice = (o.select choice).map f := by
  cases choice <;> rfl

theorem Cell.halves_map (c : Cell E) :
    (c.map f).halves B = (c.halves A).map fun h => ⟨h.hi.map f, h.lo.map f⟩ := by
  obtain ⟨l, x⟩ := c
  cases l with
  | gf4 => rfl
  | gf16 =>
    show Except.ok (Halves.mk _ _) = _
    simp only [Cell.map, hf.halves]
    rfl
  | gf256 =>
    show Except.ok (Halves.mk _ _) = _
    simp only [Cell.map, hf.halves]
    rfl

theorem Operands.join_map (o : Operands E) : (o.map f).join B = (o.join A).map (Cell.map f) := by
  obtain ⟨l, hi, lo⟩ := o
  cases l with
  | gf4 => exact congrArg (fun y => Except.ok (Cell.mk .gf16 y)) (hf.ofHalves .gf16 ⟨hi, lo⟩)
  | gf16 => exact congrArg (fun y => Except.ok (Cell.mk .gf256 y)) (hf.ofHalves .gf256 ⟨hi, lo⟩)
  | gf256 => rfl

theorem Gate.results_map (g : Gate) (regs : Array (Cell E)) :
    g.results B (regs.map (Cell.map f)) = (g.results A regs).map (List.map (Cell.map f)) := by
  cases g with
  | unary op a =>
    simp only [Gate.results, fetch_map]
    refine map_bind_eq (fun c => ?_) _
    rw [op.apply_map hf]
    refine map_bind_eq (fun _ => ?_) _
    rfl
  | binary op a b =>
    simp only [Gate.results, fetchOperands_map]
    refine map_bind_eq (fun o => ?_) _
    rw [op.apply_map hf]
    rfl
  | select choice a b =>
    simp only [Gate.results, fetchOperands_map]
    refine map_bind_eq (fun o => ?_) _
    rw [o.select_map]
    rfl
  | halves a =>
    simp only [Gate.results, fetch_map]
    refine map_bind_eq (fun c => ?_) _
    rw [Cell.halves_map hf]
    refine map_bind_eq (fun _ => ?_) _
    rfl
  | ofHalves hi lo =>
    simp only [Gate.results, fetchOperands_map]
    refine map_bind_eq (fun o => ?_) _
    rw [Operands.join_map hf]
    refine map_bind_eq (fun _ => ?_) _
    rfl

end Hom

/-! ## Programs over elements -/

namespace ElementProgram

/-- The registers before the first step and after every step. -/
def states (A : Arithmetic E) (regs : Array (Cell E)) (steps : List Step) :
    List (Array (Cell E)) :=
  steps.scanl (fun regs s => (s.exec A regs).2) regs

/-- The answer in the other representation. -/
def Answer.map (f : (l : Level) → E l → F l) : Answer E → Answer F
  | .appended cells => .appended (cells.map (Cell.map f))
  | .changed cell => .changed (cell.map f)
  | .exchanged a b => .exchanged (a.map f) (b.map f)
  | .bit value => .bit value
  | .truth value => .truth value
  | .byte value => .byte value
  | .text value => .text value
  | .bytes value => .bytes value

variable (hf : Arithmetic.Hom A B f)

include hf

theorem Origin.build_map {l : Level} (o : Origin l) :
    o.build B = (o.build A).map (f l) := by
  have hmap : ∀ {ε : Type} (m : Except ε (Element l)) (k : ε → Failure),
      (B.ofElement <$> m).mapError k = ((A.ofElement <$> m).mapError k).map (f l) := by
    intro ε m k
    cases m with
    | error e => rfl
    | ok x => exact congrArg Except.ok (hf.ofElement x)
  cases o with
  | checked v => exact hmap _ _
  | masked v => exact congrArg Except.ok (hf.ofElement _)
  | zero => exact congrArg Except.ok (hf.ofElement _)
  | one => exact congrArg Except.ok (hf.ofElement _)
  | n => exact congrArg Except.ok (hf.ofElement _)
  | nu => exact congrArg Except.ok (hf.ofElement _)
  | json text => exact hmap _ _
  | bytes bs => exact hmap _ _

theorem Query.answer_map (q : Query) (c : Cell E) :
    q.answer B (c.map f) = (q.answer A c).map f := by
  have h : B.toElement (c.map f).val = A.toElement c.val := hf.toElement c.val
  cases q with
  | isZero => exact congrArg (fun x : Element _ => Answer.bit (x = 0)) h
  | byte => exact congrArg (fun x : Element _ => Answer.byte x.val) h
  | json => exact congrArg (fun x : Element _ => Answer.text x.toJson) h
  | bytes => exact congrArg (fun x : Element _ => Answer.bytes x.toBytes) h
  | text d width => exact congrArg (fun x : Element _ => Answer.text (x.format width d)) h

theorem Comparison.answer_map (cmp : Comparison) (o : Operands E) :
    cmp.answer B (o.map f) = (cmp.answer A o).map f := by
  obtain ⟨l, x, y⟩ := o
  cases cmp <;> simp only [Comparison.answer, Operands.map, hf.toElement] <;> rfl

theorem Step.run_map (s : Step) (regs : Array (Cell E)) :
    s.run B (regs.map (Cell.map f)) =
      (s.run A regs).map (Prod.map (Answer.map f) (Array.map (Cell.map f))) := by
  cases s with
  | make l origin =>
    simp only [Step.run, origin.build_map hf]
    refine map_bind_eq (fun x => ?_) _
    show _ = Except.ok (_, (regs.push ⟨l, x⟩).map (Cell.map f))
    rw [Array.map_push]
    rfl
  | gate g =>
    simp only [Step.run, g.results_map hf, mapError_map]
    refine map_bind_eq (fun cs => ?_) _
    exact congrArg Except.ok (Prod.ext rfl (map_appendList _ regs cs).symm)
  | invert a =>
    simp only [Step.run, fetch_map, mapError_map]
    refine map_bind_eq (fun c => ?_) _
    have hzero : B.toElement (c.map f).val = 0 ↔ A.toElement c.val = 0 :=
      iff_of_eq (congrArg (· = 0) (hf.toElement c.val))
    have hinv : Cell.mk (c.map f).level (B.inv (c.map f).val) = Cell.map f ⟨c.level, A.inv c.val⟩ :=
      congrArg (Cell.mk c.level) (hf.inv c.val)
    by_cases h : A.toElement c.val = 0
    · rw [if_pos h, if_pos (hzero.mpr h)]
      rfl
    · rw [if_neg h, if_neg fun e => h (hzero.mp e), hinv]
      exact congrArg Except.ok (Prod.ext rfl Array.map_push.symm)
  | assign op a b =>
    simp only [Step.run, fetchOperands_map, mapError_map]
    refine map_bind_eq (fun o => ?_) _
    rw [op.assign_eq_apply, op.assign_eq_apply, op.apply_map hf]
    exact congrArg Except.ok (Prod.ext rfl Array.map_setIfInBounds.symm)
  | conditionalAssign choice a b =>
    simp only [Step.run, fetchOperands_map, mapError_map]
    refine map_bind_eq (fun o => ?_) _
    rw [o.select_map]
    exact congrArg Except.ok (Prod.ext rfl Array.map_setIfInBounds.symm)
  | conditionalSwap choice a b =>
    simp only [Step.run, fetchOperands_map, mapError_map]
    refine map_bind_eq (fun o => ?_) _
    rw [o.select_map, o.select_map, ← Array.map_setIfInBounds, ← Array.map_setIfInBounds]
    rfl
  | ask query a =>
    simp only [Step.run, fetch_map, mapError_map]
    refine map_bind_eq (fun c => ?_) _
    rw [query.answer_map hf]
    rfl
  | compare comparison a b =>
    simp only [Step.run, fetchOperands_map, mapError_map]
    refine map_bind_eq (fun o => ?_) _
    rw [comparison.answer_map hf]
    rfl
  | unknown => rfl

theorem Step.exec_map (s : Step) (regs : Array (Cell E)) :
    s.exec B (regs.map (Cell.map f)) =
      ((s.exec A regs).1.map (Answer.map f), (s.exec A regs).2.map (Cell.map f)) := by
  unfold Step.exec
  rw [s.run_map hf]
  cases s.run A regs <;> rfl

theorem states_map : ∀ (steps : List Step) (regs : Array (Cell E)),
    states B (regs.map (Cell.map f)) steps =
      (states A regs steps).map (Array.map (Cell.map f))
  | [], _ => rfl
  | s :: steps, regs => by
    have ih := states_map steps (s.exec A regs).2
    unfold states at ih ⊢
    rw [List.scanl_cons, List.scanl_cons, List.map_cons, ← ih, s.exec_map hf]

/-- **A program gives the same answers and registers before and after the change.** -/
theorem runAll_map : ∀ (steps : List Step) (regs : Array (Cell E)),
    runAll B steps (regs.map (Cell.map f)) =
      ((runAll A steps regs).1.map (Except.map (Answer.map f)),
        (runAll A steps regs).2.map (Cell.map f))
  | [], _ => rfl
  | s :: steps, regs => by
    unfold runAll
    rw [s.exec_map hf]
    simp only [runAll_map steps, List.map_cons]

end ElementProgram

end NormalTower
