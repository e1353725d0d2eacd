import NormalTower.Proofs.Packed.Linear
import NormalTower.Proofs.Packed.Stray
import NormalTower.Proofs.Program.Readings
import NormalTower.Proofs.Program.Typing

/-!
# Straight-line programs on bare bytes

A straight-line program can be run on elements, or on bytes that nobody has masked. On bytes every
operation but the sum drops the stray bits of its operands, and a sum carries them on, so along a
run a register may hold anything above its width. It does not matter: masking commutes with every
operation (`hom_ofMasked`), so the register of the run on elements is the byte masked to its width,
after every gate.

Whether a gate can be carried out is a matter of levels alone, so a program that is well typed from
its first to its last gate never fails, on any representation (`Gate.WellTypedFrom.states_ok`).

* `Gate.states`: the registers after every gate; `Gate.getLast?_states`: the last ones are those
  that `Gate.runAll` gives.
* `Gate.states_map`: they go through every map that goes through the arithmetic.
* `Gate.states_inStep`: the run on elements and the run on bare bytes, gate by gate.
-/

namespace NormalTower

variable {E F : Level → Type} {A : Arithmetic E} {B : Arithmetic F} {regs : Array (Cell E)}

namespace Gate

/-! ## The registers along a run -/

/-- The registers after a gate. -/
def step (A : Arithmetic E) (regs : Array (Cell E)) (g : Gate) :
    Except GateError (Array (Cell E)) := do
  let cs ← g.results A regs
  return regs ++ cs

/-- The registers after a gate, if no gate before it failed. -/
def next (A : Arithmetic E) (st : Except GateError (Array (Cell E))) (g : Gate) :
    Except GateError (Array (Cell E)) :=
  st >>= fun regs => g.step A regs

/-- The registers before the first gate and after every gate; behind a gate that fails there is only
its error. -/
def states (A : Arithmetic E) (regs : Array (Cell E)) (gs : List Gate) :
    List (Except GateError (Array (Cell E))) :=
  gs.scanl (next A) (.ok regs)

theorem foldl_next (gs : List Gate) (st : Except GateError (Array (Cell E))) :
    gs.foldl (next A) st = st >>= fun regs => runAll A gs regs := by
  induction gs generalizing st with
  | nil => cases st <;> rfl
  | cons g gs ih =>
    rw [List.foldl_cons, ih]
    cases st with
    | error e => rfl
    | ok regs =>
      show (g.results A regs >>= fun cs => pure (regs ++ cs)) >>= runAll A gs =
        g.results A regs >>= fun cs => runAll A gs (regs ++ cs)
      cases g.results A regs <;> rfl

theorem getLast?_states (gs : List Gate) (regs : Array (Cell E)) :
    (states A regs gs).getLast? = some (runAll A gs regs) := by
  unfold states
  rw [List.getLast?_scanl, foldl_next]
  rfl

/-! ## A change of representation -/

section Hom

variable {f : (l : Level) → E l → F l} (hf : Arithmetic.Hom A B f)

include hf

theorem next_map (st : Except GateError (Array (Cell E))) (g : Gate) :
    next B (st.map (Array.map (Cell.map f))) g = (next A st g).map (Array.map (Cell.map f)) := by
  refine map_bind_eq (fun regs => ?_) st
  unfold step
  rw [g.results_map hf]
  refine map_bind_eq (fun cs => ?_) _
  exact congrArg Except.ok (map_appendList _ regs cs).symm

theorem states_map (gs : List Gate) (regs : Array (Cell E)) :
    states B (regs.map (Cell.map f)) gs =
      (states A regs gs).map (Except.map (Array.map (Cell.map f))) := by
  have hscan : ∀ st : Except GateError (Array (Cell E)),
      gs.scanl (next B) (st.map (Array.map (Cell.map f))) =
        (gs.scanl (next A) st).map (Except.map (Array.map (Cell.map f))) := by
    induction gs with
    | nil => exact fun _ => rfl
    | cons g gs ih =>
      intro st
      rw [List.scanl_cons, List.scanl_cons, List.map_cons, ← ih, next_map hf]
  exact hscan (.ok regs)

end Hom

end Gate

/-! ## Well-typed programs do not fail -/

namespace Gate

/-- **A well-typed program never fails**, whatever its registers hold. -/
theorem WellTypedFrom.states_ok {gs : List Gate} (h : WellTypedFrom (regs.map Cell.level) gs)
    (A : Arithmetic E) : ∀ st ∈ states A regs gs, ∃ regs', st = .ok regs' := by
  generalize hΓ : regs.map Cell.level = Γ at h
  induction h generalizing regs with
  | nil =>
    intro st hst
    cases List.mem_singleton.mp hst
    exact ⟨regs, rfl⟩
  | @cons Γ g gs ls hg _ ih =>
    subst hΓ
    obtain ⟨cs, hcs, rfl⟩ := hg.results_ok A
    have hnext : next A (.ok regs) g = .ok (regs ++ cs) := by
      show g.step A regs = _
      unfold step
      rw [hcs]
      rfl
    intro st hst
    unfold states at hst
    rw [List.scanl_cons, hnext, List.mem_cons] at hst
    rcases hst with rfl | hst
    · exact ⟨regs, rfl⟩
    · exact ih (map_appendList Cell.level regs cs) st hst

end Gate

/-! ## Bytes and elements -/

theorem Extension.halfMask_eq {base top : Level} (e : Extension base top) :
    top.halfMask = base.mask := by
  cases e <;> rfl

/-- Masking the byte of an element gives the element back. -/
theorem Element.eq_ofMasked {l : Level} {x : Element l} {v : UInt8} (h : x.val = v) :
    x = Element.ofMasked l v := by
  apply Element.ext
  rw [Element.val_ofMasked, ← h, Packed.and_mask_of_lt x.val_lt]

/-- Masking goes through the arithmetic of bare bytes. Only a sum may have stray bits to mask; the
other results are elements already. -/
theorem hom_ofMasked : Arithmetic.Hom .bytes .elements Element.ofMasked where
  ofElement _ := Element.eq_ofMasked rfl
  toElement _ := rfl
  add x y := Element.ext (and_xor_left x y _).symm
  sub x y := Element.ext (and_xor_left x y _).symm
  mul {l} x y := Element.eq_ofMasked (Packed.mul_and_mask l x y)
  square {l} x := Element.eq_ofMasked (Packed.square_and_mask l x)
  inv {l} x := Element.eq_ofMasked (Packed.inv_and_mask l x)
  scaleN x := Element.eq_ofMasked (Packed.scaleN_and_mask x)
  scaleNSquared x := Element.eq_ofMasked (Packed.scaleNSquared_and_mask x)
  scaledSquare x := Element.eq_ofMasked (Packed.scaledSquare16_and_mask x)
  halves {_ top} e x := by
    have hsplit := Packed.split_and_mask top x
    exact congrArg₂ Halves.mk (Element.eq_ofMasked (congrArg Halves.hi hsplit))
      (Element.eq_ofMasked (congrArg Halves.lo hsplit))
  ofHalves {base top} e h := by
    apply Element.eq_ofMasked
    show Packed.join top (h.hi &&& base.mask) (h.lo &&& base.mask) = Packed.join top h.hi h.lo
    rw [← e.halfMask_eq, Packed.join_and_halfMask]

namespace Gate

/-- The element of a register is the byte of the other, masked to the width of its level. -/
def Masks (c : Cell Element) (b : Cell fun _ => UInt8) : Prop :=
  c.level = b.level ∧ c.val.val = b.val &&& b.level.mask

/-- Two runs at the same gate: both have failed in the same way, or their registers correspond one
by one. -/
inductive InStep : Except GateError (Array (Cell Element)) →
    Except GateError (Array (Cell fun _ => UInt8)) → Prop where
  | failed (e : GateError) : InStep (.error e) (.error e)
  | ran {typed : Array (Cell Element)} {raw : Array (Cell fun _ => UInt8)}
    (h : List.Forall₂ Masks typed.toList raw.toList) : InStep (.ok typed) (.ok raw)

theorem inStep_map (st : Except GateError (Array (Cell fun _ => UInt8))) :
    InStep (st.map (Array.map (Cell.map Element.ofMasked))) st := by
  cases st with
  | error e => exact .failed e
  | ok raw =>
    refine .ran ?_
    rw [Array.toList_map, List.forall₂_map_left_iff, List.forall₂_same]
    exact fun b _ => ⟨rfl, rfl⟩

/-- **Bare bytes simulate elements.** Run a straight-line program on bare bytes, and on the elements
in their low bits: before the first gate and after every gate each element is the byte in the same
register, masked to its width, whatever stray bits there are; and where the one run fails, the other
fails in the same way. A well-typed program never fails. -/
theorem states_inStep (gs : List Gate) (inputs : Array (Cell fun _ => UInt8)) :
    List.Forall₂ InStep (states .elements (inputs.map (Cell.map Element.ofMasked)) gs)
      (states .bytes inputs gs) ∧
    (states .elements (inputs.map (Cell.map Element.ofMasked)) gs).getLast? =
      some (runAll .elements gs (inputs.map (Cell.map Element.ofMasked))) ∧
    (states .bytes inputs gs).getLast? = some (runAll .bytes gs inputs) ∧
    (WellTypedFrom (inputs.map Cell.level) gs →
      ∀ st ∈ states .bytes inputs gs, ∃ raw, st = .ok raw) := by
  refine ⟨?_, getLast?_states gs _, getLast?_states gs _, fun h => h.states_ok _⟩
  rw [states_map hom_ofMasked, List.forall₂_map_left_iff, List.forall₂_same]
  exact fun st _ => inStep_map st

/-- A sum that keeps stray bits, then climbs to the field of 256, is inverted and taken apart. -/
theorem states_inStep_of_dirty_sum :
    WellTypedFrom #[.gf4, .gf4] [.binary .add 0 1, .ofHalves 2 0, .unary .scaledSquare 3,
      .ofHalves 4 3, .unary .inv 5, .halves 6] ∧
    (∃ raw, runAll .bytes [.binary .add 0 1] #[⟨.gf4, 0xfe⟩, ⟨.gf4, 0x75⟩] = .ok raw ∧
      raw[2]? = some ⟨.gf4, 0x8b⟩) ∧
    ∀ st ∈ states .bytes #[⟨.gf4, 0xfe⟩, ⟨.gf4, 0x75⟩] [.binary .add 0 1, .ofHalves 2 0,
      .unary .scaledSquare 3, .ofHalves 4 3, .unary .inv 5, .halves 6], ∃ raw, st = .ok raw := by
  have h : WellTypedFrom #[.gf4, .gf4] [.binary .add 0 1, .ofHalves 2 0, .unary .scaledSquare 3,
      .ofHalves 4 3, .unary .inv 5, .halves 6] :=
    .cons (.binary rfl rfl) (.cons (.ofHalves .gf16 rfl rfl) (.cons (.unary rfl rfl)
      (.cons (.ofHalves .gf256 rfl rfl) (.cons (.unary rfl trivial) (.cons (.halves .gf256 rfl)
        .nil)))))
  exact ⟨h, ⟨_, rfl, rfl⟩,
    (states_inStep _ #[⟨.gf4, 0xfe⟩, ⟨.gf4, 0x75⟩]).2.2.2 (by simpa using h)⟩

end Gate

end NormalTower
