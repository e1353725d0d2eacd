import NormalTower.Proofs.Packed.Width
import NormalTower.Proofs.Program.Failures

/-!
# Elements stay in range

The type of an element holds the proof that its byte has no bit above the width. A program on bare
bytes has no such type to rely on: no operation checks or masks its result, and a single one that
left a stray bit would spoil every comparison and every text that comes after it.

It never happens. The byte of a result is the result on the bytes (`hom_val`), so a program on bytes
passes through the bytes of the registers that the same program has on elements, and these are in
range (`inRange_of_mem_states`).

* `states_bytes_inRange`: every register is in range at every time, and a step that fails changes no
  register.
-/

namespace NormalTower.ElementProgram

/-- The bytes of elements have the arithmetic of the elements. -/
theorem hom_val : Arithmetic.Hom .elements .bytes fun _ => Element.val where
  ofElement _ := rfl
  toElement x := Element.ext (Packed.and_mask_of_lt x.val_lt)
  add _ _ := rfl
  sub _ _ := rfl
  mul _ _ := rfl
  square _ := rfl
  inv _ := rfl
  scaleN _ := rfl
  scaleNSquared _ := rfl
  scaledSquare _ := rfl
  halves _ _ := rfl
  ofHalves _ _ := rfl

/-- The registers of a program on bytes are in range at every time, because they are the bytes of
the registers of the program on elements. -/
theorem inRange_of_mem_states {steps : List Step} {regs : Array (Cell fun _ => UInt8)}
    (h : regs ∈ states .bytes #[] steps) {c : Cell fun _ => UInt8} (hc : c ∈ regs) :
    c.val.toNat < c.level.size := by
  have hstates := states_map hom_val steps #[]
  rw [Array.map_empty] at hstates
  rw [hstates] at h
  obtain ⟨regs', -, rfl⟩ := List.mem_map.mp h
  obtain ⟨x, -, rfl⟩ := Array.mem_map.mp hc
  exact x.val.val_lt

/-- **Elements never leave their field.** On bare bytes a program gives the answers and the
registers that it gives on elements. At every time of a run that starts without registers, every
register is in the range of its level. A step fails there if and only if it is not well typed, its
element does not exist, or it inverts zero; and then it leaves all registers as they were. -/
theorem states_bytes_inRange (steps : List Step) :
    runAll .bytes steps #[] =
      ((runAll .elements steps #[]).1.map (Except.map (Answer.map fun _ => Element.val)),
        (runAll .elements steps #[]).2.map (Cell.map fun _ => Element.val)) ∧
    ∀ regs ∈ states .bytes #[] steps,
      (∀ c ∈ regs, c.val.toNat < c.level.size) ∧
      ∀ s : Step,
        ((∃ e, (s.exec .bytes regs).1 = .error e) ↔
          ¬ s.WellTyped regs ∨ s.Rejected .bytes regs) ∧
        ((∃ e, (s.exec .bytes regs).1 = .error e) → (s.exec .bytes regs).2 = regs) := by
  have hrun := runAll_map hom_val steps #[]
  rw [Array.map_empty] at hrun
  refine ⟨hrun, fun regs h => ⟨fun c hc => inRange_of_mem_states h hc, fun s => ⟨?_, ?_⟩⟩⟩
  · exact s.exec_error_iff
  · rintro ⟨e, he⟩
    exact exec_error he

/-- A byte that is too wide for the field of 16. -/
theorem too_wide_nibble_changes_nothing :
    #[⟨.gf16, 0xf⟩] ∈ states .bytes #[] [.make .gf16 (.masked 0xff)] ∧
    (∃ e, (Step.exec .bytes #[⟨.gf16, 0xf⟩] (.make .gf16 (.checked 0x10))).1 = .error e) ∧
    (Step.exec .bytes #[⟨.gf16, 0xf⟩] (.make .gf16 (.checked 0x10))).2 = #[⟨.gf16, 0xf⟩] := by
  have hmem : #[⟨.gf16, 0xf⟩] ∈ states .bytes #[] [.make .gf16 (.masked 0xff)] :=
    List.mem_of_getElem? (i := 1) rfl
  obtain ⟨herror, hkeep⟩ := ((states_bytes_inRange [.make .gf16 (.masked 0xff)]).2 _ hmem).2
    (.make .gf16 (.checked 0x10))
  have hfails := herror.mpr (Or.inr (by decide : (16 : Nat) ≤ (0x10 : UInt8).toNat))
  exact ⟨hmem, hfails, hkeep hfails⟩

end NormalTower.ElementProgram
