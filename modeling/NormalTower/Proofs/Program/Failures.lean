import NormalTower.Proofs.Program.Readings
import NormalTower.Proofs.Program.Typing

/-!
# When a step fails

A step fails for one of two reasons. Its registers may be missing or of levels that the operation is
not for, which can be told from the levels of the registers alone (`Step.WellTyped`). Or the result
does not exist: a byte is too wide for a new element, a text or a byte string stands for no element,
or the element to invert is zero (`Step.Rejected`). There is no other reason, in any representation
of the elements:

* `Origin.exists_build_iff`: when there is a new element.
* `Step.exec_error_iff`: a step fails if and only if it is not well typed or has no result.
-/

namespace NormalTower.ElementProgram

variable {E : Level → Type} {A : Arithmetic E} {regs : Array (Cell E)}

/-- The registers of a step exist and are of levels it is for. -/
def Step.WellTyped (regs : Array (Cell E)) : Step → Prop
  | .make _ _ => True
  | .gate g => g.WellTyped regs
  | .invert a => HasLevel regs (fun _ => True) a
  | .assign _ a b => HaveLevel regs (fun _ => True) a b
  | .conditionalAssign _ a b => HaveLevel regs (fun _ => True) a b
  | .conditionalSwap _ a b => HaveLevel regs (fun _ => True) a b
  | .ask _ a => HasLevel regs (fun _ => True) a
  | .compare _ a b => HaveLevel regs (fun _ => True) a b
  | .unknown => False

/-- There is no such element: the byte is too wide, or the text or the bytes stand for none. -/
def Origin.Rejected {l : Level} : Origin l → Prop
  | .checked v => l.size ≤ v.toNat
  | .json text => ∃ e, Element.ofJson l text = .error e
  | .bytes bs => ∀ b ∈ bs.head?, l.size ≤ b.toNat
  | _ => False

/-- The step finds its registers, but there is no result. -/
def Step.Rejected (A : Arithmetic E) (regs : Array (Cell E)) : Step → Prop
  | .make _ origin => origin.Rejected
  | .invert a => ∃ c, regs[a]? = some c ∧ A.toElement c.val = 0
  | _ => False

theorem exists_ofByte_iff {l : Level} {v : UInt8} :
    (∃ x, Element.ofByte l v = .ok x) ↔ ¬ l.size ≤ v.toNat := by
  unfold Element.ofByte
  by_cases h : v.toNat < l.size
  · rw [dif_pos h]
    exact iff_of_true ⟨_, rfl⟩ (Nat.not_le.mpr h)
  · rw [dif_neg h]
    exact iff_of_false (by rintro ⟨x, hx⟩; cases hx) fun hn => h (Nat.not_le.mp hn)

theorem Origin.exists_build_iff {l : Level} (o : Origin l) :
    (∃ x, o.build A = .ok x) ↔ ¬ o.Rejected := by
  cases o with
  | checked v => exact exists_map_iff.trans exists_ofByte_iff
  | json text =>
    refine exists_map_iff.trans ?_
    show _ ↔ ¬∃ e, Element.ofJson l text = .error e
    cases Element.ofJson l text <;> simp
  | bytes bs =>
    refine exists_map_iff.trans ?_
    unfold Rejected
    cases bs with
    | nil => simp [Element.ofBytes]
    | cons b bs =>
      simp only [Element.ofBytes, mapError_eq_ok_iff, exists_ofByte_iff, List.head?_cons,
        Option.mem_def, Option.some.injEq, forall_eq']
  | masked v => exact iff_of_true ⟨_, rfl⟩ id
  | zero => exact iff_of_true ⟨_, rfl⟩ id
  | one => exact iff_of_true ⟨_, rfl⟩ id
  | n => exact iff_of_true ⟨_, rfl⟩ id
  | nu => exact iff_of_true ⟨_, rfl⟩ id

theorem Step.exists_run_iff (s : Step) :
    (∃ r, s.run A regs = .ok r) ↔ s.WellTyped regs ∧ ¬ s.Rejected A regs := by
  -- a step on two registers of any one level that is never rejected
  have htwo : ∀ a b, (∃ o, fetchOperands regs a b = .ok o ∧ True) ↔
      HaveLevel regs (fun _ => True) a b ∧ ¬ False :=
    fun a b => (exists_fetchOperands_iff (p := fun _ => True)).trans (and_iff_left id).symm
  cases s with
  | make l o =>
    simp only [Step.run, exists_bind_iff, exists_pure_iff, and_true, o.exists_build_iff]
    exact (and_iff_right trivial).symm
  | gate g =>
    simp only [Step.run, exists_bind_iff, exists_pure_iff, and_true, mapError_eq_ok_iff,
      g.exists_results_iff]
    exact (and_iff_left id).symm
  | invert a =>
    simp only [Step.run, exists_bind_iff, mapError_eq_ok_iff, fetch_eq_ok_iff]
    constructor
    · rintro ⟨c, hc, r, hr⟩
      refine ⟨⟨c, hc, trivial⟩, ?_⟩
      rintro ⟨c', hc', h0⟩
      cases hc.symm.trans hc'
      rw [if_pos h0] at hr
      cases hr
    · rintro ⟨⟨c, hc, -⟩, hne⟩
      refine ⟨c, hc, ?_⟩
      rw [if_neg fun h0 => hne ⟨c, hc, h0⟩]
      exact ⟨_, rfl⟩
  | assign op a b =>
    simp only [Step.run, exists_bind_iff, exists_pure_iff, mapError_eq_ok_iff]
    exact htwo a b
  | conditionalAssign choice a b =>
    simp only [Step.run, exists_bind_iff, exists_pure_iff, mapError_eq_ok_iff]
    exact htwo a b
  | conditionalSwap choice a b =>
    simp only [Step.run, exists_bind_iff, exists_pure_iff, mapError_eq_ok_iff]
    exact htwo a b
  | ask query a =>
    simp only [Step.run, exists_bind_iff, exists_pure_iff, mapError_eq_ok_iff, fetch_eq_ok_iff]
    exact (and_iff_left id).symm
  | compare comparison a b =>
    simp only [Step.run, exists_bind_iff, exists_pure_iff, mapError_eq_ok_iff]
    exact htwo a b
  | unknown =>
    refine iff_of_false ?_ fun h => h.1
    rintro ⟨r, hr⟩
    cases hr

/-- **A step fails if and only if it is not well typed or there is no result.** -/
theorem Step.exec_error_iff (s : Step) :
    (∃ e, (s.exec A regs).1 = .error e) ↔ ¬ s.WellTyped regs ∨ s.Rejected A regs := by
  have hrun : (∃ e, (s.exec A regs).1 = .error e) ↔ ¬ ∃ r, s.run A regs = .ok r := by
    unfold Step.exec
    cases s.run A regs <;> simp
  rw [hrun, s.exists_run_iff, not_and_or, not_not]

end NormalTower.ElementProgram
