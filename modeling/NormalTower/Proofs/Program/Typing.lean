import NormalTower.Proofs.Computation
import NormalTower.Program.Gate

/-!
# Which gates have results

Whether a gate has results, and of which levels they are, can be told from the levels of the
registers alone. `Gate.WellTyped` says that the registers of a gate exist and are of levels it is
for, `Gate.levels` computes the levels of its results, and `Gate.HasType` has a rule for every gate.
The rules say no more and no less than the other two (`Gate.hasType_iff`), and since they do not
mention registers they can be chained along a program (`Gate.WellTypedFrom`).

* `Gate.exists_results_iff`: a gate has results if and only if it is well typed.
* `Gate.hasType_of_results`: the results are of the levels that the rules give.
* `Gate.HasType.results_ok`, `Gate.levels_eq_of_results`: the same for each of the descriptions.
-/

namespace NormalTower

/-! ## Levels of registers -/

section Levels

variable {E : Level → Type} {A : Arithmetic E} {regs : Array (Cell E)} {a b : Nat}

/-- Register `a` exists and its level is one of those in `p`. -/
def HasLevel (regs : Array (Cell E)) (p : Level → Prop) (a : Nat) : Prop :=
  ∃ c, regs[a]? = some c ∧ p c.level

/-- Registers `a` and `b` exist and are of one level, which is one of those in `p`. -/
def HaveLevel (regs : Array (Cell E)) (p : Level → Prop) (a b : Nat) : Prop :=
  ∃ c d, regs[a]? = some c ∧ regs[b]? = some d ∧ c.level = d.level ∧ p c.level

theorem hasLevel_iff {p : Level → Prop} : HasLevel regs p a ↔
    ∃ l, (regs.map Cell.level)[a]? = some l ∧ p l := by
  simp only [HasLevel, Array.getElem?_map, Option.map_eq_some_iff]
  constructor
  · rintro ⟨c, hc, hp⟩
    exact ⟨c.level, ⟨c, hc, rfl⟩, hp⟩
  · rintro ⟨l, ⟨c, hc, rfl⟩, hp⟩
    exact ⟨c, hc, hp⟩

theorem haveLevel_iff {p : Level → Prop} : HaveLevel regs p a b ↔
    ∃ l, (regs.map Cell.level)[a]? = some l ∧ (regs.map Cell.level)[b]? = some l ∧ p l := by
  simp only [HaveLevel, Array.getElem?_map, Option.map_eq_some_iff]
  constructor
  · rintro ⟨c, d, hc, hd, hl, hp⟩
    exact ⟨c.level, ⟨c, hc, rfl⟩, ⟨d, hd, hl.symm⟩, hp⟩
  · rintro ⟨l, ⟨c, hc, rfl⟩, ⟨d, hd, hl⟩, hp⟩
    exact ⟨c, d, hc, hd, hl.symm, hp⟩

theorem level_of_fetch {ε : Type} {missing : Nat → ε} {c : Cell E}
    (h : fetch missing regs a = .ok c) : (regs.map Cell.level)[a]? = some c.level := by
  rw [Array.getElem?_map, fetch_eq_ok_iff.mp h]
  rfl

/-! ## Operands -/

theorem exists_operands?_iff {c d : Cell E} {p : Level → Prop} :
    (∃ o, c.operands? d = some o ∧ p o.level) ↔ c.level = d.level ∧ p c.level := by
  obtain ⟨l, x⟩ := c
  obtain ⟨l', y⟩ := d
  cases l <;> cases l' <;> simp [Cell.operands?]

theorem fetchOperands_eq_ok_iff {o : Operands E} : fetchOperands regs a b = .ok o ↔
    ∃ c d, regs[a]? = some c ∧ regs[b]? = some d ∧ c.operands? d = some o := by
  unfold fetchOperands
  simp only [bind_eq_ok_iff, fetch_eq_ok_iff]
  constructor
  · rintro ⟨c, hc, d, hd, h⟩
    refine ⟨c, d, hc, hd, ?_⟩
    cases ho : c.operands? d with
    | none =>
      rw [ho] at h
      cases h
    | some o' =>
      rw [ho] at h
      cases h
      rfl
  · rintro ⟨c, d, hc, hd, ho⟩
    exact ⟨c, hc, d, hd, by rw [ho]⟩

theorem Cell.operands?_mk {l : Level} (x y : E l) :
    Cell.operands? ⟨l, x⟩ ⟨l, y⟩ = some ⟨l, x, y⟩ := by
  cases l <;> rfl

theorem Cell.eq_of_operands? {c d : Cell E} {o : Operands E} (h : c.operands? d = some o) :
    c = ⟨o.level, o.fst⟩ ∧ d = ⟨o.level, o.snd⟩ := by
  obtain ⟨lc, x⟩ := c
  obtain ⟨ld, y⟩ := d
  cases lc <;> cases ld <;> cases h <;> exact ⟨rfl, rfl⟩

theorem fetch_of_fetchOperands {o : Operands E} (h : fetchOperands regs a b = .ok o) :
    fetch GateError.noRegister regs a = .ok ⟨o.level, o.fst⟩ ∧
      fetch GateError.noRegister regs b = .ok ⟨o.level, o.snd⟩ := by
  obtain ⟨c, d, hc, hd, ho⟩ := fetchOperands_eq_ok_iff.mp h
  obtain ⟨rfl, rfl⟩ := Cell.eq_of_operands? ho
  exact ⟨fetch_eq_ok_iff.mpr hc, fetch_eq_ok_iff.mpr hd⟩

theorem exists_fetchOperands_iff {p : Level → Prop} :
    (∃ o, fetchOperands regs a b = .ok o ∧ p o.level) ↔ HaveLevel regs p a b := by
  simp only [fetchOperands_eq_ok_iff, HaveLevel]
  constructor
  · rintro ⟨o, ⟨c, d, hc, hd, ho⟩, hp⟩
    obtain ⟨hl, hp⟩ := exists_operands?_iff.mp ⟨o, ho, hp⟩
    exact ⟨c, d, hc, hd, hl, hp⟩
  · rintro ⟨c, d, hc, hd, hl, hp⟩
    obtain ⟨o, ho, hp⟩ := exists_operands?_iff.mpr ⟨hl, hp⟩
    exact ⟨o, ⟨c, d, hc, hd, ho⟩, hp⟩

theorem levels_of_fetchOperands {o : Operands E} (h : fetchOperands regs a b = .ok o) :
    (regs.map Cell.level)[a]? = some o.level ∧ (regs.map Cell.level)[b]? = some o.level := by
  obtain ⟨ha, hb⟩ := fetch_of_fetchOperands h
  exact ⟨level_of_fetch ha, level_of_fetch hb⟩

end Levels

/-! ## Three descriptions of a gate -/

/-- The levels an operation on one element is for. -/
def UnaryOp.AppliesTo : UnaryOp → Level → Prop
  | .square, _ => True
  | .inv, _ => True
  | .scaleN, l => l = .gf4
  | .scaleNSquared, l => l = .gf4
  | .scaledSquare, l => l = .gf16

/-- The level of the coordinates; the lowest level has none. -/
def Level.below : Level → Level
  | .gf4 => .gf4
  | .gf16 => .gf4
  | .gf256 => .gf16

/-- The level whose coordinates are of a level; there is none for the highest. -/
def Level.above : Level → Level
  | .gf4 => .gf16
  | .gf16 => .gf256
  | .gf256 => .gf256

namespace Extension

variable {base top : Level}

theorem below_eq (e : Extension base top) : top.below = base := by
  cases e <;> rfl

theorem above_eq (e : Extension base top) : base.above = top := by
  cases e <;> rfl

theorem top_ne (e : Extension base top) : top ≠ .gf4 := by
  cases e <;> decide

theorem base_ne (e : Extension base top) : base ≠ .gf256 := by
  cases e <;> decide

end Extension

/-- The level of register `a`, and any level if there is no such register. -/
def levelAt (Γ : Array Level) (a : Nat) : Level := Γ.getD a .gf4

theorem levelAt_eq {Γ : Array Level} {a : Nat} {l : Level} (h : Γ[a]? = some l) :
    levelAt Γ a = l := by
  rw [levelAt, Array.getD_eq_getD_getElem?, h]
  rfl

namespace Gate

variable {E : Level → Type} {A : Arithmetic E} {regs : Array (Cell E)}

/-- The registers of a gate exist and are of levels it is for. -/
def WellTyped (regs : Array (Cell E)) : Gate → Prop
  | .unary op a => HasLevel regs op.AppliesTo a
  | .binary _ a b => HaveLevel regs (fun _ => True) a b
  | .select _ a b => HaveLevel regs (fun _ => True) a b
  | .halves a => HasLevel regs (· ≠ .gf4) a
  | .ofHalves hi lo => HaveLevel regs (· ≠ .gf256) hi lo

/-- The levels of the results of a gate that does not fail. -/
def levels (Γ : Array Level) : Gate → List Level
  | .unary _ a => [levelAt Γ a]
  | .binary _ a _ => [levelAt Γ a]
  | .select _ a _ => [levelAt Γ a]
  | .halves a => [(levelAt Γ a).below, (levelAt Γ a).below]
  | .ofHalves hi _ => [(levelAt Γ hi).above]

/-- On registers of the levels `Γ` the gate gives results of the levels `ls`. -/
inductive HasType (Γ : Array Level) : Gate → List Level → Prop where
  | unary {op : UnaryOp} {a : Nat} {l : Level} (ha : Γ[a]? = some l) (hop : op.AppliesTo l) :
    HasType Γ (.unary op a) [l]
  | binary {op : BinaryOp} {a b : Nat} {l : Level} (ha : Γ[a]? = some l) (hb : Γ[b]? = some l) :
    HasType Γ (.binary op a b) [l]
  | select {choice : Bool} {a b : Nat} {l : Level} (ha : Γ[a]? = some l) (hb : Γ[b]? = some l) :
    HasType Γ (.select choice a b) [l]
  | halves {a : Nat} {base top : Level} (e : Extension base top) (ha : Γ[a]? = some top) :
    HasType Γ (.halves a) [base, base]
  | ofHalves {hi lo : Nat} {base top : Level} (e : Extension base top) (hhi : Γ[hi]? = some base)
    (hlo : Γ[lo]? = some base) : HasType Γ (.ofHalves hi lo) [top]

/-- Each gate finds registers of levels it is for, where the first one finds the levels `Γ`. -/
inductive WellTypedFrom : Array Level → List Gate → Prop where
  | nil {Γ : Array Level} : WellTypedFrom Γ []
  | cons {Γ : Array Level} {g : Gate} {gs : List Gate} {ls : List Level} (hg : g.HasType Γ ls)
    (hgs : WellTypedFrom (Γ ++ ls) gs) : WellTypedFrom Γ (g :: gs)

/-- **The rules give a gate a type exactly if it is well typed, and it is the computed one.** -/
theorem hasType_iff {g : Gate} {ls : List Level} :
    g.HasType (regs.map Cell.level) ls ↔
      g.WellTyped regs ∧ g.levels (regs.map Cell.level) = ls := by
  constructor
  · intro h
    cases h with
    | unary ha hop =>
      rw [WellTyped, hasLevel_iff, levels, levelAt_eq ha]
      exact ⟨⟨_, ha, hop⟩, rfl⟩
    | binary ha hb =>
      rw [WellTyped, haveLevel_iff, levels, levelAt_eq ha]
      exact ⟨⟨_, ha, hb, trivial⟩, rfl⟩
    | select ha hb =>
      rw [WellTyped, haveLevel_iff, levels, levelAt_eq ha]
      exact ⟨⟨_, ha, hb, trivial⟩, rfl⟩
    | halves e ha =>
      rw [WellTyped, hasLevel_iff, levels, levelAt_eq ha]
      exact ⟨⟨_, ha, e.top_ne⟩, by rw [e.below_eq]⟩
    | ofHalves e hhi hlo =>
      rw [WellTyped, haveLevel_iff, levels, levelAt_eq hhi]
      exact ⟨⟨_, hhi, hlo, e.base_ne⟩, by rw [e.above_eq]⟩
  · rintro ⟨h, rfl⟩
    cases g with
    | unary op a =>
      rw [WellTyped, hasLevel_iff] at h
      obtain ⟨l, ha, hop⟩ := h
      rw [levels, levelAt_eq ha]
      exact .unary ha hop
    | binary op a b =>
      rw [WellTyped, haveLevel_iff] at h
      obtain ⟨l, ha, hb, -⟩ := h
      rw [levels, levelAt_eq ha]
      exact .binary ha hb
    | select choice a b =>
      rw [WellTyped, haveLevel_iff] at h
      obtain ⟨l, ha, hb, -⟩ := h
      rw [levels, levelAt_eq ha]
      exact .select ha hb
    | halves a =>
      rw [WellTyped, hasLevel_iff] at h
      obtain ⟨l, ha, hl⟩ := h
      rw [levels, levelAt_eq ha]
      cases l with
      | gf4 => exact absurd rfl hl
      | gf16 => exact .halves .gf16 ha
      | gf256 => exact .halves .gf256 ha
    | ofHalves hi lo =>
      rw [WellTyped, haveLevel_iff] at h
      obtain ⟨l, hhi, hlo, hl⟩ := h
      rw [levels, levelAt_eq hhi]
      cases l with
      | gf4 => exact .ofHalves .gf16 hhi hlo
      | gf16 => exact .ofHalves .gf256 hhi hlo
      | gf256 => exact absurd rfl hl

end Gate

/-! ## The results of a gate -/

section Results

variable {E : Level → Type} {A : Arithmetic E} {regs : Array (Cell E)}

theorem UnaryOp.exists_apply_iff (op : UnaryOp) (c : Cell E) :
    (∃ d, op.apply A c = .ok d) ↔ op.AppliesTo c.level := by
  obtain ⟨l, x⟩ := c
  cases op <;> cases l <;> simp [UnaryOp.apply, UnaryOp.AppliesTo]

theorem UnaryOp.level_of_apply {op : UnaryOp} {c d : Cell E} (h : op.apply A c = .ok d) :
    d.level = c.level := by
  obtain ⟨l, x⟩ := c
  cases op <;> cases l <;> cases h <;> rfl

theorem BinaryOp.level_apply (op : BinaryOp) (o : Operands E) : (op.apply A o).level = o.level := by
  cases op <;> rfl

theorem Cell.exists_halves_iff (c : Cell E) :
    (∃ h, c.halves A = .ok h) ↔ c.level ≠ .gf4 := by
  obtain ⟨l, x⟩ := c
  cases l <;> simp [Cell.halves]

theorem Operands.exists_join_iff (o : Operands E) :
    (∃ c, o.join A = .ok c) ↔ o.level ≠ .gf256 := by
  obtain ⟨l, x, y⟩ := o
  cases l <;> simp [Operands.join]

namespace Gate

theorem exists_results_iff (g : Gate) :
    (∃ cs, g.results A regs = .ok cs) ↔ g.WellTyped regs := by
  cases g with
  | unary op a =>
    simp only [Gate.results, exists_bind_iff, exists_pure_iff, and_true, op.exists_apply_iff,
      fetch_eq_ok_iff]
    rfl
  | binary op a b =>
    simp only [Gate.results, exists_bind_iff, exists_pure_iff]
    exact exists_fetchOperands_iff (p := fun _ => True)
  | select choice a b =>
    simp only [Gate.results, exists_bind_iff, exists_pure_iff]
    exact exists_fetchOperands_iff (p := fun _ => True)
  | halves a =>
    simp only [Gate.results, exists_bind_iff, exists_pure_iff, and_true, Cell.exists_halves_iff,
      fetch_eq_ok_iff]
    rfl
  | ofHalves hi lo =>
    simp only [Gate.results, exists_bind_iff, exists_pure_iff, and_true, Operands.exists_join_iff]
    exact exists_fetchOperands_iff (p := (· ≠ .gf256))

/-- **The results of a gate are of the levels that the rules give.** -/
theorem hasType_of_results {g : Gate} {cs : List (Cell E)} (h : g.results A regs = .ok cs) :
    g.HasType (regs.map Cell.level) (cs.map Cell.level) := by
  cases g with
  | unary op a =>
    obtain ⟨c, hc, h⟩ := bind_eq_ok_iff.mp h
    obtain ⟨d, hd, h⟩ := bind_eq_ok_iff.mp h
    cases h
    rw [List.map_singleton, UnaryOp.level_of_apply hd]
    exact .unary (level_of_fetch hc) ((op.exists_apply_iff c).mp ⟨d, hd⟩)
  | binary op a b =>
    obtain ⟨o, ho, h⟩ := bind_eq_ok_iff.mp h
    cases h
    obtain ⟨ha, hb⟩ := levels_of_fetchOperands ho
    rw [List.map_singleton, op.level_apply]
    exact .binary ha hb
  | select choice a b =>
    obtain ⟨o, ho, h⟩ := bind_eq_ok_iff.mp h
    cases h
    obtain ⟨ha, hb⟩ := levels_of_fetchOperands ho
    exact .select ha hb
  | halves a =>
    obtain ⟨⟨l, x⟩, hc, h⟩ := bind_eq_ok_iff.mp h
    obtain ⟨d, hd, h⟩ := bind_eq_ok_iff.mp h
    cases h
    have ha := level_of_fetch hc
    cases l with
    | gf4 => cases hd
    | gf16 =>
      cases hd
      exact .halves .gf16 ha
    | gf256 =>
      cases hd
      exact .halves .gf256 ha
  | ofHalves hi lo =>
    obtain ⟨⟨l, x, y⟩, ho, h⟩ := bind_eq_ok_iff.mp h
    obtain ⟨d, hd, h⟩ := bind_eq_ok_iff.mp h
    cases h
    obtain ⟨hhi, hlo⟩ := levels_of_fetchOperands ho
    cases l with
    | gf4 =>
      cases hd
      exact .ofHalves .gf16 hhi hlo
    | gf16 =>
      cases hd
      exact .ofHalves .gf256 hhi hlo
    | gf256 => cases hd

theorem levels_eq_of_results {g : Gate} {cs : List (Cell E)} (h : g.results A regs = .ok cs) :
    cs.map Cell.level = g.levels (regs.map Cell.level) :=
  (hasType_iff.mp (hasType_of_results h)).2.symm

theorem HasType.results_ok {g : Gate} {ls : List Level}
    (h : g.HasType (regs.map Cell.level) ls) (A : Arithmetic E) :
    ∃ cs, g.results A regs = .ok cs ∧ cs.map Cell.level = ls := by
  obtain ⟨hg, hls⟩ := hasType_iff.mp h
  obtain ⟨cs, hcs⟩ := (g.exists_results_iff (A := A)).mpr hg
  exact ⟨cs, hcs, (levels_eq_of_results hcs).trans hls⟩

end Gate

end Results

end NormalTower
