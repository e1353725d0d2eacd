import NormalTower.Proofs.Program.Failures

/-!
# Updates in place

An `Update` is a step that changes registers in place: it adds, subtracts or multiplies one register
into another, or copies or exchanges two registers if a choice is set. Both registers may be the
same. What the update writes is the result of a gate on the registers as they were before, and
`Update.writes` says which gate for which register. All writes of an update happen at once, so a
register that is both read and written is read first.

* `Update.turns_exec`: an update writes what its gates say, and nothing else.
* `Update.perm_runAll`: exchanges only move registers around.

A list of updates can do without overwriting. `singleAssignment` runs the gates of all updates one
after another, appends each result behind the registers that are there, and remembers at which place
the value of every register stands by now. `Tracks` says that it remembers right. This is so at
first, and every update keeps it so (`Update.Turns.tracks`).

* `runAll_singleAssignment`: the gates give the registers that the updates give.
* `Update.runAll_refines_gates`: all of this for lists of updates of any length.
-/

namespace NormalTower

variable {E : Level → Type} {A : Arithmetic E} {regs : Array (Cell E)}

namespace ElementProgram

/-- A step that changes registers in place. -/
inductive Update where
  /-- The operation is carried out on register `a` in place, with register `b`. -/
  | assign (op : BinaryOp) (a b : Nat)
  /-- If `choice` is set, register `a` becomes register `b`. -/
  | conditionalAssign (choice : Bool) (a b : Nat)
  /-- If `choice` is set, registers `a` and `b` change places. -/
  | conditionalSwap (choice : Bool) (a b : Nat)

namespace Update

/-- The update as a step of a program. -/
def step : Update → Step
  | .assign op a b => .assign op a b
  | .conditionalAssign choice a b => .conditionalAssign choice a b
  | .conditionalSwap choice a b => .conditionalSwap choice a b

/-- The registers that an update writes to, each with the gate that gives its new value. -/
def writes : Update → List (Nat × Gate)
  | .assign op a b => [(a, .binary op a b)]
  | .conditionalAssign choice a b => [(a, .select choice a b)]
  | .conditionalSwap choice a b => [(a, .select choice a b), (b, .select choice b a)]

/-- The registers after a list of updates. -/
def runAll (A : Arithmetic E) (us : List Update) (regs : Array (Cell E)) : Array (Cell E) :=
  (ElementProgram.runAll A (us.map step) regs).2

/-- The update turns the registers `before` into `after`: it writes the results of its gates on the
registers before, every other register keeps its value, and all registers keep their levels. -/
structure Turns (A : Arithmetic E) (u : Update) (before after : Array (Cell E)) : Prop where
  written : ∀ w ∈ u.writes, ∃ c, w.2.results A before = .ok [c] ∧ after[w.1]? = some c
  kept : ∀ i, (∀ w ∈ u.writes, w.1 ≠ i) → after[i]? = before[i]?
  levels : after.map Cell.level = before.map Cell.level

/-! ## One update -/

theorem getElem?_setIfInBounds_of_some {a : Nat} {c d : Cell E} (h : regs[a]? = some d) :
    (regs.setIfInBounds a c)[a]? = some c := by
  obtain ⟨ha, -⟩ := Array.getElem?_eq_some_iff.mp h
  rw [Array.getElem?_setIfInBounds_self, if_pos ha]

theorem levels_setIfInBounds {a : Nat} {c d : Cell E} (h : regs[a]? = some d)
    (hl : c.level = d.level) :
    (regs.setIfInBounds a c).map Cell.level = regs.map Cell.level := by
  rw [Array.map_setIfInBounds, hl]
  refine Array.ext_getElem? fun i => ?_
  by_cases hi : a = i
  · subst hi
    have hmap : (regs.map Cell.level)[a]? = some d.level := by rw [Array.getElem?_map, h]; rfl
    obtain ⟨ha, -⟩ := Array.getElem?_eq_some_iff.mp hmap
    rw [Array.getElem?_setIfInBounds_self, if_pos ha, hmap]
  · rw [Array.getElem?_setIfInBounds_ne hi]

section Exec

variable {a b : Nat} {o : Operands E}

theorem exec_assign (h : fetchOperands regs a b = .ok o) (op : BinaryOp) :
    Step.exec A regs (.assign op a b) =
      (.ok (.changed (op.apply A o)), regs.setIfInBounds a (op.apply A o)) := by
  simp only [Step.exec, Step.run, h, op.assign_eq_apply]
  rfl

theorem exec_conditionalAssign (h : fetchOperands regs a b = .ok o) (choice : Bool) :
    Step.exec A regs (.conditionalAssign choice a b) =
      (.ok (.changed (o.select choice)), regs.setIfInBounds a (o.select choice)) := by
  simp only [Step.exec, Step.run, h]
  rfl

theorem exec_conditionalSwap (h : fetchOperands regs a b = .ok o) (choice : Bool) :
    Step.exec A regs (.conditionalSwap choice a b) =
      (.ok (.exchanged (o.select choice) (o.select !choice)),
        (regs.setIfInBounds a (o.select choice)).setIfInBounds b (o.select !choice)) := by
  simp only [Step.exec, Step.run, h]
  rfl

end Exec

/-- The registers of a well-typed update, as operands in either order. -/
theorem exists_operands {a b : Nat} (h : HaveLevel regs (fun _ => True) a b) :
    ∃ o : Operands E, fetchOperands regs a b = .ok o ∧
      fetchOperands regs b a = .ok ⟨o.level, o.snd, o.fst⟩ ∧
      regs[a]? = some ⟨o.level, o.fst⟩ ∧ regs[b]? = some ⟨o.level, o.snd⟩ := by
  obtain ⟨o, ho, -⟩ := exists_fetchOperands_iff.mpr h
  obtain ⟨ha, hb⟩ := fetch_of_fetchOperands ho
  rw [fetch_eq_ok_iff] at ha hb
  exact ⟨o, ho, fetchOperands_eq_ok_iff.mpr ⟨_, _, hb, ha, Cell.operands?_mk _ _⟩, ha, hb⟩

/-- One write to a register. -/
theorem turns_of_writes_eq {u : Update} {a : Nat} {g : Gate} {c d : Cell E}
    (hu : u.writes = [(a, g)]) (hg : g.results A regs = .ok [c]) (ha : regs[a]? = some d)
    (hl : c.level = d.level) : u.Turns A regs (regs.setIfInBounds a c) where
  written := by
    intro w hw
    rw [hu, List.mem_singleton] at hw
    subst hw
    exact ⟨c, hg, getElem?_setIfInBounds_of_some ha⟩
  kept := by
    intro i hi
    refine Array.getElem?_setIfInBounds_ne (hi (a, g) ?_)
    rw [hu]
    exact List.mem_singleton_self _
  levels := levels_setIfInBounds ha hl

theorem turns_conditionalSwap {choice : Bool} {a b : Nat} {o : Operands E}
    (hab : fetchOperands regs a b = .ok o)
    (hba : fetchOperands regs b a = .ok ⟨o.level, o.snd, o.fst⟩)
    (ha : regs[a]? = some ⟨o.level, o.fst⟩) (hb : regs[b]? = some ⟨o.level, o.snd⟩) :
    (conditionalSwap choice a b).Turns A regs
      ((regs.setIfInBounds a (o.select choice)).setIfInBounds b (o.select !choice)) := by
  have hselect : o.select (!choice) = Operands.select ⟨o.level, o.snd, o.fst⟩ choice := by
    cases choice <;> rfl
  -- the second write finds a register of its level at `b`, also if the first write was there
  obtain ⟨d, hd, hdl⟩ : ∃ d, (regs.setIfInBounds a (o.select choice))[b]? = some d ∧
      (o.select !choice).level = d.level := by
    by_cases h : a = b
    · subst h
      exact ⟨_, getElem?_setIfInBounds_of_some ha, rfl⟩
    · exact ⟨_, (Array.getElem?_setIfInBounds_ne h).trans hb, rfl⟩
  refine ⟨?_, ?_, ?_⟩
  · intro w hw
    rcases List.mem_pair.mp hw with rfl | rfl
    · refine ⟨o.select choice, by simp only [Gate.results, hab]; rfl, ?_⟩
      by_cases h : a = b
      · -- both writes go to one register, and both write what it held
        subst h
        have hsame : (⟨o.level, o.fst⟩ : Cell E) = ⟨o.level, o.snd⟩ :=
          Option.some.inj (ha.symm.trans hb)
        have hval : o.select choice = o.select !choice := by
          cases choice
          · exact hsame
          · exact hsame.symm
        exact (getElem?_setIfInBounds_of_some hd).trans (congrArg some hval.symm)
      · rw [Array.getElem?_setIfInBounds_ne (Ne.symm h)]
        exact getElem?_setIfInBounds_of_some ha
    · refine ⟨o.select !choice, by simp only [Gate.results, hba, hselect]; rfl, ?_⟩
      exact getElem?_setIfInBounds_of_some hd
  · intro i hi
    rw [Array.getElem?_setIfInBounds_ne (hi _ (List.mem_pair.mpr (Or.inr rfl))),
      Array.getElem?_setIfInBounds_ne (hi _ (List.mem_pair.mpr (Or.inl rfl)))]
  · exact (levels_setIfInBounds hd hdl).trans (levels_setIfInBounds ha rfl)

/-- **An update writes what its gates say, and nothing else.** -/
theorem turns_exec {u : Update} (h : u.step.WellTyped regs) :
    u.Turns A regs (u.step.exec A regs).2 := by
  cases u with
  | assign op a b =>
    obtain ⟨o, hab, -, ha, -⟩ := exists_operands (a := a) (b := b) h
    rw [step, exec_assign hab]
    refine turns_of_writes_eq rfl ?_ ha ?_
    · simp only [Gate.results, hab]
      rfl
    · cases op <;> rfl
  | conditionalAssign choice a b =>
    obtain ⟨o, hab, -, ha, -⟩ := exists_operands (a := a) (b := b) h
    rw [step, exec_conditionalAssign hab]
    refine turns_of_writes_eq rfl ?_ ha rfl
    simp only [Gate.results, hab]
    rfl
  | conditionalSwap choice a b =>
    obtain ⟨o, hab, hba, ha, hb⟩ := exists_operands (a := a) (b := b) h
    rw [step, exec_conditionalSwap hab]
    exact turns_conditionalSwap hab hba ha hb

theorem exec_ok {u : Update} (h : u.step.WellTyped regs) :
    ∃ answer, (u.step.exec A regs).1 = .ok answer := by
  cases hout : (u.step.exec A regs).1 with
  | ok answer => exact ⟨answer, rfl⟩
  | error e =>
    rcases u.step.exec_error_iff.mp ⟨e, hout⟩ with hnot | hrejected
    · exact absurd h hnot
    · cases u <;> exact hrejected.elim

/-! ## Lists of updates -/

theorem runAll_append (us vs : List Update) (regs : Array (Cell E)) :
    runAll A (us ++ vs) regs = runAll A vs (runAll A us regs) := by
  induction us generalizing regs with
  | nil => rfl
  | cons u us ih => exact ih (u.step.exec A regs).2

/-- Whether an update is well typed depends on the levels of the registers alone. -/
theorem wellTyped_congr {regs' : Array (Cell E)}
    (h : regs'.map Cell.level = regs.map Cell.level) (u : Update) :
    u.step.WellTyped regs' ↔ u.step.WellTyped regs := by
  cases u <;> simp only [step, Step.WellTyped, haveLevel_iff, h]

/-- One update leaves those behind it well typed. -/
theorem wellTyped_tail {u : Update} {us : List Update}
    (h : ∀ v ∈ u :: us, v.step.WellTyped regs) :
    ∀ v ∈ us, v.step.WellTyped (u.step.exec A regs).2 := by
  intro v hv
  have hlevels := (turns_exec (A := A) (h u List.mem_cons_self)).levels
  exact (wellTyped_congr hlevels v).mpr (h v (List.mem_cons_of_mem u hv))

theorem levels_runAll {us : List Update} (h : ∀ u ∈ us, u.step.WellTyped regs) :
    (runAll A us regs).map Cell.level = regs.map Cell.level := by
  induction us generalizing regs with
  | nil => rfl
  | cons u us ih =>
    have hu := (turns_exec (A := A) (h u List.mem_cons_self)).levels
    exact (ih (wellTyped_tail h)).trans hu

theorem turns_runAll {pre : List Update} {u : Update}
    (hpre : ∀ v ∈ pre, v.step.WellTyped regs) (hu : u.step.WellTyped regs) :
    u.Turns A (runAll A pre regs) (runAll A (pre ++ [u]) regs) := by
  rw [runAll_append]
  exact turns_exec ((wellTyped_congr (levels_runAll hpre) u).mpr hu)

theorem outcomes_ok {us : List Update} (h : ∀ u ∈ us, u.step.WellTyped regs) :
    ∀ outcome ∈ (ElementProgram.runAll A (us.map step) regs).1,
      ∃ answer, outcome = .ok answer := by
  induction us generalizing regs with
  | nil => exact fun _ h => absurd h List.not_mem_nil
  | cons u us ih =>
    intro outcome hout
    rcases List.mem_cons.mp hout with rfl | hout
    · exact exec_ok (h u List.mem_cons_self)
    · exact ih (wellTyped_tail h) outcome hout

/-! ## Exchanges -/

theorem perm_exec_conditionalSwap (choice : Bool) (a b : Nat) (regs : Array (Cell E)) :
    ((Step.conditionalSwap choice a b).exec A regs).2.Perm regs := by
  by_cases h : HaveLevel regs (fun _ => True) a b
  · obtain ⟨o, hab, -, ha, hb⟩ := exists_operands h
    rw [exec_conditionalSwap hab]
    obtain ⟨hia, ha⟩ := Array.getElem?_eq_some_iff.mp ha
    obtain ⟨hib, hb⟩ := Array.getElem?_eq_some_iff.mp hb
    cases choice with
    | true =>
      have hswap : (regs.setIfInBounds a (o.select true)).setIfInBounds b (o.select !true) =
          regs.swap a b := by
        simp [Array.swap_def, Array.setIfInBounds_def, hia, hib, ha, hb, Operands.select]
      rw [hswap]
      exact Array.swap_perm hia hib
    | false =>
      have hsame : (regs.setIfInBounds a (o.select false)).setIfInBounds b (o.select !false) =
          regs := by
        simp [Array.setIfInBounds_def, hia, hib, ← ha, ← hb, Operands.select]
      rw [hsame]
  · obtain ⟨e, he⟩ := (Step.exec_error_iff (A := A) (.conditionalSwap choice a b)).mpr (Or.inl h)
    rw [exec_error he]

/-- **Exchanges only move registers around**, whatever the choices. -/
theorem perm_runAll (swaps : List (Bool × Nat × Nat)) (regs : Array (Cell E)) :
    (runAll A (swaps.map fun s => .conditionalSwap s.1 s.2.1 s.2.2) regs).Perm regs := by
  induction swaps generalizing regs with
  | nil => exact Array.Perm.refl regs
  | cons s swaps ih => exact (ih _).trans (perm_exec_conditionalSwap s.1 s.2.1 s.2.2 regs)

end Update

end ElementProgram

/-! ## Registers under other names -/

/-- The gate on the registers that `place` names. -/
def Gate.rename (place : Nat → Nat) : Gate → Gate
  | .unary op a => .unary op (place a)
  | .binary op a b => .binary op (place a) (place b)
  | .select choice a b => .select choice (place a) (place b)
  | .halves a => .halves (place a)
  | .ofHalves hi lo => .ofHalves (place hi) (place lo)

/-- The value of every register `i` of `regs` stands in register `place i` of `file`. -/
def Tracks (place : Nat → Nat) (file regs : Array (Cell E)) : Prop :=
  ∀ i c, regs[i]? = some c → file[place i]? = some c

theorem size_appendList (file : Array (Cell E)) (cs : List (Cell E)) :
    (file ++ cs).size = file.size + cs.length := by
  rw [← Array.length_toList, Array.toList_appendList, List.length_append, Array.length_toList]

theorem appendList_cons (file : Array (Cell E)) (c : Cell E) (cs : List (Cell E)) :
    file ++ (c :: cs) = file ++ [c] ++ cs := by
  refine Array.toList_inj.mp ?_
  simp only [Array.toList_appendList, List.append_assoc, List.singleton_append]

theorem getElem?_appendList_of_some {file : Array (Cell E)} {i : Nat} {c : Cell E}
    (h : file[i]? = some c) (cs : List (Cell E)) : (file ++ cs)[i]? = some c := by
  rw [← Array.getElem?_toList] at h ⊢
  obtain ⟨hi, -⟩ := List.getElem?_eq_some_iff.mp h
  rw [Array.toList_appendList, List.getElem?_append_left hi, h]

theorem getElem?_appendList_size (file : Array (Cell E)) (c : Cell E) :
    (file ++ [c])[file.size]? = some c := by
  rw [← Array.getElem?_toList, Array.toList_appendList, ← Array.length_toList,
    List.getElem?_concat_length]

namespace Tracks

variable {place : Nat → Nat} {file : Array (Cell E)}

theorem append (h : Tracks place file regs) (cs : List (Cell E)) :
    Tracks place (file ++ cs) regs :=
  fun i c hc => getElem?_appendList_of_some (h i c hc) cs

theorem fetch_ok (h : Tracks place file regs) {ε : Type} {missing : Nat → ε} {a : Nat} {c : Cell E}
    (hc : fetch missing regs a = .ok c) : fetch missing file (place a) = .ok c :=
  fetch_eq_ok_iff.mpr (h a c (fetch_eq_ok_iff.mp hc))

theorem fetchOperands_ok (h : Tracks place file regs) {a b : Nat} {o : Operands E}
    (ho : fetchOperands regs a b = .ok o) : fetchOperands file (place a) (place b) = .ok o := by
  obtain ⟨c, d, hc, hd, ho⟩ := fetchOperands_eq_ok_iff.mp ho
  exact fetchOperands_eq_ok_iff.mpr ⟨c, d, h a c hc, h b d hd, ho⟩

/-- A gate that has results has the same ones under the other names. -/
theorem results_rename (h : Tracks place file regs) {g : Gate} {cs : List (Cell E)}
    (hg : g.results A regs = .ok cs) : (g.rename place).results A file = .ok cs := by
  cases g with
  | unary op a =>
    obtain ⟨c, hc, hg⟩ := bind_eq_ok_iff.mp hg
    exact bind_eq_ok_iff.mpr ⟨c, h.fetch_ok hc, hg⟩
  | binary op a b =>
    obtain ⟨o, ho, hg⟩ := bind_eq_ok_iff.mp hg
    exact bind_eq_ok_iff.mpr ⟨o, h.fetchOperands_ok ho, hg⟩
  | select choice a b =>
    obtain ⟨o, ho, hg⟩ := bind_eq_ok_iff.mp hg
    exact bind_eq_ok_iff.mpr ⟨o, h.fetchOperands_ok ho, hg⟩
  | halves a =>
    obtain ⟨c, hc, hg⟩ := bind_eq_ok_iff.mp hg
    exact bind_eq_ok_iff.mpr ⟨c, h.fetch_ok hc, hg⟩
  | ofHalves hi lo =>
    obtain ⟨o, ho, hg⟩ := bind_eq_ok_iff.mp hg
    exact bind_eq_ok_iff.mpr ⟨o, h.fetchOperands_ok ho, hg⟩

/-- The registers, looked up at their places. -/
theorem map_range_eq (ht : Tracks place file regs) :
    (List.range regs.size).map (fun i => file[place i]?) = regs.toList.map some := by
  refine List.ext_getElem (by simp) fun i hi _ => ?_
  rw [List.length_map, List.length_range] at hi
  rw [List.getElem_map, List.getElem_range, List.getElem_map, Array.getElem_toList]
  exact ht i regs[i] (Array.getElem?_eq_getElem hi)

end Tracks

theorem Gate.runAll_append (gs gs' : List Gate) (regs : Array (Cell E)) :
    runAll A (gs ++ gs') regs = runAll A gs regs >>= runAll A gs' := by
  induction gs generalizing regs with
  | nil => rfl
  | cons g gs ih => simp only [List.cons_append, runAll, bind_assoc, ih]

/-! ## Single assignment -/

namespace ElementProgram

/-- A program that writes every register once. -/
structure SingleAssignment where
  /-- The gates, each of which appends its result. -/
  gates : List Gate
  /-- Where the value of every register stands after the last gate. -/
  place : Nat → Nat

/-- The places after the results of some writes have been appended, the first of them at `next`. -/
def placeWrites (place : Nat → Nat) (next : Nat) : List (Nat × Gate) → Nat → Nat
  | [] => place
  | w :: ws => placeWrites (Function.update place w.1 next) (next + 1) ws

/-- Updates as gates that append, where the values of the registers stand at `place` and the next
free register is `next`. -/
def singleAssignment (place : Nat → Nat) (next : Nat) : List Update → SingleAssignment
  | [] => ⟨[], place⟩
  | u :: us =>
    let rest := singleAssignment (placeWrites place next u.writes) (next + u.writes.length) us
    ⟨u.writes.map (fun w => w.2.rename place) ++ rest.gates, rest.place⟩

section Run

variable {place : Nat → Nat} {file after : Array (Cell E)}

/-- All gates of an update read the registers as they were before it. -/
theorem runAll_writes (ht : Tracks place file regs) {ws : List (Nat × Gate)}
    (hws : ∀ w ∈ ws, ∃ c, w.2.results A regs = .ok [c] ∧ after[w.1]? = some c) :
    ∃ cs : List (Cell E),
      Gate.runAll A (ws.map fun w => w.2.rename place) file = .ok (file ++ cs) ∧
      List.Forall₂ (fun w c => after[w.1]? = some c) ws cs := by
  induction ws generalizing file with
  | nil => exact ⟨[], by simp [Gate.runAll], .nil⟩
  | cons w ws ih =>
    obtain ⟨c, hc, hafter⟩ := hws w List.mem_cons_self
    obtain ⟨cs, hcs, hforall⟩ := ih (ht.append [c]) fun v hv => hws v (List.mem_cons_of_mem w hv)
    refine ⟨c :: cs, ?_, .cons hafter hforall⟩
    rw [List.map_cons, Gate.runAll, ht.results_rename hc]
    exact hcs.trans (congrArg Except.ok (appendList_cons file c cs).symm)

/-- The places are right for the registers that have been written and for those that have not. -/
theorem tracks_placeWrites {ws : List (Nat × Gate)} {cs : List (Cell E)}
    (hws : List.Forall₂ (fun w c => after[w.1]? = some c) ws cs)
    (ht : ∀ i c, (∀ w ∈ ws, w.1 ≠ i) → after[i]? = some c → file[place i]? = some c) :
    Tracks (placeWrites place file.size ws) (file ++ cs) after := by
  -- `place` need not be right for registers that are still to be written; each write settles one
  induction hws generalizing place file with
  | nil =>
    intro i c hc
    exact getElem?_appendList_of_some (ht i c (fun w hw => absurd hw List.not_mem_nil) hc) []
  | @cons w c ws cs hw _ ih =>
    have hsize : (file ++ [c]).size = file.size + 1 := size_appendList file [c]
    rw [appendList_cons, placeWrites, ← hsize]
    refine ih fun i d hi hd => ?_
    by_cases h : i = w.1
    · subst h
      rw [Function.update_self, getElem?_appendList_size]
      exact hw.symm.trans hd
    · rw [Function.update_of_ne h]
      refine getElem?_appendList_of_some (ht i d (fun v hv => ?_) hd) [c]
      rcases List.mem_cons.mp hv with rfl | hv
      · exact Ne.symm h
      · exact hi v hv

/-- **An update and its gates keep the places right.** -/
theorem Update.Turns.tracks {u : Update} (hu : u.Turns A regs after)
    (ht : Tracks place file regs) :
    ∃ cs : List (Cell E),
      Gate.runAll A (u.writes.map fun w => w.2.rename place) file = .ok (file ++ cs) ∧
      (file ++ cs).size = file.size + u.writes.length ∧
      Tracks (placeWrites place file.size u.writes) (file ++ cs) after := by
  obtain ⟨cs, hcs, hforall⟩ := runAll_writes ht hu.written
  refine ⟨cs, hcs, ?_, tracks_placeWrites hforall fun i c hi hc => ?_⟩
  · rw [size_appendList, hforall.length_eq]
  · rw [hu.kept i hi] at hc
    exact ht i c hc

/-- **The gates give the registers that the updates give.** -/
theorem runAll_singleAssignment {us : List Update} (h : ∀ u ∈ us, u.step.WellTyped regs)
    (ht : Tracks place file regs) :
    ∃ file', Gate.runAll A (singleAssignment place file.size us).gates file = .ok file' ∧
      Tracks (singleAssignment place file.size us).place file' (Update.runAll A us regs) := by
  -- the registers of the updates keep their number and levels, those of the gates grow
  induction us generalizing regs place file with
  | nil => exact ⟨file, rfl, ht⟩
  | cons u us ih =>
    have hu : u.Turns A regs (u.step.exec A regs).2 := Update.turns_exec (h u List.mem_cons_self)
    obtain ⟨cs, hcs, hsize, ht'⟩ := hu.tracks ht
    obtain ⟨file', hfile', htracks⟩ := ih (Update.wellTyped_tail h) ht'
    rw [hsize] at hfile' htracks
    refine ⟨file', ?_, htracks⟩
    rw [singleAssignment, Gate.runAll_append, hcs]
    exact hfile'

end Run

/-- **Updates in place are gates on registers that are written once.** A list of updates on pairs of
registers of one level has the effect, update by update, of writing the results of its gates and
nothing else. At the end the registers hold what the same gates give that write every register only
once; and exchanges alone only move the registers around. -/
theorem Update.runAll_refines_gates (us : List Update) (regs : Array (Cell Element))
    (h : ∀ u ∈ us, u.step.WellTyped regs) :
    (∀ outcome ∈ (ElementProgram.runAll .elements (us.map step) regs).1,
      ∃ answer, outcome = .ok answer) ∧
    (∀ pre u post, us = pre ++ u :: post →
      u.Turns .elements (runAll .elements pre regs) (runAll .elements (pre ++ [u]) regs)) ∧
    (∃ file, Gate.runAll .elements (singleAssignment id regs.size us).gates regs = .ok file ∧
      (List.range regs.size).map (fun i => file[(singleAssignment id regs.size us).place i]?) =
        (runAll .elements us regs).toList.map some) ∧
    ∀ swaps : List (Bool × Nat × Nat),
      (runAll .elements (swaps.map fun s => .conditionalSwap s.1 s.2.1 s.2.2) regs).Perm regs := by
  refine ⟨outcomes_ok h, ?_, ?_, fun swaps => perm_runAll swaps regs⟩
  · rintro pre u post rfl
    refine turns_runAll (fun v hv => h v (List.mem_append_left _ hv)) (h u ?_)
    exact List.mem_append_right _ List.mem_cons_self
  · have hid : Tracks id regs regs := fun i c hc => hc
    obtain ⟨file, hfile, ht⟩ := runAll_singleAssignment h hid
    have hsize : (runAll .elements us regs).size = regs.size := by
      have hlevels := congrArg Array.size (levels_runAll (A := .elements) h)
      rwa [Array.size_map, Array.size_map] at hlevels
    exact ⟨file, hfile, hsize ▸ ht.map_range_eq⟩

/-- A product, an exchange, a register subtracted from itself, one multiplied by itself and one
exchanged with itself. -/
theorem Update.runAll_refines_gates_of_aliases :
    let us : List Update := [.assign .mul 0 1, .conditionalSwap true 0 1, .assign .sub 0 0,
      .assign .mul 1 1, .conditionalSwap true 2 2]
    let regs : Array (Cell Element) := #[⟨.gf16, Element.ofMasked .gf16 0x5⟩,
      ⟨.gf16, Element.ofMasked .gf16 0x3⟩, ⟨.gf4, Element.n⟩]
    (∀ u ∈ us, u.step.WellTyped regs) ∧
    (runAll .elements us regs).toList.map (fun c => c.val.val) = [0x0, 0x7, 0x2] ∧
    (assign .sub 0 0).Turns .elements (runAll .elements (us.take 2) regs)
      (runAll .elements (us.take 3) regs) ∧
    ∃ file, Gate.runAll .elements [.binary .mul 0 1, .select true 3 1, .select true 1 3,
        .binary .sub 4 4, .binary .mul 5 5, .select true 2 2, .select true 2 2] regs = .ok file ∧
      [file[6]?, file[7]?, file[9]?] = (runAll .elements us regs).toList.map some := by
  intro us regs
  have h : ∀ u ∈ us, u.step.WellTyped regs := by
    simp only [us, List.forall_mem_cons, List.not_mem_nil, false_imp_iff, implies_true, and_true]
    exact ⟨⟨_, _, rfl, rfl, rfl, trivial⟩, ⟨_, _, rfl, rfl, rfl, trivial⟩,
      ⟨_, _, rfl, rfl, rfl, trivial⟩, ⟨_, _, rfl, rfl, rfl, trivial⟩,
      ⟨_, _, rfl, rfl, rfl, trivial⟩⟩
  obtain ⟨-, hturns, hgates, -⟩ := runAll_refines_gates us regs h
  exact ⟨h, by decide, hturns (us.take 2) _ (us.drop 3) rfl, hgates⟩

end ElementProgram

end NormalTower
