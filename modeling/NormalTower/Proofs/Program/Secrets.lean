import NormalTower.Program.Sharings
import NormalTower.Proofs.Sharing.Masked

/-!
# Programs over sharings compute on the secrets

A run of a program is the list of states it passes: the position on the tape and the registers
before the first step and after each one (`states`). The last state is what `runAll` leaves
(`runAt_runAll`).

One step on the registers is one step on their secrets (`recombine_exec`), so the secrets along a
run are those of the program on bare bytes (`secrets_states`). They depend neither on the random
bytes nor on how a secret was split (`secrets_states_eq_plain`).
-/

namespace NormalTower.SharingProgram

variable {n n' : Nat}

/-! ## The states of a run -/

/-- The position on the tape and the registers between two steps. -/
structure State (n : Nat) where
  pos : Nat
  regs : Array (Sharing n)

/-- The secrets that the registers hold. -/
def State.secrets (st : State n) : Array UInt8 := st.regs.map Sharing.recombine

/-- The state after a step. -/
def Step.next (t : Tape) (st : State n) (s : Step n) : State n :=
  let r := (s.exec st.regs).runAt t st.pos
  ⟨r.2, r.1.2⟩

/-- The states before the first step and after every step. -/
def states (t : Tape) (st : State n) (steps : List (Step n)) : List (State n) :=
  steps.scanl (Step.next t) st

theorem runAt_runAll (t : Tape) : ∀ (steps : List (Step n)) (st : State n),
    steps.foldl (Step.next t) st =
      ⟨((runAll steps st.regs).runAt t st.pos).2, ((runAll steps st.regs).runAt t st.pos).1.2⟩
  | [], _ => rfl
  | s :: steps, st => by
    rw [List.foldl_cons, runAt_runAll t steps]
    rfl

/-! ## One step -/

theorem UnaryOp.recombine_apply (op : UnaryOp) (x : Sharing n) (t : Tape) (pos : Nat) :
    ((op.apply x).runAt t pos).1.recombine = op.plain x.recombine := by
  cases op with
  | copy => rfl
  | scaledSquare16 => exact Sharing.recombine_scaledSquare16 x
  | inv16 => exact Sharing.masked_inv16.recombine_runAt x t pos
  | inv256 => exact Sharing.masked_inv256.recombine_runAt x t pos

theorem BinaryOp.recombine_apply (op : BinaryOp) (x y : Sharing n) (t : Tape) (pos : Nat) :
    ((op.apply x y).runAt t pos).1.recombine = op.plain x.recombine y.recombine := by
  cases op with
  | xor => exact Sharing.recombine_xor x y
  | and => exact Sharing.masked_and.recombine_runAt (x, y) t pos
  | mul4 => exact Sharing.masked_mul4.recombine_runAt (x, y) t pos
  | mul16 => exact Sharing.masked_mul16.recombine_runAt (x, y) t pos

/-- **One step on the sharings is one step on the secrets.** -/
theorem recombine_exec (s : Step n) (regs : Array (Sharing n)) (t : Tape) (pos : Nat) :
    ((s.exec regs).runAt t pos).1.2.map Sharing.recombine =
      s.plain (regs.map Sharing.recombine) := by
  cases s with
  | share secret =>
    cases n with
    | zero => rfl
    | succ n =>
      show (regs.push ((Sharing.share secret : Draw (Sharing (n + 1))).runAt t pos).1).map _ = _
      rw [Array.map_push, Sharing.recombine_runAt_share]
      rfl
  | given x =>
    show (regs.push x).map Sharing.recombine = _
    rw [Array.map_push]
    rfl
  | unary op a =>
    simp only [Step.exec, Step.plan, Step.plain, fetch, Array.getElem?_map]
    cases regs[a]? with
    | none => rfl
    | some x =>
      show (regs.push ((op.apply x).runAt t pos).1).map Sharing.recombine = _
      rw [Array.map_push, op.recombine_apply]
      rfl
  | binary op a b =>
    simp only [Step.exec, Step.plan, Step.plain, fetch, Array.getElem?_map]
    cases regs[a]? with
    | none => rfl
    | some x =>
      cases regs[b]? with
      | none => rfl
      | some y =>
        show (regs.push ((op.apply x y).runAt t pos).1).map Sharing.recombine = _
        rw [Array.map_push, op.recombine_apply]
        rfl
  | wipe a =>
    simp only [Step.exec, Step.plan, Step.plain, fetch]
    cases h : regs[a]? with
    | none =>
      show regs.map Sharing.recombine = _
      rw [Array.setIfInBounds_eq_of_size_le (by simpa using h)]
    | some x =>
      show (regs.setIfInBounds a (Sharing.zero n)).map Sharing.recombine = _
      rw [Array.map_setIfInBounds, Sharing.recombine_zero]
  | same a b =>
    simp only [Step.exec, Step.plan, fetch]
    cases regs[a]? with
    | none => rfl
    | some x => cases regs[b]? <;> rfl
  | text d width a =>
    simp only [Step.exec, Step.plan, fetch]
    cases regs[a]? with
    | none => rfl
    | some x =>
      simp only [bind, Except.bind]
      cases x.format? width d <;> rfl
  | unknown => rfl

/-! ## A whole run -/

theorem secrets_next (t : Tape) (st : State n) (s : Step n) :
    (s.next t st).secrets = s.plain st.secrets :=
  recombine_exec s st.regs t st.pos

/-- The secrets along a run are the registers of the program on bare bytes. -/
theorem secrets_states (t : Tape) : ∀ (steps : List (Step n)) (st : State n),
    (states t st steps).map State.secrets = steps.scanl Step.plain st.secrets
  | [], _ => rfl
  | s :: steps, st => by
    have ih := secrets_states t steps (s.next t st)
    unfold states at ih ⊢
    rw [List.scanl_cons, List.scanl_cons, List.map_cons, ih, secrets_next]

theorem secrets_foldl_next (t : Tape) (steps : List (Step n)) (st : State n) :
    (steps.foldl (Step.next t) st).secrets = steps.foldl Step.plain st.secrets :=
  (List.foldl_hom State.secrets fun st s => (secrets_next t st s).symm).symm

/-- Two steps that do the same to the same secrets; a given sharing may be split in another way,
even into another number of shares. -/
inductive Step.SameSecrets : Step n → Step n' → Prop where
  | share (secret : UInt8) (h : n = 0 ↔ n' = 0) : SameSecrets (.share secret) (.share secret)
  | given (x : Sharing n) (x' : Sharing n') (h : x.recombine = x'.recombine) :
    SameSecrets (.given x) (.given x')
  | unary (op : UnaryOp) (a : Nat) : SameSecrets (.unary op a) (.unary op a)
  | binary (op : BinaryOp) (a b : Nat) : SameSecrets (.binary op a b) (.binary op a b)
  | wipe (a : Nat) : SameSecrets (.wipe a) (.wipe a)
  | same (a b : Nat) : SameSecrets (.same a b) (.same a b)
  | text (d : Directive) (width a : Nat) : SameSecrets (.text d width a) (.text d width a)
  | unknown : SameSecrets .unknown .unknown

theorem Step.SameSecrets.plain_eq {s : Step n} {s' : Step n'} (h : s.SameSecrets s')
    (regs : Array UInt8) : s.plain regs = s'.plain regs := by
  cases h with
  | share secret h =>
    show (if n = 0 then regs else regs.push secret) = if n' = 0 then regs else regs.push secret
    simp only [h]
  | given x x' h =>
    show regs.push x.recombine = regs.push x'.recombine
    rw [h]
  | unary op a => rfl
  | binary op a b => rfl
  | wipe a => rfl
  | same a b => rfl
  | text d width a => rfl
  | unknown => rfl

theorem scanl_plain_eq {steps : List (Step n)} {steps' : List (Step n')}
    (h : List.Forall₂ Step.SameSecrets steps steps') (regs : Array UInt8) :
    steps.scanl Step.plain regs = steps'.scanl Step.plain regs := by
  induction h generalizing regs with
  | nil => rfl
  | cons hs _ ih => rw [List.scanl_cons, List.scanl_cons, hs.plain_eq, ih]

/-- **A program over sharings computes on the secrets.** Before and after every step the secrets of
all registers are the registers of the program on bare bytes; so they are the same for every tape
and for every way to split the secrets. -/
theorem secrets_states_eq_plain (steps : List (Step n)) (t : Tape) (st : State n) :
    (states t st steps).map State.secrets = steps.scanl Step.plain st.secrets ∧
    ((runAll steps st.regs).runAt t st.pos).1.2.map Sharing.recombine =
      steps.foldl Step.plain st.secrets ∧
    ∀ {n' : Nat} (steps' : List (Step n')) (t' : Tape) (st' : State n'),
      st.secrets = st'.secrets → List.Forall₂ Step.SameSecrets steps steps' →
        (states t st steps).map State.secrets = (states t' st' steps').map State.secrets := by
  refine ⟨secrets_states t steps st, ?_, fun steps' t' st' hst h => ?_⟩
  · have hlast := secrets_foldl_next t steps st
    rwa [runAt_runAll] at hlast
  · rw [secrets_states, secrets_states, scanl_plain_eq h, hst]

/-- The inverse of `0x53`, split in two and split in three. -/
theorem secrets_states_inv256 :
    List.Forall₂ Step.SameSecrets
      [.given (⟨#v[0x53, 0]⟩ : Sharing 2), .unary .inv256 0]
      [.given (⟨#v[1, 2, 0x50]⟩ : Sharing 3), .unary .inv256 0] ∧
    (states (Tape.cycle [7]) ⟨0, #[]⟩
      [.given (⟨#v[0x53, 0]⟩ : Sharing 2), .unary .inv256 0]).map State.secrets =
    (states (Tape.cycle [9, 4]) ⟨1, #[]⟩
      [.given (⟨#v[1, 2, 0x50]⟩ : Sharing 3), .unary .inv256 0]).map State.secrets := by
  have h : List.Forall₂ Step.SameSecrets
      [.given (⟨#v[0x53, 0]⟩ : Sharing 2), .unary .inv256 0]
      [.given (⟨#v[1, 2, 0x50]⟩ : Sharing 3), .unary .inv256 0] :=
    .cons (.given _ _ (by decide)) (.cons (.unary _ _) .nil)
  exact ⟨h, (secrets_states_eq_plain _ _ ⟨0, #[]⟩).2.2 _ _ ⟨1, #[]⟩ (by simp [State.secrets]) h⟩

end NormalTower.SharingProgram
