import NormalTower.Proofs.Program.Secrets
import NormalTower.Proofs.Sharing.Fresh

/-!
# How a program reads the tape

How many random bytes a step draws is fixed before the run: it depends on the operation and the
number of shares (`Step.draws`), and on whether the registers it names exist, since a refused step
draws nothing (`Step.cost`). So the position on the tape says nothing about shares or secrets, and
the program reads the tape in stretches that follow each other (`windows`).

`Step.Does` says once what a step can do, and the facts about one step follow from it: how much it
reads (`Step.reads_exec`), how many registers it leaves (`Step.size_exec`) and whether it is refused
(`Step.exec_ok_iff`). Its outcome depends on the registers it names and on the bytes it reads alone
(`Step.outcome_congr_of_agree`).

* `pos_states`, `pairwise_disjoint_windows`, `pos_runAll`: the positions along a run.
* `runAll_reads_windows`: all of this for a whole run, and the comparison of a step in two runs.
-/

namespace NormalTower.SharingProgram

variable {n : Nat}

/-! ## What is known before a run -/

/-- The number of bytes the operation draws. -/
def UnaryOp.draws (n : Nat) : UnaryOp → Nat
  | .copy => 0
  | .scaledSquare16 => 0
  | .inv16 => 9 * (n * (n - 1) / 2)
  | .inv256 => 36 * (n * (n - 1) / 2)

/-- The number of bytes the operation draws. -/
def BinaryOp.draws (n : Nat) : BinaryOp → Nat
  | .xor => 0
  | .and => n * (n - 1) / 2
  | .mul4 => 3 * (n * (n - 1) / 2)
  | .mul16 => 9 * (n * (n - 1) / 2)

namespace Step

/-- The number of bytes the step draws if it is not refused. -/
def draws : Step n → Nat
  | .share _ => n - 1
  | .given _ => 0
  | .unary op _ => op.draws n
  | .binary op _ _ => op.draws n
  | .wipe _ => 0
  | .same _ _ => 0
  | .text _ _ _ => 0
  | .unknown => 0

/-- The registers that the step names. -/
def operands : Step n → List Nat
  | .share _ => []
  | .given _ => []
  | .unary _ a => [a]
  | .binary _ a b => [a, b]
  | .wipe a => [a]
  | .same a b => [a, b]
  | .text _ _ a => [a]
  | .unknown => []

/-- Whether the step is carried out where there are `size` registers. -/
def accepted (size : Nat) : Step n → Bool
  | .share _ => n ≠ 0
  | .given _ => true
  | .unary _ a => a < size
  | .binary _ a b => a < size ∧ b < size
  | .wipe a => a < size
  | .same a b => a < size ∧ b < size
  | .text (.debug _ _) _ a => a < size
  | .text _ _ _ => false
  | .unknown => false

/-- Whether the step appends a register. -/
def appends : Step n → Bool
  | .share _ => true
  | .given _ => true
  | .unary _ _ => true
  | .binary _ _ _ => true
  | _ => false

/-- The number of bytes the step draws where there are `size` registers. -/
def cost (size : Nat) (s : Step n) : Nat := if s.accepted size then s.draws else 0

/-- The number of registers after the step. -/
def sizeAfter (size : Nat) (s : Step n) : Nat :=
  if s.accepted size && s.appends then size + 1 else size

end Step

/-! ## What a step can do -/

/-- What a step can do: it is refused, or it appends what it draws, or it draws nothing and keeps
the number of registers. -/
inductive Step.Does (regs : Array (Sharing n)) (s : Step n) : Prop where
  | refused (e : Refusal) (ha : s.accepted regs.size = false) (h : s.plan regs = .error e)
  | appended (d : Draw (Sharing n)) (ha : s.accepted regs.size = true) (happ : s.appends = true)
    (hd : d.Reads s.draws) (h : s.plan regs = .ok (append regs d))
  | kept (answer : Answer n) (regs' : Array (Sharing n)) (ha : s.accepted regs.size = true)
    (happ : s.appends = false) (h0 : s.draws = 0) (hsize : regs'.size = regs.size)
    (h : s.plan regs = .ok (pure (answer, regs')))

theorem UnaryOp.reads_apply (op : UnaryOp) (x : Sharing n) : (op.apply x).Reads (op.draws n) := by
  cases op with
  | copy => exact .pure _
  | scaledSquare16 => exact .pure _
  | inv16 => exact Sharing.masked_inv16.reads x
  | inv256 => exact Sharing.masked_inv256.reads x

theorem BinaryOp.reads_apply (op : BinaryOp) (x y : Sharing n) :
    (op.apply x y).Reads (op.draws n) := by
  cases op with
  | xor => exact .pure _
  | and => exact Sharing.masked_and.reads (x, y)
  | mul4 => exact Sharing.masked_mul4.reads (x, y)
  | mul16 => exact Sharing.masked_mul16.reads (x, y)

theorem Step.does (s : Step n) (regs : Array (Sharing n)) : s.Does regs := by
  cases s with
  | share secret =>
    cases n with
    | zero => exact .refused .noShares rfl rfl
    | succ n =>
      exact .appended (Sharing.share secret) (by simp [accepted]) rfl
        (Sharing.reads_share secret) rfl
  | given x => exact .appended (pure x) rfl rfl (.pure x) rfl
  | unary op a =>
    rcases fetch_cases Refusal.noRegister regs a with ⟨ha, hx⟩ | ⟨ha, he⟩
    · exact .appended (op.apply regs[a]) (decide_eq_true ha) rfl (op.reads_apply _)
        (by simp only [plan, hx]; rfl)
    · exact .refused _ (decide_eq_false ha) (by simp only [plan, he]; rfl)
  | binary op a b =>
    rcases fetch_cases Refusal.noRegister regs a with ⟨ha, hx⟩ | ⟨ha, he⟩
    · rcases fetch_cases Refusal.noRegister regs b with ⟨hb, hy⟩ | ⟨hb, he⟩
      · exact .appended (op.apply regs[a] regs[b]) (decide_eq_true ⟨ha, hb⟩) rfl
          (op.reads_apply _ _) (by simp only [plan, hx, hy]; rfl)
      · exact .refused _ (decide_eq_false fun h => hb h.2) (by simp only [plan, hx, he]; rfl)
    · exact .refused _ (decide_eq_false fun h => ha h.1) (by simp only [plan, he]; rfl)
  | wipe a =>
    rcases fetch_cases Refusal.noRegister regs a with ⟨ha, hx⟩ | ⟨ha, he⟩
    · exact .kept _ _ (decide_eq_true ha) rfl rfl Array.size_setIfInBounds
        (by simp only [plan, hx]; rfl)
    · exact .refused _ (decide_eq_false ha) (by simp only [plan, he]; rfl)
  | same a b =>
    rcases fetch_cases Refusal.noRegister regs a with ⟨ha, hx⟩ | ⟨ha, he⟩
    · rcases fetch_cases Refusal.noRegister regs b with ⟨hb, hy⟩ | ⟨hb, he⟩
      · exact .kept _ _ (decide_eq_true ⟨ha, hb⟩) rfl rfl rfl (by simp only [plan, hx, hy]; rfl)
      · exact .refused _ (decide_eq_false fun h => hb h.2) (by simp only [plan, hx, he]; rfl)
    · exact .refused _ (decide_eq_false fun h => ha h.1) (by simp only [plan, he]; rfl)
  | text d width a =>
    rcases fetch_cases Refusal.noRegister regs a with ⟨ha, hx⟩ | ⟨ha, he⟩
    · cases d with
      | display => exact .refused _ rfl (by simp only [plan, hx]; rfl)
      | lowerHex style => exact .refused _ rfl (by simp only [plan, hx]; rfl)
      | debug base style =>
        exact .kept _ _ (decide_eq_true ha) rfl rfl rfl (by simp only [plan, hx]; rfl)
    · have hrefused : accepted (n := n) regs.size (.text d width a) = false := by
        cases d with
        | display => rfl
        | lowerHex style => rfl
        | debug base style => exact decide_eq_false ha
      exact .refused _ hrefused (by simp only [plan, he]; rfl)
  | unknown => exact .refused .unknown rfl rfl

theorem reads_append (regs : Array (Sharing n)) {d : Draw (Sharing n)} {k : Nat} (hd : d.Reads k) :
    (append regs d).Reads k :=
  hd.counted.bind fun _ => .pure _

namespace Step

/-- A step reads the bytes it is known to read, and nothing else of the tape counts. -/
theorem reads_exec (s : Step n) (regs : Array (Sharing n)) :
    (s.exec regs).Reads (s.cost regs.size) := by
  unfold exec cost
  cases s.does regs with
  | refused e ha h =>
    rw [h, ha]
    exact .pure _
  | appended d ha happ hd h =>
    rw [h, ha, if_pos rfl]
    exact (reads_append regs hd).bind fun _ => .pure _
  | kept answer regs' ha happ h0 hsize h =>
    rw [h, ha, if_pos rfl, h0]
    exact .pure _

theorem size_exec (s : Step n) (regs : Array (Sharing n)) (t : Tape) (pos : Nat) :
    ((s.exec regs).runAt t pos).1.2.size = s.sizeAfter regs.size := by
  unfold exec sizeAfter
  cases s.does regs with
  | refused e ha h =>
    rw [h, ha]
    rfl
  | appended d ha happ hd h =>
    rw [h, ha, happ]
    exact Array.size_push _
  | kept answer regs' ha happ h0 hsize h =>
    rw [h, ha, happ]
    exact hsize

theorem exec_ok_iff (s : Step n) (regs : Array (Sharing n)) (t : Tape) (pos : Nat) :
    (∃ answer, ((s.exec regs).runAt t pos).1.1 = .ok answer) ↔ s.accepted regs.size = true := by
  unfold exec
  cases s.does regs with
  | refused e ha h =>
    rw [h, ha]
    simp
  | appended d ha happ hd h =>
    rw [h, ha]
    exact iff_of_true ⟨_, rfl⟩ rfl
  | kept answer regs' ha happ h0 hsize h =>
    rw [h, ha]
    exact iff_of_true ⟨_, rfl⟩ rfl

/-- The outcome of a step depends on the registers it names only. -/
theorem outcome_congr {s : Step n} {regs regs' : Array (Sharing n)}
    (h : ∀ a ∈ s.operands, regs[a]? = regs'[a]?) (t : Tape) (pos : Nat) :
    ((s.exec regs).runAt t pos).1.1 = ((s.exec regs').runAt t pos).1.1 := by
  cases s with
  | share secret => cases n <;> rfl
  | given x => rfl
  | unary op a =>
    have ha := fetch_congr Refusal.noRegister (h a (by simp [operands]))
    simp only [exec, plan, ha]
    cases fetch Refusal.noRegister regs' a <;> rfl
  | binary op a b =>
    have ha := fetch_congr Refusal.noRegister (h a (by simp [operands]))
    have hb := fetch_congr Refusal.noRegister (h b (by simp [operands]))
    simp only [exec, plan, ha, hb]
    cases fetch Refusal.noRegister regs' a with
    | error e => rfl
    | ok x => cases fetch Refusal.noRegister regs' b <;> rfl
  | wipe a =>
    have ha := fetch_congr Refusal.noRegister (h a (by simp [operands]))
    simp only [exec, plan, ha]
    cases fetch Refusal.noRegister regs' a <;> rfl
  | same a b =>
    have ha := fetch_congr Refusal.noRegister (h a (by simp [operands]))
    have hb := fetch_congr Refusal.noRegister (h b (by simp [operands]))
    simp only [exec, plan, ha, hb]
    cases fetch Refusal.noRegister regs' a with
    | error e => rfl
    | ok x => cases fetch Refusal.noRegister regs' b <;> rfl
  | text d width a =>
    have ha := fetch_congr Refusal.noRegister (h a (by simp [operands]))
    simp only [exec, plan, ha]
    cases fetch Refusal.noRegister regs' a with
    | error e => rfl
    | ok x => cases d <;> rfl
  | unknown => rfl

/-- The outcome of a step depends on the registers it names and on the bytes it reads only. -/
theorem outcome_congr_of_agree {s : Step n} {st st' : State n} {t t' : Tape}
    (hregs : ∀ a ∈ s.operands, st.regs[a]? = st'.regs[a]?)
    (ht : ∀ k < s.cost st.regs.size, t (st.pos + k) = t' (st'.pos + k)) :
    ((s.exec st.regs).runAt t st.pos).1.1 = ((s.exec st'.regs).runAt t' st'.pos).1.1 := by
  have hwindow : ((s.exec st.regs).runAt t st.pos).1 = ((s.exec st.regs).runAt t' st'.pos).1 := by
    rw [(s.reads_exec st.regs).runAt_eq, (s.reads_exec st.regs).runAt_eq]
    exact (s.reads_exec st.regs).out_congr ht
  rw [hwindow]
  exact outcome_congr hregs t' st'.pos

theorem pos_next (t : Tape) (st : State n) (s : Step n) :
    (s.next t st).pos = st.pos + s.cost st.regs.size := by
  unfold next
  rw [(s.reads_exec st.regs).runAt_eq]

theorem size_next (t : Tape) (st : State n) (s : Step n) :
    (s.next t st).regs.size = s.sizeAfter st.regs.size :=
  s.size_exec st.regs t st.pos

end Step

/-! ## A whole run -/

/-- The numbers of bytes that the steps draw, where there are `size` registers at first. -/
def costs (size : Nat) : List (Step n) → List Nat
  | [] => []
  | s :: steps => s.cost size :: costs (s.sizeAfter size) steps

/-- The outcomes of the steps. -/
def outcomes (t : Tape) (st : State n) (steps : List (Step n)) :
    List (Except Refusal (Answer n)) :=
  ((runAll steps st.regs).runAt t st.pos).1.1

/-- The stretches of the tape between the positions before and after each step. -/
def windows (t : Tape) (st : State n) (steps : List (Step n)) : List (Finset Nat) :=
  List.zipWith (fun a b => Finset.Ico a.pos b.pos) (states t st steps) (states t st steps).tail

theorem states_cons (t : Tape) (st : State n) (s : Step n) (steps : List (Step n)) :
    states t st (s :: steps) = st :: states t (s.next t st) steps :=
  List.scanl_cons

theorem windows_cons (t : Tape) (st : State n) (s : Step n) (steps : List (Step n)) :
    windows t st (s :: steps) =
      Finset.Ico st.pos (s.next t st).pos :: windows t (s.next t st) steps := by
  have hhead : ∀ st' : State n, states t st' steps = st' :: (states t st' steps).tail := by
    intro st'
    cases steps with
    | nil => rfl
    | cons s' steps => rw [states_cons, List.tail_cons]
  unfold windows
  rw [states_cons, List.tail_cons, hhead, List.zipWith_cons_cons, List.tail_cons]

theorem pos_states (t : Tape) : ∀ (steps : List (Step n)) (st : State n),
    (states t st steps).map State.pos = (costs st.regs.size steps).scanl (· + ·) st.pos
  | [], _ => rfl
  | s :: steps, st => by
    rw [states_cons, List.map_cons, pos_states t steps, s.pos_next, s.size_next]
    exact List.scanl_cons.symm

theorem card_windows (t : Tape) : ∀ (steps : List (Step n)) (st : State n),
    (windows t st steps).map Finset.card = costs st.regs.size steps
  | [], _ => rfl
  | s :: steps, st => by
    rw [windows_cons, List.map_cons, card_windows t steps, Nat.card_Ico, s.pos_next, s.size_next,
      Nat.add_sub_cancel_left]
    rfl

theorem le_of_mem_windows (t : Tape) : ∀ (steps : List (Step n)) (st : State n),
    ∀ W ∈ windows t st steps, ∀ q ∈ W, st.pos ≤ q
  | [], _, _, hW, _, _ => absurd hW List.not_mem_nil
  | s :: steps, st, W, hW, q, hq => by
    rw [windows_cons] at hW
    rcases List.mem_cons.mp hW with rfl | hW
    · exact (Finset.mem_Ico.mp hq).1
    · have hle := le_of_mem_windows t steps (s.next t st) W hW q hq
      rw [s.pos_next] at hle
      omega

/-- No two steps read the same byte. -/
theorem pairwise_disjoint_windows (t : Tape) : ∀ (steps : List (Step n)) (st : State n),
    (windows t st steps).Pairwise Disjoint
  | [], _ => List.Pairwise.nil
  | s :: steps, st => by
    rw [windows_cons]
    refine List.Pairwise.cons (fun W hW => ?_) (pairwise_disjoint_windows t steps _)
    rw [Finset.disjoint_left]
    intro q hq hqW
    have hle := le_of_mem_windows t steps (s.next t st) W hW q hqW
    have hlt := (Finset.mem_Ico.mp hq).2
    omega

theorem pos_runAll (t : Tape) : ∀ (steps : List (Step n)) (st : State n),
    ((runAll steps st.regs).runAt t st.pos).2 = st.pos + (costs st.regs.size steps).sum
  | [], _ => rfl
  | s :: steps, st => by
    have ih := pos_runAll t steps (s.next t st)
    rw [s.pos_next, s.size_next] at ih
    show ((runAll steps (s.next t st).regs).runAt t (s.next t st).pos).2 =
      st.pos + (s.cost st.regs.size + (costs (s.sizeAfter st.regs.size) steps).sum)
    rw [s.pos_next, ih, Nat.add_assoc]

theorem getElem?_outcomes (t : Tape) : ∀ (steps : List (Step n)) (st : State n) {i : Nat}
    {s : Step n} {a : State n}, steps[i]? = some s → (states t st steps)[i]? = some a →
      (outcomes t st steps)[i]? = some ((s.exec a.regs).runAt t a.pos).1.1
  | [], _, _, _, _, hs, _ => by cases hs
  | _ :: _, _, 0, _, _, hs, ha => by
    rw [states_cons] at ha
    cases hs
    cases ha
    rfl
  | s :: steps, st, _ + 1, _, _, hs, ha => by
    rw [states_cons] at ha
    exact getElem?_outcomes t steps (s.next t st) hs ha

/-- **A program reads the tape in consecutive windows of known lengths.** The positions along a run
are the sums of what the steps draw, and no two steps read the same byte. A step is refused if and
only if a register is missing or it asks for what does not exist, and it has the same outcome
wherever else it stands, as long as the registers it names and the bytes in its window are the
same. -/
theorem runAll_reads_windows (steps : List (Step n)) (t : Tape) (st : State n) :
    (states t st steps).map State.pos = (costs st.regs.size steps).scanl (· + ·) st.pos ∧
    (windows t st steps).map Finset.card = costs st.regs.size steps ∧
    (windows t st steps).Pairwise Disjoint ∧
    ((runAll steps st.regs).runAt t st.pos).2 = st.pos + (costs st.regs.size steps).sum ∧
    ∀ (i : Nat) (s : Step n) (a : State n), steps[i]? = some s → (states t st steps)[i]? = some a →
      ((∃ answer, (outcomes t st steps)[i]? = some (.ok answer)) ↔
        s.accepted a.regs.size = true) ∧
      ∀ (steps' : List (Step n)) (t' : Tape) (st' : State n) (j : Nat) (a' : State n),
        steps'[j]? = some s → (states t' st' steps')[j]? = some a' →
        (∀ r ∈ s.operands, a.regs[r]? = a'.regs[r]?) →
        (∀ k < s.cost a.regs.size, t (a.pos + k) = t' (a'.pos + k)) →
        (outcomes t st steps)[i]? = (outcomes t' st' steps')[j]? := by
  refine ⟨pos_states t steps st, card_windows t steps st, pairwise_disjoint_windows t steps st,
    pos_runAll t steps st, fun i s a hs ha => ⟨?_, ?_⟩⟩
  · rw [getElem?_outcomes t steps st hs ha, ← s.exec_ok_iff a.regs t a.pos]
    simp only [Option.some.injEq]
  · intro steps' t' st' j a' hs' ha' hregs ht
    rw [getElem?_outcomes t steps st hs ha, getElem?_outcomes t' steps' st' hs' ha',
      Step.outcome_congr_of_agree hregs ht]

/-- A masked AND that draws the byte 7, once as the first draw and once behind a fresh sharing. -/
theorem outcome_and_behind_share :
    (states (Tape.cycle [7]) ⟨0, #[]⟩ [.given (⟨#v[1, 2]⟩ : Sharing 2), .given ⟨#v[3, 4]⟩,
      .binary .and 0 1])[2]? = some ⟨0, #[⟨#v[1, 2]⟩, ⟨#v[3, 4]⟩]⟩ ∧
    (states (Tape.cycle [7, 0, 9]) ⟨2, #[]⟩ [.given (⟨#v[1, 2]⟩ : Sharing 2), .given ⟨#v[3, 4]⟩,
      .share 5, .binary .and 0 1])[3]? =
        some ⟨3, #[⟨#v[1, 2]⟩, ⟨#v[3, 4]⟩, ⟨#v[9, 12]⟩]⟩ ∧
    (outcomes (Tape.cycle [7]) ⟨0, #[]⟩ [.given (⟨#v[1, 2]⟩ : Sharing 2), .given ⟨#v[3, 4]⟩,
      .binary .and 0 1])[2]? =
    (outcomes (Tape.cycle [7, 0, 9]) ⟨2, #[]⟩ [.given (⟨#v[1, 2]⟩ : Sharing 2), .given ⟨#v[3, 4]⟩,
      .share 5, .binary .and 0 1])[3]? := by
  refine ⟨rfl, rfl, ?_⟩
  refine ((runAll_reads_windows _ _ _).2.2.2.2 2 (.binary .and 0 1)
    ⟨0, #[⟨#v[1, 2]⟩, ⟨#v[3, 4]⟩]⟩ rfl rfl).2 _ _ _ 3
    ⟨3, #[⟨#v[1, 2]⟩, ⟨#v[3, 4]⟩, ⟨#v[9, 12]⟩]⟩ rfl rfl ?_ ?_
  · decide
  · decide

end NormalTower.SharingProgram
