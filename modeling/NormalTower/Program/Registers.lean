/-!
# Registers

A program names its registers by their indices. `fetch` is the register at an index, for registers
of any kind, and the error of the program that reads it if there is none.

* `fetch_eq_ok_iff`, `fetch_cases`: what is found, and when nothing is.
* `fetch_map`, `fetch_congr`: other registers at the same index.
-/

namespace NormalTower

variable {ε α β : Type} {missing : Nat → ε} {regs : Array α} {index : Nat}

/-- The register at an index; `missing` is the error for an index without one. -/
def fetch (missing : Nat → ε) (regs : Array α) (index : Nat) : Except ε α :=
  match regs[index]? with
  | some x => .ok x
  | none => .error (missing index)

theorem fetch_eq_ok_iff {x : α} : fetch missing regs index = .ok x ↔ regs[index]? = some x := by
  unfold fetch
  cases regs[index]? <;> simp

theorem fetch_cases (missing : Nat → ε) (regs : Array α) (index : Nat) :
    (∃ h : index < regs.size, fetch missing regs index = .ok regs[index]) ∨
      ¬ index < regs.size ∧ fetch missing regs index = .error (missing index) := by
  unfold fetch
  by_cases h : index < regs.size
  · exact .inl ⟨h, by rw [Array.getElem?_eq_getElem h]⟩
  · exact .inr ⟨h, by rw [Array.getElem?_eq_none (by omega)]⟩

theorem fetch_map (f : α → β) (missing : Nat → ε) (regs : Array α) (index : Nat) :
    fetch missing (regs.map f) index = (fetch missing regs index).map f := by
  unfold fetch
  rw [Array.getElem?_map]
  cases regs[index]? <;> rfl

theorem fetch_congr (missing : Nat → ε) {regs' : Array α} (h : regs[index]? = regs'[index]?) :
    fetch missing regs index = fetch missing regs' index := by
  unfold fetch
  rw [h]

end NormalTower
