import Mathlib

/-!
# Computations that may fail

When a computation made of others succeeds and with what, and when it fails and why.
-/

namespace NormalTower

/-! ## Success -/

theorem bind_eq_ok_iff {ε α β : Type} {m : Except ε α} {g : α → Except ε β} {y : β} :
    (m >>= g) = .ok y ↔ ∃ x, m = .ok x ∧ g x = .ok y := by
  cases m with
  | error e =>
    constructor
    · intro h
      cases h
    · rintro ⟨x, h, -⟩
      cases h
  | ok x =>
    constructor
    · intro h
      exact ⟨x, rfl, h⟩
    · rintro ⟨_, h, hy⟩
      cases h
      exact hy

theorem mapError_eq_ok_iff {ε ε' α : Type} {k : ε → ε'} {m : Except ε α} {x : α} :
    m.mapError k = .ok x ↔ m = .ok x := by
  cases m <;> simp [Except.mapError]

theorem exists_bind_iff {ε α β : Type} {m : Except ε α} {g : α → Except ε β} :
    (∃ y, (m >>= g) = .ok y) ↔ ∃ x, m = .ok x ∧ ∃ y, g x = .ok y := by
  simp only [bind_eq_ok_iff]
  exact ⟨fun ⟨y, x, hx, hy⟩ => ⟨x, hx, y, hy⟩, fun ⟨x, hx, y, hy⟩ => ⟨y, x, hx, hy⟩⟩

theorem exists_pure_iff {ε α : Type} {x : α} : (∃ y, (pure x : Except ε α) = .ok y) ↔ True :=
  iff_of_true ⟨x, rfl⟩ trivial

theorem exists_map_iff {ε ε' α β : Type} {h : α → β} {k : ε → ε'} {m : Except ε α} :
    (∃ y, (h <$> m).mapError k = .ok y) ↔ ∃ x, m = .ok x := by
  cases m with
  | error e =>
    constructor
    · rintro ⟨y, hy⟩
      cases hy
    · rintro ⟨x, hx⟩
      cases hx
  | ok x => exact iff_of_true ⟨h x, rfl⟩ ⟨x, rfl⟩

/-! ## Failure -/

theorem bind_eq_error_iff {ε α β : Type} {m : Except ε α} {g : α → Except ε β} {e : ε} :
    (m >>= g) = .error e ↔ m = .error e ∨ ∃ x, m = .ok x ∧ g x = .error e := by
  cases m with
  | error e' =>
    constructor
    · intro h
      cases h
      exact Or.inl rfl
    · rintro (h | ⟨x, h, -⟩)
      · cases h
        rfl
      · cases h
  | ok x =>
    constructor
    · intro h
      exact Or.inr ⟨x, rfl, h⟩
    · rintro (h | ⟨_, h, he⟩)
      · cases h
      · cases h
        exact he

theorem mapError_eq_error_iff {ε ε' α : Type} {k : ε → ε'} {m : Except ε α} {e : ε'} :
    m.mapError k = .error e ↔ ∃ e₀, m = .error e₀ ∧ k e₀ = e := by
  cases m <;> simp [Except.mapError]

end NormalTower
