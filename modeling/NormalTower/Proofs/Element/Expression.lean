import Mathlib
import NormalTower.Element.Basic

/-!
# Field expressions

An expression is evaluated over any carrier with the operations of a field (`FieldOps`). A map that
respects these operations carries the value of an expression to the value of the same expression at
the images of its leaves (`FieldOps.Hom.map_eval`).
-/

namespace NormalTower

/-- The operations of a field on a carrier. -/
structure FieldOps (α : Type) where
  add : α → α → α
  sub : α → α → α
  mul : α → α → α
  square : α → α
  /-- The inverse, zero for zero. -/
  inv : α → α

/-- The operations of a level. -/
def Element.ops (l : Level) : FieldOps (Element l) where
  add := (· + ·)
  sub := (· - ·)
  mul := (· * ·)
  square := Element.square
  inv := (·⁻¹)

/-- An expression with leaves in `α`. -/
inductive FieldExpr (α : Type) where
  | leaf (x : α)
  | add (s t : FieldExpr α)
  | sub (s t : FieldExpr α)
  | mul (s t : FieldExpr α)
  | square (s : FieldExpr α)
  | inv (s : FieldExpr α)

namespace FieldExpr

variable {α β : Type}

/-- The value of an expression. -/
def eval (F : FieldOps α) : FieldExpr α → α
  | .leaf x => x
  | .add s t => F.add (s.eval F) (t.eval F)
  | .sub s t => F.sub (s.eval F) (t.eval F)
  | .mul s t => F.mul (s.eval F) (t.eval F)
  | .square s => F.square (s.eval F)
  | .inv s => F.inv (s.eval F)

/-- The same expression at the images of the leaves. -/
def map (f : α → β) : FieldExpr α → FieldExpr β
  | .leaf x => .leaf (f x)
  | .add s t => .add (s.map f) (t.map f)
  | .sub s t => .sub (s.map f) (t.map f)
  | .mul s t => .mul (s.map f) (t.map f)
  | .square s => .square (s.map f)
  | .inv s => .inv (s.map f)

end FieldExpr

/-- `f` respects the operations of a field. -/
structure FieldOps.Hom {α β : Type} (F : FieldOps α) (G : FieldOps β) (f : α → β) : Prop where
  add : ∀ x y, f (F.add x y) = G.add (f x) (f y)
  sub : ∀ x y, f (F.sub x y) = G.sub (f x) (f y)
  mul : ∀ x y, f (F.mul x y) = G.mul (f x) (f y)
  square : ∀ x, f (F.square x) = G.square (f x)
  inv : ∀ x, f (F.inv x) = G.inv (f x)

theorem FieldOps.Hom.map_eval {α β : Type} {F : FieldOps α} {G : FieldOps β} {f : α → β}
    (h : F.Hom G f) (e : FieldExpr α) : f (e.eval F) = (e.map f).eval G := by
  induction e with
  | leaf x => rfl
  | add s t hs ht => exact (h.add _ _).trans (by rw [hs, ht]; rfl)
  | sub s t hs ht => exact (h.sub _ _).trans (by rw [hs, ht]; rfl)
  | mul s t hs ht => exact (h.mul _ _).trans (by rw [hs, ht]; rfl)
  | square s hs => exact (h.square _).trans (by rw [hs]; rfl)
  | inv s hs => exact (h.inv _).trans (by rw [hs]; rfl)

end NormalTower
