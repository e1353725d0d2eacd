import NormalTower.Sharing.Basic

/-!
# The masked AND

The product of two sharings needs every `x[i] &&& y[j]`, and a share that held two of them with
different indices bare would tell about the secrets. So each pair of domains `i < j` draws one byte
`r` and adds `(x[i] &&& y[j]) ^^^ r` to share `i` and `(x[j] &&& y[i]) ^^^ r` to share `j`: the byte
cancels in the exclusive or of all shares.

The order of the steps is part of the definition, because it fixes which pair reads which byte of
the tape: domain by domain, its own product first, then its pairs with all later domains.
-/

namespace NormalTower.Sharing

variable {n : Nat}

/-- One step of the masked AND. -/
inductive AndStep (n : Nat) where
  /-- Domain `i` adds the product of its own two shares. -/
  | own (i : Fin n)
  /-- Domains `i` and `j` add their cross products, each blinded by the same fresh byte. -/
  | cross (i j : Fin n)
deriving DecidableEq

/-- The steps of domain `i`. -/
def domainSteps (i : Fin n) : List (AndStep n) :=
  .own i :: ((List.finRange n).filter (i < ·)).map (.cross i)

/-- All steps, in order. -/
def andSteps (n : Nat) : List (AndStep n) := (List.finRange n).flatMap domainSteps

/-- The accumulated shares after one more step. -/
def AndStep.run (x y acc : Sharing n) : AndStep n → Draw (Sharing n)
  | .own i => pure (acc.addAt i (x.get i &&& y.get i))
  | .cross i j => do
    let r ← Draw.byte
    return (acc.addAt i ((x.get i &&& y.get j) ^^^ r)).addAt j ((x.get j &&& y.get i) ^^^ r)

/-- A sharing of the bitwise product of two secrets. -/
def and (x y : Sharing n) : Draw (Sharing n) :=
  (andSteps n).foldlM (AndStep.run x y) (zero n)

end NormalTower.Sharing
