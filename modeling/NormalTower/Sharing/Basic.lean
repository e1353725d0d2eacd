import NormalTower.Packed.Basic
import NormalTower.Sharing.Draw

/-!
# Sharings

A `Sharing n` splits a secret byte into `n` shares whose exclusive or is the secret. Linear maps are
computed on each share alone (`map`, `split`, `join`, `^^^`).

* `getElem_map`, `getElem_xor`, `getElem_split_hi`, `getElem_split_lo`, `getElem_join`: what an
  operation does to share `i`.
* `ext`: a sharing is determined by its shares; `ofList?_toList`: also as a list.
-/

namespace NormalTower

/-- The `n` shares of a secret byte. -/
structure Sharing (n : Nat) where
  /-- The shares, each to be kept apart from the others. -/
  shares : Vector UInt8 n
deriving DecidableEq

namespace Sharing

variable {n : Nat}

instance : GetElem (Sharing n) Nat UInt8 (fun _ i => i < n) where
  getElem x i h := x.shares[i]

@[ext] theorem ext {x y : Sharing n} (h : ∀ (i : Nat) (hi : i < n), x[i] = y[i]) : x = y := by
  cases x; cases y
  exact congrArg mk (Vector.ext h)

/-- The sharing with the given shares. -/
def ofFn (f : Fin n → UInt8) : Sharing n := ⟨Vector.ofFn f⟩

/-- The sharing with the given list of shares, if there are `n` of them. -/
def ofList? (l : List UInt8) : Option (Sharing n) :=
  if h : l.length = n then some ⟨⟨l.toArray, h⟩⟩ else none

/-- The shares in order. -/
def toList (x : Sharing n) : List UInt8 := x.shares.toList

/-- Every share is zero. -/
def zero (n : Nat) : Sharing n := ⟨Vector.replicate n 0⟩

/-- The secret: the exclusive or of all shares. -/
def recombine (x : Sharing n) : UInt8 := x.shares.foldl (· ^^^ ·) 0

/-- Apply `f` to each share. -/
def map (f : UInt8 → UInt8) (x : Sharing n) : Sharing n := ⟨x.shares.map f⟩

/-- Combine two sharings share by share. -/
def zipWith (f : UInt8 → UInt8 → UInt8) (x y : Sharing n) : Sharing n :=
  ⟨x.shares.zipWith f y.shares⟩

instance : XorOp (Sharing n) where
  xor := zipWith (· ^^^ ·)

/-- The coordinates of every share. -/
def split (l : Level) (x : Sharing n) : Halves (Sharing n) :=
  ⟨x.map fun s => (Packed.split l s).hi, x.map fun s => (Packed.split l s).lo⟩

/-- Pack the coordinates share by share. -/
def join (l : Level) (hi lo : Sharing n) : Sharing n := zipWith (Packed.join l) hi lo

/-- Share `i`. -/
def get (x : Sharing n) (i : Fin n) : UInt8 := x.shares.get i

/-- The sharing `x` with `b` added to share `i`. -/
def addAt (x : Sharing n) (i : Fin n) (b : UInt8) : Sharing n :=
  ⟨x.shares.set i (x.get i ^^^ b) i.isLt⟩

/-- Split a secret afresh: all shares but the last are drawn, and the last makes up the secret. -/
def share (secret : UInt8) : Draw (Sharing (n + 1)) := do
  let v ← Draw.bytes n
  return ⟨v.push (v.foldl (· ^^^ ·) secret)⟩

/-- How many shares may become known without telling anything about the secret. -/
def order (n : Nat) : Nat := n - 1

/-! ## Share by share -/

@[simp] theorem getElem_mk (v : Vector UInt8 n) (i : Nat) (h : i < n) :
    (Sharing.mk v)[i] = v[i] := rfl

theorem get_eq_getElem (x : Sharing n) (i : Fin n) : x.get i = getElem x i.val i.isLt := rfl

@[simp] theorem getElem_shares (x : Sharing n) (i : Nat) (h : i < n) : x.shares[i] = x[i] := rfl

@[simp] theorem getElem_ofFn (f : Fin n → UInt8) (i : Nat) (h : i < n) :
    (ofFn f)[i] = f ⟨i, h⟩ :=
  Vector.getElem_ofFn h

@[simp] theorem getElem_zero (i : Nat) (h : i < n) : (zero n)[i] = 0 :=
  Vector.getElem_replicate h

@[simp] theorem getElem_map (f : UInt8 → UInt8) (x : Sharing n) (i : Nat) (h : i < n) :
    (x.map f)[i] = f x[i] :=
  Vector.getElem_map f h

@[simp] theorem getElem_zipWith (f : UInt8 → UInt8 → UInt8) (x y : Sharing n) (i : Nat)
    (h : i < n) : (zipWith f x y)[i] = f x[i] y[i] :=
  Vector.getElem_zipWith h

@[simp] theorem getElem_xor (x y : Sharing n) (i : Nat) (h : i < n) :
    (x ^^^ y)[i] = x[i] ^^^ y[i] :=
  getElem_zipWith (· ^^^ ·) x y i h

@[simp] theorem getElem_split_hi (l : Level) (x : Sharing n) (i : Nat) (h : i < n) :
    (x.split l).hi[i] = (Packed.split l x[i]).hi :=
  getElem_map _ x i h

@[simp] theorem getElem_split_lo (l : Level) (x : Sharing n) (i : Nat) (h : i < n) :
    (x.split l).lo[i] = (Packed.split l x[i]).lo :=
  getElem_map _ x i h

@[simp] theorem getElem_join (l : Level) (hi lo : Sharing n) (i : Nat) (h : i < n) :
    (join l hi lo)[i] = Packed.join l hi[i] lo[i] :=
  getElem_zipWith _ hi lo i h

theorem ofList?_toList (x : Sharing n) : ofList? x.toList = some x := by
  simp only [ofList?, toList, Vector.length_toList, ↓reduceDIte, Option.some.injEq]
  exact congrArg mk (Vector.toArray_inj.mp (Array.toArray_toList ..))

theorem getElem_addAt (x : Sharing n) (i : Fin n) (b : UInt8) (j : Nat) (h : j < n) :
    (x.addAt i b)[j] = if i = j then x[j] ^^^ b else x[j] := by
  simp only [addAt, getElem_mk]
  rw [Vector.getElem_set]
  split
  · subst j; rfl
  · rfl

end Sharing

end NormalTower
