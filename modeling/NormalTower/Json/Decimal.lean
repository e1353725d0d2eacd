import NormalTower.Json.Basic

/-!
# JSON numbers

A number is a sign, whole digits without a superfluous leading zero, and perhaps a fraction and an
exponent. It is read as far as it goes, so what it means is settled before anything that follows it
is looked at.

Only whole numbers without sign, fraction and exponent can be bytes (`byte?`). A number too large
for double precision counts as no number at all (`overflows`).
-/

namespace NormalTower.Json

/-- A number as it is written. -/
structure Decimal where
  /-- A minus sign stands before it. -/
  negative : Bool
  /-- The digits before the point. -/
  whole : List Char
  /-- The digits after the point, if there is one. -/
  fraction : Option (List Char)
  /-- The exponent, if there is one. -/
  exponent : Option Int

/-- The number a run of digits stands for. -/
def digitsValue (ds : List Char) : Nat := Nat.ofDigitChars 10 ds 0

/-- The whole digits: a zero stands alone. -/
def readWhole : List Char → Except Refusal (List Char × List Char)
  | '0' :: cs =>
    if cs.head?.any Char.isDigit then .error .malformed else .ok (['0'], cs)
  | cs => readDigits cs

/-- The fraction, if a point follows. -/
def readFraction : List Char → Except Refusal (Option (List Char) × List Char)
  | '.' :: cs => do
    let (ds, rest) ← readDigits cs
    return (some ds, rest)
  | cs => .ok (none, cs)

/-- A run of digits as a number. -/
def readNatural (cs : List Char) : Except Refusal (Int × List Char) := do
  let (ds, rest) ← readDigits cs
  return (digitsValue ds, rest)

/-- A run of digits as a number, with a sign before it or without. -/
def readSigned : List Char → Except Refusal (Int × List Char)
  | '-' :: cs => do
    let (k, rest) ← readNatural cs
    return (-k, rest)
  | '+' :: cs => readNatural cs
  | cs => readNatural cs

/-- The exponent, if `e` or `E` follows. -/
def readExponent : List Char → Except Refusal (Option Int × List Char)
  | c :: cs =>
    if c = 'e' ∨ c = 'E' then do
      let (k, rest) ← readSigned cs
      return (some k, rest)
    else .ok (none, c :: cs)
  | [] => .ok (none, [])

/-- A number without its sign. -/
def readUnsigned (negative : Bool) (cs : List Char) : Except Refusal (Decimal × List Char) := do
  let (whole, cs) ← readWhole cs
  let (fraction, cs) ← readFraction cs
  let (exponent, cs) ← readExponent cs
  return (⟨negative, whole, fraction, exponent⟩, cs)

/-- A number. -/
def readDecimal : List Char → Except Refusal (Decimal × List Char)
  | '-' :: cs => readUnsigned true cs
  | cs => readUnsigned false cs

namespace Decimal

/-- The byte the number is, if it is one: a minus sign, a point or an exponent rules it out, whatever
its value. -/
def byte? (d : Decimal) : Option UInt8 :=
  if d.negative || d.fraction.isSome || d.exponent.isSome then none
  else
    let k := digitsValue d.whole
    if k < 256 then some (UInt8.ofNat k) else none

/-- Append digits to a significand as long as it fits 64 bits, and hand back those left over. -/
def extend : Nat → List Char → Nat × List Char
  | s, [] => (s, [])
  | s, c :: cs =>
    let s' := 10 * s + (c.toNat - '0'.toNat)
    if s' < 2 ^ 64 then extend s' cs else (s, c :: cs)

/-- The leading digits as an integer and the power of ten that goes with it. -/
def scientific (d : Decimal) : Nat × Int :=
  let fraction := d.fraction.getD []
  let (s, dropped) := extend 0 d.whole
  let (s, unused) := extend s fraction
  (s, dropped.length - (fraction.length - unused.length : Nat) + d.exponent.getD 0)

/-- The number is infinite in double precision. -/
def overflows (d : Decimal) : Bool :=
  let (s, e) := d.scientific
  s != 0 && decide (0 ≤ e) &&
    (decide (308 < e) || (Float.ofNat s * Float.ofScientific 1 false e.toNat).isInf)

end Decimal

end NormalTower.Json
