import NormalTower.Text.Directive
import NormalTower.Text.Layout

/-!
# A value that does not fit

The one way in which a byte can fail to be an element, and its texts.
-/

namespace NormalTower

/-- The byte `value` has bits above the width `bits`. -/
structure OutOfRange where
  /-- The width that was asked for. -/
  bits : UInt32
  /-- The value that was given. -/
  value : UInt8
deriving DecidableEq

namespace OutOfRange

/-- The message for people. -/
def message (e : OutOfRange) : List Char :=
  "value ".toList ++ byteText e.value ++ " does not fit in a ".toList ++
    Base.decimal.digits e.bits.toNat ++ "-bit field element".toList

/-- The error as it is built. -/
def debug (e : OutOfRange) (base : Base) (style : Style) (width : Nat) : List Char :=
  Layout.record style.alternate "OutOfRange"
    [("bits", style.numeral width base e.bits.toNat),
     ("value", style.numeral width base e.value.toNat)]

/-- The text a directive asks for; an error is no number. -/
def format? (e : OutOfRange) (width : Nat) : Directive → Option String
  | .display => some (String.ofList e.message)
  | .lowerHex _ => none
  | .debug base style => some (String.ofList (e.debug base style width))

end OutOfRange

end NormalTower
