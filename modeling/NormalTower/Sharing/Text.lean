import NormalTower.Sharing.Basic
import NormalTower.Text.Directive
import NormalTower.Text.Layout

/-!
# Texts of sharings

A sharing is never written out: its only text tells the number of shares and nothing about them.
-/

namespace NormalTower.Sharing

variable {n : Nat}

/-- The sharing as it is built, with its shares left out. -/
def debug (_ : Sharing n) (base : Base) (style : Style) (width : Nat) : List Char :=
  Layout.record style.alternate "Shares"
    [("count", style.numeral width base n), ("shares", "\"**FILTERED**\"".toList)]

/-- The text a directive asks for; only the debug form exists. -/
def format? (x : Sharing n) (width : Nat) : Directive → Option String
  | .display => none
  | .lowerHex _ => none
  | .debug base style => some (String.ofList (x.debug base style width))

end NormalTower.Sharing
