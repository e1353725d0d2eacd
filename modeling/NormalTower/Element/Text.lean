import NormalTower.Element.Basic

/-!
# Texts of elements

The plain text of an element is its byte with two hexadecimal digits. As a numeral it is the packed
byte, and its debug form names the field.
-/

namespace NormalTower

/-- The name of a field in debug texts. -/
def Level.name : Level → String
  | .gf4 => "Gf4"
  | .gf16 => "Gf16"
  | .gf256 => "Gf256"

namespace Element

variable {l : Level}

/-- The plain text. -/
def display (x : Element l) : List Char := byteText x.val

/-- The element as a hexadecimal numeral. -/
def lowerHex (x : Element l) (style : Style) (width : Nat) : List Char :=
  style.numeral width .lowerHex x.val.toNat

/-- The element as it is built. -/
def debug (x : Element l) (base : Base) (style : Style) (width : Nat) : List Char :=
  Layout.tuple style.alternate l.name [style.numeral width base x.val.toNat]

/-- The text a directive asks for. -/
def format (x : Element l) (width : Nat) : Directive → String
  | .display => String.ofList x.display
  | .lowerHex style => String.ofList (x.lowerHex style width)
  | .debug base style => String.ofList (x.debug base style width)

end Element

end NormalTower
