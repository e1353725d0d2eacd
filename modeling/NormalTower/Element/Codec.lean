import NormalTower.Element.Basic
import NormalTower.Json.Byte

/-!
# Elements as JSON text and as bytes

An element is written as its packed byte: in JSON as a whole number in base ten, in binary as that
one byte. Reading checks the width of the level it reads for.

The order of the checks of a JSON text is visible: first that a byte comes first, then that it fits,
and only then that nothing but blanks follows.
-/

namespace NormalTower.Element

/-- Why a JSON text is no element. -/
inductive JsonError where
  /-- The text does not hold a byte and nothing else. -/
  | refused (why : Json.Refusal)
  /-- The byte does not fit. -/
  | outOfRange (e : OutOfRange)
deriving DecidableEq

/-- Why a byte string starts with no element. -/
inductive BytesError where
  /-- There is no byte. -/
  | empty
  /-- The first byte does not fit. -/
  | outOfRange (e : OutOfRange)
deriving DecidableEq

variable {l : Level}

/-- The element as JSON text. -/
def toJson (x : Element l) : String := String.ofList (Base.decimal.digits x.val.toNat)

/-- The element a JSON text stands for. -/
def ofJson (l : Level) (text : String) : Except JsonError (Element l) := do
  let (b, rest) ← (Json.readByte text.toList).mapError .refused
  let x ← (ofByte l b).mapError .outOfRange
  if rest.all Json.isBlank then .ok x else .error (.refused .malformed)

/-- The element as bytes. -/
def toBytes (x : Element l) : List UInt8 := [x.val]

/-- The element a byte string starts with; what follows is left alone. -/
def ofBytes (l : Level) : List UInt8 → Except BytesError (Element l)
  | [] => .error .empty
  | b :: _ => (ofByte l b).mapError .outOfRange

end NormalTower.Element
