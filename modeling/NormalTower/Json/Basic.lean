/-!
# Reading JSON text: blanks and refusals

A reader takes the characters from some point on and hands back what it read with the characters
that follow, or says why it refuses.
-/

namespace NormalTower.Json

/-- Why a text is refused. -/
inductive Refusal where
  /-- The text ends inside a value or before it. -/
  | truncated
  /-- A value is there, and it is of another kind than the one asked for. -/
  | mismatch
  /-- The text is no JSON. -/
  | malformed
deriving DecidableEq

/-- The characters that may stand around a value. -/
def isBlank (c : Char) : Bool := c == ' ' || c == '\t' || c == '\n' || c == '\r'

/-- A run of at least one decimal digit, as long as possible. -/
def readDigits (cs : List Char) : Except Refusal (List Char × List Char) :=
  match cs with
  | [] => .error .truncated
  | c :: _ =>
    if c.isDigit then .ok (cs.takeWhile Char.isDigit, cs.dropWhile Char.isDigit)
    else .error .malformed

end NormalTower.Json
