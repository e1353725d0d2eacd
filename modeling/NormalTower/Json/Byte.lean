import NormalTower.Json.Decimal

/-!
# Reading a byte from JSON text

`readByte` reads the number that comes first in a text, if it is a byte. Any other value is refused
as a `mismatch` as soon as its kind is known: arrays and objects at their bracket, words and strings
at their end.
-/

namespace NormalTower.Json

/-! ## Words and strings -/

/-- Why a text is refused that should go on with the given word. -/
def refuseWord : List Char → List Char → Refusal
  | [], _ => .mismatch
  | _ :: _, [] => .truncated
  | w :: ws, c :: cs => if w = c then refuseWord ws cs else .malformed

/-- Where in a string a reader stands. -/
inductive StringState where
  /-- Between two characters. -/
  | plain
  /-- Behind a backslash. -/
  | escape
  /-- In the digits of a code unit, `left` of them to come; `paired` if a leading surrogate went
  before. -/
  | unit (left value : Nat) (paired : Bool)
  /-- Behind a leading surrogate, before the backslash of its partner. -/
  | partner
  /-- Behind a leading surrogate and a backslash. -/
  | partnerUnit

/-- The value of a hexadecimal digit. -/
def hexValue? (c : Char) : Option Nat :=
  if '0' ≤ c ∧ c ≤ '9' then some (c.toNat - '0'.toNat)
  else if 'a' ≤ c ∧ c ≤ 'f' then some (c.toNat - 'a'.toNat + 10)
  else if 'A' ≤ c ∧ c ≤ 'F' then some (c.toNat - 'A'.toNat + 10)
  else none

/-- The state behind a complete code unit, if the unit may stand there: surrogates come in pairs. -/
def afterUnit? (value : Nat) (paired : Bool) : Option StringState :=
  let trailing := 0xdc00 ≤ value ∧ value ≤ 0xdfff
  let leading := 0xd800 ≤ value ∧ value ≤ 0xdbff
  if paired then
    if trailing then some .plain else none
  else if trailing then none
  else if leading then some .partner
  else some .plain

/-- The characters that may follow a backslash alone. -/
def isEscape (c : Char) : Bool :=
  ['"', '\\', '/', 'b', 'f', 'n', 'r', 't'].contains c

/-- Why a text is refused that goes on inside a string. The four digits of a code unit are taken at
once, so a text that has no four bytes left for them is truncated whatever they are. -/
def refuseString : StringState → List Char → Refusal
  | _, [] => .truncated
  | .plain, c :: cs =>
    if c = '"' then .mismatch
    else if c = '\\' then refuseString .escape cs
    else if c < ' ' then .malformed
    else refuseString .plain cs
  | .escape, c :: cs =>
    if c = 'u' then refuseString (.unit 4 0 false) cs
    else if isEscape c then refuseString .plain cs
    else .malformed
  | .unit left value paired, c :: cs =>
    match hexValue? c with
    | none => if ((c :: cs).map Char.utf8Size).sum < left then .truncated else .malformed
    | some d =>
      let value := 16 * value + d
      if 1 < left then refuseString (.unit (left - 1) value paired) cs
      else
        match afterUnit? value paired with
        | none => .malformed
        | some state => refuseString state cs
  | .partner, c :: cs => if c = '\\' then refuseString .partnerUnit cs else .malformed
  | .partnerUnit, c :: cs => if c = 'u' then refuseString (.unit 4 0 true) cs else .malformed

/-! ## Bytes -/

/-- Why a text is refused that starts with something else than a number. -/
def refuseOther : List Char → Refusal
  | [] => .truncated
  | c :: cs =>
    if c = 'n' then refuseWord "ull".toList cs
    else if c = 't' then refuseWord "rue".toList cs
    else if c = 'f' then refuseWord "alse".toList cs
    else if c = '"' then refuseString .plain cs
    else if c = '[' ∨ c = '\x7b' then .mismatch
    else .malformed

/-- Whether a number starts with this character. -/
def startsNumber (c : Char) : Bool := c == '-' || c.isDigit

/-- The byte at the start of a text that starts with a number. -/
def readNumber (cs : List Char) : Except Refusal (UInt8 × List Char) := do
  let (d, rest) ← readDecimal cs
  match d.byte? with
  | some b => .ok (b, rest)
  | none => .error (if d.overflows then .malformed else .mismatch)

/-- The byte at the start of a text. -/
def readByte (text : List Char) : Except Refusal (UInt8 × List Char) :=
  let cs := text.dropWhile isBlank
  if cs.head?.any startsNumber then readNumber cs else .error (refuseOther cs)

end NormalTower.Json
