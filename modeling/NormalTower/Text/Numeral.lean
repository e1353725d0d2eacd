/-!
# Padded numerals

A `Style` says how a number is written: with or without a plus sign and the mark of its base, and
how it is filled up to a width. The text without filling is the lead (sign, then mark) followed by
the digits. It is filled in one of two ways:

* with the flag `zeros`, zeros stand between lead and digits, whatever `fill` and `align` say;
* otherwise `fill` stands before it, after it or around it, as `align` says.

`length_numeral`: the written number is as long as the width asks, and no longer than that unless
its text is.
-/

namespace NormalTower

/-- How a number is spelt. -/
inductive Base where
  /-- Base ten. -/
  | decimal
  /-- Base sixteen with the digits `a` to `f`. -/
  | lowerHex
  /-- Base sixteen with the digits `A` to `F`. -/
  | upperHex
deriving DecidableEq

/-- The digits of `k`, as few as possible and at least one. -/
def Base.digits : Base → Nat → List Char
  | .decimal, k => Nat.toDigits 10 k
  | .lowerHex, k => Nat.toDigits 16 k
  | .upperHex, k => (Nat.toDigits 16 k).map Char.toUpper

/-- What announces the base before the digits; base ten needs nothing. -/
def Base.mark : Base → List Char
  | .decimal => []
  | .lowerHex => ['0', 'x']
  | .upperHex => ['0', 'x']

/-- Where the text stands in a field that is too wide for it. -/
inductive Align where
  | left
  | centre
  | right
deriving DecidableEq

/-- Fill `text` up with `gap` copies of `fill`; of an odd gap the smaller half stands left. -/
def Align.pad (fill : Char) (gap : Nat) (text : List Char) : Align → List Char
  | .left => text ++ List.replicate gap fill
  | .centre => List.replicate (gap / 2) fill ++ text ++ List.replicate (gap - gap / 2) fill
  | .right => List.replicate gap fill ++ text

/-- How a number is written. -/
structure Style where
  /-- A plus sign before the number. -/
  plus : Bool := false
  /-- The alternate form: the mark of the base before the digits, and records over several lines. -/
  alternate : Bool := false
  /-- Fill with zeros between lead and digits. -/
  zeros : Bool := false
  /-- The character that fills a field. -/
  fill : Char := ' '
  /-- Where the number stands in its field. -/
  align : Align := .right
  /-- Whether a width is asked for at all. -/
  wide : Bool := false
deriving DecidableEq

namespace Style

/-- What stands before the digits. -/
def lead (s : Style) (b : Base) : List Char :=
  (if s.plus then ['+'] else []) ++ (if s.alternate then b.mark else [])

/-- The number without filling. -/
def core (s : Style) (b : Base) (k : Nat) : List Char := s.lead b ++ b.digits k

/-- How many characters are missing to `width`. -/
def gap (s : Style) (width : Nat) (b : Base) (k : Nat) : Nat :=
  (if s.wide then width else 0) - (s.core b k).length

/-- The number `k` in a field of `width` characters. -/
def numeral (s : Style) (width : Nat) (b : Base) (k : Nat) : List Char :=
  if s.zeros then
    s.lead b ++ List.replicate (s.gap width b k) '0' ++ b.digits k
  else
    s.align.pad s.fill (s.gap width b k) (s.core b k)

end Style

/-- A byte as its mark and two hexadecimal digits. -/
def byteText (b : UInt8) : List Char :=
  Style.numeral { alternate := true, zeros := true, wide := true } 4 .lowerHex b.toNat

theorem Align.length_pad (fill : Char) (gap : Nat) (text : List Char) (a : Align) :
    (a.pad fill gap text).length = gap + text.length := by
  cases a <;> simp [Align.pad] <;> omega

theorem Style.length_numeral (s : Style) (width : Nat) (b : Base) (k : Nat) :
    (s.numeral width b k).length = max (if s.wide then width else 0) (s.core b k).length := by
  unfold Style.numeral
  split
  · simp only [List.length_append, List.length_replicate, gap, core]
    omega
  · rw [Align.length_pad, gap]
    omega

end NormalTower
