import NormalTower.Text.Numeral

/-!
# Formatting directives

A directive asks for one of three texts of a value: its plain `display`, its `lowerHex` numeral or
its `debug` form, which shows how the value is built. It is written in braces: after a colon come
fill and alignment, the flags `+`, `#` and `0`, the width `w$`, a precision, and `x`, `?`, `x?` or
`X?` for the kind. `table` lists the directives that are understood, and what each of them asks for;
a precision asks for nothing, since whole numbers have none.
-/

namespace NormalTower

/-- What a text of a value should look like. -/
inductive Directive where
  /-- The plain text. It takes no style. -/
  | display
  /-- The value as a hexadecimal numeral. -/
  | lowerHex (style : Style)
  /-- The value as it is built, with its numbers in the given base. -/
  | debug (base : Base) (style : Style)
deriving DecidableEq

namespace Directive

/-- The directives for plain text. -/
def displayTable : List (String × Directive) :=
  ["", ":#", ":+", ":.1", ":w$", ":<w$", ":*^w$", ":>w$", ":0w$", ":#0w$"].map (·, .display)

/-- The styles of hexadecimal numerals. -/
def lowerHexStyles : List (String × Style) :=
  [(":x", {}),
   (":#x", { alternate := true }),
   (":+x", { plus := true }),
   (":+#x", { plus := true, alternate := true }),
   (":.1x", {}),
   (":w$x", { wide := true }),
   (":<w$x", { wide := true, align := .left }),
   (":^w$x", { wide := true, align := .centre }),
   (":>w$x", { wide := true, align := .right }),
   (":*^w$x", { wide := true, align := .centre, fill := '*' }),
   (":0w$x", { wide := true, zeros := true }),
   (":#w$x", { wide := true, alternate := true }),
   (":#0w$x", { wide := true, alternate := true, zeros := true }),
   (":<#w$x", { wide := true, alternate := true, align := .left }),
   (":-<0w$x", { wide := true, zeros := true, align := .left, fill := '-' }),
   (":+0w$x", { wide := true, plus := true, zeros := true }),
   (":+#0w$x", { wide := true, plus := true, alternate := true, zeros := true }),
   (":é>w$x", { wide := true, align := .right, fill := 'é' }),
   (":*^+#w$x",
    { wide := true, plus := true, alternate := true, align := .centre, fill := '*' })]

/-- The bases and styles of debug texts. -/
def debugStyles : List (String × Base × Style) :=
  [(":?", .decimal, {}),
   (":#?", .decimal, { alternate := true }),
   (":x?", .lowerHex, {}),
   (":X?", .upperHex, {}),
   (":#x?", .lowerHex, { alternate := true }),
   (":#X?", .upperHex, { alternate := true }),
   (":+?", .decimal, { plus := true }),
   (":.1?", .decimal, {}),
   (":w$?", .decimal, { wide := true }),
   (":<w$?", .decimal, { wide := true, align := .left }),
   (":^w$?", .decimal, { wide := true, align := .centre }),
   (":*>w$?", .decimal, { wide := true, align := .right, fill := '*' }),
   (":0w$?", .decimal, { wide := true, zeros := true }),
   (":+0w$?", .decimal, { wide := true, plus := true, zeros := true }),
   (":#w$?", .decimal, { wide := true, alternate := true }),
   (":0w$x?", .lowerHex, { wide := true, zeros := true }),
   (":#0w$X?", .upperHex, { wide := true, alternate := true, zeros := true })]

/-- All directives, by what stands between their braces. -/
def table : List (String × Directive) :=
  displayTable ++ lowerHexStyles.map (fun e => (e.1, .lowerHex e.2)) ++
    debugStyles.map (fun e => (e.1, .debug e.2.1 e.2.2))

/-- The text between an opening brace at the start and a closing one at the end. -/
def body? : List Char → Option (List Char)
  | '\x7b' :: cs => if cs.getLast? = some '\x7d' then some cs.dropLast else none
  | _ => none

/-- The directive written as `text`, if it is understood. -/
def ofText? (text : String) : Option Directive := do
  let body ← body? text.toList
  table.lookup (String.ofList body)

end Directive

end NormalTower
