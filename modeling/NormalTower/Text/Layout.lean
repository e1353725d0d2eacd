/-!
# Layout of named values

A value with a name and parts is written on one line, as in `Name(a, b)` or `Name { x: a, y: b }`,
or spread over several lines: then each part has a line of its own, indented by four blanks and
ended by a comma.
-/

namespace NormalTower.Layout

/-- The lines of a spread value between its brackets. -/
def spreadLines (parts : List (List Char)) : List Char :=
  parts.flatMap fun p => "    ".toList ++ p ++ ",\n".toList

/-- The name, then the parts in parentheses. -/
def tuple (spread : Bool) (name : String) (parts : List (List Char)) : List Char :=
  name.toList ++
    if spread then "(\n".toList ++ spreadLines parts ++ ")".toList
    else "(".toList ++ List.intercalate ", ".toList parts ++ ")".toList

/-- A part with its label. -/
def labelled (label : String) (part : List Char) : List Char := label.toList ++ ": ".toList ++ part

/-- The name, then the labelled parts in braces. -/
def record (spread : Bool) (name : String) (parts : List (String × List Char)) : List Char :=
  let fields := parts.map fun p => labelled p.1 p.2
  name.toList ++
    if spread then " \x7b\n".toList ++ spreadLines fields ++ "\x7d".toList
    else " \x7b ".toList ++ List.intercalate ", ".toList fields ++ " \x7d".toList

end NormalTower.Layout
