/-!
# Literals

The values that can be written in a program. `Literal.text` is the spelling in source text;
`Literal.joined` is how the value reads when it is joined to a string.
-/

namespace JavaFold

/-- A value that can be written down: an `int`, a `boolean`, a string, or `null`. -/
inductive Literal
  | int (value : Int32)
  | bool (value : Bool)
  | str (value : String)
  | null
deriving DecidableEq, Repr, Inhabited

namespace Literal

/-- The least number that is too great for an integer: 2 to the power of 31. Its negative is the
least integer. -/
def intLimit : Nat := 2147483648

/-- How a character is written between double quotes. -/
def escapeChar (c : Char) : List Char :=
  if c = '"' then ['\\', '"']
  else if c = '\\' then ['\\', '\\']
  else if c = '\n' then ['\\', 'n']
  else if c = '\t' then ['\\', 't']
  else if c = '\r' then ['\\', 'r']
  else if c = '\x00' then ['\\', '0']
  else [c]

/-- The text between double quotes. -/
def quote (text : String) : String :=
  "\"" ++ String.ofList (text.toList.flatMap escapeChar) ++ "\""

/-- The decimal digits of an integer, after a minus sign if it is negative. -/
def intText (n : Int32) : String := toString n.toInt

def boolText (b : Bool) : String := if b then "true" else "false"

/-- The spelling in source text. -/
def text : Literal → String
  | int n => intText n
  | bool b => boolText b
  | str s => quote s
  | null => "null"

/-- How the value reads when it is joined to a string. -/
def joined : Literal → String
  | int n => intText n
  | bool b => boolText b
  | str s => s
  | null => "null"

end Literal

end JavaFold
