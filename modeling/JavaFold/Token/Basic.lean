import JavaFold.Program.Operator

/-!
# Tokens

The words and signs a source text is made of. An operator that stands between two operands is one
kind of token, whichever it is; `-` is such a token even where it stands before its operand.
-/

namespace JavaFold

/-- The reserved words. -/
inductive Keyword
  | «class» | «public» | «private» | «protected» | «static» | «final»
  | «if» | «else» | «while» | «for» | «return» | «break» | «continue»
  | «true» | «false» | «null»
  | int | boolean | void
deriving DecidableEq, Repr, Inhabited

namespace Keyword

/-- All reserved words. -/
def all : List Keyword :=
  [«class», «public», «private», «protected», «static», «final», «if», «else», «while», «for»,
    «return», «break», «continue», «true», «false», «null», int, boolean, void]

def text : Keyword → String
  | «class» => "class"
  | «public» => "public"
  | «private» => "private"
  | «protected» => "protected"
  | «static» => "static"
  | «final» => "final"
  | «if» => "if"
  | «else» => "else"
  | «while» => "while"
  | «for» => "for"
  | «return» => "return"
  | «break» => "break"
  | «continue» => "continue"
  | «true» => "true"
  | «false» => "false"
  | «null» => "null"
  | int => "int"
  | boolean => "boolean"
  | void => "void"

/-- The reserved word spelled `text`, if it is one. -/
def ofText? (text : String) : Option Keyword := all.find? (·.text == text)

theorem ofText?_text (k : Keyword) : ofText? k.text = some k := by
  cases k <;> rfl

end Keyword

/-- A word or sign of the source text. -/
inductive Token
  | keyword (word : Keyword)
  | lparen | rparen | lbrace | rbrace
  | comma | semicolon | dot
  | operator (op : BinaryOp)
  | assign
  | compound (op : BinaryOp)
  | bang | tilde
  | step (op : StepOp)
  | integer (value : Nat)
  | string (text : String)
  | identifier (name : String)
  | endOfFile
deriving DecidableEq, Repr, Inhabited

namespace Token

/-- How a diagnostic names the token: by its spelling, or by its kind where spellings vary. -/
def description : Token → String
  | keyword word => "'" ++ word.text ++ "'"
  | lparen => "'('"
  | rparen => "')'"
  | lbrace => "'\x7b'"
  | rbrace => "'\x7d'"
  | comma => "','"
  | semicolon => "';'"
  | dot => "'.'"
  | operator op => "'" ++ op.symbol ++ "'"
  | assign => "'='"
  | compound _ => "compound assignment"
  | bang => "'!'"
  | tilde => "'~'"
  | step op => "'" ++ op.symbol ++ "'"
  | integer _ => "integer literal"
  | string _ => "string literal"
  | identifier _ => "identifier"
  | endOfFile => "end of file"

end Token

end JavaFold
