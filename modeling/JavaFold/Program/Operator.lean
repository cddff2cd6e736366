/-!
# Operators

The operators of the language with their spelling. Binary operators have a precedence, of which a
higher one binds tighter; all of them group to the left. An assignment is plain or compound; only
eleven binary operators have a compound form.
-/

namespace JavaFold

/-- Operators between two operands. -/
inductive BinaryOp
  | mul | div | rem
  | add | sub
  | shl | shr | ushr
  | lt | le | gt | ge
  | eq | ne
  | bitAnd | bitXor | bitOr
  | and | or
deriving DecidableEq, Repr, Inhabited

namespace BinaryOp

/-- All binary operators, from the tightest to the loosest. -/
def all : List BinaryOp :=
  [mul, div, rem, add, sub, shl, shr, ushr, lt, le, gt, ge, eq, ne, bitAnd, bitXor, bitOr, and, or]

def symbol : BinaryOp → String
  | mul => "*"
  | div => "/"
  | rem => "%"
  | add => "+"
  | sub => "-"
  | shl => "<<"
  | shr => ">>"
  | ushr => ">>>"
  | lt => "<"
  | le => "<="
  | gt => ">"
  | ge => ">="
  | eq => "=="
  | ne => "!="
  | bitAnd => "&"
  | bitXor => "^"
  | bitOr => "|"
  | and => "&&"
  | or => "||"

/-- The operator spelled `text`. -/
def ofSymbol? (text : String) : Option BinaryOp := all.find? (·.symbol == text)

/-- How tightly the operator binds; higher is tighter. -/
def precedence : BinaryOp → Nat
  | or => 1
  | and => 2
  | bitOr => 3
  | bitXor => 4
  | bitAnd => 5
  | eq | ne => 6
  | lt | le | gt | ge => 7
  | shl | shr | ushr => 8
  | add | sub => 9
  | mul | div | rem => 10

/-- Whether the left operand may decide that the right one is not evaluated. -/
def isShortCircuit : BinaryOp → Bool
  | and | or => true
  | _ => false

/-- Whether the operator has a compound assignment. -/
def hasCompound : BinaryOp → Bool
  | add | sub | mul | div | rem | bitAnd | bitOr | bitXor | shl | shr | ushr => true
  | _ => false

theorem ofSymbol?_symbol (op : BinaryOp) : ofSymbol? op.symbol = some op := by
  cases op <;> rfl

end BinaryOp

/-- The two directions in which `++` and `--` move a variable. -/
inductive StepOp
  | inc | dec
deriving DecidableEq, Repr, Inhabited

namespace StepOp

def symbol : StepOp → String
  | inc => "++"
  | dec => "--"

/-- The step spelled `text`. -/
def ofSymbol? (text : String) : Option StepOp := [inc, dec].find? (·.symbol == text)

end StepOp

/-- Operators in front of one operand. -/
inductive UnaryOp
  | neg | not | bitNot
  | step (op : StepOp)
deriving DecidableEq, Repr, Inhabited

namespace UnaryOp

def symbol : UnaryOp → String
  | neg => "-"
  | not => "!"
  | bitNot => "~"
  | step op => op.symbol

/-- The operator spelled `text`. -/
def ofSymbol? (text : String) : Option UnaryOp :=
  [neg, not, bitNot, step .inc, step .dec].find? (·.symbol == text)

end UnaryOp

/-- Plain assignment, or an operation on the old value of the target. -/
inductive AssignOp
  | plain
  | compound (op : BinaryOp)
deriving DecidableEq, Repr, Inhabited

namespace AssignOp

/-- The spelling. An operator without a compound form has none of its own and is written `=`. -/
def symbol : AssignOp → String
  | plain => "="
  | compound op => if op.hasCompound then op.symbol ++ "=" else "="

end AssignOp

end JavaFold
