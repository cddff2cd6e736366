import JavaFold.Program.Literal
import JavaFold.Program.Operator

/-!
# Operators on literals

What an operator gives when its operands are known. The result is `none` where the program's value
is not a constant: operands of the wrong types, a division by zero, or a comparison of strings or
`null`, which compares objects rather than texts. Integers have 32 bits and wrap; division goes
toward zero; a shift uses the low five bits of its distance.
-/

namespace JavaFold

/-- The distance of a shift by `b`: its low five bits. -/
def shiftDistance (b : Int32) : Int32 := b &&& 31

/-- A binary operator on two integers. -/
def BinaryOp.onInts? (op : BinaryOp) (a b : Int32) : Option Literal :=
  match op with
  | add => some (.int (a + b))
  | sub => some (.int (a - b))
  | mul => some (.int (a * b))
  | div => if b = 0 then none else some (.int (a / b))
  | rem => if b = 0 then none else some (.int (a % b))
  | shl => some (.int (a <<< shiftDistance b))
  | shr => some (.int (a >>> shiftDistance b))
  | ushr => some (.int (a.toUInt32 >>> (shiftDistance b).toUInt32).toInt32)
  | bitAnd => some (.int (a &&& b))
  | bitOr => some (.int (a ||| b))
  | bitXor => some (.int (a ^^^ b))
  | lt => some (.bool (a < b))
  | le => some (.bool (a ≤ b))
  | gt => some (.bool (b < a))
  | ge => some (.bool (b ≤ a))
  | eq => some (.bool (a = b))
  | ne => some (.bool (a ≠ b))
  | and | or => none

/-- A binary operator on two truth values, both of which are known. -/
def BinaryOp.onBools? (op : BinaryOp) (a b : Bool) : Option Literal :=
  match op with
  | and | bitAnd => some (.bool (a && b))
  | or | bitOr => some (.bool (a || b))
  | bitXor | ne => some (.bool (a != b))
  | eq => some (.bool (a == b))
  | _ => none

/-- A binary operator on two literals. A string next to `+` takes any literal on the other side. -/
def BinaryOp.eval? (op : BinaryOp) (a b : Literal) : Option Literal :=
  match op, a, b with
  | .add, .str s, v => some (.str (s ++ v.joined))
  | .add, v, .str s => some (.str (v.joined ++ s))
  | op, .int a, .int b => op.onInts? a b
  | op, .bool a, .bool b => op.onBools? a b
  | _, _, _ => none

/-- A unary operator on a literal. A step needs a variable, so it has no value here. -/
def UnaryOp.eval? : UnaryOp → Literal → Option Literal
  | .neg, .int n => some (.int (-n))
  | .bitNot, .int n => some (.int (~~~n))
  | .not, .bool b => some (.bool (!b))
  | _, _ => none

/-- The value a variable holds after a step, given its value before. -/
def StepOp.eval? : StepOp → Literal → Option Literal
  | .inc, .int n => some (.int (n + 1))
  | .dec, .int n => some (.int (n - 1))
  | _, _ => none

end JavaFold
