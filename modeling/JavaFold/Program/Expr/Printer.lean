import JavaFold.Program.Basic

/-!
# Writing expressions

An expression has a level: how tightly its outermost construct binds. It stands in parentheses where
it binds looser than its place asks for, so parentheses are written only where they are needed, and
where two signs would otherwise run together.
-/

namespace JavaFold

/-- A text in parentheses if `needed`. -/
def parenthesized (needed : Bool) (text : String) : String :=
  if needed then "(" ++ text ++ ")" else text

namespace UnaryOp

/-- The sign that the operator ends with, if it would run together with the same sign after it. -/
def clash? : UnaryOp → Option Char
  | neg | step .dec => some '-'
  | step .inc => some '+'
  | not | bitNot => none

/-- Whether the operator would run together with the text of its operand. -/
def clashesWith (op : UnaryOp) (text : String) : Bool :=
  match op.clash? with
  | none => false
  | some c => text.toList.head? == some c

end UnaryOp

namespace Expr

/-- The level of an operator in front of its operand; all binary operators are below it. -/
def unaryLevel : Nat := 11

/-- The level of a step after its operand, and of what may be assigned to. -/
def postLevel : Nat := 12

/-- How tightly the outermost construct binds. A negative number is written with an operator. -/
def level : Expr → Nat
  | assign _ _ _ _ => 0
  | binary _ op _ _ => op.precedence
  | unary _ _ _ => unaryLevel
  | literal _ (.int n) => if n < 0 then unaryLevel else 13
  | postStep _ _ _ => postLevel
  | literal _ _ | name _ _ | call _ _ _ => 13

mutual

/-- The expression on one line. -/
def text : Expr → String
  | literal _ value => value.text
  | name _ n => n
  | binary _ op lhs rhs =>
    parenthesized (lhs.level < op.precedence) (text lhs) ++ " " ++ op.symbol ++ " " ++
      parenthesized (rhs.level < op.precedence + 1) (text rhs)
  | unary _ op operand =>
    let inner := parenthesized (operand.level < unaryLevel) (text operand)
    op.symbol ++ parenthesized (op.clashesWith inner) inner
  | postStep _ op operand =>
    parenthesized (operand.level < postLevel) (text operand) ++ op.symbol
  | assign _ op target value =>
    parenthesized (target.level < postLevel) (text target) ++ " " ++ op.symbol ++ " " ++ text value
  | call _ path args => path.value ++ "(" ++ ", ".intercalate (texts args) ++ ")"

/-- Expressions, each on one line. -/
def texts : List Expr → List String
  | [] => []
  | e :: es => text e :: texts es

end

end Expr

end JavaFold
