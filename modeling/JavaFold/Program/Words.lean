import JavaFold.Program.Evaluation

/-!
# Operations on words that can fail

`BinaryOp.onInts?` is written with operations that give something everywhere. On a machine a division by zero has no
result, whatever is done with overflow, and neither has a word that is moved by its whole width or more. With such
operations an evaluation can fail, which is not the same as an operator without a value. The operators in front of one
operand need none of them.
-/

namespace JavaFold

namespace Word

/-- The quotient. There is none by zero. -/
def div? (a b : Int32) : Option Int32 := if b = 0 then none else some (a / b)

/-- The remainder. There is none by zero. -/
def rem? (a b : Int32) : Option Int32 := if b = 0 then none else some (a % b)

/-- The word moved to the right, by less than its width. -/
def shiftRight? (a distance : UInt32) : Option UInt32 := if distance < 32 then some (a >>> distance) else none

end Word

/-- A binary operator on two integers, by operations that can fail; then there is no result at all. -/
def BinaryOp.onWords? (op : BinaryOp) (a b : Int32) : Option (Option Literal) :=
  match op with
  | div => if b = 0 then some none else do return some (.int (← Word.div? a b))
  | rem => if b = 0 then some none else do return some (.int (← Word.rem? a b))
  | ushr => do return some (.int (← Word.shiftRight? a.toUInt32 (shiftDistance b).toUInt32).toInt32)
  | op => some (op.onInts? a b)

end JavaFold
