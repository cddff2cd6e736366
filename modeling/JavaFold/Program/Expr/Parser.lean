import JavaFold.Program.Basic
import JavaFold.Token.Cursor

/-!
# Reading expressions

Binary operators group by precedence and to the left; an assignment binds loosest and groups to the
right. A minus sign in front of a number is read together with it, which is the only way to write
the least integer. The functions take a bound on their depth of recursion; `Parser.expression` takes
one that the number of tokens ahead makes large enough, because no function calls itself again,
through the others, before a token has been passed.
-/

namespace JavaFold

namespace Parser

/-- The operator in front of an operand that a token spells. -/
def unaryOp? : Token → Option UnaryOp
  | .operator .sub => some .neg
  | .bang => some .not
  | .tilde => some .bitNot
  | .step op => some (.step op)
  | _ => none

/-- The assignment that a token spells. -/
def assignOp? : Token → Option AssignOp
  | .assign => some .plain
  | .compound op => if op.hasCompound then some (.compound op) else none
  | _ => none

/-- The value of a minus sign together with the number after it. -/
def negative? : UnaryOp → Token → Option Int32
  | .neg, .integer value => if value ≤ Literal.intLimit then some (Int32.ofInt (-value)) else none
  | _, _ => none

/-- The expression that stands where one is missing. -/
def missingExpr : Parser Expr := return .name (← here) missingName

/-- The bound on the recursion is used up. -/
def exhausted : Parser Expr := do
  report .nestingTooDeep
  missingExpr

/-- Reads the steps after an operand, at most `limit` of them. -/
def postSteps : Nat → Expr → Parser Expr
  | 0, operand => return operand
  | limit + 1, operand => do
    match ← peek with
    | .step op =>
      unless operand.isName do
        report (.stepNeedsVariable op)
      advance
      postSteps limit (.postStep (operand.span.merge (← behind)) op operand)
    | _ => return operand

mutual

/-- Reads an expression one level deeper. -/
def expr : Nat → Parser Expr
  | 0 => exhausted
  | n + 1 => do
    if ← enterNesting then
      let e ← assignment n
      leaveNesting
      return e
    else
      missingExpr

/-- Reads an assignment, or an expression without one. -/
def assignment : Nat → Parser Expr
  | 0 => exhausted
  | n + 1 => do
    let target ← binary n 0
    match assignOp? (← peek) with
    | none => return target
    | some op =>
      unless target.isName do
        report .notAssignable
      advance
      let value ← assignment n
      return .assign (target.span.merge value.span) op target value

/-- Reads operands with operators between them whose precedence is at least `least`. -/
def binary : Nat → Nat → Parser Expr
  | 0, _ => exhausted
  | n + 1, least => do
    let lhs ← unary n
    binaryTail n least lhs

/-- Reads on after the operand `lhs`. -/
def binaryTail : Nat → Nat → Expr → Parser Expr
  | 0, _, _ => exhausted
  | n + 1, least, lhs => do
    match ← peek with
    | .operator op =>
      if op.precedence < least then
        return lhs
      advance
      let rhs ← binary n (op.precedence + 1)
      binaryTail n least (.binary (lhs.span.merge rhs.span) op lhs rhs)
    | _ => return lhs

/-- Reads an operand with the operators in front of it and the steps after it. -/
def unary : Nat → Parser Expr
  | 0 => exhausted
  | n + 1 => do
    let start ← here
    match unaryOp? (← peek) with
    | none =>
      let operand ← primary n
      postSteps (← get).left operand
    | some op =>
      advance
      match negative? op (← peek) with
      | some value =>
        advance
        return .literal (start.merge (← behind)) (.int value)
      | none =>
        if ← enterNesting then
          let operand ← unary n
          leaveNesting
          if let .step s := op then
            unless operand.isName do
              reportAt (.stepNeedsVariable s) operand.span
          return .unary (start.merge operand.span) op operand
        else
          missingExpr

/-- Reads a literal, a name, a call, or an expression in parentheses. -/
def primary : Nat → Parser Expr
  | 0 => exhausted
  | n + 1 => do
    let start ← here
    match ← peek with
    | .integer value =>
      advance
      if value < Literal.intLimit then
        return .literal start (.int (Int32.ofInt value))
      reportAt (.integerOutOfRange value) start
      return .literal start (.int 0)
    | .keyword .«true» =>
      advance
      return .literal start (.bool true)
    | .keyword .«false» =>
      advance
      return .literal start (.bool false)
    | .keyword .«null» =>
      advance
      return .literal start .null
    | .string text =>
      advance
      return .literal start (.str text)
    | .lparen =>
      advance
      let inner ← expr n
      expect .rparen
      return inner
    | .identifier _ =>
      let path ← dottedName
      if ← eat .lparen then
        let args ← arguments n
        expect .rparen
        return .call (start.merge (← behind)) path args
      return .name path.span path.value
    | found =>
      report (.expectedExpression found)
      missingExpr

/-- Reads the arguments of a call. A comma may stand after the last one. -/
def arguments : Nat → Parser (List Expr)
  | 0 => return [← exhausted]
  | n + 1 => do
    match ← peek with
    | .rparen | .endOfFile => return []
    | _ =>
      let arg ← expr n
      if ← eat .comma then
        return arg :: (← arguments n)
      return [arg]

end

/-- A bound on the recursion that is large enough for `tokens` tokens: between two calls of one
function a token is passed, and there are fewer than eight functions. -/
def exprDepth (tokens : Nat) : Nat := 8 * tokens + 8

/-- Reads an expression. -/
def expression : Parser Expr := do expr (exprDepth (← get).left)

end Parser

end JavaFold
