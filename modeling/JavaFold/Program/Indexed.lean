import JavaFold.Program.Unit.Parser
import JavaFold.Token.Indexed

/-!
# Reading programs by index

The grammar of `Parser` for an `IndexedCursor`. No function takes a bound: they call each other as the tokens demand,
and loops go on while their conditions hold. A loop over statements, members or classes skips a token where what it
calls takes none.
-/

namespace JavaFold

namespace TokenList

open IndexedParser

/-! ## Expressions -/

/-- The expression that stands where one is missing. -/
def missingExpr (tokens : TokenList) : IndexedParser Expr := return .name (← tokens.here) Parser.missingName

/-- Reads the steps after an operand. -/
def postSteps (tokens : TokenList) (operand : Expr) : IndexedParser Expr := do
  match ← tokens.peek with
  | .step op =>
    unless operand.isName do
      tokens.report (.stepNeedsVariable op)
    tokens.advance
    tokens |>.postSteps (.postStep (operand.span.merge (← tokens.behind)) op operand)
  | _ => return operand
partial_fixpoint

mutual

/-- Reads an expression one level deeper. -/
def expr (tokens : TokenList) : IndexedParser Expr := do
  called
  if ← tokens.enterNesting then
    let e ← tokens |>.assignment
    leaveNesting
    return e
  else
    tokens.missingExpr
partial_fixpoint

/-- Reads an assignment, or an expression without one. -/
def assignment (tokens : TokenList) : IndexedParser Expr := do
  called
  let target ← tokens |>.binary 0
  match Parser.assignOp? (← tokens.peek) with
  | none => return target
  | some op =>
    unless target.isName do
      tokens.report .notAssignable
    tokens.advance
    let value ← tokens |>.assignment
    return .assign (target.span.merge value.span) op target value
partial_fixpoint

/-- Reads operands with operators between them whose precedence is at least `least`. -/
def binary (tokens : TokenList) (least : Nat) : IndexedParser Expr := do
  called
  let lhs ← tokens |>.unary
  tokens |>.binaryTail least lhs
partial_fixpoint

/-- Reads on after the operand `lhs`. -/
def binaryTail (tokens : TokenList) (least : Nat) (lhs : Expr) : IndexedParser Expr := do
  match ← tokens.peek with
  | .operator op =>
    if op.precedence < least then
      return lhs
    tokens.advance
    let rhs ← tokens |>.binary (op.precedence + 1)
    tokens |>.binaryTail least (.binary (lhs.span.merge rhs.span) op lhs rhs)
  | _ => return lhs
partial_fixpoint

/-- Reads an operand with the operators in front of it. -/
def unary (tokens : TokenList) : IndexedParser Expr := do
  called
  let start ← tokens.here
  match Parser.unaryOp? (← tokens.peek) with
  | none => tokens |>.postfixed
  | some op =>
    tokens.advance
    match Parser.negative? op (← tokens.peek) with
    | some value =>
      tokens.advance
      return .literal (start.merge (← tokens.behind)) (.int value)
    | none =>
      if ← tokens.enterNesting then
        let operand ← tokens |>.unary
        leaveNesting
        if let .step s := op then
          unless operand.isName do
            reportAt (.stepNeedsVariable s) operand.span
        return .unary (start.merge operand.span) op operand
      else
        tokens.missingExpr
partial_fixpoint

/-- Reads an operand and the steps after it. -/
def postfixed (tokens : TokenList) : IndexedParser Expr := do
  called
  let operand ← tokens |>.primary
  tokens |>.postSteps operand
partial_fixpoint

/-- Reads a literal, a name, a call, or an expression in parentheses. -/
def primary (tokens : TokenList) : IndexedParser Expr := do
  called
  let start ← tokens.here
  match ← tokens.peek with
  | .integer value =>
    tokens.advance
    if value < Literal.intLimit then
      return .literal start (.int (Int32.ofInt value))
    reportAt (.integerOutOfRange value) start
    return .literal start (.int 0)
  | .keyword .«true» =>
    tokens.advance
    return .literal start (.bool true)
  | .keyword .«false» =>
    tokens.advance
    return .literal start (.bool false)
  | .keyword .«null» =>
    tokens.advance
    return .literal start .null
  | .string text =>
    tokens.advance
    return .literal start (.str text)
  | .lparen =>
    tokens.advance
    let inner ← tokens |>.expr
    tokens.expect .rparen
    return inner
  | .identifier _ =>
    let path ← tokens |>.dottedName
    if ← tokens.eat .lparen then
      called
      let args ← tokens |>.arguments
      tokens.expect .rparen
      return .call (start.merge (← tokens.behind)) path args
    return .name path.span path.value
  | found =>
    tokens.report (.expectedExpression found)
    tokens.missingExpr
partial_fixpoint

/-- Reads the arguments of a call. -/
def arguments (tokens : TokenList) : IndexedParser (List Expr) := do
  match ← tokens.peek with
  | .rparen | .endOfFile => return []
  | _ =>
    let arg ← tokens |>.expr
    if ← tokens.eat .comma then
      return arg :: (← tokens |>.arguments)
    return [arg]
partial_fixpoint

end

/-! ## Statements -/

/-- Reads a type. -/
def ty (tokens : TokenList) : IndexedParser (Spanned Ty) := do
  called
  let start ← tokens.here
  match ← tokens.peek with
  | .keyword .int =>
    tokens.advance
    return ⟨.int, start⟩
  | .keyword .boolean =>
    tokens.advance
    return ⟨.boolean, start⟩
  | .keyword .void =>
    tokens.advance
    return ⟨.void, start⟩
  | .identifier _ => return (← tokens |>.dottedName).map .named
  | found =>
    tokens.report (.expectedType found)
    return ⟨.named Parser.missingName, start⟩

/-- Whether a name stands some places further on, after further parts of the name before it. -/
def nameFollows (tokens : TokenList) (offset : Nat) : IndexedParser Bool := do
  match ← tokens.peekAt offset with
  | .identifier _ => return true
  | .dot =>
    match ← tokens.peekAt (offset + 1) with
    | .identifier _ => tokens |>.nameFollows (offset + 2)
    | _ => return false
  | _ => return false
partial_fixpoint

/-- Whether a type and a name follow, so that a declaration does. -/
def declFollows (tokens : TokenList) : IndexedParser Bool := do
  match ← tokens.peek with
  | .keyword .int | .keyword .boolean => return true
  | .identifier _ => tokens |>.nameFollows 1
  | _ => return false

/-- Reads the value after an equals sign, if there is one. -/
def initializer (tokens : TokenList) : IndexedParser (Option Expr) := do
  if ← tokens.eat .assign then
    return some (← tokens |>.expr)
  return none

/-- Reads the declaration of a local variable, without the semicolon after it. -/
def localVar (tokens : TokenList) : IndexedParser Stmt := do
  called
  let start ← tokens.here
  let ty ← tokens |>.ty
  if ty.value = .void then
    reportAt .voidLocal ty.span
  let name ← tokens.identifier
  let init ← tokens |>.initializer
  return .localVar (start.merge (← tokens.behind)) ty name init

/-- Reads an expression unless `stop` follows. -/
def exprUnless (tokens : TokenList) (stop : Token) : IndexedParser (Option Expr) := do
  if (← tokens.peek) = stop then
    return none
  return some (← tokens |>.expr)

/-- Reads a condition in parentheses. -/
def condition (tokens : TokenList) : IndexedParser Expr := do
  called
  tokens.expect .lparen
  let cond ← tokens |>.expr
  tokens.expect .rparen
  return cond

/-- Reads the first part of a `for`. -/
def forInit (tokens : TokenList) : IndexedParser (Option Stmt) := do
  if (← tokens.peek) = .semicolon then
    return none
  if ← tokens |>.declFollows then
    return some (← tokens |>.localVar)
  let value ← tokens |>.expr
  return some (.expr value.span value)

mutual

/-- Reads a statement. -/
def stmt (tokens : TokenList) : IndexedParser Stmt := do
  called
  let start ← tokens.here
  match ← tokens.peek with
  | .lbrace =>
    let block ← tokens |>.block
    return .block block.span block.stmts
  | .keyword .«if» => tokens |>.ifElse
  | .keyword .«while» => tokens |>.whileLoop
  | .keyword .«for» => tokens |>.forLoop
  | .keyword .«return» =>
    tokens.advance
    let value ← tokens |>.exprUnless .semicolon
    tokens.expect .semicolon
    return .ret (start.merge (← tokens.behind)) value
  | .keyword .«break» =>
    tokens.advance
    tokens.expect .semicolon
    return .brk (start.merge (← tokens.behind))
  | .keyword .«continue» =>
    tokens.advance
    tokens.expect .semicolon
    return .cont (start.merge (← tokens.behind))
  | .semicolon =>
    tokens.advance
    return .empty start
  | _ =>
    if ← tokens |>.declFollows then
      let decl ← tokens |>.localVar
      tokens.expect .semicolon
      return Parser.withSpan (start.merge (← tokens.behind)) decl
    else
      let value ← tokens |>.expr
      tokens.expect .semicolon
      return .expr (start.merge (← tokens.behind)) value
partial_fixpoint

/-- Reads an `if`. -/
def ifElse (tokens : TokenList) : IndexedParser Stmt := do
  called
  let start ← tokens.here
  tokens.advance
  let cond ← tokens |>.condition
  let thenBranch ← tokens |>.nested
  let elseBranch ← tokens |>.elseClause
  return .ifElse (start.merge (← tokens.behind)) cond thenBranch elseBranch
partial_fixpoint

/-- Reads the statement after `else`, if there is one. -/
def elseClause (tokens : TokenList) : IndexedParser (Option Stmt) := do
  if ← tokens.eat (.keyword .«else») then
    return some (← tokens |>.nested)
  return none
partial_fixpoint

/-- Reads a `while`. -/
def whileLoop (tokens : TokenList) : IndexedParser Stmt := do
  called
  let start ← tokens.here
  tokens.advance
  let cond ← tokens |>.condition
  let body ← tokens |>.nested
  return .whileLoop (start.merge (← tokens.behind)) cond body
partial_fixpoint

/-- Reads a `for`. -/
def forLoop (tokens : TokenList) : IndexedParser Stmt := do
  called
  let start ← tokens.here
  tokens.advance
  tokens.expect .lparen
  let init ← tokens |>.forInit
  tokens.expect .semicolon
  let cond ← tokens |>.exprUnless .semicolon
  tokens.expect .semicolon
  let update ← tokens |>.exprUnless .rparen
  tokens.expect .rparen
  let body ← tokens |>.nested
  return .forLoop (start.merge (← tokens.behind)) init cond update body
partial_fixpoint

/-- Reads the body of an `if`, an `else` or a loop, one level deeper. -/
def nested (tokens : TokenList) : IndexedParser Stmt := do
  called
  if ← tokens |>.declFollows then
    tokens.report .declarationNotAllowed
  if ← tokens.enterNesting then
    let s ← tokens |>.stmt
    leaveNesting
    return s
  else
    return .empty (← tokens.here)
partial_fixpoint

/-- Reads statements up to a closing brace. -/
def stmts (tokens : TokenList) : IndexedParser (List Stmt) := do
  match ← tokens.peek with
  | .rbrace | .endOfFile => return []
  | _ =>
    let before := (← get).position
    let s ← tokens |>.stmt
    if (← get).position = before then
      tokens.advance
    return s :: (← tokens |>.stmts)
partial_fixpoint

/-- Reads the statements of a block, one level deeper, and its closing brace. -/
def blockBody (tokens : TokenList) : IndexedParser (List Stmt) := do
  if ← tokens.enterNesting then
    let body ← tokens |>.stmts
    leaveNesting
    tokens.expect .rbrace
    return body
  else
    return []
partial_fixpoint

/-- Reads a block. -/
def block (tokens : TokenList) : IndexedParser Block := do
  called
  let start ← tokens.here
  tokens.expect .lbrace
  let stmts ← tokens |>.blockBody
  return ⟨start.merge (← tokens.behind), stmts⟩
partial_fixpoint

end

/-! ## Classes -/

/-- Reads the modifiers in front of a declaration after those in `seen`. -/
def modifiersAfter (tokens : TokenList) (seen : List Modifier) : IndexedParser (List Modifier) := do
  match Modifier.ofToken? (← tokens.peek) with
  | none => return seen
  | some m =>
    if m ∈ seen then
      tokens.report (.repeatedModifier m)
    tokens.advance
    tokens |>.modifiersAfter (seen ++ [m])
partial_fixpoint

/-- Reads the modifiers in front of a declaration. -/
def modifiers (tokens : TokenList) : IndexedParser (List Modifier) := do
  called
  tokens |>.modifiersAfter []

/-- Reads parameters. -/
def params (tokens : TokenList) : IndexedParser (List Param) := do
  match ← tokens.peek with
  | .rparen | .endOfFile => return []
  | _ =>
    let ty ← tokens |>.ty
    let name ← tokens.identifier
    let param : Param := ⟨ty.value, name.value⟩
    if ← tokens.eat .comma then
      return param :: (← tokens |>.params)
    return [param]
partial_fixpoint

/-- Reads a field or a method. -/
def member (tokens : TokenList) : IndexedParser Member := do
  called
  let start ← tokens.here
  let modifiers ← tokens |>.modifiers
  let ty ← tokens |>.ty
  let name ← tokens.identifier
  if ← tokens.eat .lparen then
    called
    let params ← tokens |>.params
    tokens.expect .rparen
    let body ← tokens |>.block
    return .method (start.merge (← tokens.behind)) ⟨modifiers, ty, name, params, body⟩
  if ty.value = .void then
    reportAt .voidField ty.span
  let init ← tokens |>.initializer
  tokens.expect .semicolon
  return .field (start.merge (← tokens.behind)) ⟨modifiers, ty, name, init⟩

/-- Reads members up to a closing brace. -/
def members (tokens : TokenList) : IndexedParser (List Member) := do
  match ← tokens.peek with
  | .rbrace | .endOfFile => return []
  | _ =>
    let before := (← get).position
    let m ← tokens |>.member
    if (← get).position = before then
      tokens.advance
    return m :: (← tokens |>.members)
partial_fixpoint

/-- Reads a class. -/
def classDecl (tokens : TokenList) : IndexedParser ClassDecl := do
  called
  let start ← tokens.here
  let modifiers ← tokens |>.modifiers
  match ← tokens.peek with
  | .keyword .«class» =>
    tokens.advance
    let name ← tokens.identifier
    tokens.expect .lbrace
    let members ← tokens |>.members
    tokens.expect .rbrace
    return ⟨start.merge (← tokens.behind), modifiers, name, members⟩
  | found =>
    tokens.report (.expectedClass found)
    return ⟨start, modifiers, ⟨Parser.missingName, start⟩, []⟩

/-- Reads classes up to the end of the file. -/
def classes (tokens : TokenList) : IndexedParser (List ClassDecl) := do
  match ← tokens.peek with
  | .endOfFile => return []
  | _ =>
    let before := (← get).position
    let c ← tokens |>.classDecl
    if (← get).position = before then
      tokens.advance
    return c :: (← tokens |>.classes)
partial_fixpoint

/-- Reads a whole file. -/
def file (tokens : TokenList) : IndexedParser CompilationUnit := do
  called
  return ⟨← tokens |>.classes⟩

end TokenList

/-- The program that tokens write or what is wrong with them, read by index, and where reading has ended. -/
def CompilationUnit.byIndex? (tokens : TokenList) :
    Option (Except (List Diagnostic) CompilationUnit × IndexedCursor) :=
  (tokens.file.run .start).map fun (unit, c) =>
    (if c.problems.isEmpty then .ok unit else .error c.problems.reverse, c)

end JavaFold
