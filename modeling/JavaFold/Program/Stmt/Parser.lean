import JavaFold.Program.Expr.Parser

/-!
# Reading statements

A statement that starts with a type and a name is a declaration. A declaration needs a block around
it: it is refused as the body of an `if` or a loop. An `else` belongs to the nearest `if`. As for
expressions, the recursion is bounded by a number that `Parser.block` makes large enough.
-/

namespace JavaFold

namespace Parser

/-- Reads a type. -/
def ty : Parser (Spanned Ty) := do
  let start ← here
  match ← peek with
  | .keyword .int =>
    advance
    return ⟨.int, start⟩
  | .keyword .boolean =>
    advance
    return ⟨.boolean, start⟩
  | .keyword .void =>
    advance
    return ⟨.void, start⟩
  | .identifier _ => return (← dottedName).map .named
  | found =>
    report (.expectedType found)
    return ⟨.named missingName, start⟩

/-- Whether a name follows, after further parts of the name before it. -/
def nameFollows : List (Spanned Token) → Bool
  | ⟨.dot, _⟩ :: ⟨.identifier _, _⟩ :: rest => nameFollows rest
  | ⟨.identifier _, _⟩ :: _ => true
  | _ => false

/-- Whether a type and a name follow, so that a declaration does. -/
def declFollows : List (Spanned Token) → Bool
  | ⟨.keyword .int, _⟩ :: _ => true
  | ⟨.keyword .boolean, _⟩ :: _ => true
  | ⟨.identifier _, _⟩ :: rest => nameFollows rest
  | _ => false

/-- Reads the value after an equals sign, if there is one. -/
def initializer : Parser (Option Expr) := do
  if ← eat .assign then
    return some (← expression)
  return none

/-- Reads the declaration of a local variable, without the semicolon after it. -/
def localVar : Parser Stmt := do
  let start ← here
  let ty ← ty
  if ty.value = .void then
    reportAt .voidLocal ty.span
  let name ← identifier
  let init ← initializer
  return .localVar (start.merge (← behind)) ty name init

/-- Reads an expression unless `stop` follows. -/
def expressionUnless (stop : Token) : Parser (Option Expr) := do
  if (← peek) = stop then
    return none
  return some (← expression)

/-- Reads a condition in parentheses. -/
def condition : Parser Expr := do
  expect .lparen
  let cond ← expression
  expect .rparen
  return cond

/-- Reads the first part of a `for`. -/
def forInit : Parser (Option Stmt) := do
  if (← peek) = .semicolon then
    return none
  if declFollows (← get).ahead then
    return some (← localVar)
  let value ← expression
  return some (.expr value.span value)

/-- A statement with another span. -/
def withSpan (span : Span) : Stmt → Stmt
  | .localVar _ ty name init => .localVar span ty name init
  | s => s

mutual

/-- Reads a statement. -/
def stmt : Nat → Parser Stmt
  | 0 => do
    report .nestingTooDeep
    return .empty (← here)
  | n + 1 => do
    let start ← here
    match ← peek with
    | .lbrace =>
      advance
      let stmts ← blockBody n
      return .block (start.merge (← behind)) stmts
    | .keyword .«if» =>
      advance
      let cond ← condition
      let thenBranch ← nested n
      let elseBranch ← elseClause n
      return .ifElse (start.merge (← behind)) cond thenBranch elseBranch
    | .keyword .«while» =>
      advance
      let cond ← condition
      let body ← nested n
      return .whileLoop (start.merge (← behind)) cond body
    | .keyword .«for» =>
      advance
      expect .lparen
      let init ← forInit
      expect .semicolon
      let cond ← expressionUnless .semicolon
      expect .semicolon
      let update ← expressionUnless .rparen
      expect .rparen
      let body ← nested n
      return .forLoop (start.merge (← behind)) init cond update body
    | .keyword .«return» =>
      advance
      let value ← expressionUnless .semicolon
      expect .semicolon
      return .ret (start.merge (← behind)) value
    | .keyword .«break» =>
      advance
      expect .semicolon
      return .brk (start.merge (← behind))
    | .keyword .«continue» =>
      advance
      expect .semicolon
      return .cont (start.merge (← behind))
    | .semicolon =>
      advance
      return .empty start
    | _ =>
      if declFollows (← get).ahead then
        let decl ← localVar
        expect .semicolon
        return withSpan (start.merge (← behind)) decl
      else
        let value ← expression
        expect .semicolon
        return .expr (start.merge (← behind)) value

/-- Reads the statement after `else`, if there is one. -/
def elseClause : Nat → Parser (Option Stmt)
  | 0 => do
    report .nestingTooDeep
    return none
  | n + 1 => do
    if ← eat (.keyword .«else») then
      return some (← nested n)
    return none

/-- Reads the body of an `if`, an `else` or a loop, one level deeper. -/
def nested : Nat → Parser Stmt
  | 0 => do
    report .nestingTooDeep
    return .empty (← here)
  | n + 1 => do
    if declFollows (← get).ahead then
      report .declarationNotAllowed
    if ← enterNesting then
      let s ← stmt n
      leaveNesting
      return s
    else
      return .empty (← here)

/-- Reads statements up to a closing brace. Where a statement takes no token, one is skipped. -/
def stmts : Nat → Parser (List Stmt)
  | 0 => do
    report .nestingTooDeep
    return []
  | n + 1 => do
    match ← peek with
    | .rbrace | .endOfFile => return []
    | _ =>
      let before := (← get).left
      let s ← stmt n
      if (← get).left = before then
        advance
      return s :: (← stmts n)

/-- Reads the statements of a block, one level deeper, and its closing brace. -/
def blockBody : Nat → Parser (List Stmt)
  | 0 => do
    report .nestingTooDeep
    return []
  | n + 1 => do
    if ← enterNesting then
      let body ← stmts n
      leaveNesting
      expect .rbrace
      return body
    else
      return []

end

/-- A bound on the recursion that is large enough for `tokens` tokens. -/
def stmtDepth (tokens : Nat) : Nat := 4 * tokens + 4

/-- Reads a block. -/
def block : Parser Block := do
  let start ← here
  expect .lbrace
  let stmts ← blockBody (stmtDepth (← get).left)
  return ⟨start.merge (← behind), stmts⟩

end Parser

end JavaFold
