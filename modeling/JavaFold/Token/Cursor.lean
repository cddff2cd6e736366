import JavaFold.Source.Diagnostic

/-!
# Moving through tokens

A cursor stands before a token of a list that ends with the end of the file, and never moves past
that one. Parsing goes on after a problem: it notes the problem in the cursor, takes something in
the place of what is missing, and the text is refused at the end. The nesting of blocks, bodies and
operands is counted; where it gets too deep, the cursor goes to the end of the file at once.
-/

namespace JavaFold

/-- A place among tokens, with the span of the token just passed, the depth of nesting, and the
problems so far, the latest first. The number of tokens ahead is kept because it bounds every
loop. -/
structure Cursor where
  ahead : List (Spanned Token)
  left : Nat
  left_eq : left = ahead.length := by rfl
  passed : Option Span
  depth : Nat
  problems : List Diagnostic
deriving Repr

/-- Reading from a cursor. -/
abbrev Parser := StateM Cursor

namespace Cursor

/-- The start of a list of tokens. -/
def ofTokens (tokens : List (Spanned Token)) : Cursor :=
  { ahead := tokens, left := tokens.length, passed := none, depth := 0, problems := [] }

/-- The token before which the cursor stands. -/
def token (c : Cursor) : Token :=
  match c.ahead with
  | [] => .endOfFile
  | t :: _ => t.value

/-- The span of the token before which the cursor stands. -/
def here (c : Cursor) : Span :=
  match c.ahead with
  | [] => .dummy
  | t :: _ => t.span

/-- The span of the token just passed. -/
def behind (c : Cursor) : Span := c.passed.getD c.here

/-- Goes past one token, unless it is the last one. -/
def advance (c : Cursor) : Cursor :=
  match h : c.ahead with
  | t :: u :: rest =>
    { c with
      ahead := u :: rest
      left := c.left - 1
      left_eq := by simp [c.left_eq, h]
      passed := some t.span }
  | _ => c

/-- Goes to the end of the file. -/
def skipToEnd (c : Cursor) : Cursor :=
  let skipped := c.ahead.takeWhile (·.value != .endOfFile)
  let ahead := c.ahead.dropWhile (·.value != .endOfFile)
  { c with
    ahead
    left := ahead.length
    left_eq := rfl
    passed := (skipped.getLast?.map (·.span)).or c.passed }

/-- Notes a problem. -/
def note (c : Cursor) (problem : Problem) (span : Span) : Cursor :=
  { c with problems := ⟨problem, span⟩ :: c.problems }

end Cursor

namespace Parser

def peek : Parser Token := return (← get).token

def here : Parser Span := return (← get).here

def behind : Parser Span := return (← get).behind

def advance : Parser Unit := modify Cursor.advance

/-- Notes a problem at a span. -/
def reportAt (problem : Problem) (span : Span) : Parser Unit := modify (·.note problem span)

/-- Notes a problem at the next token. -/
def report (problem : Problem) : Parser Unit := do reportAt problem (← here)

/-- Goes past the next token if it is `token`. -/
def eat (token : Token) : Parser Bool := do
  if (← peek) = token then
    advance
    return true
  else
    return false

/-- Goes past the next token, which has to be `token`. -/
def expect (token : Token) : Parser Unit := do
  unless ← eat token do
    report (.expectedToken token (← peek))

/-- The name that stands where one is missing. The text is refused, so it is never printed. -/
def missingName : String := "_error_"

/-- Reads a name. -/
def identifier : Parser (Spanned String) := do
  match ← peek with
  | .identifier name =>
    let span ← here
    advance
    return ⟨name, span⟩
  | found =>
    report (.expectedIdentifier found)
    return ⟨missingName, ← here⟩

/-- Reads further parts of a dotted name, at most `limit` of them. -/
def nameParts : Nat → Spanned String → Parser (Spanned String)
  | 0, name => return name
  | limit + 1, name => do
    match (← get).ahead with
    | ⟨.dot, _⟩ :: ⟨.identifier part, span⟩ :: _ =>
      advance
      advance
      nameParts limit ⟨name.value ++ "." ++ part, name.span.merge span⟩
    | _ => return name

/-- Reads a name that may have several parts with dots between them. -/
def dottedName : Parser (Spanned String) := do
  let first ← identifier
  nameParts (← get).left first

/-- Counts one more level of nesting. If that is too deep, the rest of the text is skipped. -/
def enterNesting : Parser Bool := do
  modify fun c => { c with depth := c.depth + 1 }
  if (← get).depth ≤ Problem.nestingLimit then
    return true
  report .nestingTooDeep
  modify Cursor.skipToEnd
  return false

def leaveNesting : Parser Unit := modify fun c => { c with depth := c.depth - 1 }

end Parser

end JavaFold
