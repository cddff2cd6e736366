import JavaFold.Token.Cursor

/-!
# Moving through tokens by their indices

The same movements as those of a `Cursor`, for a position that is an index into all tokens. Each token is looked up by
its index, and each difference of two numbers is taken only if it is not negative: where an index is out of range or a
difference would be negative, reading has no result. Loops end where their conditions say so, without a bound, and one
that does not end has no result either. The calls of functions that read a part of the grammar are counted.

A movement is written `tokens.advance`, a loop or a part of the grammar `tokens |>.dottedName`.
-/

namespace JavaFold

/-- All tokens of a text, which reading by index looks into. -/
abbrev TokenList := List (Spanned Token)

/-- A place among tokens as an index, with the depth of nesting, the problems so far, the latest first, and the number
of calls so far. -/
structure IndexedCursor where
  position : Nat
  depth : Nat
  problems : List Diagnostic
  calls : Nat
deriving Repr

/-- The place before the first token. -/
def IndexedCursor.start : IndexedCursor := { position := 0, depth := 0, problems := [], calls := 0 }

/-- Reading by index, which has no result if it fails or does not end. -/
abbrev IndexedParser := StateT IndexedCursor Option

namespace IndexedParser

/-- Counts the call of a function. -/
def called : IndexedParser Unit := modify fun c => { c with calls := c.calls + 1 }

/-- The difference of two numbers, which must not be negative. -/
def difference (a b : Nat) : IndexedParser Nat := if b ≤ a then return a - b else failure

/-- Notes a problem at a span. -/
def reportAt (problem : Problem) (span : Span) : IndexedParser Unit :=
  modify fun c => { c with problems := ⟨problem, span⟩ :: c.problems }

def leaveNesting : IndexedParser Unit := do
  let depth ← difference (← get).depth 1
  modify fun c => { c with depth }

end IndexedParser

namespace TokenList

open IndexedParser

/-- The token at an index, which has to be in range. -/
def tokenAt (tokens : TokenList) (index : Nat) : IndexedParser (Spanned Token) := tokens[index]?

/-- The index of the last token. -/
def lastIndex (tokens : TokenList) : IndexedParser Nat := difference tokens.length 1

def current (tokens : TokenList) : IndexedParser (Spanned Token) := do tokens.tokenAt (← get).position

def peek (tokens : TokenList) : IndexedParser Token := return (← tokens.current).value

/-- The token some places further on, or the last one. -/
def peekAt (tokens : TokenList) (offset : Nat) : IndexedParser Token := do
  let index := min ((← get).position + offset) (← tokens.lastIndex)
  return (← tokens.tokenAt index).value

def here (tokens : TokenList) : IndexedParser Span := return (← tokens.current).span

/-- The span of the token just passed. -/
def behind (tokens : TokenList) : IndexedParser Span := do
  let position := (← get).position
  if 0 < position then
    let index ← difference position 1
    return (← tokens.tokenAt index).span
  tokens.here

/-- Goes past one token, unless it is the last one. -/
def advance (tokens : TokenList) : IndexedParser Unit := do
  let _ ← tokens.current
  let last ← tokens.lastIndex
  if (← get).position < last then
    modify fun c => { c with position := c.position + 1 }

/-- Notes a problem at the next token. -/
def report (tokens : TokenList) (problem : Problem) : IndexedParser Unit := do reportAt problem (← tokens.here)

/-- Goes past the next token if it is `token`. -/
def eat (tokens : TokenList) (token : Token) : IndexedParser Bool := do
  if (← tokens.peek) = token then
    tokens.advance
    return true
  else
    return false

/-- Goes past the next token, which has to be `token`. -/
def expect (tokens : TokenList) (token : Token) : IndexedParser Unit := do
  unless ← tokens.eat token do
    tokens.report (.expectedToken token (← tokens.peek))

/-- Reads a name. -/
def identifier (tokens : TokenList) : IndexedParser (Spanned String) := do
  match ← tokens.peek with
  | .identifier name =>
    let span ← tokens.here
    tokens.advance
    return ⟨name, span⟩
  | found =>
    tokens.report (.expectedIdentifier found)
    return ⟨Parser.missingName, ← tokens.here⟩

/-- Reads further parts of a dotted name. -/
def nameParts (tokens : TokenList) (name : Spanned String) : IndexedParser (Spanned String) := do
  match ← tokens.peek, ← tokens.peekAt 1 with
  | .dot, .identifier _ =>
    tokens.advance
    let part ← tokens.identifier
    tokens |>.nameParts ⟨name.value ++ "." ++ part.value, name.span.merge part.span⟩
  | _, _ => return name
partial_fixpoint

/-- Reads a name that may have several parts with dots between them. -/
def dottedName (tokens : TokenList) : IndexedParser (Spanned String) := do
  called
  let first ← tokens.identifier
  tokens |>.nameParts first

/-- Goes to the end of the file. -/
def skipToEnd (tokens : TokenList) : IndexedParser Unit := do
  match ← tokens.peek with
  | .endOfFile => return ()
  | _ =>
    tokens.advance
    tokens |>.skipToEnd
partial_fixpoint

/-- Counts one more level of nesting. If that is too deep, the rest of the text is skipped. -/
def enterNesting (tokens : TokenList) : IndexedParser Bool := do
  modify fun c => { c with depth := c.depth + 1 }
  if (← get).depth ≤ Problem.nestingLimit then
    return true
  tokens.report .nestingTooDeep
  tokens |>.skipToEnd
  return false

end TokenList

end JavaFold
