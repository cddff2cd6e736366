import JavaFold.Program.Stmt.Parser
import JavaFold.Token.Lexer

/-!
# Reading programs

`CompilationUnit.ofSource?` reads a source text: its tokens first, and if there is no problem with
them its classes. A text with a problem is refused with all problems of the step that found one.
-/

namespace JavaFold

namespace Parser

/-- Reads the modifiers in front of a declaration, at most `limit` of them, after those in
`seen`. -/
def modifiersAfter : Nat → List Modifier → Parser (List Modifier)
  | 0, seen => return seen
  | limit + 1, seen => do
    match Modifier.ofToken? (← peek) with
    | none => return seen
    | some m =>
      if m ∈ seen then
        report (.repeatedModifier m)
      advance
      modifiersAfter limit (seen ++ [m])

/-- Reads the modifiers in front of a declaration. -/
def modifiers : Parser (List Modifier) := do modifiersAfter (← get).left []

/-- Reads parameters, at most `limit` of them. A comma may stand after the last one. -/
def params : Nat → Parser (List Param)
  | 0 => return []
  | limit + 1 => do
    match ← peek with
    | .rparen | .endOfFile => return []
    | _ =>
      let ty ← ty
      let name ← identifier
      let param : Param := ⟨ty.value, name.value⟩
      if ← eat .comma then
        return param :: (← params limit)
      return [param]

/-- Reads a field or a method. -/
def member : Parser Member := do
  let start ← here
  let modifiers ← modifiers
  let ty ← ty
  let name ← identifier
  if ← eat .lparen then
    let params ← params (← get).left
    expect .rparen
    let body ← block
    return .method (start.merge (← behind)) ⟨modifiers, ty, name, params, body⟩
  if ty.value = .void then
    reportAt .voidField ty.span
  let init ← initializer
  expect .semicolon
  return .field (start.merge (← behind)) ⟨modifiers, ty, name, init⟩

/-- Reads members up to a closing brace, at most `limit` of them. Where a member takes no token,
one is skipped. -/
def members : Nat → Parser (List Member)
  | 0 => return []
  | limit + 1 => do
    match ← peek with
    | .rbrace | .endOfFile => return []
    | _ =>
      let before := (← get).left
      let m ← member
      if (← get).left = before then
        advance
      return m :: (← members limit)

/-- Reads a class. -/
def classDecl : Parser ClassDecl := do
  let start ← here
  let modifiers ← modifiers
  match ← peek with
  | .keyword .«class» =>
    advance
    let name ← identifier
    expect .lbrace
    let members ← members (← get).left
    expect .rbrace
    return ⟨start.merge (← behind), modifiers, name, members⟩
  | found =>
    report (.expectedClass found)
    return ⟨start, modifiers, ⟨missingName, start⟩, []⟩

/-- Reads classes up to the end of the file, at most `limit` of them. Where a class takes no token,
one is skipped. -/
def classes : Nat → Parser (List ClassDecl)
  | 0 => return []
  | limit + 1 => do
    match ← peek with
    | .endOfFile => return []
    | _ =>
      let before := (← get).left
      let c ← classDecl
      if (← get).left = before then
        advance
      return c :: (← classes limit)

end Parser

namespace CompilationUnit

/-- The program that tokens write, or what is wrong with them. -/
def ofTokens? (tokens : List (Spanned Token)) : Except (List Diagnostic) CompilationUnit :=
  let (classes, cursor) := (Parser.classes tokens.length).run (.ofTokens tokens)
  if cursor.problems.isEmpty then .ok ⟨classes⟩ else .error cursor.problems.reverse

/-- The program and the comments of a source text, or what is wrong with it. -/
def ofSource? (source : String) : Except (List Diagnostic) (CompilationUnit × List Comment) :=
  let lexed := Lexed.ofSource source
  if lexed.diagnostics.isEmpty then
    (ofTokens? lexed.tokens).map fun file => (file, lexed.comments)
  else
    .error lexed.diagnostics

end CompilationUnit

end JavaFold
