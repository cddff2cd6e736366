import JavaFold.Program.Expr.Printer
import JavaFold.Token.Lexer

/-!
# Writing programs

A program is written with four spaces for each level, one statement a line. Comments go back to
where they were. Those on lines of their own stand before the first class, member or statement that
was read after them; a comment at the end of a line stays at the end of the first field or simple
statement that ends before it on that line. All other comments follow at the end. A call that would
make its line longer than 100 bytes is written with an argument a line.

The writer passes on the comments it has not written yet; the text of each part is put together from
the texts of its own parts.
-/

namespace JavaFold

/-- Writing a part of a program, out of comments that are still to be written. -/
abbrev Writer := StateM (List Comment)

namespace Writer

/-- One more level of indentation. -/
def tab : String := "    "

/-- The greatest width of a line with a call that can be broken, in bytes. -/
def maxWidth : Nat := 100

/-- The bytes of a text after its last line end. -/
def lineWidth (text : String) : Nat :=
  (text.toList.reverse.takeWhile (· != '\n')).foldl (fun n c => n + c.utf8Size) 0

/-- A comment on a line of its own. -/
def ownLine (indent : String) (c : Comment) : String := indent ++ c.text ++ "\n"

/-- The comments on lines of their own that were read before `start`. -/
def leading (indent : String) (start : Nat) : Writer String := fun comments =>
  let (before, later) := comments.partition fun c => !c.trailing && c.span.start < start
  (String.join (before.map (ownLine indent)), later)

/-- Whether a comment stands at the end of the line on which something ended at `stop`. -/
def endsLineOf (stop : Nat) (c : Comment) : Bool :=
  c.trailing && stop ≤ c.span.start && c.lineStart ≤ stop

/-- The comment at the end of the line on which something ended at `stop`. What was not read from
the source has no such line. -/
def trailing (stop : Nat) : Writer String := fun comments =>
  if stop = 0 then ("", comments)
  else match comments.find? (endsLineOf stop) with
    | none => ("", comments)
    | some c => (" " ++ c.text, comments.eraseP (endsLineOf stop))

/-- The comments that no part of the program asked for. -/
def remaining : Writer String := fun comments =>
  (String.join (comments.map (ownLine "")), [])

/-- The arguments of a call, one a line. -/
def argLines (indent : String) : List Expr → String
  | [] => ""
  | [e] => indent ++ e.text ++ "\n"
  | e :: es => indent ++ e.text ++ ",\n" ++ argLines indent es

/-- An expression after `line`, the text that is already on its line. -/
def wrapped (indent line : String) (e : Expr) : String :=
  if lineWidth line + e.text.utf8ByteSize ≤ maxWidth then e.text
  else match e with
    | .call _ path args@(_ :: _) =>
      path.value ++ "(\n" ++ argLines (indent ++ tab) args ++ indent ++ ")"
    | _ => e.text

/-- A declaration or expression after `line`, without its semicolon. -/
def simple (indent line : String) : Stmt → String
  | .localVar _ ty name none => ty.value.text ++ " " ++ name.value
  | .localVar _ ty name (some e) =>
    let decl := ty.value.text ++ " " ++ name.value ++ " = "
    decl ++ wrapped indent (line ++ decl) e
  | .expr _ e => wrapped indent line e
  | _ => ""

/-- An optional expression in the header of a `for`. -/
def headerPart : Option Expr → String
  | none => ""
  | some e => " " ++ e.text

/-- Where a statement is written. -/
inductive Position
  | ownLine
  | body
  | afterElse
deriving DecidableEq, Repr

/-- What comes before a statement that starts at `start`, and its indentation. The body of a branch
or loop goes one level deeper, on the next line. -/
def opening (position : Position) (indent : String) (start : Nat) : Writer (String × String) := do
  match position with
  | .ownLine => return ((← leading indent start) ++ indent, indent)
  | .body | .afterElse =>
    let indent := indent ++ tab
    return ("\n" ++ (← leading indent start) ++ indent, indent)

def isBlock : Stmt → Bool
  | .block _ _ => true
  | _ => false

/-- The line end after a body: a body with braces does not end its line. -/
def bodyEnd (body : Stmt) : String := if isBlock body then "\n" else ""

mutual

/-- A statement. As a body, a block leaves the line of its closing brace open. -/
def stmt (position : Position) (indent : String) : Stmt → Writer String
  | .block span body => do
    match position with
    | .ownLine =>
      let before ← leading indent span.start
      let inner ← stmts (indent ++ tab) body
      return before ++ indent ++ "\x7b\n" ++ inner ++ indent ++ "\x7d\n"
    | .body | .afterElse =>
      let inner ← stmts (indent ++ tab) body
      return " \x7b\n" ++ inner ++ indent ++ "\x7d"
  | .ifElse span cond thenBranch elseBranch => do
    let (before, indent) ←
      if position = .afterElse then pure (" ", indent) else opening position indent span.start
    let thenText ← stmt .body indent thenBranch
    let head := before ++ "if (" ++ cond.text ++ ")" ++ thenText
    match elseBranch with
    | none => return head ++ bodyEnd thenBranch
    | some e =>
      let elseText ← stmt .afterElse indent e
      let lead := if isBlock thenBranch then " " else indent
      return head ++ lead ++ "else" ++ elseText ++ bodyEnd e
  | .whileLoop span cond body => do
    let (before, indent) ← opening position indent span.start
    let bodyText ← stmt .body indent body
    return before ++ "while (" ++ cond.text ++ ")" ++ bodyText ++ bodyEnd body
  | .forLoop span init cond update body => do
    let (before, indent) ← opening position indent span.start
    let initText := (init.map (simple indent (indent ++ "for ("))).getD ""
    let bodyText ← stmt .body indent body
    return before ++ "for (" ++ initText ++ ";" ++ headerPart cond ++ ";" ++ headerPart update ++
      ")" ++ bodyText ++ bodyEnd body
  | .ret span value => do
    let (before, indent) ← opening position indent span.start
    let valueText := match value with
      | none => ""
      | some e => " " ++ wrapped indent (indent ++ "return ") e
    return before ++ "return" ++ valueText ++ ";" ++ (← trailing span.stop) ++ "\n"
  | .brk span => do
    let (before, _) ← opening position indent span.start
    return before ++ "break;" ++ (← trailing span.stop) ++ "\n"
  | .cont span => do
    let (before, _) ← opening position indent span.start
    return before ++ "continue;" ++ (← trailing span.stop) ++ "\n"
  | .empty span => do
    let (before, _) ← opening position indent span.start
    return before ++ ";" ++ (← trailing span.stop) ++ "\n"
  | .expr span value => do
    let (before, indent) ← opening position indent span.start
    return before ++ wrapped indent indent value ++ ";" ++ (← trailing span.stop) ++ "\n"
  | .localVar span ty name init => do
    let (before, indent) ← opening position indent span.start
    return before ++ simple indent indent (.localVar span ty name init) ++ ";" ++
      (← trailing span.stop) ++ "\n"

/-- Statements, each on its own line. -/
def stmts (indent : String) : List Stmt → Writer String
  | [] => return ""
  | s :: ss => do
    let first ← stmt .ownLine indent s
    return first ++ (← stmts indent ss)

end

/-- Modifiers in front of a declaration, each with a space after it. -/
def modifiers (ms : List Modifier) : String := String.join (ms.map (·.text ++ " "))

def field (indent : String) (span : Span) (d : FieldDecl) : Writer String := do
  let before ← leading indent span.start
  let decl := modifiers d.modifiers ++ d.ty.value.text ++ " " ++ d.name.value
  let value := match d.init with
    | none => ""
    | some e => " = " ++ wrapped indent (indent ++ decl ++ " = ") e
  return before ++ indent ++ decl ++ value ++ ";" ++ (← trailing span.stop) ++ "\n"

def method (indent : String) (span : Span) (d : MethodDecl) : Writer String := do
  let before ← leading indent span.start
  let body ← stmts (indent ++ tab) d.body.stmts
  return before ++ indent ++ modifiers d.modifiers ++ d.ret.value.text ++ " " ++ d.name.value ++
    "(" ++ Param.listText d.params ++ ") \x7b\n" ++ body ++ indent ++ "\x7d\n"

def member (indent : String) : Member → Writer String
  | .field span d => field indent span d
  | .method span d => method indent span d

def isMethod : Member → Bool
  | .method _ _ => true
  | .field _ _ => false

/-- The members after `previous`. A method has a blank line before it and after it. -/
def membersAfter (indent : String) (previous : Member) : List Member → Writer String
  | [] => return ""
  | m :: ms => do
    let gap := if isMethod previous || isMethod m then "\n" else ""
    let first ← member indent m
    return gap ++ first ++ (← membersAfter indent m ms)

def members (indent : String) : List Member → Writer String
  | [] => return ""
  | m :: ms => do
    let first ← member indent m
    return first ++ (← membersAfter indent m ms)

def classDecl (c : ClassDecl) : Writer String := do
  let before ← leading "" c.span.start
  let body ← members tab c.members
  return before ++ modifiers c.modifiers ++ "class " ++ c.name.value ++ " \x7b\n" ++ body ++
    "\x7d\n"

/-- Classes with blank lines between them. -/
def classes : List ClassDecl → Writer String
  | [] => return ""
  | [c] => classDecl c
  | c :: cs => do
    let first ← classDecl c
    return first ++ "\n" ++ (← classes cs)

/-- A text with exactly one line end at its end. -/
def endLine (text : String) : String :=
  String.ofList (text.toList.reverse.dropWhile (· == '\n')).reverse ++ "\n"

end Writer

/-- The text of a program with its comments. -/
def CompilationUnit.text (unit : CompilationUnit) (comments : List Comment) : String :=
  let written : Writer String := do
    let body ← Writer.classes unit.classes
    return body ++ (← Writer.remaining)
  Writer.endLine (written.run comments).1

end JavaFold
