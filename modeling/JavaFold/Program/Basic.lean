import JavaFold.Program.Literal
import JavaFold.Program.Modifier
import JavaFold.Source.Span

/-!
# Programs

A compilation unit is a sequence of classes; a class holds fields and methods; a method holds a
block of statements; statements hold expressions. Every part that can be changed on its own
carries the span it was read from.
-/

namespace JavaFold

/-- A type as it is written. Every type other than the three reserved words is named. -/
inductive Ty
  | int | boolean | void
  | named (name : String)
deriving DecidableEq, Repr, Inhabited

namespace Ty

def text : Ty → String
  | int => "int"
  | boolean => "boolean"
  | void => "void"
  | named name => name

end Ty

/-- A parameter of a method. -/
structure Param where
  ty : Ty
  name : String
deriving DecidableEq, Repr, Inhabited

namespace Param

def text (p : Param) : String := p.ty.text ++ " " ++ p.name

/-- Parameters as they stand between the parentheses of a method. -/
def listText (ps : List Param) : String := ", ".intercalate (ps.map text)

end Param

/-- Expressions. A name may be dotted. -/
inductive Expr
  | literal (span : Span) (value : Literal)
  | name (span : Span) (text : String)
  | binary (span : Span) (op : BinaryOp) (lhs rhs : Expr)
  | unary (span : Span) (op : UnaryOp) (operand : Expr)
  | postStep (span : Span) (op : StepOp) (operand : Expr)
  | assign (span : Span) (op : AssignOp) (target value : Expr)
  | call (span : Span) (path : Spanned String) (args : List Expr)
deriving Repr, Inhabited

namespace Expr

def span : Expr → Span
  | literal s _ | name s _ | binary s _ _ _ | unary s _ _ | postStep s _ _ | assign s _ _ _
  | call s _ _ => s

/-- Whether the expression is a variable or field, the only thing that can be written to. -/
def isName : Expr → Bool
  | name _ _ => true
  | _ => false

end Expr

/-- Statements. The first part of a `for` is read as a declaration or an expression statement. -/
inductive Stmt
  | block (span : Span) (stmts : List Stmt)
  | expr (span : Span) (value : Expr)
  | localVar (span : Span) (ty : Spanned Ty) (name : Spanned String) (init : Option Expr)
  | ifElse (span : Span) (cond : Expr) (thenBranch : Stmt) (elseBranch : Option Stmt)
  | whileLoop (span : Span) (cond : Expr) (body : Stmt)
  | forLoop (span : Span) (init : Option Stmt) (cond update : Option Expr) (body : Stmt)
  | ret (span : Span) (value : Option Expr)
  | brk (span : Span)
  | cont (span : Span)
  | empty (span : Span)
deriving Repr, Inhabited

namespace Stmt

def span : Stmt → Span
  | block s _ | expr s _ | localVar s _ _ _ | ifElse s _ _ _ | whileLoop s _ _ | forLoop s _ _ _ _
  | ret s _ | brk s | cont s | empty s => s

end Stmt

/-- The braces and statements of a method. -/
structure Block where
  span : Span
  stmts : List Stmt
deriving Repr, Inhabited

/-- A variable of a class. -/
structure FieldDecl where
  modifiers : List Modifier
  ty : Spanned Ty
  name : Spanned String
  init : Option Expr
deriving Repr, Inhabited

/-- A method with its body. -/
structure MethodDecl where
  modifiers : List Modifier
  ret : Spanned Ty
  name : Spanned String
  params : List Param
  body : Block
deriving Repr, Inhabited

/-- What a class holds. -/
inductive Member
  | field (span : Span) (decl : FieldDecl)
  | method (span : Span) (decl : MethodDecl)
deriving Repr, Inhabited

namespace Member

def span : Member → Span
  | field s _ | method s _ => s

end Member

structure ClassDecl where
  span : Span
  modifiers : List Modifier
  name : Spanned String
  members : List Member
deriving Repr, Inhabited

/-- The classes of one source text. -/
structure CompilationUnit where
  classes : List ClassDecl
deriving Repr, Inhabited

end JavaFold
