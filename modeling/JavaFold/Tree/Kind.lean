import JavaFold.Program.Basic

/-!
# Kinds of nodes

What a node of a program tree is. The parts that can be changed on their own are the children of
the node and not in its kind; each kind says which children a well-laid-out node has.
-/

namespace JavaFold

/-- Kinds of statements. -/
inductive StmtKind
  /-- The children are statements. -/
  | block
  /-- The child is an expression. -/
  | expression
  /-- The child, if any, is the initial value. -/
  | localVar (ty : Ty) (name : String)
  /-- The children are a condition, a statement, and, after `else`, perhaps another one. -/
  | ifElse
  /-- The children are a condition and a statement. -/
  | whileLoop
  /-- The children are a statement and two expressions, as far as the flags say that they are
  present, and a statement. -/
  | forLoop (init cond update : Bool)
  /-- The child, if any, is the value. -/
  | ret
  | brk
  | cont
  | empty
deriving DecidableEq, Repr, Inhabited

/-- Kinds of expressions. The children are the operands or arguments. -/
inductive ExprKind
  | literal (value : Literal)
  | name (text : String)
  | binary (op : BinaryOp)
  | unary (op : UnaryOp)
  | postStep (op : StepOp)
  | assign (op : AssignOp)
  | call (path : String)
deriving DecidableEq, Repr, Inhabited

/-- Kinds of nodes. -/
inductive NodeKind
  /-- The children are classes. -/
  | unit
  /-- The children are fields and methods. -/
  | classDecl (modifiers : List Modifier) (name : String)
  /-- The child, if any, is the initial value. -/
  | field (modifiers : List Modifier) (ty : Ty) (name : String)
  /-- The child is a block. -/
  | method (modifiers : List Modifier) (ret : Ty) (name : String) (params : List Param)
  | stmt (kind : StmtKind)
  | expr (kind : ExprKind)
deriving DecidableEq, Repr, Inhabited

namespace NodeKind

def isBlock : NodeKind → Bool
  | stmt .block => true
  | _ => false

def isStmt : NodeKind → Bool
  | stmt _ => true
  | _ => false

def isExpr : NodeKind → Bool
  | expr _ => true
  | _ => false

/-- The value of a literal. -/
def literal? : NodeKind → Option Literal
  | expr (.literal value) => some value
  | _ => none

/-- The text of a name. -/
def name? : NodeKind → Option String
  | expr (.name text) => some text
  | _ => none

/-- A short word for the kind. -/
def tag : NodeKind → String
  | unit => "unit"
  | classDecl _ _ => "class"
  | field _ _ _ => "field"
  | method _ _ _ _ => "method"
  | stmt .block => "block"
  | stmt .expression => "expr-stmt"
  | stmt (.localVar _ _) => "local"
  | stmt .ifElse => "if"
  | stmt .whileLoop => "while"
  | stmt (.forLoop _ _ _) => "for"
  | stmt .ret => "return"
  | stmt .brk => "break"
  | stmt .cont => "continue"
  | stmt .empty => "empty"
  | expr (.literal _) => "literal"
  | expr (.name _) => "name"
  | expr (.binary _) => "infix"
  | expr (.unary _) => "prefix"
  | expr (.postStep _) => "postfix"
  | expr (.assign _) => "assign"
  | expr (.call _) => "call"

/-- Which optional parts of a `for` are present: the letter of each, or a low line. -/
def flagsText (init cond update : Bool) : String :=
  (if init then "i" else "_") ++ (if cond then "c" else "_") ++ (if update then "u" else "_")

/-- The words and operators that belong to the node itself. -/
def words? : NodeKind → Option String
  | unit => none
  | classDecl _ name => some name
  | field _ ty name => some (ty.text ++ " " ++ name)
  | method _ ret name params =>
    some (ret.text ++ " " ++ name ++ "(" ++ Param.listText params ++ ")")
  | stmt (.localVar ty name) => some (ty.text ++ " " ++ name)
  | stmt (.forLoop init cond update) => some (flagsText init cond update)
  | stmt _ => none
  | expr (.literal value) => some value.text
  | expr (.name text) => some text
  | expr (.binary op) => some op.symbol
  | expr (.unary op) => some op.symbol
  | expr (.postStep op) => some op.symbol
  | expr (.assign op) => some op.symbol
  | expr (.call path) => some path

end NodeKind

/-- A part of a program: what it is and where it was read from. -/
structure Part where
  kind : NodeKind
  span : Span
deriving DecidableEq, Repr, Inhabited

end JavaFold
