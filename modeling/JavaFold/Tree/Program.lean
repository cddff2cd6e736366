import JavaFold.Tree.Edit

/-!
# Programs as trees

`Tree.ofUnit` puts a program into a tree, and `Tree.unit?` reads one from a tree. The parts of a
program are put in from the bottom up, so a node has a later slot than the nodes below it, the root
apart. A tree need not be one of a program: reading it fails at the first node whose children do not
fit its kind. Spans of names and types are not kept.
-/

namespace JavaFold

mutual

/-- The parts of an expression. -/
def Expr.parts : Expr → OrderedTree Part
  | .literal s v => .node ⟨.expr (.literal v), s⟩ []
  | .name s n => .node ⟨.expr (.name n), s⟩ []
  | .binary s op l r => .node ⟨.expr (.binary op), s⟩ [Expr.parts l, Expr.parts r]
  | .unary s op e => .node ⟨.expr (.unary op), s⟩ [Expr.parts e]
  | .postStep s op e => .node ⟨.expr (.postStep op), s⟩ [Expr.parts e]
  | .assign s op t v => .node ⟨.expr (.assign op), s⟩ [Expr.parts t, Expr.parts v]
  | .call s path args => .node ⟨.expr (.call path.value), s⟩ (Expr.partsAll args)

def Expr.partsAll : List Expr → List (OrderedTree Part)
  | [] => []
  | e :: es => Expr.parts e :: Expr.partsAll es

end

/-- The parts of an optional expression. -/
def Expr.optParts (e : Option Expr) : List (OrderedTree Part) := (e.map Expr.parts).toList

mutual

/-- The parts of a statement. -/
def Stmt.parts : Stmt → OrderedTree Part
  | .block s body => .node ⟨.stmt .block, s⟩ (Stmt.partsAll body)
  | .expr s e => .node ⟨.stmt .expression, s⟩ [e.parts]
  | .localVar s ty name init =>
    .node ⟨.stmt (.localVar ty.value name.value), s⟩ (Expr.optParts init)
  | .ifElse s c t none => .node ⟨.stmt .ifElse, s⟩ [c.parts, Stmt.parts t]
  | .ifElse s c t (some e) => .node ⟨.stmt .ifElse, s⟩ [c.parts, Stmt.parts t, Stmt.parts e]
  | .whileLoop s c b => .node ⟨.stmt .whileLoop, s⟩ [c.parts, Stmt.parts b]
  | .forLoop s none c u b =>
    .node ⟨.stmt (.forLoop false c.isSome u.isSome), s⟩
      (Expr.optParts c ++ Expr.optParts u ++ [Stmt.parts b])
  | .forLoop s (some i) c u b =>
    .node ⟨.stmt (.forLoop true c.isSome u.isSome), s⟩
      (Stmt.parts i :: (Expr.optParts c ++ Expr.optParts u ++ [Stmt.parts b]))
  | .ret s v => .node ⟨.stmt .ret, s⟩ (Expr.optParts v)
  | .brk s => .node ⟨.stmt .brk, s⟩ []
  | .cont s => .node ⟨.stmt .cont, s⟩ []
  | .empty s => .node ⟨.stmt .empty, s⟩ []

def Stmt.partsAll : List Stmt → List (OrderedTree Part)
  | [] => []
  | s :: ss => Stmt.parts s :: Stmt.partsAll ss

end

/-- The parts of a field or method. -/
def Member.parts : Member → OrderedTree Part
  | .field s d =>
    .node ⟨.field d.modifiers d.ty.value d.name.value, s⟩ (Expr.optParts d.init)
  | .method s d =>
    .node ⟨.method d.modifiers d.ret.value d.name.value d.params, s⟩
      [.node ⟨.stmt .block, d.body.span⟩ (Stmt.partsAll d.body.stmts)]

/-- The parts of a class. -/
def ClassDecl.parts (c : ClassDecl) : OrderedTree Part :=
  .node ⟨.classDecl c.modifiers c.name.value, c.span⟩ (c.members.map Member.parts)

namespace Tree

mutual

/-- Makes nodes for parts, those below a part before the part itself. -/
def insertParts : OrderedTree Part → Tree → NodeId × Tree
  | .node p ts, t =>
    let (ids, t) := insertAllParts ts t
    t.insert p.kind p.span ids

def insertAllParts : List (OrderedTree Part) → Tree → List NodeId × Tree
  | [], t => ([], t)
  | p :: ps, t =>
    let (id, t) := insertParts p t
    let (ids, t) := insertAllParts ps t
    (id :: ids, t)

end

/-- The tree of a program. -/
def ofUnit (unit : CompilationUnit) : Tree :=
  let (ids, t) := insertAllParts (unit.classes.map ClassDecl.parts) empty
  ids.foldl (fun t id => t.link t.root id) t

end Tree

/-- A tree that may not be one of a program. -/
abbrev Reading := Except TreeError

namespace Reading

/-- The node's children do not fit its kind. -/
def malformed {α : Type} (p : Placed) (expected : Layout) : Reading α :=
  .error (.malformed p.id expected)

mutual

def expr : OrderedTree Placed → Reading Expr
  | .node p ts =>
    match p.kind, ts with
    | .expr (.literal v), [] => return .literal p.span v
    | .expr (.name n), [] => return .name p.span n
    | .expr (.binary op), [l, r] => return .binary p.span op (← expr l) (← expr r)
    | .expr (.unary op), [e] => return .unary p.span op (← expr e)
    | .expr (.postStep op), [e] => return .postStep p.span op (← expr e)
    | .expr (.assign op), [t, v] => return .assign p.span op (← expr t) (← expr v)
    | .expr (.call path), args => return .call p.span (.made path) (← exprs args)
    | .expr _, _ => malformed p .operands
    | _, _ => malformed p .anExpression

def exprs : List (OrderedTree Placed) → Reading (List Expr)
  | [] => return []
  | t :: ts => return (← expr t) :: (← exprs ts)

end

mutual

def stmt : OrderedTree Placed → Reading Stmt
  | .node p ts =>
    match p.kind, ts with
    | .stmt .block, body => return .block p.span (← stmts body)
    | .stmt .expression, [e] => return .expr p.span (← expr e)
    | .stmt (.localVar ty name), [] => return .localVar p.span (.made ty) (.made name) none
    | .stmt (.localVar ty name), [e] =>
      return .localVar p.span (.made ty) (.made name) (some (← expr e))
    | .stmt .ifElse, [c, t] => return .ifElse p.span (← expr c) (← stmt t) none
    | .stmt .ifElse, [c, t, e] => return .ifElse p.span (← expr c) (← stmt t) (some (← stmt e))
    | .stmt .whileLoop, [c, b] => return .whileLoop p.span (← expr c) (← stmt b)
    | .stmt (.forLoop false false false), [b] =>
      return .forLoop p.span none none none (← stmt b)
    | .stmt (.forLoop false false true), [u, b] =>
      return .forLoop p.span none none (some (← expr u)) (← stmt b)
    | .stmt (.forLoop false true false), [c, b] =>
      return .forLoop p.span none (some (← expr c)) none (← stmt b)
    | .stmt (.forLoop false true true), [c, u, b] =>
      return .forLoop p.span none (some (← expr c)) (some (← expr u)) (← stmt b)
    | .stmt (.forLoop true false false), [i, b] =>
      return .forLoop p.span (some (← stmt i)) none none (← stmt b)
    | .stmt (.forLoop true false true), [i, u, b] =>
      return .forLoop p.span (some (← stmt i)) none (some (← expr u)) (← stmt b)
    | .stmt (.forLoop true true false), [i, c, b] =>
      return .forLoop p.span (some (← stmt i)) (some (← expr c)) none (← stmt b)
    | .stmt (.forLoop true true true), [i, c, u, b] =>
      return .forLoop p.span (some (← stmt i)) (some (← expr c)) (some (← expr u)) (← stmt b)
    | .stmt (.forLoop _ _ _), _ => malformed p .forParts
    | .stmt .ret, [] => return .ret p.span none
    | .stmt .ret, [e] => return .ret p.span (some (← expr e))
    | .stmt .brk, [] => return .brk p.span
    | .stmt .cont, [] => return .cont p.span
    | .stmt .empty, [] => return .empty p.span
    | .stmt _, _ => malformed p .statementParts
    | _, _ => malformed p .aStatement

def stmts : List (OrderedTree Placed) → Reading (List Stmt)
  | [] => return []
  | t :: ts => return (← stmt t) :: (← stmts ts)

end

def block : OrderedTree Placed → Reading Block
  | .node p ts =>
    if p.kind.isBlock then return ⟨p.span, ← stmts ts⟩
    else malformed p .aBlock

def member : OrderedTree Placed → Reading Member
  | .node p ts =>
    match p.kind, ts with
    | .field modifiers ty name, [] =>
      return .field p.span ⟨modifiers, .made ty, .made name, none⟩
    | .field modifiers ty name, [e] =>
      return .field p.span ⟨modifiers, .made ty, .made name, some (← expr e)⟩
    | .field _ _ _, _ => malformed p .oneInitializer
    | .method modifiers ret name params, [body] =>
      return .method p.span ⟨modifiers, .made ret, .made name, params, ← block body⟩
    | .method _ _ _ _, _ => malformed p .oneBody
    | _, _ => malformed p .aMember

def classDecl : OrderedTree Placed → Reading ClassDecl
  | .node p ts =>
    match p.kind with
    | .classDecl modifiers name => return ⟨p.span, modifiers, .made name, ← ts.mapM member⟩
    | _ => malformed p .aClass

end Reading

/-- The program in a tree. -/
def Tree.unit? (t : Tree) : Except TreeError CompilationUnit :=
  match t.subtree? t.root with
  | none => .error (.stale t.root)
  | some s => return ⟨← s.children.mapM Reading.classDecl⟩

end JavaFold
