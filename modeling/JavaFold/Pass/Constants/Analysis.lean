import JavaFold.Pass.Constants.Facts

/-!
# Finding constants

A method body is gone through once, in the order in which it runs, with what is known at each point.
A variable that is known to hold a literal is replaced by it, and so is an operator whose operands
are then all literals. The result is the list of replacements.

* Where two ways meet, what both agree on is known.
* Before a loop, everything that the loop may write to is forgotten, so that going through its body
  once is enough. Nothing that the body finds out is known after it.
* The right operand of `&&` and `||` may not run.
* A call may write to any field, and so may a write to a name with several parts. Local variables
  and parameters are out of their reach.
-/

namespace JavaFold

namespace Constants

/-- A node and the literal in its place. -/
structure Replacement where
  node : NodeId
  value : Literal
deriving DecidableEq, Repr

/-- How far the analysis has come: what is known, the scopes from the innermost on, and the
replacements so far, the latest first. -/
structure State where
  flow : Flow
  scopes : List Scope
  found : List Replacement

/-- A step of the analysis. -/
abbrev Analyse := StateM State

/-- What is known of an expression: its value, and whether a literal now stands in its place. -/
structure Value where
  value : Option Literal
  isLiteral : Bool

namespace Value

/-- Nothing is known. -/
def unknown : Value := ⟨none, false⟩

end Value

namespace Analyse

def flow : Analyse Flow := return (← get).flow

def setFlow (flow : Flow) : Analyse Unit := modify ({ · with flow })

/-- Takes a step and goes back to what was known before it. -/
def aside {α : Type} (x : Analyse α) : Analyse α := do
  let before ← flow
  let a ← x
  setFlow before
  return a

/-- Changes what is known, where control gets to. -/
def update (f : List Scope → Facts → Facts) : Analyse Unit :=
  modify fun s => { s with flow := s.flow.map (f s.scopes) }

/-- Forgets all variables that are not local. -/
def forgetFields : Analyse Unit :=
  update fun scopes facts => facts.filter fun fact => isLocal scopes fact.1

/-- A variable gets a value, of which nothing may be known. -/
def bind (fields : Scope) (name : String) (value : Option Literal) : Analyse Unit :=
  update fun scopes facts =>
    match value with
    | none => facts.forget name
    | some v =>
      if (declaredType? scopes fields name).any (holds · v) then facts.learn name v
      else facts.forget name

/-- A name is written to. -/
def write (fields : Scope) (name : String) (value : Option Literal) : Analyse Unit :=
  if isDotted name then forgetFields else bind fields name value

/-- Forgets what a loop made of `parts` may write to. -/
def enterLoop (parts : List (OrderedTree Placed)) : Analyse Unit :=
  let written := writtenIn parts
  update fun scopes facts =>
    facts.filter fun fact =>
      !written.contains (some fact.1) && (!written.contains none || isLocal scopes fact.1)

/-- A scope starts. -/
def enterScope : Analyse Unit := modify fun s => { s with scopes := [] :: s.scopes }

/-- The innermost scope declares a variable. -/
def declare (name : String) (ty : Ty) : Analyse Unit :=
  modify fun s =>
    match s.scopes with
    | [] => s
    | scope :: scopes => { s with scopes := ((name, ty) :: scope) :: scopes }

/-- The innermost scope ends, and its variables are forgotten. -/
def leaveScope : Analyse Unit :=
  modify fun s =>
    match s.scopes with
    | [] => s
    | scope :: scopes =>
      { s with
        flow := s.flow.map fun facts => scope.foldl (fun facts v => facts.forget v.1) facts
        scopes }

/-- Puts a literal in the place of a node. -/
def replace (node : NodeId) (value : Literal) : Analyse Value := do
  modify fun s => { s with found := ⟨node, value⟩ :: s.found }
  return ⟨some value, true⟩

/-- An operator has `value`. A literal takes its place only if literals have taken the places of its
operands: an operand with a known value may still write to something. -/
def settle (node : NodeId) (value : Option Literal) (operands : List Value) : Analyse Value :=
  match value with
  | some v => if operands.all (·.isLiteral) then replace node v else return ⟨some v, false⟩
  | none => return .unknown

/-- Goes through a step of the variable `target`. The result is its value before the step if the
operator stands after it, and the value after the step otherwise. -/
def step (fields : Scope) (op : StepOp) (isAfter : Bool) (target : OrderedTree Placed) :
    Analyse Value := do
  match target.label.kind.name? with
  | none =>
    forgetFields
    return .unknown
  | some name =>
    let old := (← flow).value? name
    let new := old.bind op.eval?
    write fields name new
    return ⟨if isAfter then old else new, false⟩

mutual

/-- Goes through an expression. -/
def expr (fields : Scope) : OrderedTree Placed → Analyse Value
  | .node p ts =>
    match p.kind, ts with
    | .expr (.literal v), _ => return ⟨some v, true⟩
    | .expr (.name name), _ => do
      match (← flow).value? name with
      | some v => replace p.id v
      | none => return .unknown
    | .expr (.binary op), [lhs, rhs] => do
      let left ← expr fields lhs
      let before ← flow
      let right ← expr fields rhs
      if op.isShortCircuit then
        setFlow (before.join (← flow))
      let value := match left.value, right.value with
        | some l, some r => op.eval? l r
        | _, _ => none
      settle p.id value [left, right]
    | .expr (.unary (.step op)), [target] => step fields op false target
    | .expr (.unary op), [operand] => do
      let inner ← expr fields operand
      settle p.id (inner.value.bind op.eval?) [inner]
    | .expr (.postStep op), [target] => step fields op true target
    | .expr (.assign op), [target, value] => do
      match target.label.kind.name? with
      | none =>
        let _ ← expr fields value
        forgetFields
        return .unknown
      | some name =>
        let old := (← flow).value? name
        let value := (← expr fields value).value
        let new := match op with
          | .plain => value
          | .compound op => match old, value with
            | some o, some v => op.eval? o v
            | _, _ => none
        write fields name new
        return ⟨new, false⟩
    | .expr (.call _), args => do
      exprs fields args
      forgetFields
      return .unknown
    | _, _ => return .unknown

/-- Goes through expressions in order. -/
def exprs (fields : Scope) : List (OrderedTree Placed) → Analyse Unit
  | [] => return ()
  | t :: ts => do
    let _ ← expr fields t
    exprs fields ts

end

/-- Goes through an expression that may be missing. -/
def optExpr (fields : Scope) : Option (OrderedTree Placed) → Analyse Unit
  | none => return ()
  | some e => do
    let _ ← expr fields e

/-- The parts of a `for` that are run again and again, as far as they are present. -/
structure ForParts where
  cond : Option (OrderedTree Placed)
  update : Option (OrderedTree Placed)
  body : Option (OrderedTree Placed)

namespace ForParts

/-- The number of the flags that are set: the body has as many children before it. -/
def count (init cond update : Bool) : Nat := init.toNat + cond.toNat + update.toNat

/-- The parts among the children of a `for` with the given flags. -/
def ofList (init cond update : Bool) (ts : List (OrderedTree Placed)) : ForParts where
  cond := if cond then ts[init.toNat]? else none
  update := if update then ts[init.toNat + cond.toNat]? else none
  body := ts[count init cond update]?

/-- All parts. -/
def looped (parts : ForParts) : List (OrderedTree Placed) :=
  parts.cond.toList ++ parts.update.toList ++ parts.body.toList

end ForParts

mutual

/-- Goes through a statement. -/
def stmt (fields : Scope) : OrderedTree Placed → Analyse Unit
  | .node p ts =>
    match p.kind, ts with
    | .stmt .block, body => do
      enterScope
      stmts fields body
      leaveScope
    | .stmt .expression, [e] => do
      let _ ← expr fields e
    | .stmt (.localVar ty name), [] => do
      declare name ty
      bind fields name none
    | .stmt (.localVar ty name), e :: _ => do
      let value ← expr fields e
      declare name ty
      bind fields name value.value
    | .stmt .ifElse, cond :: thenBranch :: rest => do
      let _ ← expr fields cond
      let before ← flow
      stmt fields thenBranch
      let afterThen ← flow
      setFlow before
      nthStmt fields 0 rest
      setFlow (afterThen.join (← flow))
    | .stmt .whileLoop, [cond, body] => do
      enterLoop [cond, body]
      aside do
        let _ ← expr fields cond
        stmt fields body
    | .stmt (.forLoop init cond update), ts => do
      let parts := ForParts.ofList init cond update ts
      enterScope
      if init then
        nthStmt fields 0 ts
      enterLoop parts.looped
      aside do
        optExpr fields parts.cond
        nthStmt fields (ForParts.count init cond update) ts
      aside do
        optExpr fields parts.update
      leaveScope
    | .stmt .ret, value => do
      optExpr fields value.head?
      setFlow none
    | .stmt .brk, _ => setFlow none
    | .stmt .cont, _ => setFlow none
    | _, _ => return ()

/-- Goes through statements in order. -/
def stmts (fields : Scope) : List (OrderedTree Placed) → Analyse Unit
  | [] => return ()
  | t :: ts => do
    stmt fields t
    stmts fields ts

/-- Goes through the statement that has `n` children before it, if there is one. -/
def nthStmt (fields : Scope) : Nat → List (OrderedTree Placed) → Analyse Unit
  | _, [] => return ()
  | 0, t :: _ => stmt fields t
  | n + 1, _ :: ts => nthStmt fields n ts

end

/-- Goes through a method or the initial value of a field. -/
def member (fields : Scope) : OrderedTree Placed → Analyse Unit
  | .node p ts =>
    match p.kind, ts with
    | .method _ _ _ params, body :: _ => do
      modify ({ · with scopes := [(params.map fun p => (p.name, p.ty)).reverse] })
      stmt fields body
    | .field _ _ _, init :: _ => do
      let _ ← expr fields init
    | _, _ => return ()

end Analyse

/-- The replacements in a method or field of a class with the given fields, in the order in which
they are made. -/
def replacements (fields : Scope) (t : OrderedTree Placed) : List Replacement :=
  ((Analyse.member fields t).run ⟨some [], [], []⟩).2.found.reverse

end Constants

end JavaFold
