import JavaFold.Proofs.Program.Declarations

/-!
# Running methods

What a method does when it runs. A variable holds the value it was given last. Operands and arguments are evaluated
from left to right, and a compound assignment reads its target before its right side. What values are, is left to a
`Semantics`: the runs are the same whether a value is no more than a literal (`Conversion.lean`) or an object
(`Objects.lean`). Where the language leaves something open, a `World` decides: operators that have no constant result,
the answers to calls, and what names with several parts stand for. Two programs behave in the same way if they do so in
every world.

The rounds of a loop are counted, and a run whose loops go beyond the number given to it is `unfinished`. A run that
never ends is one that is unfinished for every number.
-/

namespace JavaFold

/-- The text of an expression that is a name. -/
def Expr.name? : Expr → Option String
  | name _ text => some text
  | _ => none

/-- Whether an expression is made of operators on literals alone. -/
def Expr.isConstant : Expr → Bool
  | literal _ _ => true
  | binary _ _ l r => isConstant l && isConstant r
  | unary _ (.step _) _ => false
  | unary _ _ e => isConstant e
  | _ => false

/-- Whether a literal is a string. -/
def Literal.isText : Literal → Bool
  | str _ => true
  | _ => false

/-! ## Values -/

section

open Constants (Scope declaredType?)

/-- Which types of variables take values of their own, and what they take for a value that they are given. The type is
missing where a name stands for nothing that is declared. -/
structure Conversion (V : Type) where
  other : Option Ty → Bool
  convert : Option Ty → V → V
  /-- A variable of a type that holds literals takes the value that it is given. -/
  held : ∀ ty v, Constants.holds ty v = true → other (some ty) = false

namespace Conversion

variable {V : Type} (cv : Conversion V)

/-- No type takes values of its own. -/
def none : Conversion V := ⟨fun _ => false, fun _ v => v, fun _ _ _ => rfl⟩

/-- What a variable of a type holds after it has been given a value. -/
def give (ty : Option Ty) (v : V) : V := if cv.other ty then cv.convert ty v else v

/-- Whether a name stands for a variable that takes values of its own. -/
def others (fields : Scope) (scopes : List Scope) (x : String) : Bool := cv.other (declaredType? scopes fields x)

/-- What a name stands for after it has been given a value. -/
def into (fields : Scope) (scopes : List Scope) (x : String) (v : V) : V := cv.give (declaredType? scopes fields x) v

variable {cv} {fields : Scope} {scopes : List Scope} {x : String} {ty : Option Ty}

theorem give_of_not (h : cv.other ty = false) (v : V) : cv.give ty v = v := by
  rw [give, h, if_neg Bool.false_ne_true]

theorem into_of_not (h : cv.others fields scopes x = false) (v : V) : cv.into fields scopes x v = v := give_of_not h v

end Conversion

end

namespace Execution

open Constants (Scope isDotted)

/-- What values are. A run has a record of type `σ` beside its values. -/
structure Semantics (V σ : Type) where
  /-- The value that a literal stands for. All literals that are alike stand for the same one. -/
  ofLiteral : Literal → V
  /-- The literal that a value reads like, which is all that conditions and most operators ask for. -/
  literal : V → Literal
  /-- What an operator gives that has a constant result. A string that is `shared` is the one that literals stand for. -/
  result : (shared : Bool) → Literal → σ → V × σ
  /-- What a binary operator gives that has no constant result, but one that is told by what the values are. -/
  compare? : BinaryOp → V → V → Option V
  conversion : Conversion V
  /-- The expression at a place has given a value. -/
  record : Span → V → σ → σ
  /-- The record before a run. -/
  start : σ
  literal_ofLiteral : ∀ v, literal (ofLiteral v) = v
  result_eq : ∀ {shared : Bool} {v : Literal}, (v.isText = true → shared = true) →
    ∀ log, result shared v log = (ofLiteral v, log)

/-! ## Machines -/

/-- A call with the values of its arguments. -/
structure Called (V : Type) where
  path : String
  args : List V
deriving DecidableEq, Repr

/-- The values of all names that are not local. -/
abbrev Fields (V : Type) := String → V

/-- What a run depends on beside the program. An operator or a call without a result fails. -/
structure World (V : Type) where
  /-- The operators where they have no other result. -/
  binary : BinaryOp → V → V → Option V
  unary : UnaryOp → V → Option V
  step : StepOp → V → Option V
  /-- The answer to the first of some calls, the latest one first, and the fields after it, given the fields before
  it. -/
  call : List (Called V) → Fields V → Option V × Fields V
  /-- The fields after a value has been written to a name, as far as names with several parts are concerned: these may
  stand for variables that have other names as well. -/
  share : Fields V → String → V → Fields V

/-- A world where no operator that the program does not decide has a value, and no call gives a result. -/
def World.silent {V : Type} : World V where
  binary _ _ _ := none
  unary _ _ := none
  step _ _ := none
  call _ f := (none, f)
  share f _ _ := f

/-- The variables of a scope with their values, the one declared last first. A variable that has been given no value
holds none. -/
abbrev Frame (V : Type) := List (String × Option V)

/-- The variables of the scopes from the innermost on, the fields, the calls so far, the latest one first, and the
record. -/
structure Machine (V σ : Type) where
  scopes : List (Frame V)
  fields : Fields V
  calls : List (Called V)
  log : σ

/-- Why a run stops short. -/
inductive Halt
  | failure
  | unfinished
deriving DecidableEq, Repr

/-- A part of a run. -/
abbrev Run (V σ : Type) := EStateM Halt (Machine V σ)

/-- How a statement ends. -/
inductive Completion (V : Type)
  | normal
  | brk
  | cont
  | ret (value : Option V)
deriving DecidableEq, Repr

section

variable {V σ : Type}

/-- The variable of a scope gets a value. -/
def setFrame (x : String) (v : V) : Frame V → Frame V
  | [] => []
  | e :: frame => if e.1 = x then (x, some v) :: frame else e :: setFrame x v frame

/-- Whether a scope declares a variable. -/
def declaredIn (x : String) (frame : Frame V) : Bool := frame.any (·.1 == x)

/-- The innermost variable of a name gets a value. -/
def setLocal (x : String) (v : V) : List (Frame V) → List (Frame V)
  | [] => []
  | frame :: frames =>
    if declaredIn x frame then setFrame x v frame :: frames else frame :: setLocal x v frames

namespace Machine

/-- The value that a name stands for. -/
def read? (m : Machine V σ) (x : String) : Option V :=
  match m.scopes.findSome? (·.lookup x) with
  | some value => value
  | none => some (m.fields x)

/-- Whether a name is one of a local variable or parameter. -/
def isLocal (m : Machine V σ) (x : String) : Bool := m.scopes.any (declaredIn x)

/-- A name gets a value. -/
def write (w : World V) (x : String) (v : V) (m : Machine V σ) : Machine V σ where
  scopes := setLocal x v m.scopes
  fields y :=
    if y = x ∧ !m.isLocal x then v
    else if isDotted x || isDotted y then w.share m.fields x v y
    else m.fields y
  calls := m.calls
  log := m.log

/-- The innermost scope declares a variable. -/
def declare (x : String) (v : Option V) (m : Machine V σ) : Machine V σ :=
  match m.scopes with
  | [] => m
  | frame :: frames => { m with scopes := ((x, v) :: frame) :: frames }

/-- A scope starts. -/
def push (m : Machine V σ) : Machine V σ := { m with scopes := [] :: m.scopes }

/-- The innermost scope ends. -/
def pop (m : Machine V σ) : Machine V σ := { m with scopes := m.scopes.tail }

end Machine

/-! ## Operators and calls -/

/-- A value that may be missing. -/
def given {α : Type} : Option α → Run V σ α
  | some a => return a
  | none => throw .failure

def read (x : String) : Run V σ V := do given ((← get).read? x)

def write (w : World V) (x : String) (v : V) : Run V σ Unit := modify (·.write w x v)

/-- Runs something in a scope of its own. -/
def inScope {α : Type} (x : Run V σ α) : Run V σ α := do
  modify Machine.push
  let a ← x
  modify Machine.pop
  return a

/-- A call is made. -/
def call (w : World V) (path : String) (args : List V) : Run V σ V := do
  modify fun m => { m with calls := ⟨path, args⟩ :: m.calls }
  let m ← get
  modify ({ · with fields := (w.call m.calls m.fields).2 })
  given (w.call m.calls m.fields).1

/-- Whether the left operand decides the result alone. -/
def isDecided : BinaryOp → Literal → Bool
  | .and, .bool b => !b
  | .or, .bool b => b
  | _, _ => false

section

variable (S : Semantics V σ) (w : World V)

/-- An operator gives a constant result. -/
def result (shared : Bool) (v : Literal) : Run V σ V :=
  modifyGet fun m => ((S.result shared v m.log).1, { m with log := (S.result shared v m.log).2 })

/-- A binary operator on two values. -/
def binary (op : BinaryOp) (shared : Bool) (a b : V) : Run V σ V :=
  match op.eval? (S.literal a) (S.literal b) with
  | some v => result S shared v
  | none => given ((S.compare? op a b).or (w.binary op a b))

/-- An operator in front of a value. -/
def unary (op : UnaryOp) (a : V) : Run V σ V :=
  given (((op.eval? (S.literal a)).map S.ofLiteral).or (w.unary op a))

/-- What comes out at a place is on record. -/
def see (place : Span) (x : Run V σ V) : Run V σ V := do
  let v ← x
  modify fun m => { m with log := S.record place v m.log }
  return v

/-! ## Expressions -/

variable (fields : Scope) (scopes : List Scope)

/-- A step of a variable. The result is the value before it if `isAfter`, and the value after it otherwise. -/
def step (op : StepOp) (isAfter : Bool) (target : Expr) : Run V σ V := do
  let x ← given target.name?
  let old ← read x
  let new ← given (((op.eval? (S.literal old)).map S.ofLiteral).or (w.step op old))
  let v := S.conversion.into fields scopes x new
  write w x v
  return if isAfter then old else v

mutual

/-- The value of an expression. If it is `joined` to a string at once, only its text goes on, and no string is made for
it. An assignment has the value that the variable takes. -/
def eval (joined : Bool) : Expr → Run V σ V
  | .literal s v => see S s (return S.ofLiteral v)
  | .name s x => see S s (read x)
  | .binary s op l r => see S s do
    let a ← eval (op == .add) l
    if isDecided op (S.literal a) then
      return a
    binary S w op (joined || l.isConstant && r.isConstant) a (← eval (op == .add) r)
  | .unary s (.step op) target => see S s (step S w fields scopes op false target)
  | .unary s op e => see S s do unary S w op (← eval false e)
  | .postStep s op target => see S s (step S w fields scopes op true target)
  | .assign s .plain target value => see S s do
    let v ← eval false value
    let x ← given target.name?
    write w x (S.conversion.into fields scopes x v)
    return S.conversion.into fields scopes x v
  | .assign s (.compound op) target value => see S s do
    let x ← given target.name?
    let old ← read x
    let v ← binary S w op false old (← eval (op == .add) value)
    write w x (S.conversion.into fields scopes x v)
    return S.conversion.into fields scopes x v
  | .call s path args => see S s do call w path.value (← evalAll args)

def evalAll : List Expr → Run V σ (List V)
  | [] => return []
  | e :: es => do
    let v ← eval false e
    return v :: (← evalAll es)

end

/-- An expression that may be missing, for what it does. -/
def evalOpt : Option Expr → Run V σ Unit
  | none => return ()
  | some e => do
    let _ ← eval S w fields scopes false e

/-- Whether a condition holds. One that is missing does. -/
def test : Option Expr → Run V σ Bool
  | none => return true
  | some e => do
    match S.literal (← eval S w fields scopes false e) with
    | .bool b => return b
    | _ => throw .failure

end

/-! ## Statements -/

/-- Goes on where something has ended normally. -/
def andThen (x y : Run V σ (Completion V)) : Run V σ (Completion V) := do
  match ← x with
  | .normal => y
  | c => return c

/-- A round of a loop. The result is how the loop ends, if it does. -/
def oneRound (cond : Run V σ Bool) (body : Run V σ (Completion V)) (update : Run V σ Unit) :
    Run V σ (Option (Completion V)) := do
  if ← cond then
    match ← body with
    | .normal | .cont =>
      update
      return none
    | .brk => return some .normal
    | .ret v => return some (.ret v)
  else
    return some .normal

/-- Rounds of a loop until it ends. -/
def loop (round : Run V σ (Option (Completion V))) : Nat → Run V σ (Completion V)
  | 0 => throw .unfinished
  | fuel + 1 => do
    match ← round with
    | some c => return c
    | none => loop round fuel

section

variable (S : Semantics V σ) (w : World V) (fields : Scope) (fuel : Nat)

mutual

/-- Runs a statement where some scopes are declared. No loop takes more than `fuel` rounds at a time. -/
def exec (scopes : List Scope) : Stmt → Run V σ (Completion V)
  | .block _ ss => inScope (execAll ([] :: scopes) ss)
  | .expr _ e => do
    let _ ← eval S w fields scopes false e
    return .normal
  | .localVar _ _ name none => do
    modify (·.declare name.value none)
    return .normal
  | .localVar _ ty name (some e) => do
    let v ← eval S w fields scopes false e
    modify (·.declare name.value (some (S.conversion.give (some ty.value) v)))
    return .normal
  | .ifElse _ c t none => do
    if ← test S w fields scopes (some c) then exec scopes t else return .normal
  | .ifElse _ c t (some e) => do
    if ← test S w fields scopes (some c) then exec scopes t else exec scopes e
  | .whileLoop _ c b => loop (oneRound (test S w fields scopes (some c)) (exec scopes b) (return ())) fuel
  | .forLoop _ none c u b =>
    let inner := [] :: scopes
    inScope (loop (oneRound (test S w fields inner c) (exec inner b) (evalOpt S w fields inner u)) fuel)
  | .forLoop _ (some i) c u b =>
    let inner := i.declared ([] :: scopes)
    inScope (andThen (exec ([] :: scopes) i)
      (loop (oneRound (test S w fields inner c) (exec inner b) (evalOpt S w fields inner u)) fuel))
  | .ret _ none => return .ret none
  | .ret _ (some e) => do return .ret (some (← eval S w fields scopes false e))
  | .brk _ => return .brk
  | .cont _ => return .cont
  | .empty _ => return .normal

/-- Runs statements until one of them does not end normally. -/
def execAll (scopes : List Scope) : List Stmt → Run V σ (Completion V)
  | [] => return .normal
  | s :: ss => andThen (exec scopes s) (execAll (s.declared scopes) ss)

end

end

end

/-! ## Methods and fields -/

/-- How a run ends. -/
inductive Outcome (V : Type)
  | returned (value : Option V)
  | fallsThrough
  | failure
  | unfinished
deriving DecidableEq, Repr

/-- What a run shows: how it ends, the fields at its end, its calls, the latest one first, and the record. -/
structure Behaviour (V σ : Type) where
  outcome : Outcome V
  fields : Fields V
  calls : List (Called V)
  log : σ

variable {V σ : Type}

/-- The parameters with the values given for them. -/
def arguments : List Param → List V → Frame V
  | [], _ => []
  | p :: ps, [] => (p.name, none) :: arguments ps []
  | p :: ps, v :: vs => (p.name, some v) :: arguments ps vs

/-- What is seen of a run. A `break` or `continue` that belongs to no loop is a failure. -/
def behaviour : EStateM.Result Halt (Machine V σ) (Completion V) → Behaviour V σ
  | .ok .normal m => ⟨.fallsThrough, m.fields, m.calls, m.log⟩
  | .ok (.ret v) m => ⟨.returned v, m.fields, m.calls, m.log⟩
  | .ok _ m => ⟨.failure, m.fields, m.calls, m.log⟩
  | .error .failure m => ⟨.failure, m.fields, m.calls, m.log⟩
  | .error .unfinished m => ⟨.unfinished, m.fields, m.calls, m.log⟩

end Execution

open Constants (Scope)
open Execution (Semantics World Fields Behaviour)

variable {V σ : Type}

/-- What a method of a class with some fields does when it is called with some values while the fields have others. -/
def MethodDecl.runIn (S : Semantics V σ) (fields : Scope) (d : MethodDecl) (w : World V) (args : List V) (f : Fields V)
    (fuel : Nat) : Behaviour V σ :=
  Execution.behaviour ((Execution.exec S w fields fuel [d.scope] (.block d.body.span d.body.stmts)).run
    ⟨[(Execution.arguments d.params args).reverse], f, [], S.start⟩)

/-- What is seen when a field gets its initial value, and the value, if it has one. -/
def FieldDecl.runIn (S : Semantics V σ) (fields : Scope) (d : FieldDecl) (w : World V) (f : Fields V) : Behaviour V σ :=
  match d.init with
  | none => ⟨.fallsThrough, f, [], S.start⟩
  | some e => Execution.behaviour ((do
      let v ← Execution.eval S w fields [] false e
      return Execution.Completion.ret (some (S.conversion.give (some d.ty.value) v))).run ⟨[], f, [], S.start⟩)

/-- What a method does, or what is seen when a field gets its initial value. -/
def Member.runIn (S : Semantics V σ) (fields : Scope) (m : Member) (w : World V) (args : List V) (f : Fields V)
    (fuel : Nat) : Behaviour V σ :=
  match m with
  | field _ d => d.runIn S fields w f
  | method _ d => d.runIn S fields w args f fuel

end JavaFold
