import JavaFold.Program.Evaluation
import JavaFold.Tree.Basic

/-!
# What is known about variables

At each point of a method some variables are known to hold a literal. `Facts` lists them; `Flow`
says in addition whether control can get to the point at all. A variable is only known to hold a
value of its declared type, and only if that type is `int`, `boolean` or `String`: values of other
types have another arithmetic or are compared in another way.
-/

namespace JavaFold

namespace Constants

/-- Variables with the literals they hold; each variable is listed once. -/
abbrev Facts := List (String × Literal)

/-- What is known at a point, or nothing where control cannot get to. -/
abbrev Flow := Option Facts

/-- The variables of a scope with their types, the one declared last first. -/
abbrev Scope := List (String × Ty)

namespace Facts

/-- Nothing is known about the variable any more. -/
def forget (facts : Facts) (name : String) : Facts := facts.filter (·.1 != name)

/-- The variable holds `value`. -/
def learn (facts : Facts) (name : String) (value : Literal) : Facts :=
  (name, value) :: facts.forget name

/-- What holds on both of two ways. -/
def common (a b : Facts) : Facts := a.filter fun fact => b.lookup fact.1 == some fact.2

end Facts

namespace Flow

/-- What is known where two ways meet. -/
def join : Flow → Flow → Flow
  | none, b => b
  | a, none => a
  | some a, some b => some (a.common b)

/-- The literal a variable is known to hold. -/
def value? (flow : Flow) (name : String) : Option Literal := flow.bind (·.lookup name)

end Flow

/-- Whether a variable of type `ty` holds `value` with the meaning that operators on literals
have. -/
def holds : Ty → Literal → Bool
  | .int, .int _ => true
  | .boolean, .bool _ => true
  | .named name, .str _ | .named name, .null => name == "String" || name == "java.lang.String"
  | _, _ => false

/-- Whether one of the scopes declares the variable. -/
def isLocal (scopes : List Scope) (name : String) : Bool :=
  scopes.any fun scope => scope.any (·.1 == name)

/-- The type of a variable by its innermost declaration: the innermost scope comes first, and after
all scopes the fields of the class. -/
def declaredType? (scopes : List Scope) (fields : Scope) (name : String) : Option Ty :=
  (scopes.findSome? (·.lookup name)).or (fields.lookup name)

/-- Whether a name has several parts, so that it may be a field of any object. -/
def isDotted (name : String) : Bool := name.toList.contains '.'

/-- The name that a node writes to, if it writes. Other fields than the one it names may change with
a call, or a write to anything but a plain name; then the name is missing. -/
def written? : OrderedTree Placed → Option (Option String)
  | .node p ts =>
    match p.kind with
    | .expr (.assign _) | .expr (.unary (.step _)) | .expr (.postStep _) =>
      some ((ts.head?.bind (·.label.kind.name?)).filter (!isDotted ·))
    | .expr (.call _) => some none
    | _ => none

/-- What may be written to anywhere in some trees. -/
def writtenIn (parts : List (OrderedTree Placed)) : List (Option String) :=
  (OrderedTree.subtreesAll parts).filterMap written?

end Constants

end JavaFold
