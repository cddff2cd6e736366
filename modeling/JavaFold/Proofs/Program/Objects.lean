import JavaFold.Proofs.Program.Execution

/-!
# Runs in which strings are objects

In these runs a string is not only a text but an object that has one. All literals of one text are the same object, and
so are strings that operators on literals alone give. Every other concatenation makes an object of its own each time it
runs, unless it is an operand of a further one, where nothing gets to see an object. `==` and `!=` on strings and `null`
ask for one object rather than for one text. Places in a program can be watched: what the expressions there give is on
record.
-/

namespace JavaFold

namespace Objects

/-- Which of the strings with a text a string is: the one that literals share, one that a concatenation has made, or
one that comes from outside. -/
inductive Origin
  | shared
  | made (number : Nat)
  | foreign (number : Nat)
deriving DecidableEq, Repr

/-- A value. Strings are objects; two of them are the same if they have the same text and origin. -/
inductive Value
  | int (n : Int32)
  | bool (b : Bool)
  | str (text : String) (origin : Origin)
  | null
deriving DecidableEq, Repr

namespace Value

/-- The value that a literal stands for. -/
def ofLiteral : Literal → Value
  | .int n => int n
  | .bool b => bool b
  | .str text => str text .shared
  | .null => null

/-- The literal that a value reads like. -/
def literal : Value → Literal
  | int n => .int n
  | bool b => .bool b
  | str text _ => .str text
  | null => .null

/-- Whether a value is an object or `null`. -/
def isReference : Value → Bool
  | str _ _ | null => true
  | int _ | bool _ => false

end Value

/-- What the expression at a place has given. -/
structure Seen where
  place : Span
  value : Value
deriving DecidableEq, Repr

/-- What has been seen at the places that are watched, the latest first, and the number of strings made. -/
structure Record where
  seen : List Seen
  made : Nat
deriving DecidableEq, Repr

/-- What an operator gives that has a constant result. A string is made anew if it is not `shared`. -/
def result (shared : Bool) (v : Literal) (log : Record) : Value × Record :=
  match v with
  | .str text =>
    if shared then (.str text .shared, log) else (.str text (.made log.made), { log with made := log.made + 1 })
  | v => (.ofLiteral v, log)

/-- Whether two references lead to one object, if an operator asks for that. -/
def sameObject? (op : BinaryOp) (a b : Value) : Option Value :=
  if a.isReference && b.isReference then
    match op with
    | .eq => some (.bool (a = b))
    | .ne => some (.bool (a ≠ b))
    | _ => none
  else none

/-- Strings are objects, and some places are watched. -/
def semantics (watched : Span → Bool) : Execution.Semantics Value Record where
  ofLiteral := .ofLiteral
  literal := Value.literal
  result := result
  compare? := sameObject?
  conversion := .none
  record place v log := if watched place then { log with seen := ⟨place, v⟩ :: log.seen } else log
  start := ⟨[], 0⟩
  literal_ofLiteral v := by cases v <;> rfl
  result_eq {shared v} h log := by
    cases v with
    | str text =>
      rw [result, if_pos (h rfl)]
      rfl
    | _ => rfl

end Objects

end JavaFold
