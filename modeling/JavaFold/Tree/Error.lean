import JavaFold.Tree.Basic

/-!
# Refused edits

Why an edit of a program tree is refused, or a tree is not one of a program. Each cause is a broken
precondition, so the same edit would be refused again.
-/

namespace JavaFold

/-- What a node of a program has to be or to have. -/
inductive Layout
  | aClass
  | aMember
  | oneInitializer
  | oneBody
  | aBlock
  | aStatement
  | forParts
  | statementParts
  | anExpression
  | operands
deriving DecidableEq, Repr, Inhabited

namespace Layout

def text : Layout → String
  | aClass => "a class"
  | aMember => "a field or method"
  | oneInitializer => "at most one initializer"
  | oneBody => "exactly one body block"
  | aBlock => "a block"
  | aStatement => "a statement"
  | forParts => "for children matching its flags"
  | statementParts => "children matching the statement kind"
  | anExpression => "an expression"
  | operands => "operands matching the expression kind"

end Layout

/-- Why an edit is refused. -/
inductive TreeError
  | invalidRoot (node : NodeId)
  | detached (node : NodeId)
  | rootReplacement (node : NodeId)
  | attached (node : NodeId)
  | wouldCycle (node : NodeId)
  | stale (node : NodeId)
  | indexPastEnd (node : NodeId) (index : Nat)
  | malformed (node : NodeId) (expected : Layout)
  | noFixpoint (maxSweeps : Nat)
deriving DecidableEq, Repr, Inhabited

namespace TreeError

def message : TreeError → String
  | invalidRoot node => node.text ++ " is neither a compilation unit nor attached to a parent"
  | detached node => node.text ++ " is not attached to a parent and cannot be replaced"
  | rootReplacement node => node.text ++ " is the tree root; use `set_root` to replace it"
  | attached node => node.text ++ " is already attached; only floating nodes can be adopted"
  | wouldCycle node => "attaching " ++ node.text ++ " would make it its own ancestor"
  | stale node => node.text ++ " refers to a freed node"
  | indexPastEnd node index =>
    node.text ++ " has fewer than " ++ toString index ++ " children"
  | malformed node expected => node.text ++ ": expected " ++ expected.text
  | noFixpoint maxSweeps =>
    "passes did not reach a fixed point within " ++ toString maxSweeps ++ " sweeps"

end TreeError

end JavaFold
