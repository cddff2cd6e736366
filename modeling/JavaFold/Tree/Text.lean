import JavaFold.Tree.Basic

/-!
# Trees as text

A tree is written as nested parentheses, each with the tag of a node, its words and its children.
Expressions stay on one line; any other child starts a line of its own, two spaces deeper.
-/

namespace JavaFold

namespace Tree

/-- What is written in front of a child that is `depth` levels deep. -/
def gap (inExpression : Bool) (depth : Nat) : String :=
  if inExpression then " " else "\n" ++ String.join (List.replicate depth "  ")

mutual

/-- The text of a tree that is `depth` levels deep. -/
def render (depth : Nat) : OrderedTree Placed → String
  | .node p ts =>
    let words := match p.kind.words? with
      | none => ""
      | some words => " " ++ words
    "(" ++ p.kind.tag ++ words ++ renderAll p.kind.isExpr (depth + 1) ts ++ ")"

def renderAll (inExpression : Bool) (depth : Nat) : List (OrderedTree Placed) → String
  | [] => ""
  | t :: ts => gap inExpression depth ++ render depth t ++ renderAll inExpression depth ts

end

/-- The text of the tree at `id`. -/
def dump (t : Tree) (id : NodeId) : String :=
  match t.subtree? id with
  | none => "<stale>"
  | some s => render 0 s

end Tree

end JavaFold
