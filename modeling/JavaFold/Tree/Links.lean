import JavaFold.Tree.Basic

/-!
# Checking links

`Tree.checkLinks` goes over all nodes of a tree, whatever its links are, and gives the first link
that is broken: a parent that does not list its child exactly once, a listed child that names
another parent or has been freed, a node above itself, or a root with a parent.
-/

namespace JavaFold

/-- A broken link. -/
inductive BrokenLink
  | notListedOnce (child parent : NodeId) (count : Nat)
  | staleParent (child : NodeId)
  | wrongParent (parent child : NodeId) (actual : Option NodeId)
  | staleChild (parent child : NodeId)
  | cycle (node : NodeId)
  | rootHasParent (root : NodeId)
deriving DecidableEq, Repr

namespace BrokenLink

def message : BrokenLink → String
  | notListedOnce child parent count =>
    child.text ++ " names " ++ parent.text ++ " as parent, which lists it " ++ toString count ++
      " times"
  | staleParent child => child.text ++ " names a freed parent"
  | wrongParent parent child actual =>
    parent.text ++ " lists " ++ child.text ++ ", whose parent is " ++
      match actual with
      | none => "None"
      | some id => "Some(" ++ id.text ++ ")"
  | staleChild parent child => parent.text ++ " lists a freed child " ++ child.text
  | cycle node => node.text ++ " is its own ancestor"
  | rootHasParent root => "root " ++ root.text ++ " has a parent"

end BrokenLink

namespace Tree

/-- Whether going up from `next` meets `id`, or goes on for more than `steps` parents, which it can
only do in a circle. -/
def climbsInCircle (t : Tree) (id : NodeId) : Nat → Option NodeId → Bool
  | _, none => false
  | 0, some _ => true
  | steps + 1, some parent =>
    parent == id || t.climbsInCircle id steps ((t.get? parent).bind (·.parent))

/-- Checks that the parent of a node lists it exactly once. -/
def checkParent (t : Tree) (id : NodeId) (node : Node) : Except BrokenLink Unit :=
  match node.parent with
  | none => .ok ()
  | some parent => match t.get? parent with
    | none => .error (.staleParent id)
    | some p =>
      let count := p.children.count id
      if count = 1 then .ok () else .error (.notListedOnce id parent count)

/-- Checks that the children of a node name it as their parent. -/
def checkChildren (t : Tree) (id : NodeId) : List NodeId → Except BrokenLink Unit
  | [] => .ok ()
  | child :: children => match t.get? child with
    | none => .error (.staleChild id child)
    | some c =>
      if c.parent = some id then t.checkChildren id children
      else .error (.wrongParent id child c.parent)

/-- Checks the links of one node. -/
def checkNode (t : Tree) (id : NodeId) (node : Node) : Except BrokenLink Unit := do
  t.checkParent id node
  t.checkChildren id node.children
  if t.climbsInCircle id (t.live + 1) node.parent then
    throw (.cycle id)

/-- Checks the links of the nodes in `slots`, the first of which is slot `index`. -/
def checkSlots (t : Tree) (index : Nat) : List Slot → Except BrokenLink Unit
  | [] => .ok ()
  | slot :: slots => do
    if let some node := slot.node then
      t.checkNode ⟨index, slot.generation⟩ node
    t.checkSlots (index + 1) slots

/-- Checks all links of a tree. -/
def checkLinks (t : Tree) : Except BrokenLink Unit :=
  if ((t.get? t.root).bind (·.parent)).isSome then .error (.rootHasParent t.root)
  else t.checkSlots 0 t.slots.toList

end Tree

end JavaFold
