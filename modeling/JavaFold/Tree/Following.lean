import JavaFold.Tree.Edit
import JavaFold.Tree.Links

/-!
# Following links

`Tree.release` and `Edit.deepCopy` find the whole tree that they are about before they change anything,
`Tree.descendants` and `Tree.sameShape` find it before they look at it, and `Tree.checkLinks` and `Tree.isAncestor` go
up from a node by a number of steps that they are given. All this can be done with nothing but the links: nodes wait
until their turn comes, the last one first, and each is looked at when it has come. The loops end where nothing is
left, without a bound. A loop that does not end has no result; neither has one that needs a node where there is none,
or that counts below zero.
-/

namespace JavaFold

namespace Tree

/-! ## Looking -/

/-- The nodes that wait, and all nodes below them, as their turns come. Below an id whose node is gone there is
nothing. -/
def visitWaiting? (t : Tree) (waiting : List NodeId) : Option (List NodeId) :=
  match waiting with
  | [] => some []
  | id :: waiting => do
    let below := (t.get? id).elim [] (·.children)
    return id :: (← t |>.visitWaiting? (below ++ waiting))
partial_fixpoint

/-- The ids at and below `id`, as they are met. -/
def descendants? (t : Tree) (id : NodeId) : Option (List NodeId) :=
  t.visitWaiting? (if t.contains id then [id] else [])

/-- Whether going up from `next` meets `ancestor`. -/
def climbTo? (t : Tree) (ancestor : NodeId) (next : Option NodeId) : Option Bool :=
  match next with
  | none => some false
  | some id =>
    if id = ancestor then some true
    else t |>.climbTo? ancestor ((t.get? id).bind (·.parent))
partial_fixpoint

/-- Whether `ancestor` is met from `id` on, going up. -/
def isAncestor? (t : Tree) (ancestor id : NodeId) : Option Bool := t.climbTo? ancestor (some id)

/-- Whether the nodes that wait, each with one of another tree, have the same kinds below them in the same arrangement.
The children of two nodes wait in pairs. -/
def compareWaiting? (t other : Tree) (waiting : List (NodeId × NodeId)) : Option Bool :=
  match waiting with
  | [] => some true
  | (x, y) :: waiting => match t.get? x, other.get? y with
    | some n, some m =>
      if n.kind ≠ m.kind ∨ n.children.length ≠ m.children.length then some false
      else t |>.compareWaiting? other ((n.children.zip m.children).reverse ++ waiting)
    | _, _ => some false
partial_fixpoint

/-- Whether the trees at `a` and at `b` in `other` have the same kinds in the same arrangement. -/
def sameShape? (t : Tree) (a : NodeId) (other : Tree) (b : NodeId) : Option Bool :=
  t.compareWaiting? other [(a, b)]

/-! ## Freeing -/

/-- Frees the nodes that wait, and all nodes below them. An id whose node is gone is passed over. -/
def freeWaiting? (t : Tree) (waiting : List NodeId) : Option Tree :=
  match waiting with
  | [] => some t
  | id :: waiting => match t.get? id with
    | none => t |>.freeWaiting? waiting
    | some node =>
      if t.live = 0 then none
      else t.vacate id |>.freeWaiting? (node.children.reverse ++ waiting)
partial_fixpoint

/-! ## Copying -/

/-- Puts a copy of each child below `copy`, and lets the child wait with its copy. -/
def copyChildren? (t : Tree) (copy : NodeId) (waiting : List (NodeId × NodeId)) :
    List NodeId → Option (List (NodeId × NodeId) × Tree)
  | [] => some (waiting, t)
  | child :: children => do
    let node ← t.get? child
    let (fresh, t) := t.insert node.kind node.span []
    (t.link copy fresh).copyChildren? copy ((child, fresh) :: waiting) children

/-- Copies what is below the nodes that wait, each of which waits with its copy. -/
def copyWaiting? (t : Tree) (waiting : List (NodeId × NodeId)) : Option Tree :=
  match waiting with
  | [] => some t
  | (id, copy) :: waiting => do
    let node ← t.get? id
    let (waiting, t) ← t.copyChildren? copy waiting node.children
    t |>.copyWaiting? waiting
partial_fixpoint

/-- Makes a floating copy of a node and all nodes below it. -/
def copy? (t : Tree) (id : NodeId) : Option (NodeId × Tree) := do
  let node ← t.get? id
  let (copy, t) := t.insert node.kind node.span []
  return (copy, ← t.copyWaiting? [(id, copy)])

/-! ## Checking -/

/-- Whether going up from `next` meets `id`, or has passed more parents than there are nodes. -/
def climb? (t : Tree) (id : NodeId) (passed : Nat) (next : Option NodeId) : Option Bool :=
  match next with
  | none => some false
  | some parent =>
    if parent = id ∨ t.live < passed then some true
    else t |>.climb? id (passed + 1) ((t.get? parent).bind (·.parent))
partial_fixpoint

/-- Checking links, which has no result if it does not end. -/
abbrev LinkCheck := ExceptT BrokenLink Option

/-- Checks the links of one node. -/
def checkNode? (t : Tree) (id : NodeId) (node : Node) : LinkCheck Unit := do
  t.checkParent id node
  t.checkChildren id node.children
  if ← t.climb? id 0 node.parent then
    throw (.cycle id)

/-- Checks the links of the nodes in `slots`, the first of which is slot `index`. -/
def checkSlots? (t : Tree) (index : Nat) : List Slot → LinkCheck Unit
  | [] => return ()
  | slot :: slots => do
    if let some node := slot.node then
      t.checkNode? ⟨index, slot.generation⟩ node
    t.checkSlots? (index + 1) slots

/-- Checks all links of a tree. -/
def checkLinks? (t : Tree) : LinkCheck Unit :=
  if ((t.get? t.root).bind (·.parent)).isSome then throw (.rootHasParent t.root)
  else t.checkSlots? 0 t.slots.toList

end Tree

end JavaFold
