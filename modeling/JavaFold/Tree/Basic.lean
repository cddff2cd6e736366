import JavaFold.Tree.Kind
import JavaFold.Tree.Ordered

/-!
# Program trees

A program tree keeps its nodes in numbered slots. A node is known by its slot and the generation of
that slot; freeing a node moves its slot on to the next generation, so that the old id does not name
whatever the slot holds later. A node lists its children and names its parent. Nodes other than the
root that have no parent are *floating*: they have been made or taken out and can be put anywhere.
-/

namespace JavaFold

/-- The name of a node: its slot, and the generation of the slot when the node was made. The index stands for a
32-bit number, so for a slot of a tree with fewer than 2^32 slots; in a larger one it would come round again. -/
structure NodeId where
  index : Nat
  generation : UInt32
deriving DecidableEq, Repr, Inhabited

/-- The written form of an id. -/
def NodeId.text (id : NodeId) : String :=
  "#" ++ toString id.index ++ "v" ++ toString id.generation.toNat

/-- A node with its links. -/
structure Node where
  kind : NodeKind
  span : Span
  parent : Option NodeId
  children : List NodeId
deriving DecidableEq, Repr, Inhabited

/-- A place for a node. -/
structure Slot where
  generation : UInt32
  node : Option Node
deriving DecidableEq, Repr, Inhabited

/-- A tree of nodes in slots. `free` holds the slots that can be used again, the one freed last
first; `live` counts the nodes, floating ones included. -/
structure Tree where
  slots : Array Slot
  free : List Nat
  root : NodeId
  live : Nat
deriving Repr

/-- A node as it is seen from above: its id, kind and span. -/
structure Placed where
  id : NodeId
  kind : NodeKind
  span : Span
deriving DecidableEq, Repr, Inhabited

/-- The part of the program that a node stands for. -/
def Placed.part (p : Placed) : Part := ⟨p.kind, p.span⟩

namespace Tree

/-- The node that an id names, unless it has been freed. -/
def get? (t : Tree) (id : NodeId) : Option Node :=
  match t.slots[id.index]? with
  | some slot => if slot.generation = id.generation then slot.node else none
  | none => none

def contains (t : Tree) (id : NodeId) : Bool := (t.get? id).isSome

/-- A node that is not the root and has no parent. -/
def isFloating (t : Tree) (id : NodeId) : Bool :=
  id != t.root && match t.get? id with
    | some node => node.parent.isNone
    | none => false

/-- Whether the tree has no node at all. -/
def isEmpty (t : Tree) : Bool := t.live == 0

/-- Looks for `ancestor` at `id` and on at most `steps` parents above it. -/
def isAncestorWithin (t : Tree) (ancestor : NodeId) : Nat → NodeId → Bool
  | 0, id => id == ancestor
  | steps + 1, id =>
    id == ancestor || match t.get? id with
      | none => false
      | some node => match node.parent with
        | none => false
        | some parent => t.isAncestorWithin ancestor steps parent

/-- Whether `ancestor` is `id` or a node above it. There are not more nodes above it than slots. -/
def isAncestor (t : Tree) (ancestor id : NodeId) : Bool :=
  t.isAncestorWithin ancestor t.slots.size id

/-- The tree at `id`, if it is at most `depth` levels deep. -/
def subtreeWithin (t : Tree) : Nat → NodeId → Option (OrderedTree Placed)
  | 0, _ => none
  | depth + 1, id => do
    let node ← t.get? id
    let children ← node.children.mapM (t.subtreeWithin depth)
    return .node ⟨id, node.kind, node.span⟩ children

/-- The tree at `id`. It is not deeper than there are slots. -/
def subtree? (t : Tree) (id : NodeId) : Option (OrderedTree Placed) :=
  t.subtreeWithin t.slots.size id

/-- The ids at and below `id`, each before those below it. -/
def descendants (t : Tree) (id : NodeId) : List NodeId :=
  match t.subtree? id with
  | none => []
  | some s => s.labels.map (·.id)

/-- Whether the trees at `a` and at `b` in `other` have the same kinds in the same arrangement. -/
def sameShape (t : Tree) (a : NodeId) (other : Tree) (b : NodeId) : Bool :=
  match t.subtree? a, other.subtree? b with
  | some s, some s' => s.sameBy (fun x y => x.kind == y.kind) s'
  | _, _ => false

end Tree

end JavaFold
