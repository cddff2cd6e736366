import JavaFold.Tree.Edit

/-!
# Walking a tree

A walk visits the nodes below a node, and that node itself, each after all nodes below it and
children in order. The visitor says which kinds of nodes it wants and may change the tree at each of
them. The children of a node are read when the walk first comes to it, so nodes that the visitor
makes are not visited; nodes that it frees are passed over. What the visitor gives back for a node
has to be alive.

`Visitor.follow?` goes on until no node is left, without a bound; `Walk.run` goes on for at most as many
steps as a walk takes over a tree whose other nodes stay where they are.
-/

namespace JavaFold

/-- Changing a tree and a state beside it. Both are kept when an edit is refused. -/
abbrev EditWith (σ : Type) := EStateM TreeError (Tree × σ)

namespace EditWith

variable {σ α : Type}

/-- An edit that leaves the state beside the tree alone. -/
def lift (x : Edit α) : EditWith σ α := fun (t, s) =>
  match x t with
  | .ok a t => .ok a (t, s)
  | .error e t => .error e (t, s)

instance : MonadLift Edit (EditWith σ) := ⟨lift⟩

/-- An edit without a state beside the tree. -/
def alone (x : EditWith Unit α) : Edit α := fun t =>
  match x (t, ()) with
  | .ok a (t, _) => .ok a t
  | .error e (t, _) => .error e t

def tree : EditWith σ Tree := return (← get).1

end EditWith

/-- What a visit did: whether it changed anything, and the node that now stands in the place. -/
structure Visit where
  changed : Bool
  node : NodeId
deriving DecidableEq, Repr, Inhabited

namespace Visit

def unchanged (node : NodeId) : Visit := ⟨false, node⟩

def replaced (node : NodeId) : Visit := ⟨true, node⟩

end Visit

/-- What to do on a walk. -/
structure Visitor (σ : Type) where
  /-- Whether nodes of a kind are visited. -/
  wants : NodeKind → Bool
  /-- Visits a node below which all nodes have been visited. -/
  visit : NodeId → EditWith σ Visit

namespace Walk

variable {σ : Type}

/-- Takes a node from the list of those to come, with a mark if its children are already in the list. Gives
what is left, and whether a visit has changed anything by now. -/
def take (v : Visitor σ) (id : NodeId) (expanded : Bool) (rest : List (NodeId × Bool)) (changed : Bool) :
    EditWith σ (List (NodeId × Bool) × Bool) := do
  match (← EditWith.tree).get? id with
  | none => return (rest, changed)
  | some node =>
    if !expanded then
      return (node.children.map (·, false) ++ (id, true) :: rest, changed)
    else if v.wants node.kind then
      let result ← v.visit id
      unless (← EditWith.tree).contains result.node do
        throw (.stale result.node)
      return (rest, changed || result.changed)
    else
      return (rest, changed)

/-- Walks on, but takes at most `steps` nodes from the list. Says whether a visit changed anything, and
whether the list has become empty. -/
def go (v : Visitor σ) : Nat → List (NodeId × Bool) → Bool → EditWith σ (Bool × Bool)
  | _, [], changed => return (changed, true)
  | 0, _ :: _, changed => return (changed, false)
  | steps + 1, (id, expanded) :: rest, changed => do
    let (pending, changed) ← take v id expanded rest changed
    go v steps pending changed

/-- Walks over the tree at `root` and says whether a visit changed anything. Each node is taken
twice, before and after the nodes below it. -/
def run (v : Visitor σ) (root : NodeId) : EditWith σ Bool := do
  return (← go v (2 * (← EditWith.tree).slots.size) [(root, false)] false).1

end Walk

/-- Walks on until the list is empty, and says whether a visit changed anything. A walk that does not
end has no result. -/
def Visitor.follow? {σ : Type} (v : Visitor σ) (pending : List (NodeId × Bool)) (changed : Bool) (s : Tree × σ) :
    Option (EStateM.Result TreeError (Tree × σ) Bool) :=
  match pending with
  | [] => some (.ok changed s)
  | (id, expanded) :: rest =>
    match Walk.take v id expanded rest changed s with
    | .ok (pending, changed) s => v |>.follow? pending changed s
    | .error e s => some (.error e s)
partial_fixpoint

end JavaFold
