import JavaFold.Tree.Error

/-!
# Editing program trees

The edits keep the links of a tree in order: a node's parent lists it exactly once, no node has two
parents, and no node is above itself. Only floating nodes can be put into the tree, and what is
taken out is floating or, with everything below it, freed. An edit checks what it needs before it
changes anything.
-/

namespace JavaFold

namespace Tree

/-- The tree with another node in the place of the one that `id` names. -/
def updateNode (t : Tree) (id : NodeId) (f : Node → Node) : Tree :=
  if t.contains id then
    { t with slots := t.slots.modify id.index fun slot => { slot with node := slot.node.map f } }
  else t

/-- The id that the next node will have, and the tree with a slot for it: the slot freed last, or
else a new one. -/
def reserve (t : Tree) : NodeId × Tree :=
  match t.free with
  | index :: free =>
    (⟨index, (t.slots[index]?.map (·.generation)).getD 0⟩, { t with free })
  | [] => (⟨t.slots.size, 0⟩, { t with slots := t.slots.push ⟨0, none⟩ })

/-- Makes a node above `children`, which have to be floating and distinct. -/
def insert (t : Tree) (kind : NodeKind) (span : Span) (children : List NodeId) : NodeId × Tree :=
  let (id, t) := t.reserve
  let t := children.foldl (fun t c => t.updateNode c ({ · with parent := some id })) t
  (id, { t with
    slots := t.slots.modify id.index ({ · with node := some ⟨kind, span, none, children⟩ })
    live := t.live + 1 })

/-- Puts the floating `child` after the children of `parent`. -/
def link (t : Tree) (parent child : NodeId) : Tree :=
  let t := t.updateNode parent fun p => { p with children := p.children ++ [child] }
  t.updateNode child ({ · with parent := some parent })

/-- Frees one node. Its slot goes on to the next generation; after the last one the first one
follows. -/
def vacate (t : Tree) (id : NodeId) : Tree :=
  if t.contains id then
    { t with
      slots := t.slots.modify id.index fun slot => ⟨slot.generation + 1, none⟩
      free := id.index :: t.free
      live := t.live - 1 }
  else t

mutual

/-- The nodes of a tree in the order in which they are freed: each before those below it, and later
children before earlier ones. -/
def freeOrder : OrderedTree Placed → List NodeId
  | .node p ts => p.id :: freeOrderAll ts

def freeOrderAll : List (OrderedTree Placed) → List NodeId
  | [] => []
  | t :: ts => freeOrderAll ts ++ freeOrder t

end

/-- Frees the node at `id` and all nodes below it. -/
def release (t : Tree) (id : NodeId) : Tree :=
  match t.subtree? id with
  | none => t
  | some s => (freeOrder s).foldl vacate t

/-- A tree with an empty compilation unit as its root. -/
def empty : Tree :=
  let (root, t) := insert ⟨#[], [], ⟨0, 0⟩, 0⟩ .unit .dummy []
  { t with root }

end Tree

/-- Changing a tree, or refusing to. -/
abbrev Edit := EStateM TreeError Tree

namespace Edit

/-- The node that `id` names. -/
def live (id : NodeId) : Edit Node := do
  match (← get).get? id with
  | some node => return node
  | none => throw (.stale id)

/-- Changes the node that `id` names. -/
def modifyNode (id : NodeId) (f : Node → Node) : Edit Unit := do
  let _ ← live id
  modify (·.updateNode id f)

/-- Makes a node above `children`, which have to be floating and distinct. -/
def insert (kind : NodeKind) (span : Span) (children : List NodeId) : Edit NodeId :=
  modifyGet (·.insert kind span children)

/-- Refuses nodes that are not floating. -/
def checkFloating (id : NodeId) : Edit Unit := do
  let node ← live id
  if node.parent.isSome ∨ id = (← get).root then
    throw (.attached id)

/-- Refuses nodes of which one is not floating or is listed twice, given those listed before. -/
def checkAdoptees (seen : List NodeId) : List NodeId → Edit Unit
  | [] => return ()
  | id :: ids => do
    checkFloating id
    if id ∈ seen then
      throw (.attached id)
    checkAdoptees (id :: seen) ids

/-- Makes a floating node above `children`. -/
def alloc (kind : NodeKind) (span : Span) (children : List NodeId) : Edit NodeId := do
  checkAdoptees [] children
  insert kind span children

/-- Refuses a child that is not floating, or that is above its parent. -/
def checkAdoptable (parent child : NodeId) : Edit Unit := do
  let _ ← live parent
  checkFloating child
  if (← get).isAncestor child parent then
    throw (.wouldCycle child)

/-- Puts the floating `child` after the children of `parent`. -/
def pushChild (parent child : NodeId) : Edit Unit := do
  checkAdoptable parent child
  modify (·.link parent child)

/-- Puts the floating `child` among the children of `parent`, with `index` of them before it. -/
def insertChild (parent : NodeId) (index : Nat) (child : NodeId) : Edit Unit := do
  checkAdoptable parent child
  let node ← live parent
  if node.children.length < index then
    throw (.indexPastEnd parent index)
  modifyNode parent fun p => { p with children := p.children.insertIdx index child }
  modifyNode child ({ · with parent := some parent })

/-- Takes all children out of a node and leaves them floating. -/
def takeChildren (id : NodeId) : Edit (List NodeId) := do
  let node ← live id
  modifyNode id ({ · with children := [] })
  node.children.forM fun child => modifyNode child ({ · with parent := none })
  return node.children

/-- The parent of a node that can be taken out. -/
def attachedParent (id : NodeId) : Edit NodeId := do
  let node ← live id
  if id = (← get).root then
    throw (.rootReplacement id)
  match node.parent with
  | some parent => return parent
  | none => throw (.detached id)

/-- Takes a node out of its parent and leaves it floating. -/
def detach (id : NodeId) : Edit Unit := do
  let parent ← attachedParent id
  modifyNode parent fun p => { p with children := p.children.filter (· != id) }
  modifyNode id ({ · with parent := none })

/-- Frees a floating node and all nodes below it. -/
def discard (id : NodeId) : Edit Unit := do
  if id = (← get).root then
    throw (.rootReplacement id)
  checkFloating id
  modify (·.release id)

/-- Makes a floating compilation unit the root, and frees the old root and all nodes below it. -/
def setRoot (id : NodeId) : Edit Unit := do
  checkFloating id
  let node ← live id
  unless node.kind = .unit do
    throw (.invalidRoot id)
  modify fun t => { t with root := id }.release t.root

/-- `children` with `new` in the place of the first `old`. -/
def exchange (old new : NodeId) : List NodeId → List NodeId
  | [] => []
  | c :: cs => if c = old then new :: cs else c :: exchange old new cs

/-- Puts the floating `new` in the place of a node, and frees that node and all nodes below it. -/
def replace (id new : NodeId) : Edit Unit := do
  let parent ← attachedParent id
  checkFloating new
  if (← get).isAncestor new id then
    throw (.wouldCycle new)
  modifyNode parent fun p => { p with children := exchange id new p.children }
  modifyNode new ({ · with parent := some parent })
  modifyNode id ({ · with parent := none })
  modify (·.release id)

/-- Makes a floating node without children and puts it after the children of `parent`. -/
def grow (parent : NodeId) (p : Placed) : Edit NodeId := do
  let copy ← insert p.kind p.span []
  modify (·.link parent copy)
  return copy

mutual

/-- Makes copies of the nodes below the top of a tree and puts them below `copy`: first one for
each child, in order, then what is below the last child, and so on to the first one. -/
def copyBelow : OrderedTree Placed → NodeId → Edit Unit
  | .node _ ts, copy => do
    let copies ← ts.mapM fun t => grow copy t.label
    copyBelowAll ts copies

def copyBelowAll : List (OrderedTree Placed) → List NodeId → Edit Unit
  | t :: ts, copy :: copies => do
    copyBelowAll ts copies
    copyBelow t copy
  | _, _ => return ()

end

/-- Makes a floating copy of a node and all nodes below it. -/
def deepCopy (id : NodeId) : Edit NodeId := do
  match (← get).subtree? id with
  | none => throw (.stale id)
  | some s =>
    let copy ← insert s.label.kind s.label.span []
    copyBelow s copy
    return copy

end Edit

end JavaFold
