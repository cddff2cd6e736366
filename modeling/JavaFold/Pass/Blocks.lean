import JavaFold.Pass.Basic

/-!
# Folding blocks

A block that is a statement of another block is replaced by its own statements. The bodies of
methods, branches and loops belong to those and stay. When the walk comes to a block the blocks in
it are already flat, so taking in the statements of its own blocks is enough.
-/

namespace JavaFold

namespace Blocks

/-- The statements in the place of one child of a block: those of a block, which is freed, or else
the child itself. -/
def absorb (child : NodeId) : Edit (List NodeId) := do
  let node ← Edit.live child
  if node.kind.isBlock then
    let inner ← Edit.takeChildren child
    Edit.discard child
    return inner
  else
    return [child]

/-- The statements in the place of the children of a block. -/
def absorbAll : List NodeId → Edit (List NodeId)
  | [] => return []
  | child :: children => do
    let first ← absorb child
    return first ++ (← absorbAll children)

/-- Whether a child of a block is itself a block. -/
def isNested (t : Tree) (child : NodeId) : Bool :=
  match t.get? child with
  | some node => node.kind.isBlock
  | none => false

/-- Puts a flat block with the same span in the place of one with blocks in it. -/
def visit (id : NodeId) : Edit Visit := do
  let node ← Edit.live id
  let t ← get
  if node.children.any (isNested t) then
    let children ← Edit.takeChildren id
    let flat ← absorbAll children
    let fresh ← Edit.alloc (.stmt .block) node.span flat
    Edit.replace id fresh
    return .replaced fresh
  else
    return .unchanged id

/-- Visits blocks. -/
def visitor : Visitor Unit := ⟨NodeKind.isBlock, fun id => visit id⟩

/-- Folds the blocks of the tree at `id`. -/
def fold (id : NodeId) : Edit Bool := do
  Edit.checkFoldRoot id
  (Walk.run visitor id).alone

end Blocks

end JavaFold
