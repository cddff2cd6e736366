import JavaFold.Walk

/-!
# Passes

A pass goes over the tree at a node, changes it, and says whether it changed anything. It starts at
a compilation unit or at a node that has a parent.
-/

namespace JavaFold

/-- A change to a tree that can be made again and again, with a state beside the tree. -/
structure Pass (σ : Type) where
  name : String
  fold : NodeId → EditWith σ Bool

/-- Refuses nodes at which no pass can start. -/
def Edit.checkFoldRoot (id : NodeId) : Edit Unit := do
  let node ← live id
  if node.parent.isNone ∧ node.kind ≠ .unit then
    throw (.invalidRoot id)

end JavaFold
