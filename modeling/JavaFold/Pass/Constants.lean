import JavaFold.Pass.Basic
import JavaFold.Pass.Constants.Analysis

/-!
# Propagating constants

In each method and each field, variables that are known to hold a literal and operators on literals
are replaced by literals. A replacement takes the span of what it replaces.
-/

namespace JavaFold

namespace Constants

/-- The field that a node declares. -/
def field? (t : Tree) (id : NodeId) : Option (String × Ty) :=
  match (t.get? id).map Node.kind with
  | some (.field _ ty name) => some (name, ty)
  | _ => none

/-- The fields of the class that a member belongs to, the one declared last first. -/
def fieldsAround (t : Tree) (member : NodeId) : Scope :=
  match ((t.get? member).bind Node.parent).bind t.get? with
  | none => []
  | some owner => (owner.children.filterMap (field? t)).reverse

/-- Puts a literal in the place of a node. -/
def substitute (r : Replacement) : Edit Unit := do
  let node ← Edit.live r.node
  let fresh ← Edit.alloc (.expr (.literal r.value)) node.span []
  Edit.replace r.node fresh

/-- Replaces what is constant in a member. -/
def visit (id : NodeId) : Edit Visit := do
  let t ← get
  match t.subtree? id with
  | none => throw (.stale id)
  | some s =>
    let found := replacements (fieldsAround t id) s
    found.forM substitute
    return ⟨!found.isEmpty, id⟩

/-- Whether a node is a method or a field. -/
def isMember : NodeKind → Bool
  | .method _ _ _ _ | .field _ _ _ => true
  | _ => false

/-- Visits methods and fields. -/
def visitor : Visitor Unit := ⟨isMember, fun id => visit id⟩

/-- Propagates constants in the tree at `id`. -/
def fold (id : NodeId) : Edit Bool := do
  Edit.checkFoldRoot id
  (Walk.run visitor id).alone

end Constants

end JavaFold
