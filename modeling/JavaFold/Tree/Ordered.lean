/-!
# Ordered trees

A label with an ordered list of subtrees. The nodes of a program tree, and the parts of a program,
are seen as ordered trees wherever only their arrangement matters.
-/

namespace JavaFold

/-- A label and the trees below it, in order. -/
inductive OrderedTree (α : Type) where
  | node (label : α) (children : List (OrderedTree α))
deriving Repr

namespace OrderedTree

variable {α β : Type}

def label : OrderedTree α → α
  | node a _ => a

def children : OrderedTree α → List (OrderedTree α)
  | node _ ts => ts

mutual

/-- All labels, each before those below it, and those of earlier subtrees before those of later
ones. -/
def labels : OrderedTree α → List α
  | node a ts => a :: labelsAll ts

def labelsAll : List (OrderedTree α) → List α
  | [] => []
  | t :: ts => labels t ++ labelsAll ts

end

mutual

/-- The tree and all trees below it, in the order of `labels`. -/
def subtrees : OrderedTree α → List (OrderedTree α)
  | node a ts => node a ts :: subtreesAll ts

def subtreesAll : List (OrderedTree α) → List (OrderedTree α)
  | [] => []
  | t :: ts => subtrees t ++ subtreesAll ts

end

mutual

/-- Whether two trees have labels that `same` relates, in the same arrangement. -/
def sameBy (same : α → β → Bool) : OrderedTree α → OrderedTree β → Bool
  | node a ts, node b us => same a b && sameByAll same ts us

def sameByAll (same : α → β → Bool) : List (OrderedTree α) → List (OrderedTree β) → Bool
  | [], [] => true
  | t :: ts, u :: us => sameBy same t u && sameByAll same ts us
  | _, _ => false

end

end OrderedTree

end JavaFold
