import JavaFold.Pass.Blocks
import JavaFold.Pass.Constants

/-!
# Running passes to a fixed point

A sweep runs each pass once at the root of the tree, in order. Sweeps are repeated while a pass
changes something. A run in which every one of the allowed sweeps changes something is refused; the
tree is then the one after those sweeps.
-/

namespace JavaFold

/-- What a run did: the number of sweeps, with the last one, which changed nothing, and for each
pass the number of sweeps in which it changed something. -/
structure Report where
  sweeps : Nat
  changes : List (String × Nat)
deriving DecidableEq, Repr, Inhabited

namespace Report

/-- The report before the first sweep. -/
def start (names : List String) : Report := ⟨0, names.map (·, 0)⟩

/-- The report after one more sweep in which the passes changed something or not. -/
def add (r : Report) (changed : List Bool) : Report :=
  ⟨r.sweeps + 1, List.zipWith (fun (name, n) c => (name, if c then n + 1 else n)) r.changes changed⟩

/-- Whether any pass changed anything. -/
def changed (r : Report) : Bool := r.changes.any fun c => 0 < c.2

end Report

namespace FixedPoint

variable {σ : Type}

/-- Runs each pass once and says which of them changed something. -/
def sweep : List (Pass σ) → EditWith σ (List Bool)
  | [] => return []
  | pass :: passes => do
    let changed ← pass.fold (← EditWith.tree).root
    return changed :: (← sweep passes)

/-- Makes up to `left` more sweeps, out of `maxSweeps` in all. -/
def go (passes : List (Pass σ)) (maxSweeps : Nat) : Nat → Report → EditWith σ Report
  | 0, _ => throw (.noFixpoint maxSweeps)
  | left + 1, report => do
    let changed ← sweep passes
    let report := report.add changed
    if changed.any id then
      go passes maxSweeps left report
    else
      return report

/-- Runs passes until none of them changes anything. -/
def run (passes : List (Pass σ)) (maxSweeps : Nat) : EditWith σ Report :=
  go passes maxSweeps maxSweeps (.start (passes.map (·.name)))

/-- The number of sweeps that are allowed unless something else is asked for. -/
def defaultSweeps : Nat := 10

end FixedPoint

/-- The passes that can be asked for by name. -/
inductive PassKind
  | blockFolding
  | constantPropagation
deriving DecidableEq, Repr, Inhabited

namespace PassKind

/-- All passes, in the order in which they run unless another one is asked for. -/
def all : List PassKind := [blockFolding, constantPropagation]

def name : PassKind → String
  | blockFolding => "block-folding"
  | constantPropagation => "constant-propagation"

/-- The pass called `name`. -/
def ofName? (name : String) : Option PassKind := all.find? (·.name == name)

/-- The pass called `name`, or a message if there is none. -/
def parse (name : String) : Except String PassKind :=
  match ofName? name with
  | some kind => .ok kind
  | none => .error ("unknown pass '" ++ name ++ "'")

/-- Runs the pass at a node. -/
def fold : PassKind → NodeId → Edit Bool
  | blockFolding => Blocks.fold
  | constantPropagation => Constants.fold

/-- The pass itself. -/
def pass {σ : Type} (kind : PassKind) : Pass σ := ⟨kind.name, fun id => kind.fold id⟩

theorem ofName?_name (kind : PassKind) : ofName? kind.name = some kind := by
  cases kind <;> rfl

/-- A name is that of a pass exactly if it is read as this pass. -/
theorem parse_eq_ok_iff {name : String} {kind : PassKind} : parse name = .ok kind ↔ kind.name = name := by
  refine ⟨fun h => ?_, fun h => by rw [parse, ← h, ofName?_name]⟩
  unfold parse at h
  cases hname : ofName? name with
  | some found =>
    rw [hname] at h
    cases h
    have hfound := List.find?_some hname
    exact eq_of_beq hfound
  | none =>
    rw [hname] at h
    cases h

end PassKind

end JavaFold
