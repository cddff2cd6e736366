import JavaFold.Pass.FixedPoint
import JavaFold.Toml.Reader

/-!
# Configuration

A configuration file is a TOML document with two tables, all of whose keys may be left out:

* `driver` with `max_sweeps`, the number of sweeps that are allowed;
* `passes` with `enabled`, the names of the passes in the order in which they run.

A table can also be given as an array of its values, and a pass as a table with the name of the pass
over an empty table or array. Other keys are refused.
-/

namespace JavaFold

/-- How programs are folded. -/
structure Config where
  maxSweeps : Nat
  passes : List PassKind
deriving DecidableEq, Repr, Inhabited

/-- Why a configuration is refused. -/
inductive ConfigError
  | unreadable (path : String)
  | malformed (path : String)
  | zeroSweeps (path : String)
deriving DecidableEq, Repr, Inhabited

namespace ConfigError

def message : ConfigError → String
  | unreadable path => "cannot read '" ++ path ++ "'"
  | malformed path => "invalid '" ++ path ++ "'"
  | zeroSweeps path => "invalid '" ++ path ++ "': max_sweeps must be at least 1"

end ConfigError

namespace Config

/-- The name of configuration files. -/
def fileName : String := "astfold.toml"

/-- The configuration where there is no file. -/
def default : Config := ⟨FixedPoint.defaultSweeps, PassKind.all⟩

open Toml

/-- A number of sweeps. -/
def sweeps? : Value → Option Nat
  | .integer n => if 0 ≤ n then some n.toNat else none
  | _ => none

/-- Whether a value has nothing in it. -/
def isBare : Value → Bool
  | .table _ [] => true
  | .array [] => true
  | _ => false

/-- A pass. -/
def pass? : Value → Option PassKind
  | .string name => PassKind.ofName? name
  | .table _ [(name, value)] => if isBare value then PassKind.ofName? name else none
  | _ => none

/-- A list of passes. -/
def passList? : Value → Option (List PassKind)
  | .array items => items.mapM pass?
  | .tables elements => elements.mapM fun es => pass? (.table .header es)
  | _ => none

/-- The value of the only key that a table can have, or of the first item of an array. Where it is
left out the value is `missing`. -/
def only? {α : Type} (key : String) (read : Value → Option α) (missing : α) : Value → Option α
  | .table _ [] => some missing
  | .table _ [(name, value)] => if name = key then read value else none
  | .array [] => some missing
  | .array (value :: _) => read value
  | .tables (es :: _) => read (.table .header es)
  | _ => none

/-- The configuration with the value of one key of the document. -/
def readKey? (config : Config) (entry : String × Value) : Option Config :=
  if entry.1 = "driver" then do
    return { config with maxSweeps := ← only? "max_sweeps" sweeps? config.maxSweeps entry.2 }
  else if entry.1 = "passes" then do
    return { config with passes := ← only? "enabled" passList? config.passes entry.2 }
  else
    none

/-- Reads a configuration; `path` stands in errors. -/
def parse (content path : String) : Except ConfigError Config :=
  match (Toml.read? content).bind fun entries => entries.foldlM readKey? default with
  | none => .error (.malformed path)
  | some config => if config.maxSweeps = 0 then .error (.zeroSweeps path) else .ok config

end Config

end JavaFold
