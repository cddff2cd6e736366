import JavaFold.Folding

/-!
# Arguments

The command line names an input and an output, and has options, which may stand anywhere. An option
with a value has it after an equals sign, or as the next argument if that does not look like an
option. Arguments are read in order; the first one that is wrong, or that asks for help, decides.
After `--` no argument is an option.
-/

namespace JavaFold

/-- What the command line asks for. -/
structure Arguments where
  input : String
  output : String
  passes : List PassKind
  maxSweeps : Option Nat
  config : Option String
  emit : Emit
deriving DecidableEq, Repr, Inhabited

/-- Why the command line asks for no run. -/
inductive NoRun
  | help
  | invalid
deriving DecidableEq, Repr, Inhabited

namespace Arguments

/-- Options that have a value. -/
inductive Setting
  | pass | maxSweeps | config | emit
deriving DecidableEq, Repr, Inhabited

/-- What one argument is. -/
inductive Kind
  | operand
  | flags (letters : List Char)
  | verbose
  | help
  | setting (which : Setting) (value : Option String)
  | unknown
deriving DecidableEq, Repr

/-- The option called `name`, with the text after an equals sign. Options without a value have no
such text. -/
def named (name : String) (value : Option String) : Kind :=
  if name = "pass" then .setting .pass value
  else if name = "max-sweeps" then .setting .maxSweeps value
  else if name = "config" then .setting .config value
  else if name = "emit" then .setting .emit value
  else if value.isSome then .unknown
  else if name = "verbose" then .verbose
  else if name = "help" ∨ name = "version" then .help
  else .unknown

/-- What an argument is before `--`. A single minus sign is no option. -/
def kindOf (arg : String) : Kind :=
  match arg.toList with
  | '-' :: '-' :: rest =>
    let name := String.ofList (rest.takeWhile (· != '='))
    match rest.dropWhile (· != '=') with
    | [] => named name none
    | _ :: value => named name (some (String.ofList value))
  | '-' :: c :: letters => .flags (c :: letters)
  | _ => .operand

/-- What has been read. -/
structure Draft where
  operands : List String
  passes : List PassKind
  maxSweeps : Option Nat
  config : Option String
  emit : Option Emit
deriving DecidableEq, Repr

namespace Draft

def empty : Draft := ⟨[], [], none, none, none⟩

/-- One more path. There are two, and neither is empty. -/
def operand (d : Draft) (arg : String) : Except NoRun Draft :=
  if arg.isEmpty ∨ d.operands.length = 2 then .error .invalid
  else .ok { d with operands := d.operands ++ [arg] }

/-- The least number that does not have 32 bits. -/
def sweepLimit : Nat := 4294967296

/-- A number of sweeps: decimal digits, perhaps after a plus sign, for a number from 1 on that has
32 bits. -/
def sweeps? (text : String) : Option Nat :=
  let digits : List Char := match text.toList with
    | '+' :: rest => rest
    | cs => cs
  let n := digits.foldl (fun n c => n * 10 + (c.toNat - '0'.toNat)) 0
  if !digits.isEmpty ∧ digits.all Char.isDigit ∧ 1 ≤ n ∧ n < sweepLimit then some n else none

/-- What is to be written. -/
def emit? (text : String) : Option Emit :=
  if text = "source" then some .source
  else if text = "tree" then some .tree
  else none

/-- The value of an option. Only passes can be given more than once. -/
def set (d : Draft) (which : Setting) (value : String) : Except NoRun Draft :=
  match which with
  | .pass => match PassKind.ofName? value with
    | some pass => .ok { d with passes := d.passes ++ [pass] }
    | none => .error .invalid
  | .maxSweeps => match d.maxSweeps, sweeps? value with
    | none, some n => .ok { d with maxSweeps := some n }
    | _, _ => .error .invalid
  | .config => match d.config with
    | none => if value.isEmpty then .error .invalid else .ok { d with config := some value }
    | some _ => .error .invalid
  | .emit => match d.emit, emit? value with
    | none, some emit => .ok { d with emit := some emit }
    | _, _ => .error .invalid

/-- Letters after one minus sign, each an option without a value. -/
def flags (d : Draft) : List Char → Except NoRun Draft
  | [] => .ok d
  | c :: letters =>
    if c = 'v' then d.flags letters
    else if c = 'h' ∨ c = 'V' then .error .help
    else .error .invalid

/-- Reads further arguments. -/
def read (d : Draft) : List String → Except NoRun Draft
  | [] => .ok d
  | "--" :: args => args.foldlM operand d
  | arg :: args =>
    match kindOf arg with
    | .operand => do read (← d.operand arg) args
    | .flags letters => do read (← d.flags letters) args
    | .verbose => d.read args
    | .help => .error .help
    | .setting which (some value) => do read (← d.set which value) args
    | .setting which none =>
      match args with
      | [] => .error .invalid
      | value :: args =>
        if kindOf value = .operand then do read (← d.set which value) args
        else .error .invalid
    | .unknown => .error .invalid

end Draft

/-- Reads a command line. -/
def parse (args : List String) : Except NoRun Arguments := do
  let d ← Draft.empty.read args
  match d.operands with
  | [input, output] =>
    return ⟨input, output, d.passes, d.maxSweeps, d.config, d.emit.getD .source⟩
  | _ => throw .invalid

end Arguments

end JavaFold
