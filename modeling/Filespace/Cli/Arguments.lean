import Filespace.Config

/-!
# Arguments

The arguments of the command line are read from left to right. An option takes its value from the same
argument, after an equals sign, or from the next one, which then must not look like an option. No option may be
given twice. A question for help or for the version is answered as soon as it is seen; only then do conflicts
between options count.
-/

namespace Filespace.Cli

/-- What the options say. -/
structure Arguments where
  config : Option String := none
  name : Option String := none
  root : Option String := none
  memory : Bool := false
  workingDirectory : Option String := none
  deriving DecidableEq

/-- What the arguments ask for. -/
inductive Invocation where
  | run (a : Arguments)
  | help
  | version
  | refused
  deriving DecidableEq

/-- The options that take a value. -/
inductive Valued where
  | config | name | root | workingDirectory
  deriving DecidableEq

namespace Arguments

def valued? (name : String) : Option Valued :=
  if name = "config" then some .config
  else if name = "name" then some .name
  else if name = "root" then some .root
  else if name = "cwd" then some .workingDirectory
  else none

def value? (a : Arguments) : Valued → Option String
  | .config => a.config
  | .name => a.name
  | .root => a.root
  | .workingDirectory => a.workingDirectory

/-- Gives an option its value. It must have none yet, and a host location must not be empty. -/
def set? (a : Arguments) (o : Valued) (v : String) : Option Arguments :=
  if (a.value? o).isSome ∨ ((o = .config ∨ o = .root) ∧ v.isEmpty) then none
  else match o with
    | .config => some { a with config := some v }
    | .name => some { a with name := some v }
    | .root => some { a with root := some v }
    | .workingDirectory => some { a with workingDirectory := some v }

/-- Does an argument look like an option? A single dash does not. -/
def isOption (s : String) : Bool :=
  match s.toList with
  | '-' :: _ :: _ => true
  | _ => false

/-- A long option and the value behind its equals sign. -/
def splitLong (cs : List Char) : String × Option String :=
  let name := String.ofList (cs.takeWhile (· ≠ '='))
  match cs.dropWhile (· ≠ '=') with
  | _ :: v => (name, some (String.ofList v))
  | [] => (name, none)

/-- The value that follows the letter of a short option, if there is one. -/
def attached : List Char → Option String
  | [] => none
  | '=' :: v => some (String.ofList v)
  | v => some (String.ofList v)

/-- Reads arguments on top of what is known. -/
def read (a : Arguments) : List String → Invocation
  | [] => if a.memory ∧ a.root.isSome then .refused else .run a
  | s :: rest =>
    let assign (o : Valued) (v : Option String) : Invocation :=
      match v with
      | some v => match a.set? o v with
        | some a => read a rest
        | none => .refused
      | none => match rest with
        | [] => .refused
        | v :: rest => if isOption v then .refused else match a.set? o v with
          | some a => read a rest
          | none => .refused
    match s.toList with
    | ['-', '-'] => if rest.isEmpty then read a [] else .refused
    | '-' :: '-' :: cs =>
      match splitLong cs with
      | ("help", none) => .help
      | ("version", none) => .version
      | ("memory", none) => if a.memory then .refused else read { a with memory := true } rest
      | (name, v) => match valued? name with
        | some o => assign o v
        | none => .refused
    | '-' :: 'h' :: _ => .help
    | '-' :: 'V' :: _ => .version
    | '-' :: 'c' :: cs => assign .config (attached cs)
    | _ => .refused
termination_by l => l.length

def parse (args : List String) : Invocation := read {} args

/-- The configuration with the options taken into account. -/
def applyTo (a : Arguments) (c : Config) : Config :=
  { c with
    name := a.name.getD c.name
    store := if a.memory then .memory else match a.root with
      | some r => .directory (some r)
      | none => c.store
    workingDirectory := a.workingDirectory.getD c.workingDirectory }

end Arguments

end Filespace.Cli
