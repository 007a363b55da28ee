import Filespace.Error
import Filespace.Links.Basic

/-!
# Resolving paths

A text is read as a path from the root, from a base directory, or from the working directory. Then links on
the way are replaced by their targets, the outermost first: a relative target counts from the directory of
the link, an absolute one from the root, and the reading starts over. The number of replacements is limited.
With `follow` off a link at the very end stays.
-/

namespace Filespace

/-- Where relative paths start, and how many links are replaced. -/
structure Resolver where
  workingDirectory : Path := .root
  maxDepth : Nat := 40
  deriving DecidableEq, Inhabited

namespace Resolver

def isAbsolute (raw : String) : Bool := raw.toList.head? = some '/'

/-- Reads a text from a base, or from the working directory. -/
def relative (r : Resolver) (base : Option Path) (raw : String) : Except Path.Fault Path :=
  if isAbsolute raw then Path.parse raw
  else Path.parse ((base.getD r.workingDirectory).str ++ "/" ++ raw)

/-- The first link on a way: the directory it is in, its target, and the names that follow it. -/
def firstLink? (links : Links) (follow : Bool) (done : List Name) : List Name →
    Option (Path × String × List Name)
  | [] => none
  | n :: rest =>
    if rest.isEmpty ∧ ¬ follow then none
    else match links.get? ⟨done ++ [n]⟩ with
      | some target => some (⟨done⟩, target, rest)
      | none => firstLink? links follow (done ++ [n]) rest

/-- The text of a path after the replacement of a link. -/
def replaced (dir : Path) (target : String) (rest : List Name) : String :=
  let front := if isAbsolute target then target else dir.str ++ "/" ++ target
  rest.foldl (fun s n => s ++ "/" ++ n.text) front

/-- Replaces the first link on the way, if there is one. -/
def substitute (links : Links) (follow : Bool) (p : Path) : Except Path.Fault (Option Path) :=
  match firstLink? links follow [] p.names with
  | none => .ok none
  | some (dir, target, rest) => (Path.parse (replaced dir target rest)).map some

/-- Replaces links until none is left, at most `left` times. -/
def chase (links : Links) (follow : Bool) (origin : Path) (limit : Nat) :
    (left : Nat) → Path → Except Error Path
  | left, p => match substitute links follow p with
    | .error f => .error (.path f)
    | .ok none => .ok p
    | .ok (some q) => match left with
      | 0 => .error (.tooManyLinks origin limit)
      | n + 1 => chase links follow origin limit n q

/-- Replaces every link on the way to a path. -/
def resolveLinks (r : Resolver) (links : Links) (p : Path) (follow : Bool) : Except Error Path :=
  chase links follow p r.maxDepth r.maxDepth p

end Resolver

end Filespace
