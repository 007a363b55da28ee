import Filespace.Host.Basic

/-!
# What became different

The difference between two states of a host as a list of changes that lead from one to the other: what is gone
is removed first, entries before the directory around them; then what is new is made, a directory before the
entries in it.
-/

namespace Filespace.Host

/-- One change of a host. -/
inductive Change where
  | removeFile (path : Path)
  | removeDirectory (path : Path)
  | makeDirectory (path : Path)
  | putContent (path : Path) (bytes : Bytes)
  | makeLink (path : Path) (target : String)
  deriving DecidableEq

/-- Can an entry take the place of another without its removal? -/
def Node.replaces : Node → Node → Bool
  | .directory, .directory => true
  | .file _, .file _ => true
  | .link s, .link t => s = t
  | _, _ => false

def removal (p : Path) : Node → Change
  | .directory => .removeDirectory p
  | _ => .removeFile p

def making (p : Path) : Node → Change
  | .directory => .makeDirectory p
  | .file f => .putContent p f.content.toBytes
  | .link t => .makeLink p t

def Node.same : Node → Node → Bool
  | .file f, .file g => f.content.toBytes = g.content.toBytes
  | m, n => m.replaces n

/-- The changes from one state to another. -/
def changes (old new : Host) : List Change :=
  let gone := old.nodes.rows.reverse.filter fun (p, n) => !(new.nodes.get? p).any fun m => m.replaces n
  let made := new.nodes.rows.filter fun (p, n) => !(old.nodes.get? p).any fun m => n.same m
  (gone.map fun (p, n) => removal p n) ++ made.map fun (p, n) => making p n

/-- A host that stays as it is has no changes. -/
theorem changes_self (h : Host) : changes h h = [] := by
  have kept : ∀ n : Node, n.replaces n = true ∧ n.same n = true := fun n => by
    cases n <;> simp [Node.replaces, Node.same]
  simp only [changes, List.append_eq_nil_iff, List.map_eq_nil_iff, List.filter_eq_nil_iff]
  constructor
  · rintro ⟨p, n⟩ hp
    have : h.nodes.get? p = some n := Table.get?_eq_some_iff.2 (List.mem_reverse.1 hp)
    simp [this, (kept n).1]
  · rintro ⟨p, n⟩ hp
    have : h.nodes.get? p = some n := Table.get?_eq_some_iff.2 hp
    simp [this, (kept n).2]

end Filespace.Host
