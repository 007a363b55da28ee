import Filespace.Links.Map

/-!
# Links

`Links` holds every link by its path. It is loaded from the records once; after that a change applies at once
and is written to the records later, by the `LinkJob`s that the change gives rise to. Each operation gives
the changed links together with its jobs in order.
-/

namespace Filespace

open Storage (StoreM StorageError)

/-- A change to be written to the records. -/
inductive LinkJob where
  | put (path : Path) (target : String)
  | delete (path : Path)
  deriving DecidableEq

namespace LinkJob

def label : LinkJob → String
  | put p _ => "persist symlink " ++ p.display
  | delete p => "delete symlink " ++ p.display

def run {μ : Type} [LinkMap μ] : LinkJob → StoreM (Host × μ) Unit
  | put p t => LinkMap.put p.str t
  | delete p => LinkMap.delete p.str

end LinkJob

/-- Targets by path. -/
structure Links where
  table : Table Path String := ∅
  deriving DecidableEq

namespace Links

instance : Inhabited Links := ⟨{}⟩

/-- The links of some records. A record whose key is the text of no path, or of the root, is left out, and of
two for one path the later one in the order of the records counts. -/
def ofRecords (r : LinkRecords) : Links :=
  ⟨r.rows.foldl (fun t (key, target) => match Path.parse key with
    | .ok p => if p.isRoot then t else t.insert p target
    | .error _ => t) ∅⟩

def get? (l : Links) (p : Path) : Option String := l.table.get? p

def size (l : Links) : Nat := l.table.size

def isEmpty (l : Links) : Bool := l.table.isEmpty

/-- The links in a directory, by name. -/
def children (l : Links) (dir : Path) : List (Name × String) :=
  l.table.rows.filterMap fun (p, t) => if p.parent? = some dir then p.name?.map (·, t) else none

/-- The paths of links at or below a path. -/
def pathsUnder (l : Links) (p : Path) : List Path := l.table.keys.filter fun q => q.under p

/-- Makes a link, in place of the one that was there. -/
def insert (l : Links) (p : Path) (target : String) : Links × List LinkJob :=
  (⟨l.table.insert p target⟩, [.put p target])

def remove (l : Links) (p : Path) : Option String × Links × List LinkJob :=
  match l.get? p with
  | some t => (some t, ⟨l.table.erase p⟩, [.delete p])
  | none => (none, l, [])

/-- Removes every link at or below a path. -/
def removeUnder (l : Links) (p : Path) : Nat × Links × List LinkJob :=
  let doomed := l.pathsUnder p
  (doomed.length, ⟨l.table.filter fun q _ => !q.under p⟩, doomed.map .delete)

def rename (l : Links) (source target : Path) : Bool × Links × List LinkJob :=
  match l.get? source with
  | some t => (true, ⟨(l.table.erase source).insert target t⟩, [.delete source, .put target t])
  | none => (false, l, [])

/-- Moves every link at or below a path to the same place at or below another. -/
def renameUnder (l : Links) (source target : Path) : Nat × Links × List LinkJob :=
  let moved := l.pathsUnder source
  let step (state : Links × List LinkJob) (p : Path) : Links × List LinkJob :=
    match p.relativeTo? source with
    | none => state
    | some r =>
      let (_, l, jobs) := state.1.rename p (target.join r)
      (l, state.2 ++ jobs)
  let (l, jobs) := moved.foldl step (l, [])
  (moved.length, l, jobs)

def describe (l : Links) : String :=
  let row (x : Path × String) := "VfsPath(" ++ Text.quoted x.1.str ++ "): " ++ Text.quoted x.2
  "SymlinkStore \x7b records: \x7b" ++ ", ".intercalate (l.table.rows.map row) ++ "\x7d \x7d"

end Links

end Filespace
