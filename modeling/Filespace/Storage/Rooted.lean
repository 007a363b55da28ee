import Filespace.Host.Calls
import Filespace.Storage.Chunked

/-!
# A store in a host directory

`Rooted` keeps its entries under a host directory, each at the location that its path spells there. The
host decides what is a directory and what is a file; links and other entries of the host do not exist for
the store, and a look-up never goes through one. Opening a file is left to the host, which does.

Files have no locks here: any number of handles may be open, and they outlive the removal of their file.
-/

namespace Filespace.Storage

open Host (Node)

/-- A host directory that holds the entries. -/
structure Rooted where
  root : String
  deriving DecidableEq, Inhabited

namespace Rooted

def location (r : Rooted) (p : Path) : String := p.segments.foldl Host.Location.join r.root

/-- What the store says about an entry of the host. -/
def stat? : Node → Option Stat
  | .directory => some .directory
  | .file f => some (.file f.content.length f.modified)
  | .link _ => none

/-- The entry of the host at a path, or nothing. Other failures pass. -/
def find? (location : String) : StoreM Host (Option Node) := do
  match ← (Host.lstat location).attempt with
  | .ok n => return some n
  | .error e => if e.kind = .notFound then return none else throw e

/-- Goes down the given paths, each the child of the one before, making missing directories if asked to. -/
def ensure (r : Rooted) (create : Bool) : List Path → StoreM Host Unit
  | [] => pure ()
  | p :: ps => do
    match ← (Host.lstat (r.location p)).attempt with
    | .ok .directory => ensure r create ps
    | .ok _ => throw (.notADirectory (r.location p))
    | .error e =>
      if e.kind = .notFound ∧ create then do
        match ← (Host.makeDirectory (r.location p)).attempt with
        | .ok () => ensure r create ps
        | .error e => if e.kind = .alreadyExists then ensure r create ps else throw e
      else throw e

def directory (r : Rooted) (p : Path) (create : Bool) : StoreM Host Unit := r.ensure create p.trail

def file (r : Rooted) (p : Path) (create : Bool) : StoreM Host Unit := do
  match p.parent? with
  | none => throw .rootIsDirectory
  | some parent => do
    r.directory parent create
    match ← (Host.lstat (r.location p)).attempt with
    | .ok .directory => throw (.isADirectory p)
    | .ok _ => pure ()
    | .error e =>
      if e.kind = .notFound ∧ create then do
        let _ ← Host.openFile (r.location p) true
      else throw e

def remove (r : Rooted) (p : Path) (recursive : Bool) : StoreM Host Unit := do
  if p.isRoot then throw .rootRemoval
  else match ← Host.lstat (r.location p) with
    | .directory =>
      if recursive then Host.removeTree (r.location p) else Host.removeDirectory (r.location p)
    | _ => Host.unlink (r.location p)

def move (r : Rooted) (source target : Path) : StoreM Host Unit := do
  if target.under source then throw (.intoItself source)
  else if (← find? (r.location source)).isNone then throw (.notFound source)
  else if (← find? (r.location target)).isSome then throw (.alreadyExists target)
  else
    if let some parent := target.parent? then r.directory parent false
    Host.rename (r.location source) (r.location target)

def list (r : Rooted) (p : Path) : StoreM Host (List (Name × Stat)) := do
  let children ← Host.readDirectory (r.location p)
  return children.filterMap fun (n, node) => (stat? node).map (n, ·)

def entry (r : Rooted) (p : Path) : StoreM Host (Option Stat) := do
  return (← find? (r.location p)).bind stat?

def writeAt (r : Rooted) (p : Path) (offset : Nat) (data : Bytes) : StoreM Host Nat := do
  let _ ← StoreM.settle (Channel.endOffset offset data.length)
  let serial ← Host.openFile (r.location p) false
  let _ ← Host.writeTo serial offset data
  return (← Host.content serial).length

/-- Runs a call of the host from within the store. -/
def onHost {α : Type} (f : Rooted → StoreM Host α) : StoreM (Host × Rooted) α :=
  fun s => let (x, h) := f s.2 s.1; (x, (h, s.2))

instance : FileStore Rooted where
  Handle := Nat
  directory p create := onHost fun r => r.directory p create
  file p create := onHost fun r => r.file p create
  openHandle p := onHost fun r => Host.openFile (r.location p) false
  remove p recursive := onHost fun r => r.remove p recursive
  move source target := onHost fun r => r.move source target
  list p := onHost fun r => r.list p
  entry p := onHost fun r => r.entry p
  writeAt p offset data := onHost fun r => r.writeAt p offset data
  read h pos length := onHost fun _ => Host.readFrom h pos length
  write h pos data := onHost fun _ => Host.writeTo h pos data
  truncate h length := onHost fun _ => Host.setLength h length
  flush _ := pure ()
  size h := onHost fun _ => do return (← Host.content h).length
  close _ := pure ()
  release _ s := s
  bound s := s.1.nodes.size

end Rooted

end Filespace.Storage
