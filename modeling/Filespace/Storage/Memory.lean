import Filespace.Storage.Chunked

/-!
# A store in memory

`Memory` keeps its tree in a table by path. It is stricter than a disk: a file takes at most one handle at
a time, and a file with an open handle can be neither removed nor moved, nor written without that handle.
Unless it is made with `crossMoves`, it moves entries only within one directory.

Design points:

* the table holds the root, and the parent of each entry is a directory in it;
* a file is locked exactly while a handle on it is open, and the handle knows the file by path and serial
  number;
* a call that fails has changed nothing: every test comes before the first change.
-/

namespace Filespace.Storage

namespace Memory

/-- The data of a file. -/
structure FileData where
  /-- The number that handles know the file by. -/
  serial : Nat
  bytes : Bytes := []
  locked : Bool := false
  /-- The time of the last change. -/
  modified : Nat := 0
  deriving DecidableEq

/-- An entry of the tree. -/
inductive Node where
  | directory
  | file (data : FileData)
  deriving DecidableEq

/-- What the store says about an entry. -/
def Node.stat : Node → Stat
  | directory => .directory
  | file f => .file f.bytes.length f.modified

/-- Is the entry a file with an open handle? -/
def Node.isLocked : Node → Bool
  | directory => false
  | file f => f.locked

/-- An open handle. -/
structure Handle where
  path : Path
  serial : Nat
  deriving DecidableEq

def maxLength : Nat := UInt32.size

end Memory

/-- A tree of directories and files. -/
structure Memory where
  nodes : Table Path Memory.Node := Table.empty.insert .root .directory
  nextSerial : Nat := 0
  crossMoves : Bool := false
  clock : Nat := 0
  deriving DecidableEq

namespace Memory

instance : Inhabited Memory := ⟨{}⟩

def node? (m : Memory) (p : Path) : Option Node := m.nodes.get? p

/-- Is a handle open on the file at a path? -/
def isLocked (m : Memory) (p : Path) : Bool :=
  match m.node? p with
  | some n => n.isLocked
  | none => false

/-- The paths at and below a path, in order. -/
def subtree (m : Memory) (p : Path) : List Path := m.nodes.keys.filter fun q => q.under p

/-- The first locked file at or below a path. -/
def firstLocked? (m : Memory) (p : Path) : Option Path := (m.subtree p).find? m.isLocked

def put (m : Memory) (p : Path) (n : Node) : Memory := { m with nodes := m.nodes.insert p n }

/-! ### Looking up and making entries -/

/-- Goes down the given paths, each the child of the one before, making missing directories if asked to. -/
def ensure (create : Bool) : List Path → StoreM Memory Unit
  | [] => pure ()
  | p :: ps => do
    match (← get).node? p with
    | some .directory => ensure create ps
    | some (.file _) => throw (.notADirectory p.display)
    | none =>
      if create then do
        modify fun m => m.put p .directory
        ensure create ps
      else throw (.notFound p)

def directory (p : Path) (create : Bool) : StoreM Memory Unit := ensure create p.trail

def file (p : Path) (create : Bool) : StoreM Memory Unit := do
  match p.parent? with
  | none => throw .rootIsDirectory
  | some parent => do
    directory parent create
    match (← get).node? p with
    | some (.file _) => pure ()
    | some .directory => throw (.isADirectory p)
    | none =>
      if create then
        modify fun m => { m.put p (.file ⟨m.nextSerial, [], false, m.clock⟩) with nextSerial := m.nextSerial + 1 }
      else throw (.notFound p)

def fileAt (p : Path) : StoreM Memory FileData := do
  match (← get).node? p with
  | some (.file f) => return f
  | some .directory => throw (.isADirectory p)
  | none => throw (.notFound p)

def entry (p : Path) : StoreM Memory (Option Stat) := do
  return ((← get).node? p).map Node.stat

def children (m : Memory) (p : Path) : List (Name × Stat) :=
  m.nodes.rows.filterMap fun (q, n) =>
    if q.parent? = some p then q.name?.map fun name => (name, n.stat) else none

/-- The children of the directory at a path. -/
def list (p : Path) : StoreM Memory (List (Name × Stat)) := do
  let m ← get
  match m.node? p with
  | some .directory => return m.children p
  | some (.file _) => throw (.notADirectory p.display)
  | none => throw (.notFound p)

/-! ### Removing and moving -/

/-- The tree without the entries at and below a path. -/
def prune (m : Memory) (p : Path) : Memory := { m with nodes := m.nodes.filter fun q _ => !q.under p }

def remove (p : Path) (recursive : Bool) : StoreM Memory Unit := do
  if p.isRoot then throw .rootRemoval
  else
    let m ← get
    match m.node? p with
    | none => throw (.notFound p)
    | some (.file f) =>
      if f.locked then throw (.inUse p) else set { m with nodes := m.nodes.erase p }
    | some .directory =>
      if (m.subtree p).length > 1 ∧ ¬ recursive then throw (.notEmpty p)
      else match m.firstLocked? p with
        | some q => throw (.inUse q)
        | none => set (m.prune p)

/-- The tree with the entries at and below `source` at and below `target`. -/
def graft (m : Memory) (source target : Path) : Memory :=
  let moved := m.nodes.rows.filterMap fun (q, n) => (q.relativeTo? source).map fun r => (target.join r, n)
  { m.prune source with nodes := (m.prune source).nodes.insertMany moved }

def move (source target : Path) : StoreM Memory Unit := do
  let m ← get
  if source.isRoot ∨ target.isRoot then throw .rootMove
  else if target.under source then throw (.intoItself source)
  else if source.parent? ≠ target.parent? ∧ ¬ m.crossMoves then throw .noNativeMove
  else if (m.node? source).isNone then throw (.notFound source)
  else if (m.node? target).isSome then throw (.alreadyExists target)
  else
    directory (target.parent?.getD .root) false
    match m.firstLocked? source with
    | some q => throw (.inUse q)
    | none => set (m.graft source target)

/-! ### Contents -/

def checkLength (p : Path) (n : Nat) : StoreM Memory Unit :=
  if n ≤ maxLength then pure () else throw (.tooLarge p n)

/-- Writes into a file. Writing nothing past the end still makes the file reach that far. -/
def writeInto (p : Path) (f : FileData) (pos : Nat) (data : Bytes) : StoreM Memory Nat := do
  let last ← StoreM.settle (Channel.endOffset pos data.length)
  checkLength p last
  let bytes := f.bytes.overwrite pos data
  modify fun m => m.put p (.file { f with bytes := bytes, modified := m.clock })
  return bytes.length

def writeAt (p : Path) (offset : Nat) (data : Bytes) : StoreM Memory Nat := do
  let f ← fileAt p
  if f.locked then throw (.inUse p) else writeInto p f offset data

/-! ### Handles -/

def openHandle (p : Path) : StoreM Memory Handle := do
  let f ← fileAt p
  if f.locked then throw (.inUse p)
  else
    modify fun m => m.put p (.file { f with locked := true })
    return ⟨p, f.serial⟩

def fileOf? (m : Memory) (h : Handle) : Option FileData :=
  match m.node? h.path with
  | some (.file f) => if f.serial = h.serial then some f else none
  | _ => none

def contentOf (m : Memory) (h : Handle) : Bytes := ((m.fileOf? h).map FileData.bytes).getD []

def read (h : Handle) (pos length : Nat) : StoreM Memory Bytes := do
  return ((← get).contentOf h).slice pos length

def write (h : Handle) (pos : Nat) (data : Bytes) : StoreM Memory Nat := do
  match (← get).fileOf? h with
  | some f => do
    let _ ← writeInto h.path f pos data
    return data.length
  | none => return data.length

/-- Gives the file of a handle a new length. -/
def truncate (h : Handle) (length : Nat) : StoreM Memory Unit := do
  checkLength h.path length
  match (← get).fileOf? h with
  | some f => modify fun m => m.put h.path (.file { f with bytes := f.bytes.resize length, modified := m.clock })
  | none => pure ()

/-- The length of the file of a handle. -/
def size (h : Handle) : StoreM Memory Nat := do return ((← get).contentOf h).length

def release (m : Memory) (h : Handle) : Memory :=
  match m.fileOf? h with
  | some f => m.put h.path (.file { f with locked := false })
  | none => m

instance : FileStore Memory where
  Handle := Handle
  directory p create := .onSecond (directory p create)
  file p create := .onSecond (file p create)
  openHandle p := .onSecond (openHandle p)
  remove p recursive := .onSecond (remove p recursive)
  move source target := .onSecond (move source target)
  list p := .onSecond (list p)
  entry p := .onSecond (entry p)
  writeAt p offset data := .onSecond (writeAt p offset data)
  read h pos length := .onSecond (read h pos length)
  write h pos data := .onSecond (write h pos data)
  truncate h length := .onSecond (truncate h length)
  flush _ := pure ()
  size h := .onSecond (size h)
  close h := modify fun s => (s.1, s.2.release h)
  release h s := (s.1, s.2.release h)
  bound s := s.2.nodes.size

end Memory

end Filespace.Storage
