import Filespace.Vfs.Files

/-!
# Changing the namespace

Opening and creating, listing, removing and renaming entries, and links. A change always goes the same way:
resolve the path, look at what is there now, drop what the caches hold, change the store, change the links,
forget the listings.
-/

namespace Filespace.Vfs

open Storage (FileStore StorageError Stat)

variable {φ μ : Type} [FileStore φ] [LinkMap μ]

/-! ### Opening -/

def openExisting (p : Path) (flags : Flags) (e : Entry) : VfsM φ μ Entry := do
  if flags.create ∧ (flags.exclusive ∨ flags.directory) then throw (.alreadyExists p)
  if flags.directory ∧ ¬ e.isDirectory then throw (.notADirectory p)
  if e.isDirectory ∧ (flags.writable ∨ flags.truncate) then throw (.isADirectory p)
  if flags.truncate ∧ e.isFile then do
    truncatePath p 0
    return .file 0 (← get).now
  else return e

def openNew (p : Path) (flags : Flags) : VfsM φ μ Entry := do
  if ¬ flags.create then throw (.notFound p)
  if flags.directory then
    let _ ← call (.createDirectory p true)
    clearListings
    return .directory
  else
    let _ ← call (.createFile p)
    clearListings
    noteSize p 0
    return .file 0 (← get).now

def openAt (base : Option Descriptor) (raw : String) (flags : Flags) : VfsM φ μ Descriptor := do
  let p ← resolve base raw flags.follow
  let entry ← match ← lookup p with
    | some (.link _) => throw (.isLink p)
    | some e => openExisting p flags e
    | none => openNew p flags
  return { path := p, entry := entry, flags := flags }

/-- The directory that is open from the start, with its name. -/
def preopens : List (String × Descriptor) :=
  [("/", { path := .root, entry := .directory, flags := .directoryOnly })]

/-! ### Looking -/

/-- What is at the path of a descriptor now. -/
def stat (d : Descriptor) : VfsM φ μ Entry := requireEntry d.path

def statAt (base : Option Descriptor) (raw : String) (follow : Bool) : VfsM φ μ Entry := do
  requireEntry (← resolve base raw follow)

/-- The rows of a listing: the children in the store and the links, in order of their names. A link hides a
child of the same name. -/
def mergeListing (children : List (Name × Stat)) (links : List (Name × String)) : List DirEntry :=
  let kind (s : Stat) : EntryKind := if s.isDirectory then .directory else .file
  let table : Table Name EntryKind := .ofList (children.map fun (n, s) => (n, kind s))
  (table.insertMany (links.map fun (n, _) => (n, .link))).rows.map fun (n, k) => ⟨n.text, k⟩

/-- The listing of a directory, remembered or asked for. -/
def list (dir : Path) : VfsM φ μ (List DirEntry) := do
  match (← get).listings.get? dir with
  | some entries => return entries
  | none => do
    let reply ← call (.list dir)
    let children ← settle reply.toEntries
    let entries := mergeListing children ((← get).links.children dir)
    modify fun v => { v with listings := v.listings.insert dir entries }
    return entries

def readDirectory (d : Descriptor) : VfsM φ μ (List DirEntry) := do
  if ¬ d.isDirectory then throw (.notADirectory d.path)
  list d.path

/-- The listing of the directory at a path. -/
def readDirectoryAt (base : Option Descriptor) (raw : String) : VfsM φ μ (List DirEntry) := do
  list (← resolve base raw true)

/-! ### Making and removing -/

/-- The path must be free and in an existing directory. -/
def requireFree (p : Path) : VfsM φ μ Unit := do
  if p.isRoot then throw (.alreadyExists p)
  if (← lookup p).isSome then throw (.alreadyExists p)
  requireParent p

def createDirectoryAt (base : Option Descriptor) (raw : String) : VfsM φ μ Unit := do
  let p ← resolve base raw false
  requireFree p
  let _ ← call (.createDirectory p false)
  clearListings

/-- Removes a directory with all below it. -/
def removeDirectoryAt (base : Option Descriptor) (raw : String) : VfsM φ μ Unit := do
  let p ← resolve base raw false
  if p.isRoot then throw .rootRemoval
  match ← lookup p with
  | none => throw (.notFound p)
  | some .directory => pure ()
  | some _ => throw (.notADirectory p)
  forget p
  clearListings
  let _ ← call (.remove p true)
  let (_, links, jobs) := (← get).links.removeUnder p
  setLinks links jobs

/-- Removes a file or a link. What a link stands for is left alone. -/
def unlinkAt (base : Option Descriptor) (raw : String) : VfsM φ μ Unit := do
  let p ← resolve base raw false
  match ← lookup p with
  | none => throw (.notFound p)
  | some .directory => throw (.isADirectory p)
  | some (.link _) => do
    let (_, links, jobs) := (← get).links.remove p
    setLinks links jobs
  | some (.file _ _) => do
    forget p
    clearListings
    let _ ← call (.remove p false)
  clearListings

/-! ### Renaming -/

/-- Moves an entry by copying it and removing the source. If the removal fails, both copies stay. -/
def copyThenDelete (source target : Path) : VfsM φ μ Unit := do
  let _ ← call (.copy source target)
  let _ ← call (.remove source true)

/-- Moves an entry, by the store's own means if it has them. -/
def moveEntry (source target : Path) : VfsM φ μ Unit := do
  let outcome : Except Error Unit ← tryCatch (do
    let _ ← call (.move source target)
    return .ok ()) (fun e => return .error e)
  match outcome with
  | .ok () => return
  | .error e => if e.code = .unsupported then copyThenDelete source target else throw e

/-- What a rename is to do: the paths it names and what is at the first. Nothing is to do if they are one; else the
second is free and in an existing directory. -/
def renamePlan (base : Option Descriptor) (raw : String) (toBase : Option Descriptor) (toRaw : String) :
    VfsM φ μ (Option (Path × Path × Entry)) := do
  let source ← resolve base raw false
  let target ← resolve toBase toRaw false
  if source.isRoot ∨ target.isRoot then throw .rootRename
  let entry ← requireEntry source
  if source = target then return none
  if (← lookup target).isSome then throw (.alreadyExists target)
  if entry.isDirectory ∧ target.under source then throw (.intoItself source target)
  requireParent target
  return some (source, target, entry)

/-- Moves an entry with what is remembered of it and the links below it. -/
def relocate (source target : Path) (entry : Entry) : VfsM φ μ Unit := do
  clearListings
  if entry.isLink then
    let (_, links, jobs) := (← get).links.rename source target
    setLinks links jobs
  else
    let moved := (← get).sizes.rows.filterMap fun (p, m) => (p.relativeTo? source).map fun r => (target.join r, m)
    forget source
    moveEntry source target
    modify fun v => { v with sizes := v.sizes.insertMany moved }
    if entry.isDirectory then
      let (_, links, jobs) := (← get).links.renameUnder source target
      setLinks links jobs

def renameAt (base : Option Descriptor) (raw : String) (toBase : Option Descriptor) (toRaw : String) :
    VfsM φ μ Unit := do
  match ← renamePlan base raw toBase toRaw with
  | none => return
  | some (source, target, entry) => relocate source target entry

/-! ### Links -/

/-- Makes a link. Its target is kept as given and need not exist. -/
def symlinkAt (base : Option Descriptor) (target raw : String) : VfsM φ μ Unit := do
  if target.isEmpty ∨ target.toList.contains '\x00' then throw (.badTarget target)
  let p ← resolve base raw false
  requireFree p
  let (links, jobs) := (← get).links.insert p target
  setLinks links jobs
  clearListings

def readlinkAt (base : Option Descriptor) (raw : String) : VfsM φ μ String := do
  let p ← resolve base raw false
  match (← get).links.get? p with
  | some target => return target
  | none => do
    let _ ← requireEntry p
    throw (.notLink p)

/-- There are no hard links. -/
def linkAt (old new : String) : VfsM φ μ Unit := throw (.hardLink old new)

/-! ### The working directory -/

def setWorkingDirectory (raw : String) : VfsM φ μ Unit := do
  let p ← resolve none raw true
  match ← lookup p with
  | some .directory => modify fun v => { v with resolver := { v.resolver with workingDirectory := p } }
  | some _ => throw (.notADirectory p)
  | none => throw (.notFound p)

end Filespace.Vfs
