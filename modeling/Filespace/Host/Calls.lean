import Filespace.Host.Basic
import Filespace.Storage.Basic

/-!
# Calls of the host

What programs ask of a host: looking at entries, making and removing them, renaming, and reading and
writing files, with the host's own failures. A call that looks at an entry or opens it goes there by
`Host.resolve`; one that makes, removes or renames an entry goes to its place (`Host.placeOf`), and acts on a
link itself and not on what it stands for.
-/

namespace Filespace.Host

open Storage (StorageError StoreM)

def fail {α : Type} (e : Errno) : StoreM Host α := throw (.host e)

def locate (location : String) (ending : Ending) : StoreM Host Spot := do
  StoreM.settle ((← get).resolve location ending)

/-- Goes to the place that a location names. -/
def locatePlace (location : String) : StoreM Host Place := do
  StoreM.settle ((← get).placeOf location)

/-- The entry of a name in a directory, if there is one. -/
def entryIn? (dir : Path) (n : Name) : StoreM Host (Option Node) := do
  if isLong n then fail .nameTooLong else return (← get).node? (dir.child n)

def place (p : Path) (n : Node) : StoreM Host Unit :=
  modify fun h => { h with nodes := h.nodes.insert p n }

/-- Puts an entry at a free name of a directory, unless the directory is gone. -/
def placeIn (dir : Path) (n : Name) (x : Node) : StoreM Host Unit := do
  if (← get).node? dir = some .directory then place (dir.child n) x else fail .noEntry

/-- The entry at a location, not followed if it is a link. -/
def lstat (location : String) : StoreM Host Node := do
  match ← locate location .keep with
  | .found _ n => return n
  | .free _ _ => fail .noEntry

/-- Does the location lead to a directory? -/
def isDirectory (h : Host) (location : String) : Bool :=
  match h.resolve location .follow with
  | .ok (.found _ .directory) => true
  | _ => false

/-- Does the location lead to anything? -/
def isPresent (h : Host) (location : String) : Bool :=
  match h.resolve location .follow with
  | .ok (.found _ _) => true
  | _ => false

def makeDirectory (location : String) : StoreM Host Unit := do
  let spot ← locatePlace location
  match spot.last with
  | some (.down n) => match ← entryIn? spot.directory n with
    | some _ => fail .occupied
    | none => placeIn spot.directory n .directory
  | _ => fail .occupied

/-- Makes a directory, and first the directories that lead to it as far as they are missing. A location
with `n` parts needs at most `n + 1` rounds. -/
def makeDirectories : (rounds : Nat) → (location : String) → StoreM Host Unit
  | 0, _ => fail .noEntry
  | rounds + 1, location => do
    if location.isEmpty then return
    let again (e : StorageError) : StoreM Host Unit := do
      if (← get).isDirectory location then return else throw e
    match ← (makeDirectory location).attempt with
    | .ok () => return
    | .error e =>
      if e.kind ≠ .notFound then again e
      else match Location.parent? location with
        | none => throw (.stated .uncategorized "failed to create whole tree")
        | some p => do
          makeDirectories rounds p
          match ← (makeDirectory location).attempt with
          | .ok () => return
          | .error e => again e

/-- Makes a directory and all that lead to it. -/
def makeAll (location : String) : StoreM Host Unit :=
  makeDirectories ((Location.parts location).length + 2) location

/-! ### Files -/

/-- Makes an empty file at a free name of a directory. -/
def createFile (dir : Path) (n : Name) : StoreM Host Nat := do
  let h ← get
  placeIn dir n (.file ⟨h.nextSerial, {}, h.clock⟩)
  modify fun h => { h with nextSerial := h.nextSerial + 1 }
  return h.nextSerial

/-- Opens a file for reading and writing, through links, making it if asked to; gives its serial number. -/
def openFile (location : String) (create : Bool) : StoreM Host Nat := do
  match ← locate location (if create then .make else .follow) with
  | .found _ (.file f) => return f.serial
  | .found _ .directory => fail .isDirectory
  | .found _ (.link _) => fail .loop
  | .free dir n => if create then createFile dir n else fail .noEntry

/-- The data of an open file, wherever it is. -/
def fileData? (h : Host) (serial : Nat) : Option FileData :=
  (h.nodes.rows.findSome? fun
    | (_, .file f) => if f.serial = serial then some f else none
    | _ => none) <|> h.removed.find? fun f => f.serial = serial

/-- Changes the content of an open file, wherever it is. -/
def updateFile (serial : Nat) (f : Sparse → Sparse) : StoreM Host Unit :=
  modify fun h =>
    let change (d : FileData) :=
      if d.serial = serial then { d with content := f d.content, modified := h.clock } else d
    { h with
      nodes := h.nodes.map fun _ n => match n with
        | .file d => .file (change d)
        | n => n
      removed := h.removed.map change }

def content (serial : Nat) : StoreM Host Sparse := do
  return ((← get).fileData? serial).map FileData.content |>.getD {}

def maxPosition : Nat := UInt64.size / 2 - 1

/-- Goes to a position in a file from which some bytes are to be read or written. If there are any, the
position after them must be one too. -/
def seek (pos count : Nat) : StoreM Host Unit := if pos + count > maxPosition then fail .invalid else pure ()

def readFrom (serial pos length : Nat) : StoreM Host Bytes := do
  seek pos length
  return (← content serial).slice pos length

/-- Writes to an open file. Writing nothing leaves the file as it is. -/
def writeTo (serial pos : Nat) (data : Bytes) : StoreM Host Nat := do
  seek pos data.length
  if data.isEmpty then return 0
  else
    updateFile serial fun c => c.overwrite pos data
    return data.length

def setLength (serial length : Nat) : StoreM Host Unit :=
  if length > maxPosition then throw (.stated .invalidInput "number too large to fit in target type")
  else updateFile serial fun c => c.resize length

/-- The content of the file at a location. -/
def contentAt (location : String) : StoreM Host Bytes := do
  return (← content (← openFile location false)).toBytes

/-- Replaces the content of the file at a location, making it if there is none. -/
def putContent (location : String) (data : Bytes) : StoreM Host Unit := do
  let serial ← openFile location true
  updateFile serial fun _ => .ofBytes data

/-! ### Entries -/

/-- Writes a file, and first makes the directories around it. -/
def putContentBelow (location : String) (data : Bytes) : StoreM Host Unit := do
  if let some dir := Location.parent? location then makeAll dir
  putContent location data

/-- Takes the entries at and below a real path out of the tree. Open files live on. -/
def detach (p : Path) : StoreM Host Unit :=
  modify fun h =>
    let gone := h.nodes.rows.filterMap fun
      | (q, .file f) => if q.under p then some f else none
      | _ => none
    { h with nodes := h.nodes.filter (fun q _ => !q.under p), removed := gone ++ h.removed }

def unlink (location : String) : StoreM Host Unit := do
  let spot ← locatePlace location
  match spot.last with
  | some (.down n) => match ← entryIn? spot.directory n with
    | none => fail .noEntry
    | some .directory => fail .isDirectory
    | some _ => if spot.slash then fail .notDirectory else detach (spot.directory.child n)
  | _ => fail .isDirectory

def removeDirectory (location : String) : StoreM Host Unit := do
  let spot ← locatePlace location
  match spot.last with
  | some (.down n) => match ← entryIn? spot.directory n with
    | none => fail .noEntry
    | some .directory =>
      if (← get).hasChildren (spot.directory.child n) then fail .notEmpty else detach (spot.directory.child n)
    | some _ => fail .notDirectory
  | some .up => fail .notEmpty
  | some .stay => fail .invalid
  | none => fail .busy

/-- Removes a directory with all below it. -/
def removeTree (location : String) : StoreM Host Unit := do
  match ← locate location .keep with
  | .free _ _ => fail .noEntry
  | .found p _ => if p.isRoot then fail .busy else detach p

def relocate (source target : Path) : StoreM Host Unit :=
  modify fun h =>
    let moved := h.nodes.rows.filterMap fun (q, n) => (q.relativeTo? source).map fun r => (target.join r, n)
    { h with nodes := (h.nodes.filter fun q _ => !q.under source).insertMany moved }

/-- Renames the entry `m` at a real path to another, where `n` may be. A file or link may be replaced by one,
an empty directory by a directory. -/
def replaceEntry (p q : Path) (m : Node) (n : Option Node) : StoreM Host Unit := do
  if q ≠ p ∧ q.under p then fail .invalid
  else if q ≠ p ∧ p.under q then fail .notEmpty
  else match m, n with
    | _, none => relocate p q
    | .directory, some .directory => do
      if p = q then return
      else if (← get).hasChildren q then fail .notEmpty
      else
        detach q
        relocate p q
    | .directory, some _ => fail .notDirectory
    | _, some .directory => fail .isDirectory
    | _, some _ => do
      if p = q then return
      else
        detach q
        relocate p q

/-- Renames an entry. Where dots lead is busy, and slashes may follow only the names of a directory. -/
def rename (source target : String) : StoreM Host Unit := do
  let old ← locatePlace source
  let new ← locatePlace target
  match old.last, new.last with
  | some (.down a), some (.down b) => match ← entryIn? old.directory a with
    | none => fail .noEntry
    | some m => do
      let n ← entryIn? new.directory b
      if m ≠ .directory ∧ (old.slash ∨ new.slash) then fail .notDirectory
      else if (← get).node? new.directory ≠ some .directory then fail .noEntry
      else replaceEntry (old.directory.child a) (new.directory.child b) m n
  | _, _ => fail .busy

/-- The entries of a directory in order of their names. -/
def children (h : Host) (p : Path) : List (Name × Node) :=
  h.nodes.rows.filterMap fun (q, n) => if q.parent? = some p then q.name?.map (·, n) else none

/-- The entries of the directory at a location. -/
def readDirectory (location : String) : StoreM Host (List (Name × Node)) := do
  match ← locate location .follow with
  | .found p .directory => return (← get).children p
  | .found _ _ => fail .notDirectory
  | .free _ _ => fail .noEntry

/-- Makes a link. No slashes may follow its name. -/
def makeLink (target location : String) : StoreM Host Unit := do
  if location.toList.contains '\x00' then throw .nulInHostPath
  else
    StoreM.settle (checkLocation target)
    let spot ← locatePlace location
    match spot.last with
    | some (.down n) => match ← entryIn? spot.directory n with
      | some _ => fail .occupied
      | none => if spot.slash then fail .noEntry else placeIn spot.directory n (.link target)
    | _ => fail .occupied

/-- The text of the file at a location, if there is one. -/
def textAt? (h : Host) (location : String) : Option String :=
  match (contentAt location h).1 with
  | .ok bytes => String.fromUTF8? ⟨bytes.toArray⟩
  | .error _ => none

/-- The locations of all that is below a directory, from there. A directory ends with a slash. -/
def below (h : Host) (top : Path) : List String :=
  h.nodes.rows.filterMap fun (p, n) => match p.relativeTo? top with
    | some r => if r.isRoot then none else some (r.str ++ if n = .directory then "/" else "")
    | none => none

end Filespace.Host
