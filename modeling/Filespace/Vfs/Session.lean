import Filespace.Vfs.Namespace

/-!
# Sessions on a namespace

A `Session` is a namespace together with the descriptors that are open on it, by name, and an `Operation` is
one use of either. A run of operations is the most general use that a namespace can be put to. Only reading
and writing in sequence and seeking change a descriptor.
-/

namespace Filespace.Vfs

open Storage (FileStore)

/-- One use of a namespace. Descriptors are given by name; a directory to start from may be left out. -/
inductive Operation where
  /-- Opens an entry and keeps the descriptor under a name, if one is given. -/
  | openAt (base : Option String) (path : String) (flags : Flags) (keep : Option String)
  | preopens (keep : Option String)
  | inspect (fd : String)
  | read (fd : String) (length offset : Nat)
  | write (fd : String) (data : Bytes) (offset : Nat)
  | readStream (fd : String) (length : Nat)
  | writeStream (fd : String) (data : Bytes)
  | seek (fd : String) (whence : Whence)
  | writeDetached (fd : String) (data : Bytes) (offset : Nat)
  | setSize (fd : String) (length : Nat)
  | sync (fd : String)
  | release (fd : String)
  | stat (fd : String)
  | statAt (base : Option String) (path : String) (follow : Bool)
  | readDirectory (fd : String)
  | readDirectoryAt (base : Option String) (path : String)
  | createDirectoryAt (base : Option String) (path : String)
  | removeDirectoryAt (base : Option String) (path : String)
  | unlinkAt (base : Option String) (path : String)
  | renameAt (base : Option String) (path : String) (toBase : Option String) (toPath : String)
  | symlinkAt (base : Option String) (target path : String)
  | readlinkAt (base : Option String) (path : String)
  | linkAt (base : Option String) (old new : String)
  | workingDirectory
  | setWorkingDirectory (path : String)
  | knownSize (path : String)
  | isWarm (path : String)
  deriving DecidableEq

/-- What an operation gives. -/
inductive Value where
  | unit
  | bool (b : Bool)
  | number (n : Nat)
  | text (s : String)
  | size (n : Option Nat)
  | descriptor (d : Descriptor)
  | mounts (l : List (String × Descriptor))
  | data (bytes : Bytes) (ended : Bool)
  | streamed (bytes : Bytes) (ended : Bool) (cursor : Nat)
  | written (n cursor : Nat)
  | entry (e : Entry)
  | entries (l : List DirEntry)
  deriving DecidableEq

/-- Why an operation gives nothing. -/
inductive Refusal where
  /-- No descriptor has that name. -/
  | unknownDescriptor
  | failed (e : Error)
  deriving DecidableEq

/-- A namespace and its open descriptors. -/
structure Session (φ μ : Type) [FileStore φ] where
  space : Vfs φ μ
  descriptors : Table String Descriptor := ∅

variable {φ μ α : Type} [FileStore φ]

/-- A step of a session. -/
abbrev SessionM (φ μ : Type) [FileStore φ] (α : Type) := ExceptT Refusal (StateM (Session φ μ)) α

namespace Session

/-- Runs an operation of the namespace. -/
def onSpace (x : VfsM φ μ α) : SessionM φ μ α := fun s =>
  let (r, v) := x s.space
  (r.mapError .failed, { s with space := v })

def descriptor (name : String) : SessionM φ μ Descriptor := do
  match (← get).descriptors.get? name with
  | some d => return d
  | none => throw .unknownDescriptor

/-- The descriptor to start from, if a name is given. -/
def base (name : Option String) : SessionM φ μ (Option Descriptor) :=
  match name with
  | none => return none
  | some n => some <$> descriptor n

def keep (name : String) (d : Descriptor) : SessionM φ μ Unit :=
  modify fun s => { s with descriptors := s.descriptors.insert name d }

/-- A path given by its text. -/
def path (raw : String) : SessionM φ μ Path :=
  match Path.parse raw with
  | .ok p => return p
  | .error f => throw (.failed (.path f))

end Session

open Session

variable [LinkMap μ]

def Operation.run : Operation → SessionM φ μ Value
  | openAt b p flags name => do
    let b ← base b
    let d ← onSpace (Vfs.openAt b p flags)
    if let some n := name then keep n d
    return .descriptor d
  | preopens name => do
    if let some n := name then
      if let some (_, d) := Vfs.preopens.head? then keep n d
    return .mounts Vfs.preopens
  | inspect fd => do return .descriptor (← descriptor fd)
  | read fd length offset => do
    let d ← descriptor fd
    let (bytes, ended) ← onSpace (Vfs.read d length offset)
    return .data bytes ended
  | write fd data offset => do
    let d ← descriptor fd
    return .number (← onSpace (Vfs.write d data offset))
  | readStream fd length => do
    let d ← descriptor fd
    let ((bytes, ended), d) ← onSpace (Vfs.readStream d length)
    keep fd d
    return .streamed bytes ended d.cursor
  | writeStream fd data => do
    let d ← descriptor fd
    let (n, d) ← onSpace (Vfs.writeStream d data)
    keep fd d
    return .written n d.cursor
  | seek fd whence => do
    let d ← descriptor fd
    let (n, d) ← onSpace (Vfs.seek d whence)
    keep fd d
    return .number n
  | writeDetached fd data offset => do
    let d ← descriptor fd
    onSpace (Vfs.writeDetached d data offset)
    return .unit
  | setSize fd length => do
    let d ← descriptor fd
    onSpace (Vfs.setSize d length)
    return .unit
  | sync fd => do
    let d ← descriptor fd
    onSpace (Vfs.sync d)
    return .unit
  | release fd => do
    let d ← descriptor fd
    return .bool (← onSpace (Vfs.release d))
  | stat fd => do
    let d ← descriptor fd
    return .entry (← onSpace (Vfs.stat d))
  | statAt b p follow => do
    let b ← base b
    return .entry (← onSpace (Vfs.statAt b p follow))
  | readDirectory fd => do
    let d ← descriptor fd
    return .entries (← onSpace (Vfs.readDirectory d))
  | readDirectoryAt b p => do
    let b ← base b
    return .entries (← onSpace (Vfs.readDirectoryAt b p))
  | createDirectoryAt b p => do
    let b ← base b
    onSpace (Vfs.createDirectoryAt b p)
    return .unit
  | removeDirectoryAt b p => do
    let b ← base b
    onSpace (Vfs.removeDirectoryAt b p)
    return .unit
  | unlinkAt b p => do
    let b ← base b
    onSpace (Vfs.unlinkAt b p)
    return .unit
  | renameAt b p c q => do
    let b ← base b
    let c ← base c
    onSpace (Vfs.renameAt b p c q)
    return .unit
  | symlinkAt b target p => do
    let b ← base b
    onSpace (Vfs.symlinkAt b target p)
    return .unit
  | readlinkAt b p => do
    let b ← base b
    return .text (← onSpace (Vfs.readlinkAt b p))
  | linkAt b old new => do
    let _ ← base b
    onSpace (Vfs.linkAt old new)
    return .unit
  | workingDirectory => do return .text (← get).space.workingDirectory.display
  | setWorkingDirectory p => do
    onSpace (Vfs.setWorkingDirectory p)
    return .unit
  | knownSize p => do
    let p ← path p
    return .size (((← get).space.knownSize? p).map FileMeta.size)
  | isWarm p => do
    let p ← path p
    return .bool ((← get).space.isWarm p)

end Filespace.Vfs
