import Filespace.Vfs.Basic

/-!
# Reading and writing files

A file is read and written at offsets or in sequence from a cursor. With a warm handle this needs no request
to the store. A cold file is made warm first or served by one request, as the policy says; queued writes to
it are waited for in either case, since they have to land before a handle locks the file.
-/

namespace Filespace.Vfs

open Storage (FileStore StorageError)

variable {φ μ : Type} [FileStore φ] [LinkMap μ]

/-- The descriptor must not be of a directory. -/
def requireFile (d : Descriptor) : VfsM φ μ Unit :=
  if d.isDirectory then throw (.isADirectory d.path) else pure ()

/-- The descriptor must be of a file open for writing. -/
def requireWritable (d : Descriptor) : VfsM φ μ Unit := do
  requireFile d
  if ¬ d.flags.writable then throw (.notWritable d.path)

/-- The handle of a path, opened if the path is cold. -/
def acquire (p : Path) : VfsM φ μ (FileStore.Handle φ) := do
  match (← get).handles.get? p with
  | some h => return h
  | none => do
    let reply ← call (.openHandle p)
    let h ← settle reply.toHandle
    modify fun v => { v with handles := v.handles.insert p h }
    return h

/-- The handle to use for a path, or none if one request is to do. -/
def handleFor (p : Path) : VfsM φ μ (Option (FileStore.Handle φ)) := do
  let v ← get
  if ¬ v.isWarm p then
    if v.detached.hasPending p then waitIdle
    if v.coldPath = .direct then return none
  return some (← acquire p)

/-- Reads up to `length` bytes at an offset, and tells whether that reached the end of the file. -/
def read (d : Descriptor) (length offset : Nat) : VfsM φ μ (Bytes × Bool) := do
  requireFile d
  if ¬ d.flags.read then throw (.notReadable d.path)
  let (data, size) ← match ← handleFor d.path with
    | some h => do
      let data ← onFiles ((FileStore.channel h).readExactAt length offset)
      pure (data, ← onFiles (FileStore.size h))
    | none => do
      let reply ← call (.readAt d.path offset length)
      settle reply.toBytes
  return (data, offset + data.length ≥ size)

/-- Writes at an offset through a handle and gives the new length of the file. -/
def writeThrough (h : FileStore.Handle φ) (data : Bytes) (offset : Nat) : VfsM φ μ Nat := do
  let _ ← onFiles ((FileStore.channel h).writeAllAt data offset)
  onFiles (FileStore.size h)

/-- Writes at an offset and gives the number of bytes written. -/
def write (d : Descriptor) (data : Bytes) (offset : Nat) : VfsM φ μ Nat := do
  requireWritable d
  let size ← match ← handleFor d.path with
    | some h => writeThrough h data offset
    | none => do
      let reply ← call (.writeAt d.path offset data)
      settle reply.toSize
  noteSize d.path size
  return data.length

/-- The length of a file, or of whatever is at its path. -/
def fileSize (p : Path) : VfsM φ μ Nat := do
  match (← get).handles.get? p with
  | some h => onFiles (FileStore.size h)
  | none => return (← requireEntry p).size

/-- Reads at the cursor and moves it on. -/
def readStream (d : Descriptor) (length : Nat) : VfsM φ μ ((Bytes × Bool) × Descriptor) := do
  let (data, ended) ← read d length d.cursor
  return ((data, ended), { d with cursor := d.cursor + data.length })

/-- Writes at the cursor, or at the end of the file if opened for that, and moves the cursor behind it. -/
def writeStream (d : Descriptor) (data : Bytes) : VfsM φ μ (Nat × Descriptor) := do
  let offset ← if d.flags.append then fileSize d.path else pure d.cursor
  let n ← write d data offset
  return (n, { d with cursor := offset + n })

/-- Where a new position of the cursor counts from. -/
inductive Whence where
  | start (offset : Nat)
  | current (delta : Int)
  | ending (delta : Int)
  deriving DecidableEq

def seek (d : Descriptor) (w : Whence) : VfsM φ μ (Nat × Descriptor) := do
  let target : Int ← match w with
    | .start offset => pure (offset : Int)
    | .current delta => pure (d.cursor + delta)
    | .ending delta => do pure ((← fileSize d.path) + delta)
  if 0 ≤ target ∧ target < Bytes.offsetLimit then return (target.toNat, { d with cursor := target.toNat })
  else throw (.badSeek d.path target)

/-- Writes without waiting. A warm file is written at once; for a cold one the write is queued, and it is left
out if the file is removed, renamed or cut before its turn. -/
def writeDetached (d : Descriptor) (data : Bytes) (offset : Nat) : VfsM φ μ Unit := do
  requireWritable d
  let p := d.path
  match (← get).handles.get? p with
  | some h => do
    let size ← writeThrough h data offset
    noteSize p size
  | none => do
    let v ← get
    let (generation, detached) := v.detached.enter p
    set { v with detached := detached }
    submit ("detached write " ++ p.display) (.write p generation offset data)

/-- Gives the file at a path a new length. Queued writes to it lose their meaning. -/
def truncatePath (p : Path) (length : Nat) : VfsM φ μ Unit := do
  modify fun v => { v with detached := v.detached.invalidateUnder p }
  match ← handleFor p with
  | some h => onFiles (FileStore.truncate h length)
  | none => do
    let _ ← call (.truncate p length)
  noteSize p length

def setSize (d : Descriptor) (length : Nat) : VfsM φ μ Unit := do
  requireWritable d
  truncatePath d.path length

/-- Flushes the warm handle, if there is one. -/
def sync (d : Descriptor) : VfsM φ μ Unit := do
  match (← get).handles.get? d.path with
  | some h => onFiles (FileStore.flush h)
  | none => return

/-- Makes the file cold; tells whether it was warm. -/
def release (d : Descriptor) : VfsM φ μ Bool := do
  let v ← get
  let (warm, handles, s) := v.handles.release d.path (v.world.host, v.world.files)
  set { v with handles := handles, world := { v.world with host := s.1, files := s.2 } }
  return warm

end Filespace.Vfs
