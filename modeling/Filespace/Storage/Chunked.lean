import Filespace.Storage.Basic

/-!
# Reads and writes in pieces

A handle may move fewer bytes than it was asked to. The operations here repeat the call until all bytes are
moved, until a read finds the end, or until a write moves none. They are written for any `Channel`, a
handle seen as its three calls, so the laws about them hold for every store.

A read is first limited to what the handle says the file holds, so it asks for no byte past that. A write is
first checked not to end past the last offset.
-/

namespace Filespace.Storage

/-- A handle seen as the calls that move bytes. -/
structure Channel (m : Type → Type) where
  size : m Nat
  /-- At most so many bytes from a position on. -/
  read : (pos length : Nat) → m Bytes
  /-- Writes at a position and says how many bytes were taken. -/
  write : (pos : Nat) → Bytes → m Nat

namespace Channel

variable {m : Type → Type} [Monad m]

/-- Reads `want` bytes from `pos` on in as many calls as needed. Each call but the last moves at least one
byte, so `fuel = want` calls suffice. -/
def gather (c : Channel m) : (fuel pos want : Nat) → m Bytes
  | 0, _, _ => pure []
  | fuel + 1, pos, want =>
    if want = 0 then pure []
    else do
      let bytes ← c.read pos want
      if bytes.isEmpty then pure []
      else return bytes ++ (← gather c fuel (pos + bytes.length) (want - bytes.length))

def readAll (c : Channel m) : m Bytes := do
  let size ← c.size
  c.gather size 0 size

/-- Up to `length` bytes from `offset` on, limited to the length that the handle reports. -/
def readExactAt (c : Channel m) (length offset : Nat) : m Bytes := do
  let length := min length ((← c.size) - offset)
  c.gather length offset length

/-- The offset one past a write of `length` bytes at `offset`. -/
def endOffset (offset length : Nat) : Except StorageError Nat :=
  if offset + length < Bytes.offsetLimit then .ok (offset + length) else .error (.overflow length offset)

variable [MonadExceptOf StorageError m]

/-- Writes `data` at `pos` in as many calls as needed. Each call moves at least one byte or ends the loop, so
`fuel = data.length` calls suffice. -/
def scatter (c : Channel m) : (fuel pos : Nat) → Bytes → m Nat
  | 0, _, _ => pure 0
  | fuel + 1, pos, data =>
    if data.isEmpty then pure 0
    else do
      let n ← c.write pos data
      if n = 0 then throw .acceptedNothing
      else return n + (← scatter c fuel (pos + n) (data.drop n))

/-- Writes all of `data` at `offset` and gives the number of bytes written. -/
def writeAllAt (c : Channel m) (data : Bytes) (offset : Nat) : m Nat := do
  match endOffset offset data.length with
  | .error e => throw e
  | .ok _ => c.scatter data.length offset data

end Channel

/-- An open handle of a store as a channel. -/
def FileStore.channel {φ : Type} [FileStore φ] (handle : FileStore.Handle φ) :
    Channel (StoreM (Host × φ)) where
  size := FileStore.size handle
  read := FileStore.read handle
  write := FileStore.write handle

end Filespace.Storage
