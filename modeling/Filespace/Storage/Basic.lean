import Filespace.Host.Basic

/-!
# Stores

A store keeps a tree of directories and files. It is used through the calls of `FileStore`: looking up and
making directories and files, removing and moving entries, listing, and handles that read and write one
file. A store knows nothing of links.

Design points:

* a call runs in `StoreM`, where a failure keeps what was done before it: an interrupted copy leaves the
  files it had made;
* every store lives on a `host`, which a store in memory ignores;
* `bound` limits how deep the tree can be, so that walks over it end.
-/

namespace Filespace.Storage

/-- A call on a store: it changes a state and gives a value or fails, keeping the state it reached. -/
abbrev StoreM (σ α : Type) : Type := ExceptT StorageError (StateM σ) α

namespace StoreM

variable {σ τ α : Type}

/-- Runs a call on a part of a larger state. -/
def within (get : σ → τ) (set : τ → σ → σ) (x : StoreM τ α) : StoreM σ α :=
  fun s => let (r, t) := x (get s); (r, set t s)

/-- Runs a call on the second half of a pair. -/
def onSecond {η : Type} (x : StoreM τ α) : StoreM (η × τ) α := within Prod.snd (fun t s => (s.1, t)) x

/-- The result of a call as a value: it never fails. -/
def attempt (x : StoreM σ α) : StoreM σ (Except StorageError α) :=
  fun s => let (r, t) := x s; (.ok r, t)

/-- A settled result as a call. -/
def settle (r : Except StorageError α) : StoreM σ α := fun s => (r, s)

end StoreM

/-- What a store says about an entry. -/
inductive Stat where
  | directory
  /-- A file, with its length and the time of its last change. -/
  | file (size modified : Nat)
  deriving DecidableEq, Inhabited

def Stat.isDirectory : Stat → Bool
  | directory => true
  | file _ _ => false

/-- The calls of a store whose state is `φ`, on a host. -/
class FileStore (φ : Type) where
  Handle : Type
  /-- Looks up a directory name by name, making what is missing if asked to. -/
  directory (path : Path) (create : Bool) : StoreM (Host × φ) Unit
  /-- Looks up a file, making it and its parents if asked to. -/
  file (path : Path) (create : Bool) : StoreM (Host × φ) Unit
  openHandle (path : Path) : StoreM (Host × φ) Handle
  /-- Removes a file or a directory, with all below it if asked to. -/
  remove (path : Path) (recursive : Bool) : StoreM (Host × φ) Unit
  move (source target : Path) : StoreM (Host × φ) Unit
  /-- The children of a directory in order of their names. -/
  list (path : Path) : StoreM (Host × φ) (List (Name × Stat))
  /-- What is at a path, if anything is. -/
  entry (path : Path) : StoreM (Host × φ) (Option Stat)
  /-- Writes to an existing file without a handle; gives its new length. -/
  writeAt (path : Path) (offset : Nat) (data : Bytes) : StoreM (Host × φ) Nat
  /-- At most `length` bytes from a position; none at the end of the file. -/
  read (handle : Handle) (pos length : Nat) : StoreM (Host × φ) Bytes
  /-- Writes at a position; gives the number of bytes written. -/
  write (handle : Handle) (pos : Nat) (data : Bytes) : StoreM (Host × φ) Nat
  truncate (handle : Handle) (length : Nat) : StoreM (Host × φ) Unit
  flush (handle : Handle) : StoreM (Host × φ) Unit
  size (handle : Handle) : StoreM (Host × φ) Nat
  /-- Flushes and releases the handle. It is released also when this fails. -/
  close (handle : Handle) : StoreM (Host × φ) Unit
  release (handle : Handle) : Host × φ → Host × φ
  /-- No path of the store has more names than this. -/
  bound : Host × φ → Nat

end Filespace.Storage
