import Filespace.Storage.Chunked

/-!
# Copying a tree

The way out when a store has no move of its own. Directories are made before their children are copied, and
files are read whole through a handle that is closed again before anything is written. A failure part way
leaves what was copied so far.
-/

namespace Filespace.Storage.FileStore

variable {φ : Type} [FileStore φ]

/-- Reads a whole file through a handle and closes it. When both fail, the failed close is reported. -/
def slurp (p : Path) : StoreM (Host × φ) Bytes := do
  let handle ← openHandle p
  let data ← ((channel handle).readAll).attempt
  close handle
  StoreM.settle data

def copyFile (source target : Path) : StoreM (Host × φ) Unit := do
  file source false
  let data ← slurp source
  file target true
  let _ ← writeAt target 0 data

/-- Copies an entry whose tree has fewer than `depth` levels. -/
def copyTree : (depth : Nat) → (source target : Path) → StoreM (Host × φ) Unit
  | 0, source, _ => throw (.intoItself source)
  | depth + 1, source, target => do
    match ← entry source with
    | none => throw (.notFound source)
    | some (.file _ _) => copyFile source target
    | some .directory => do
      directory source false
      directory target true
      (← list source).forM fun (n, _) => copyTree depth (source.child n) (target.child n)

/-- Copies a file or a directory with all below it. -/
def copy (source target : Path) : StoreM (Host × φ) Unit := do
  let s ← get
  copyTree (bound s + 2) source target

end Filespace.Storage.FileStore
