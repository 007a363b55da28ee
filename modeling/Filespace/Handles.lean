import Filespace.Request

/-!
# Warm handles

Handles that stay open between uses, at most one for a path. A path with such a handle is warm, any other is
cold. A handle leaves the cache by being closed; if closing fails it is gone all the same.
-/

namespace Filespace

open Storage (FileStore StorageError StoreM)

/-- Open handles by path. -/
abbrev Handles (φ : Type) [FileStore φ] := Table Path (FileStore.Handle φ)

namespace Handles

variable {φ : Type} [FileStore φ]

/-- The handle of a path, opened if the path is cold. -/
def acquire (c : Handles φ) (p : Path) : StoreM (Host × φ) (FileStore.Handle φ × Handles φ) := do
  match c.get? p with
  | some h => return (h, c)
  | none => do
    let reply ← (Request.openHandle p).execute
    let h ← StoreM.settle reply.toHandle
    return (h, c.insert p h)

/-- Closes a handle, whatever comes of it. -/
def closeQuietly (h : FileStore.Handle φ) (s : Host × φ) : Host × φ := (FileStore.close h s).2

def release (c : Handles φ) (p : Path) (s : Host × φ) : Bool × Handles φ × (Host × φ) :=
  match c.get? p with
  | some h => (true, c.erase p, closeQuietly h s)
  | none => (false, c, s)

/-- Makes every path at or below a path cold; gives the number of handles closed. -/
def releaseUnder (c : Handles φ) (p : Path) (s : Host × φ) : Nat × Handles φ × (Host × φ) :=
  let doomed := c.filter fun q _ => q.under p
  (doomed.size, c.filter (fun q _ => !q.under p), doomed.rows.foldl (fun s x => closeQuietly x.2 s) s)

def releaseAll (c : Handles φ) (s : Host × φ) : Handles φ × (Host × φ) :=
  let (_, c, s) := releaseUnder c .root s
  (c, s)

end Handles

end Filespace
