import Filespace.Vfs.Namespace

/-!
# The whole tree

Going through the namespace from a directory down, in the order of the listings. An entry that cannot be
looked at, and a directory that cannot be listed, is shown with its failure.
-/

namespace Filespace.Vfs

open Storage (FileStore)

variable {φ μ : Type} [FileStore φ] [LinkMap μ]

/-- The text of a child's path. -/
def childText (dir name : String) : String := if dir = "/" then dir ++ name else dir ++ "/" ++ name

/-- What is below a directory, at most `depth` levels deep: the text of each path with what is there. -/
def survey : (depth : Nat) → (dir : String) → VfsM φ μ (List (String × Except Error Entry))
  | 0, _ => return []
  | depth + 1, dir => do
    match ← attempt (readDirectoryAt none dir) with
    | .error e => return [(dir, .error e)]
    | .ok rows => do
      let parts ← rows.mapM fun row => do
        let path := childText dir row.name
        let found ← attempt (statAt none path false)
        let below ← if row.kind = .directory then survey depth path else pure []
        return (path, found) :: below
      return parts.flatten

def tree : VfsM φ μ (List (String × Except Error Entry)) := do
  let w := (← get).world
  survey (FileStore.bound (w.host, w.files) + 2) "/"

end Filespace.Vfs
