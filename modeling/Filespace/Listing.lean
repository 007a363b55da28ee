import Filespace.Entry

/-!
# Remembered listings

A cache of directory listings that holds nothing when it is switched off. It never forgets one listing
alone: any change to the namespace clears it.
-/

namespace Filespace

/-- Listings by directory. -/
structure Listings where
  enabled : Bool
  known : Table Path (List DirEntry) := ∅

namespace Listings

/-- The listing of a directory, if it is remembered. -/
def get? (l : Listings) (dir : Path) : Option (List DirEntry) := l.known.get? dir

/-- Remembers a listing, if listings are remembered. -/
def insert (l : Listings) (dir : Path) (entries : List DirEntry) : Listings :=
  if l.enabled then { l with known := l.known.insert dir entries } else l

def clear (l : Listings) : Listings := { l with known := ∅ }

@[simp] theorem get?_clear (l : Listings) (dir : Path) : l.clear.get? dir = none := rfl

theorem get?_insert (l : Listings) (dir dir' : Path) (entries : List DirEntry) :
    (l.insert dir entries).get? dir' =
      if l.enabled = true ∧ dir' = dir then some entries else l.get? dir' := by
  unfold insert get?
  cases l.enabled <;> simp [Table.get?_insert]

end Listings

end Filespace
