import Filespace.Path

/-!
# Entries

What occupies a path, and what a listing says about it.
-/

namespace Filespace

/-- What occupies a path. -/
inductive Entry where
  | directory
  /-- A file, with its length and the time of its last change in milliseconds. -/
  | file (size modified : Nat)
  | link (target : String)
  deriving DecidableEq, Inhabited

/-- The kind of an entry. -/
inductive EntryKind where
  | directory | file | link
  deriving DecidableEq, Inhabited

/-- One row of a listing. -/
structure DirEntry where
  name : String
  kind : EntryKind
  deriving DecidableEq, Inhabited

namespace EntryKind

def all : List EntryKind := [.directory, .file, .link]

/-- The kind as it is written in documents and listings. -/
def tag : EntryKind → String
  | directory => "directory"
  | file => "regular_file"
  | link => "symbolic_link"

def ofTag? (s : String) : Option EntryKind := all.find? fun k => k.tag = s

@[simp] theorem ofTag?_tag (k : EntryKind) : ofTag? k.tag = some k := by
  cases k <;> decide

end EntryKind

namespace Entry

def kind : Entry → EntryKind
  | directory => .directory
  | file _ _ => .file
  | link _ => .link

def isDirectory (e : Entry) : Bool := e.kind = .directory

def isFile (e : Entry) : Bool := e.kind = .file

def isLink (e : Entry) : Bool := e.kind = .link

/-- The size in bytes: nothing for a directory, and the length of its target for a link. -/
def size : Entry → Nat
  | directory => 0
  | file n _ => n
  | link t => t.utf8ByteSize

end Entry

end Filespace
