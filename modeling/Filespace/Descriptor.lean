import Filespace.Entry

/-!
# Descriptors

Opening an entry gives a `Descriptor`: the path that was reached, what was there, how it was opened, and a
cursor for reading and writing in sequence. A descriptor is a plain value. It holds nothing open, and two
descriptors of one file have cursors of their own.
-/

namespace Filespace

/-- How an entry is opened. By default an existing entry is opened for reading, through a final link. -/
structure Flags where
  /-- Make the entry and its parents if there is none. -/
  create : Bool := false
  directory : Bool := false
  /-- When creating, refuse an entry that exists. -/
  exclusive : Bool := false
  truncate : Bool := false
  read : Bool := true
  write : Bool := false
  /-- Writes in sequence go to the end of the file. -/
  append : Bool := false
  /-- Go through a link at the end of the path. -/
  follow : Bool := true
  deriving DecidableEq, Inhabited

namespace Flags

def readWrite : Flags := { write := true }

/-- Read and write a file, made if there is none. -/
def createFile : Flags := { write := true, create := true }

def directoryOnly : Flags := { directory := true }

/-- May the content of the file be changed? -/
def writable (f : Flags) : Bool := f.write || f.append

def toList (f : Flags) : List (String × Bool) :=
  [("create", f.create), ("directory", f.directory), ("exclusive", f.exclusive), ("truncate", f.truncate),
   ("read", f.read), ("write", f.write), ("append", f.append), ("follow", f.follow)]

def set (f : Flags) (name : String) (b : Bool) : Flags :=
  match name with
  | "create" => { f with create := b }
  | "directory" => { f with directory := b }
  | "exclusive" => { f with exclusive := b }
  | "truncate" => { f with truncate := b }
  | "read" => { f with read := b }
  | "write" => { f with write := b }
  | "append" => { f with append := b }
  | "follow" => { f with follow := b }
  | _ => f

end Flags

/-- An opened entry. -/
structure Descriptor where
  path : Path
  entry : Entry
  flags : Flags
  /-- Where the next read or write in sequence starts. -/
  cursor : Nat := 0
  deriving DecidableEq, Inhabited

def Descriptor.isDirectory (d : Descriptor) : Bool := d.entry.isDirectory

end Filespace
