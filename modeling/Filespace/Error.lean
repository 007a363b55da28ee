import Filespace.Storage.Error

/-!
# Failures of the file namespace

An `Error` is what an operation on the namespace reports: a cause from which its `Code` and its text
follow. A failed store call keeps its text, and its kind decides the code. The codes and the kinds
correspond to each other; the code for link loops has no kind of its own and becomes a plain failure.
-/

namespace Filespace

open Storage (Kind StorageError)

/-- The classes of failure that a caller of the namespace can tell apart. -/
inductive Code where
  | notFound | alreadyExists | notADirectory | isADirectory | directoryNotEmpty | unsupported
  | invalidArgument | busy | io | loop
  deriving DecidableEq, Inhabited

namespace Code

def all : List Code :=
  [.notFound, .alreadyExists, .notADirectory, .isADirectory, .directoryNotEmpty, .unsupported,
   .invalidArgument, .busy, .io, .loop]

def words : Code → String
  | notFound => "not found"
  | alreadyExists => "already exists"
  | notADirectory => "not a directory"
  | isADirectory => "is a directory"
  | directoryNotEmpty => "directory not empty"
  | unsupported => "unsupported"
  | invalidArgument => "invalid argument"
  | busy => "busy"
  | io => "i/o error"
  | loop => "too many levels of symbolic links"

/-- The code as it is written in documents. -/
def tag : Code → String
  | notFound => "not_found"
  | alreadyExists => "already_exists"
  | notADirectory => "not_a_directory"
  | isADirectory => "is_a_directory"
  | directoryNotEmpty => "directory_not_empty"
  | unsupported => "unsupported"
  | invalidArgument => "invalid_argument"
  | busy => "busy"
  | io => "io"
  | loop => "loop"

def ofTag? (s : String) : Option Code := all.find? fun c => c.tag = s

def ofKind : Kind → Code
  | .notFound => notFound
  | .alreadyExists => alreadyExists
  | .notADirectory => notADirectory
  | .isADirectory => isADirectory
  | .directoryNotEmpty => directoryNotEmpty
  | .unsupported => unsupported
  | .invalidInput => invalidArgument
  | .resourceBusy => busy
  | _ => io

/-- The kind under which a store would report the code. -/
def kind : Code → Kind
  | notFound => .notFound
  | alreadyExists => .alreadyExists
  | notADirectory => .notADirectory
  | isADirectory => .isADirectory
  | directoryNotEmpty => .directoryNotEmpty
  | unsupported => .unsupported
  | invalidArgument => .invalidInput
  | busy => .resourceBusy
  | io | loop => .other

@[simp] theorem ofTag?_tag (c : Code) : ofTag? c.tag = some c := by
  cases c <;> decide

/-- Only the code for loops is lost on the way through a kind. -/
theorem ofKind_kind (c : Code) : ofKind c.kind = if c = loop then io else c := by
  cases c <;> rfl

end Code

/-- Why an operation on the namespace failed. -/
inductive Error where
  | path (fault : Path.Fault)
  | notFound (path : Path)
  | alreadyExists (path : Path)
  | notADirectory (path : Path)
  /-- Something other than a directory was needed at the path. -/
  | isADirectory (path : Path)
  /-- The path was to be opened without following and is a link. -/
  | isLink (path : Path)
  /-- Reading the path took more substitutions than allowed. -/
  | tooManyLinks (path : Path) (limit : Nat)
  /-- The descriptor is not open for reading. -/
  | notReadable (path : Path)
  /-- The descriptor is not open for writing. -/
  | notWritable (path : Path)
  /-- The position is before the start or past the last offset. -/
  | badSeek (path : Path) (target : Int)
  | rootRemoval
  /-- The root can be neither renamed nor replaced. -/
  | rootRename
  /-- A directory cannot be moved below itself. -/
  | intoItself (source target : Path)
  /-- A link target is empty or has a NUL in it. -/
  | badTarget (target : String)
  | notLink (path : Path)
  | hardLink (old new : String)
  | storage (cause : StorageError)
  | stated (code : Code) (text : String)
  deriving DecidableEq

namespace Error

def code : Error → Code
  | notFound _ => .notFound
  | alreadyExists _ => .alreadyExists
  | notADirectory _ => .notADirectory
  | isADirectory _ => .isADirectory
  | isLink _ | tooManyLinks _ _ => .loop
  | path _ | notReadable _ | notWritable _ | badSeek _ _ | intoItself _ _ | badTarget _ | notLink _ =>
    .invalidArgument
  | rootRemoval | rootRename => .busy
  | hardLink _ _ => .unsupported
  | storage e => .ofKind e.kind
  | stated c _ => c

/-- A failure in words, without its class. -/
def message : Error → String
  | path f => f.message
  | notFound p | alreadyExists p | notADirectory p | isADirectory p => p.display
  | isLink p => p.display ++ ": is a symbolic link"
  | tooManyLinks p limit => p.display ++ ": more than " ++ toString limit ++ " symlink substitutions"
  | notReadable p => p.display ++ ": not open for reading"
  | notWritable p => p.display ++ ": not open for writing"
  | badSeek p target => p.display ++ ": seek to " ++ toString target
  | rootRemoval => "cannot remove the root directory"
  | rootRename => "cannot rename the root directory"
  | intoItself s t => "cannot move " ++ s.display ++ " into itself (" ++ t.display ++ ")"
  | badTarget t => "bad symlink target " ++ Text.quoted t
  | notLink p => p.display ++ ": not a symbolic link"
  | hardLink old new => "hard links are not supported (" ++ old ++ " -> " ++ new ++ ")"
  | storage e => e.message
  | stated _ text => text

/-- A failure as it is shown: its class in words, then its text. -/
def display (e : Error) : String := e.code.words ++ ": " ++ e.message

/-- The failure as a store would report it. -/
def toStorage (e : Error) : StorageError := .stated e.code.kind e.message

/-- The text survives the way through a store. -/
@[simp] theorem message_storage_toStorage (e : Error) : (storage e.toStorage).message = e.message := rfl

end Error

end Filespace
