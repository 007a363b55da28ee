import Filespace.Shell.Command
import Filespace.Text.Utf8
import Filespace.Vfs.Namespace

/-!
# The shell

A `Shell` is a namespace and whether its user is done. `Shell.process` does what a line asks for and gives
what is to be shown, if anything.
-/

namespace Filespace

open Storage (FileStore)

/-- The state of a shell. -/
structure Shell (φ μ : Type) [FileStore φ] where
  space : Vfs φ μ
  done : Bool := false

namespace Shell

variable {φ μ α : Type} [FileStore φ]

/-- What is shown before a line is typed. -/
def prompt (s : Shell φ μ) : String := "syncvfs:" ++ s.space.workingDirectory.display ++ "> "

/-- The commands, as they are explained. -/
def helpText : String := "\n".intercalate
  ["syncvfs: interactive virtual filesystem",
   "",
   "Commands:",
   "  ls [PATH]             List a directory (dir/, link@)",
   "  cat PATH              Print a file",
   "  write PATH TEXT       Replace a file's content with TEXT",
   "  append PATH TEXT      Append TEXT to a file",
   "  touch PATH            Create an empty file (and parents)",
   "  truncate PATH LEN     Resize a file",
   "  mkdir [-p] PATH       Create a directory",
   "  rmdir PATH            Remove an empty directory",
   "  rm PATH               Remove a file or symlink",
   "  mv FROM TO            Rename a file, directory or symlink",
   "  ln -s TARGET LINK     Create a symbolic link",
   "  readlink PATH         Print a symlink's target",
   "  stat [-L] PATH        Describe an entry (-L follows symlinks)",
   "  cd [PATH]             Change the working directory",
   "  pwd                   Print the working directory",
   "  sync                  Wait for background writes to finish",
   "",
   "Meta:",
   "  /help                 Show this help",
   "  /status               Show cache and background state",
   "  /quit                 Exit"]

/-- The state of the namespace in words. -/
def statusText (v : Vfs φ μ) : String := "\n".intercalate
  ["cwd: " ++ v.workingDirectory.display,
   "cold path: " ++ v.coldPath.describe,
   "cached handles: " ++ toString v.handles.size,
   "symlinks: " ++ toString v.links.size,
   "background pending: " ++ toString v.background.pending]

/-- An entry of a listing as it is shown. -/
def entryText (e : DirEntry) : String :=
  match e.kind with
  | .directory => e.name ++ "/"
  | .link => e.name ++ "@"
  | .file => e.name

def statText (path : String) : Entry → String
  | .directory => path ++ ": directory"
  | .file size modified => path ++ ": file, " ++ toString size ++ " bytes, mtime " ++ toString modified ++ "ms"
  | .link target => path ++ ": symlink -> " ++ target

/-- How much is read at once when a file is shown. -/
def chunk : Nat := 64 * 1024

variable [LinkMap μ]

/-- The rest of a file, read in at most `rounds` chunks. -/
def readRest : (rounds : Nat) → Descriptor → VfsM φ μ Bytes
  | 0, _ => return []
  | rounds + 1, d => do
    let ((data, ended), d) ← Vfs.readStream d chunk
    if ended ∨ data.isEmpty then return data else return data ++ (← readRest rounds d)

/-- The content of a file. No file has more chunks than positions. -/
def contentOf (path : String) : VfsM φ μ Bytes := do
  readRest (Bytes.offsetLimit / chunk + 1) (← Vfs.openAt none path {})

/-- Makes a directory and those that lead to it. One that is there already is no failure. -/
def makeDirectories (path : String) : VfsM φ μ Unit := do
  match ← Vfs.attempt (Vfs.openAt none path { Flags.directoryOnly with create := true }) with
  | .ok _ => return
  | .error e => match ← Vfs.attempt (Vfs.statAt none path true) with
    | .ok .directory => return
    | _ => throw e

def writeLine (path text : String) (append : Bool) : VfsM φ μ Unit := do
  let flags := if append then { Flags.createFile with append := true } else { Flags.createFile with truncate := true }
  let d ← Vfs.openAt none path flags
  let _ ← Vfs.writeStream d (Text.utf8 text ++ [10])

/-- Does what a command asks of the namespace. -/
def perform : Command → VfsM φ μ (Option String)
  | .nothing | .quit => return none
  | .help => return some helpText
  | .status => return some (statusText (← get))
  | .list path => do
    let entries ← Vfs.readDirectoryAt none path
    return if entries.isEmpty then none else some ("\n".intercalate (entries.map entryText))
  | .print path => return some (Text.decoded (← contentOf path))
  | .write path text append => do
    writeLine path text append
    return none
  | .touch path => do
    let _ ← Vfs.openAt none path .createFile
    return none
  | .truncate path length => do
    Vfs.setSize (← Vfs.openAt none path .readWrite) length
    return none
  | .makeDirectory path parents => do
    if parents then makeDirectories path else Vfs.createDirectoryAt none path
    return none
  | .removeDirectory path => do
    Vfs.removeDirectoryAt none path
    return none
  | .remove path => do
    Vfs.unlinkAt none path
    return none
  | .move source target => do
    Vfs.renameAt none source none target
    return none
  | .link target path => do
    Vfs.symlinkAt none target path
    return none
  | .hardLink source target => do
    Vfs.linkAt source target
    return none
  | .readLink path => return some (← Vfs.readlinkAt none path)
  | .stat path follow => return some (statText path (← Vfs.statAt none path follow))
  | .goTo path => do
    Vfs.setWorkingDirectory path
    return none
  | .whereAmI => return some (← get).workingDirectory.display
  | .flush => do
    let pending := (← get).background.pending
    Vfs.waitIdle
    return some (toString pending ++ " background task(s) flushed")
  | .unknown word => return some ("Unknown command: " ++ word ++ "\nType /help for available commands.")

def process (line : String) (s : Shell φ μ) : Except ShellError (Option String) × Shell φ μ :=
  match Command.ofLine line with
  | .error e => (.error e, s)
  | .ok command =>
    let (r, v) := perform command s.space
    (r.mapError .space, { space := v, done := s.done || command = .quit })

end Shell

end Filespace
