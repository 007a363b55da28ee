import Filespace.Path
import Filespace.Host.Errno

/-!
# Failures of a store

A `StorageError` is the cause of a failed store call: what the store found in the way, what the host said,
or what happened to the request on its way. Its kind and its text follow from the cause.
-/

namespace Filespace.Storage

/-- Why a call on a store, on a map of links or on the helper in front of them failed. -/
inductive StorageError where
  | notFound (path : Path)
  /-- A directory was needed where something else is, shown as the store names it. -/
  | notADirectory (shown : String)
  /-- A file was needed where a directory is. -/
  | isADirectory (path : Path)
  /-- A file was needed and the root was named. -/
  | rootIsDirectory
  | alreadyExists (path : Path)
  /-- A directory to be removed alone has entries. -/
  | notEmpty (path : Path)
  | inUse (path : Path)
  | rootRemoval
  /-- The root can be neither moved nor replaced. -/
  | rootMove
  /-- A directory cannot be moved below itself. -/
  | intoItself (path : Path)
  /-- The store has no move of its own between two directories. -/
  | noNativeMove
  /-- A write would end past the last offset. -/
  | overflow (length offset : Nat)
  /-- A file would grow past the limit of the store. -/
  | tooLarge (path : Path) (length : Nat)
  | acceptedNothing
  | host (errno : Host.Errno)
  | nulInHostPath
  | notText
  /-- The map of link records is switched off. -/
  | mapUnavailable
  /-- The document of link records cannot be read. -/
  | badDocument
  | dropped
  | unfinished
  | closed
  /-- A caller asked again before its last request was answered. -/
  | outstanding (id : Nat)
  | mismatch (got expected : String)
  | stated (kind : Kind) (text : String)
  | bare (kind : Kind)
  deriving DecidableEq

namespace StorageError

def kind : StorageError → Kind
  | notFound _ => .notFound
  | notADirectory _ => .notADirectory
  | isADirectory _ | rootIsDirectory => .isADirectory
  | alreadyExists _ => .alreadyExists
  | notEmpty _ => .directoryNotEmpty
  | inUse _ | outstanding _ => .resourceBusy
  | rootRemoval | rootMove | intoItself _ | overflow _ _ | tooLarge _ _ | nulInHostPath => .invalidInput
  | noNativeMove => .unsupported
  | acceptedNothing => .writeZero
  | host e => e.kind
  | mapUnavailable => .other
  | badDocument | notText | mismatch _ _ => .invalidData
  | dropped | unfinished | closed => .brokenPipe
  | stated k _ | bare k => k

def message : StorageError → String
  | notFound p => "not found: " ++ p.display
  | notADirectory s => "not a directory: " ++ s
  | isADirectory p => "is a directory: " ++ p.display
  | rootIsDirectory => "the root is a directory"
  | alreadyExists p => "already exists: " ++ p.display
  | notEmpty p => "directory not empty: " ++ p.display
  | inUse p => "entry has an open handle: " ++ p.display
  | rootRemoval => "cannot remove the root directory"
  | rootMove => "cannot move the root directory"
  | intoItself p => "cannot move " ++ p.display ++ " into itself"
  | noNativeMove => "no native move across directories"
  | overflow n at' => "write of " ++ toString n ++ " bytes at offset " ++ toString at' ++ " overflows"
  | tooLarge p n => "file too large: " ++ p.display ++ " would reach " ++ toString n ++ " bytes"
  | acceptedNothing => "backing store accepted no bytes"
  | host e => e.message
  | notText => "stream did not contain valid UTF-8"
  | nulInHostPath => "file name contained an unexpected NUL byte"
  | mapUnavailable => "symlink map unavailable"
  | badDocument => "malformed link document"
  | dropped => "helper dropped the request without answering"
  | unfinished => "helper stopped before the task finished"
  | closed => "helper context has shut down"
  | outstanding id => "bridge request " ++ toString id ++ " still outstanding"
  | mismatch got expected => "bridge returned " ++ got ++ " where " ++ expected ++ " was expected"
  | stated _ text => text
  | bare k => k.describe

end StorageError

end Filespace.Storage
