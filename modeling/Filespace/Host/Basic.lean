import Filespace.Content.Sparse
import Filespace.Host.Errno
import Filespace.Host.Location
import Filespace.Storage.Error

/-!
# The host's file tree

A `Host` is a tree of directories, files and symbolic links. A location is found by going through its pieces
from the root or the working directory; a link on the way is replaced by its target, at most forty times.
Whether a link at the very end is replaced too is up to the caller, unless slashes follow it: then only a
directory will do.

Design points:

* an entry is known by its `Path` from the root of the host, without dots or links: where it really is;
* a file has a serial number by which open handles know it, also after it was renamed or removed;
* going through a location (`Host.walk`) ends at an entry (`Spot.found`) or at a free name in an existing
  directory (`Spot.free`), which decides calls that look at entries or open them;
* calls that make, remove or rename an entry go to the directory it is in (`Host.placeOf`) and look only there.
-/

namespace Filespace

namespace Host

/-- The data of a file. -/
structure FileData where
  /-- The number that handles know the file by. -/
  serial : Nat
  content : Sparse
  /-- The time of the last change. -/
  modified : Nat
  deriving DecidableEq

/-- An entry of the tree. -/
inductive Node where
  | directory
  | file (data : FileData)
  | link (target : String)
  deriving DecidableEq

end Host

/-- The tree and what is open on it. -/
structure Host where
  /-- Every entry but the root, which is always a directory. -/
  nodes : Table Path Host.Node := ∅
  /-- Files that were removed but may still be open. -/
  removed : List Host.FileData := []
  workingDirectory : Path := Path.root
  nextSerial : Nat := 0
  clock : Nat := 0

namespace Host

instance : Inhabited Host := ⟨{}⟩

def node? (h : Host) (p : Path) : Option Node :=
  if p.isRoot then some .directory else h.nodes.get? p

/-- Where a location leads. -/
inductive Spot where
  | found (place : Path) (node : Node)
  /-- To a name that is free in an existing directory. -/
  | free (directory : Path) (name : Name)

/-- What a caller wants at the end of a location. -/
inductive Ending where
  /-- The entry itself, also if it is a link. -/
  | keep
  | follow
  /-- What links at the end lead to, or a file to be made there. -/
  | make
  deriving DecidableEq

/-- The way that a location describes. -/
structure Route where
  moves : List Path.Move
  /-- Do slashes follow the last one? -/
  slash : Bool

/-- The way of a location without NUL. -/
def Route.of (s : String) : Route :=
  let ps := pieces s.toList
  ⟨(ps.filter (· ≠ [])).filterMap Path.Move.ofPiece?, ps.getLast? = some []⟩

/-- Where going along without replacing links ends. -/
inductive Stop where
  | done (r : Except Errno Spot)
  /-- At a link in a directory, with moves left. -/
  | link (directory : Path) (target : String) (rest : List Path.Move)

def maxName : Nat := 255

/-- A location must be shorter than this in bytes. -/
def maxLocation : Nat := 4096

/-- The number of links that are replaced on the way. -/
def maxLinks : Nat := 40

/-- Is a name too long for an entry? -/
def isLong (n : Name) : Bool := n.text.utf8ByteSize > maxName

/-- Goes along up to a link that has to be replaced. No file is made where slashes follow its name, and nobody
looks whether there is one. -/
def go (h : Host) (ending : Ending) (slash : Bool) (here : Path) : List Path.Move → Stop
  | [] => .done (.ok (.found here .directory))
  | .stay :: ms => go h ending slash here ms
  | .up :: ms => go h ending slash (here.parent?.getD .root) ms
  | .down n :: ms =>
    let bare := ms.isEmpty && !slash
    if ms.isEmpty ∧ slash ∧ ending = .make then .done (.error .isDirectory)
    else if isLong n then .done (.error .nameTooLong)
    else match h.node? (here.child n) with
      | none => if bare then .done (.ok (.free here n)) else .done (.error .noEntry)
      | some .directory => go h ending slash (here.child n) ms
      | some (.link t) =>
        if bare ∧ ending = .keep then .done (.ok (.found (here.child n) (.link t))) else .link here t ms
      | some (.file f) =>
        if bare then .done (.ok (.found (here.child n) (.file f))) else .done (.error .notDirectory)

/-- Goes along, replacing at most `links` links. The slashes after the target of a link count only if it is
the last on the way. -/
def walk (h : Host) (ending : Ending) (links : Nat) (here : Path) (way : Route) : Except Errno Spot :=
  match go h ending way.slash here way.moves with
  | .done r => r
  | .link dir target rest => match links with
    | 0 => .error .loop
    | n + 1 =>
      let inner := Route.of target
      walk h ending n (if Location.isAbsolute target then .root else dir)
        ⟨inner.moves ++ rest, way.slash || (rest.isEmpty && inner.slash)⟩

/-- Refuses a location that no host knows. -/
def checkLocation (location : String) : Except Storage.StorageError Unit :=
  if location.toList.contains '\x00' then .error .nulInHostPath
  else if location.isEmpty then .error (.host .noEntry)
  else if location.utf8ByteSize ≥ maxLocation then .error (.host .nameTooLong)
  else .ok ()

def startOf (h : Host) (location : String) : Path :=
  if Location.isAbsolute location then .root else h.workingDirectory

def resolve (h : Host) (location : String) (ending : Ending) : Except Storage.StorageError Spot := do
  checkLocation location
  (walk h ending maxLinks (h.startOf location) (.of location)).mapError .host

/-- The place of an entry: the directory it is in, and the last move to it. -/
structure Place where
  directory : Path
  /-- The last move; the root has none. -/
  last : Option Path.Move
  slash : Bool

/-- The place that a location names. Links on the way to the directory are replaced. -/
def placeOf (h : Host) (location : String) : Except Storage.StorageError Place := do
  checkLocation location
  let way := Route.of location
  match (walk h .follow maxLinks (h.startOf location) ⟨way.moves.dropLast, true⟩).mapError .host with
  | .ok (.found p _) => return ⟨p, way.moves.getLast?, way.slash⟩
  | .ok (.free _ _) => throw (.host .noEntry)
  | .error e => throw e

def hasChildren (h : Host) (p : Path) : Bool := h.nodes.keys.any fun q => q.below p

end Host

end Filespace
