import Filespace.Storage.Memory
import Filespace.Vfs.Namespace

/-!
# Starting and ending a namespace

A namespace is started over a store and link records: the links are loaded, and the working directory is made
if there is none. When it ends, its handles are released and its background work is done; what lies behind
it can then be used for another one.
-/

namespace Filespace

open Storage (FileStore StorageError Memory)

/-- Why a namespace could not be started. -/
inductive StartError where
  /-- The directory of the store could not be made. -/
  | storeRoot (location : String) (cause : StorageError)
  | linkRecords (cause : StorageError)
  | badWorkingDirectory (fault : Path.Fault)
  /-- The working directory could not be made. -/
  | workingDirectory (path : Path) (cause : Error)
  deriving DecidableEq

namespace StartError

/-- The failure and what caused it, outermost first. -/
def chain : StartError → List String
  | storeRoot l e => ["failed to create store root " ++ l, e.message]
  | linkRecords e => ["failed to load symlink records", e.message]
  | badWorkingDirectory f => [(Error.path f).display]
  | workingDirectory p e => ["failed to create working directory " ++ p.display, e.display]

def message (e : StartError) : String := e.chain.headD ""

/-- The class of the failure of the namespace behind it, if it is one. -/
def code? : StartError → Option Code
  | storeRoot _ _ | linkRecords _ => none
  | badWorkingDirectory f => some (Error.path f).code
  | workingDirectory _ e => some e.code

end StartError

namespace Vfs

variable {φ μ : Type} [FileStore φ] [LinkMap μ]

/-- A namespace with the given links, before it has a working directory. -/
def fresh (o : Options) (links : Links) (w : World φ μ) : Vfs φ μ :=
  { world := w
    links := links
    resolver := ⟨.root, o.maxLinkDepth⟩
    listings := ⟨o.cacheListings, ∅⟩
    coldPath := o.coldPath
    background := { hook := o.hook } }

/-- Goes to the working directory of the options. -/
def enter (raw : String) (v : Vfs φ μ) : Except StartError (Vfs φ μ) × World φ μ :=
  match Path.parse raw with
  | .error f => (.error (.badWorkingDirectory f), v.world)
  | .ok p =>
    if p.isRoot then (.ok v, v.world)
    else match call (.createDirectory p true) v with
      | (.error e, v) => (.error (.workingDirectory p e), v.world)
      | (.ok _, v) =>
        let v := { v with resolver := { v.resolver with workingDirectory := p } }
        (.ok v, v.world)

/-- Starts a namespace. What lies behind it is given back also when that fails. -/
def start (o : Options) (w : World φ μ) : Except StartError (Vfs φ μ) × World φ μ :=
  match LinkMap.load (w.host, w.map) with
  | (.error e, s) => (.error (.linkRecords e), { w with host := s.1, map := s.2 })
  | (.ok records, s) => enter o.workingDirectory (fresh o (.ofRecords records) { w with host := s.1, map := s.2 })

/-- Ends a namespace: handles are released and queued work is done. -/
def stop (v : Vfs φ μ) : World φ μ :=
  let s := v.handles.rows.foldl (fun s x => FileStore.release x.2 s) (v.world.host, v.world.files)
  (drain { v with handles := ∅, world := { v.world with host := s.1, files := s.2 } }).world

/-- An empty namespace in memory. -/
def inMemory : Vfs Memory Records := fresh {} {} ⟨{}, {}, {}⟩

end Vfs

end Filespace
