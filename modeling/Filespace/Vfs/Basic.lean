import Filespace.Background
import Filespace.Descriptor
import Filespace.Detached
import Filespace.Handles
import Filespace.Listing
import Filespace.Options
import Filespace.Resolver

/-!
# The namespace

`Vfs` puts a store and a map of link records together to one namespace of directories, files and links. Every
operation runs in `VfsM`: it changes the state and gives a value or fails with an `Error`, and a failure
keeps the state that was reached.

Design points:

* what is at a path is asked of the links first and of the store otherwise; nothing else decides it;
* warm handles, remembered listings and remembered sizes are caches, and whatever changes an entry drops
  what they hold of it;
* background work waits in a queue. Whoever makes a request of the store waits in line behind it, so the
  jobs that are due are done first. How many are due is decided by `pace`; by default it is all of them.
-/

namespace Filespace

open Storage (FileStore StorageError StoreM Stat)

/-- Work that is done in the background. -/
inductive Work where
  | link (job : LinkJob)
  /-- A write to a file, unless its generation has passed. -/
  | write (path : Path) (generation offset : Nat) (data : Bytes)
  deriving DecidableEq

/-- The size and time of a file as this namespace last saw them. -/
structure FileMeta where
  size : Nat
  /-- The time of the last change. -/
  modified : Nat
  deriving DecidableEq, Inhabited

/-- What lies behind a namespace: the host, the store and the link records. -/
structure World (φ μ : Type) where
  host : Host
  files : φ
  map : μ

/-- A namespace over a store `φ` and link records `μ`. -/
structure Vfs (φ μ : Type) [FileStore φ] where
  world : World φ μ
  links : Links := {}
  handles : Handles φ := ∅
  resolver : Resolver := {}
  listings : Listings
  sizes : Table Path FileMeta := ∅
  detached : Detached := {}
  coldPath : ColdPath := .acquire
  background : Background Work := {}
  /-- How many jobs are due at each of the next requests; when nothing is said, all are. -/
  pace : List Nat := []

/-- An operation on a namespace. -/
abbrev VfsM (φ μ : Type) [FileStore φ] (α : Type) : Type := ExceptT Error (StateM (Vfs φ μ)) α

namespace Vfs

variable {φ μ α : Type} [FileStore φ]

def now (v : Vfs φ μ) : Nat := v.world.host.clock

/-! ### The store -/

def onFiles (x : StoreM (Host × φ) α) : VfsM φ μ α := fun v =>
  let (r, s) := x (v.world.host, v.world.files)
  (r.mapError .storage, { v with world := { v.world with host := s.1, files := s.2 } })

/-- Takes a settled result. -/
def settle (r : Except StorageError α) : VfsM φ μ α := fun v => (r.mapError .storage, v)

/-- The result of an operation as a value. -/
def attempt (x : VfsM φ μ α) : VfsM φ μ (Except Error α) := fun v =>
  let (r, v) := x v
  (.ok r, v)

section Jobs

variable [LinkMap μ]

def perform (w : Work) (s : World φ μ × Detached) : Except StorageError Unit × (World φ μ × Detached) :=
  let (world, detached) := s
  match w with
  | .link job =>
    let (r, t) := job.run (world.host, world.map)
    (r, ({ world with host := t.1, map := t.2 }, detached))
  | .write p generation offset data =>
    if detached.isCurrent p generation then
      let (r, t) := (do
        FileStore.file p false
        let _ ← FileStore.writeAt p offset data : StoreM (Host × φ) Unit) (world.host, world.files)
      (r, ({ world with host := t.1, files := t.2 }, detached.finish p))
    else (.ok (), (world, detached.finish p))

/-- Does the first `n` jobs of the queue. -/
def runJobs (n : Nat) (v : Vfs φ μ) : Vfs φ μ :=
  let (b, s) := v.background.run (fun _ => true) perform n (v.world, v.detached)
  { v with background := b, world := s.1, detached := s.2 }

/-- Does all jobs of the queue. -/
def drain (v : Vfs φ μ) : Vfs φ μ := v.runJobs v.background.pending

/-- Does the jobs that are due. -/
def runDue (v : Vfs φ μ) : Vfs φ μ :=
  match v.pace with
  | [] => v.drain
  | n :: rest => { v.runJobs n with pace := rest }

def waitIdle : VfsM φ μ Unit := modify drain

/-- Makes a request of the store, after the jobs that are due. -/
def call (r : Request) : VfsM φ μ (Reply (FileStore.Handle φ)) := do
  modify runDue
  onFiles r.execute

end Jobs

/-! ### Background work -/

def submit (label : String) (w : Work) : VfsM φ μ Unit :=
  modify fun v => { v with background := (v.background.submit label w).2 }

/-- Takes changed links and queues the jobs of the change. -/
def setLinks (l : Links) (jobs : List LinkJob) : VfsM φ μ Unit := do
  modify fun v => { v with links := l }
  jobs.forM fun job => submit job.label (.link job)

/-! ### Caches -/

def clearListings : VfsM φ μ Unit := modify fun v => { v with listings := v.listings.clear }

/-- Remembers the size of a file, as of now. -/
def noteSize (p : Path) (size : Nat) : VfsM φ μ Unit :=
  modify fun v => { v with sizes := v.sizes.insert p ⟨size, v.now⟩ }

/-- Drops everything held of the entries at and below a path. -/
def forget (p : Path) : VfsM φ μ Unit :=
  modify fun v =>
    let (_, handles, s) := v.handles.releaseUnder p (v.world.host, v.world.files)
    { v with
      handles := handles
      world := { v.world with host := s.1, files := s.2 }
      sizes := v.sizes.filter fun q _ => !q.under p
      detached := v.detached.invalidateUnder p }

/-! ### Finding entries -/

/-- Reads a text as a path, from a directory if one is given, and replaces links on the way. -/
def resolve (base : Option Descriptor) (raw : String) (follow : Bool) : VfsM φ μ Path := do
  if let some d := base then
    if ¬ d.isDirectory then throw (.notADirectory d.path)
  let v ← get
  match v.resolver.relative (base.map Descriptor.path) raw with
  | .error f => throw (.path f)
  | .ok p => match v.resolver.resolveLinks v.links p follow with
    | .error e => throw e
    | .ok q => return q

section Lookup

variable [LinkMap μ]

/-- What is at a path. A warm handle knows the length of its file best. -/
def lookup (p : Path) : VfsM φ μ (Option Entry) := do
  match (← get).links.get? p with
  | some target => return some (.link target)
  | none =>
    if p.isRoot then return some .directory
    else
      let reply ← call (.entry p)
      match ← settle reply.toEntry with
      | none => return none
      | some .directory => return some .directory
      | some (.file size modified) => match (← get).handles.get? p with
        | some h => return some (.file (← onFiles (FileStore.size h)) modified)
        | none => return some (.file size modified)

/-- What is at a path where something must be. -/
def requireEntry (p : Path) : VfsM φ μ Entry := do
  match ← lookup p with
  | some e => return e
  | none => throw (.notFound p)

/-- The parent of a path must be a directory. -/
def requireParent (p : Path) : VfsM φ μ Unit := do
  match p.parent? with
  | none => return
  | some parent => match ← lookup parent with
    | some .directory => return
    | some _ => throw (.notADirectory parent)
    | none => throw (.notFound parent)

end Lookup

/-! ### What can be seen from outside -/

def workingDirectory (v : Vfs φ μ) : Path := v.resolver.workingDirectory

def isWarm (v : Vfs φ μ) (p : Path) : Bool := v.handles.contains p

def knownSize? (v : Vfs φ μ) (p : Path) : Option FileMeta := v.sizes.get? p

def describe (v : Vfs φ μ) : String :=
  "Vfs \x7b cwd: VfsPath(" ++ Text.quoted v.workingDirectory.str ++ "), cold_path: " ++ v.coldPath.describe
    ++ ", handles: " ++ toString v.handles.size ++ ", symlinks: " ++ toString v.links.size
    ++ ", bridge: Bridge \x7b running: true, tasks: " ++ toString v.background.pending ++ " \x7d \x7d"

end Vfs

end Filespace
