import Filespace.Storage.Memory

/-!
# Stores that fail on demand

`Faulty φ` puts a plan of failures in front of a store. A call is looked up in the plan first, by its place
in the sequence of calls, its name and its path; a planned failure is reported without reaching the store,
and all other calls pass. Closing a handle is the exception: the handle is released in any case, and the
store's own failure is reported before a planned one.

A crash takes down whoever serves the store. The call at hand is never answered and later ones are refused.
-/

namespace Filespace.Storage

/-- The calls that a plan can name. -/
inductive Call where
  | directory | file | openHandle | remove | move | list | entry | writeAt
  | read | write | truncate | flush | size | close
  deriving DecidableEq, Inhabited

namespace Call

def all : List Call :=
  [directory, file, openHandle, remove, move, list, entry, writeAt, read, write, truncate, flush, size, close]

/-- The name of a call. Those on handles are marked. -/
def name : Call → String
  | directory => "directory"
  | file => "file"
  | openHandle => "open"
  | remove => "remove"
  | move => "move"
  | list => "list"
  | entry => "entry"
  | writeAt => "write_at"
  | read => "h_read"
  | write => "h_write"
  | truncate => "h_truncate"
  | flush => "h_flush"
  | size => "h_size"
  | close => "h_close"

def ofName? (s : String) : Option Call := all.find? fun c => c.name = s

end Call

/-- What a plan does to a call. -/
inductive Failure where
  | refuse (e : StorageError)
  | crash
  deriving DecidableEq

/-- A store behind a plan of failures. -/
structure Faulty (φ : Type) where
  inner : φ
  /-- What happens to the call with a given number, name and path. -/
  plan : Nat → Call → Path → Option Failure := fun _ _ _ => none
  calls : Nat := 0
  crashed : Bool := false

namespace Faulty

variable {φ α : Type}

instance [Inhabited φ] : Inhabited (Faulty φ) := ⟨{ inner := default }⟩

/-- A plan that depends on name and path only: the first rule for the call with a path at or above the
given one decides. -/
def always (rules : List (Call × Path × Failure)) : Nat → Call → Path → Option Failure :=
  fun _ call path => (rules.find? fun (c, p, _) => c = call ∧ path.under p).map fun r => r.2.2

/-- Runs a call of the store behind the plan. -/
def pass (x : StoreM (Host × φ) α) : StoreM (Host × Faulty φ) α :=
  .within (fun s => (s.1, s.2.inner)) (fun t s => (t.1, { s.2 with inner := t.2 })) x

def planned (call : Call) (path : Path) : StoreM (Host × Faulty φ) Unit := do
  let s ← get
  set (s.1, { s.2 with calls := s.2.calls + 1 })
  match s.2.plan s.2.calls call path with
  | none => pure ()
  | some (.refuse e) => throw e
  | some .crash => do
    modify fun s => (s.1, { s.2 with crashed := true })
    throw .dropped

/-- A call on the store: refused after a crash, then looked up in the plan, then passed on. -/
def served (call : Call) (path : Path) (x : StoreM (Host × φ) α) : StoreM (Host × Faulty φ) α := do
  if (← get).2.crashed then throw .closed
  else
    planned call path
    pass x

/-- A call on a handle, which needs no server. -/
def direct (call : Call) (path : Path) (x : StoreM (Host × φ) α) : StoreM (Host × Faulty φ) α := do
  planned call path
  pass x

instance [FileStore φ] : FileStore (Faulty φ) where
  Handle := Path × FileStore.Handle φ
  directory p create := served .directory p (FileStore.directory p create)
  file p create := served .file p (FileStore.file p create)
  openHandle p := served .openHandle p do return (p, ← FileStore.openHandle p)
  remove p recursive := served .remove p (FileStore.remove p recursive)
  move source target := served .move source (FileStore.move source target)
  list p := served .list p (FileStore.list p)
  entry p := served .entry p (FileStore.entry p)
  writeAt p offset data := served .writeAt p (FileStore.writeAt p offset data)
  read h pos length := direct .read h.1 (FileStore.read h.2 pos length)
  write h pos data := direct .write h.1 (FileStore.write h.2 pos data)
  truncate h length := direct .truncate h.1 (FileStore.truncate h.2 length)
  flush h := direct .flush h.1 (FileStore.flush h.2)
  size h := direct .size h.1 (FileStore.size h.2)
  close h := do
    pass (FileStore.close h.2)
    planned .close h.1
  release h s :=
    let t := FileStore.release h.2 (s.1, s.2.inner)
    (t.1, { s.2 with inner := t.2 })
  bound s := FileStore.bound (s.1, s.2.inner)

end Faulty

end Filespace.Storage
