import Filespace.Storage.Copy

/-!
# Sessions on a store

A `Session` is a store together with the handles that are open on it, by name, and a `Step` is one call on
either. A run of steps is the most general use that a store can be put to, so what holds after every run holds
whoever uses the store.
-/

namespace Filespace.Storage

/-- A call on an open handle. -/
inductive HandleStep where
  | read (pos length : Nat)
  | write (pos : Nat) (data : Bytes)
  | truncate (length : Nat)
  | flush
  | size
  | readAll
  | readExactAt (length offset : Nat)
  | writeAllAt (data : Bytes) (offset : Nat)
  | close
  | release
  deriving DecidableEq

/-- A call on a store or on one of its handles. -/
inductive Step where
  | directory (path : Path) (create : Bool)
  | file (path : Path) (create : Bool)
  /-- Opens a handle under a name, in place of the one that had it. -/
  | openHandle (path : Path) (name : String)
  | remove (path : Path) (recursive : Bool)
  | move (source target : Path)
  | copy (source target : Path)
  | list (path : Path)
  | entry (path : Path)
  | writeAt (path : Path) (offset : Nat) (data : Bytes)
  | onHandle (name : String) (step : HandleStep)
  deriving DecidableEq

/-- What a step gives. -/
inductive Answer where
  | done
  | number (n : Nat)
  | bytes (b : Bytes)
  | entry (path : Path) (found : Option Stat)
  | entries (children : List (Name × Stat))
  deriving DecidableEq

/-- Why a step gives nothing. -/
inductive Refusal where
  /-- No handle has that name. -/
  | unknownHandle
  | failed (e : StorageError)
  deriving DecidableEq

/-- A store and its open handles. -/
structure Session (φ : Type) [FileStore φ] where
  world : Host × φ
  handles : Table String (FileStore.Handle φ) := ∅

namespace Session

variable {φ : Type} [FileStore φ]

def call {α : Type} (s : Session φ) (x : StoreM (Host × φ) α) : Except Refusal α × Session φ :=
  let (r, w) := x s.world
  (r.mapError .failed, { s with world := w })

/-- Names a handle. The handle that had the name is released. -/
def keep (s : Session φ) (name : String) (h : FileStore.Handle φ) : Session φ :=
  let world := match s.handles.get? name with
    | some old => FileStore.release old s.world
    | none => s.world
  { s with world := world, handles := s.handles.insert name h }

def forget (s : Session φ) (name : String) : Session φ := { s with handles := s.handles.erase name }

end Session

section Runs

variable {φ : Type} [FileStore φ]

def HandleStep.run (h : FileStore.Handle φ) : HandleStep → StoreM (Host × φ) Answer
  | read pos length => do return .bytes (← FileStore.read h pos length)
  | write pos data => do return .number (← FileStore.write h pos data)
  | truncate length => do
    FileStore.truncate h length
    return .done
  | flush => do
    FileStore.flush h
    return .done
  | size => do return .number (← FileStore.size h)
  | readAll => do return .bytes (← (FileStore.channel h).readAll)
  | readExactAt length offset => do return .bytes (← (FileStore.channel h).readExactAt length offset)
  | writeAllAt data offset => do return .number (← (FileStore.channel h).writeAllAt data offset)
  | close => do
    FileStore.close h
    return .done
  | release => do
    modify (FileStore.release h)
    return .done

/-- Does a step end the life of its handle? -/
def HandleStep.ends : HandleStep → Bool
  | close | release => true
  | _ => false

/-- The call of a step on the store itself. -/
def Step.run : Step → Session φ → Except Refusal Answer × Session φ
  | directory p create, s => s.call do
    FileStore.directory p create
    return .done
  | file p create, s => s.call do
    FileStore.file p create
    return .done
  | openHandle p name, s => match s.call (FileStore.openHandle p) with
    | (.error e, s) => (.error e, s)
    | (.ok h, s) => (.ok .done, s.keep name h)
  | remove p recursive, s => s.call do
    FileStore.remove p recursive
    return .done
  | move source target, s => s.call do
    FileStore.move source target
    return .done
  | copy source target, s => s.call do
    FileStore.copy source target
    return .done
  | list p, s => s.call do return .entries (← FileStore.list p)
  | entry p, s => s.call do return .entry p (← FileStore.entry p)
  | writeAt p offset data, s => s.call do return .number (← FileStore.writeAt p offset data)
  | onHandle name step, s => match s.handles.get? name with
    | none => (.error .unknownHandle, s)
    | some h => (if step.ends then s.forget name else s).call (step.run h)

end Runs

end Filespace.Storage
