import Filespace.Storage.Copy

/-!
# Requests to a store

A `Request` is one unit of work for whoever serves the store, and a `Reply` is what comes back. Requests that
need a handle only for themselves open it, use it and close it again before they reply, also when the use
fails; a failed close is then the failure that is reported.
-/

namespace Filespace

open Storage (FileStore StorageError StoreM Stat)

/-- One unit of work. -/
inductive Request where
  | entry (path : Path)
  | list (path : Path)
  /-- Make a directory: with its parents, or at a free path in an existing directory. -/
  | createDirectory (path : Path) (parents : Bool)
  | createFile (path : Path)
  | openHandle (path : Path)
  | readAt (path : Path) (offset length : Nat)
  | writeAt (path : Path) (offset : Nat) (data : Bytes)
  /-- Give a file a new length through a handle of its own. -/
  | truncate (path : Path) (length : Nat)
  | remove (path : Path) (recursive : Bool)
  /-- Move an entry by the store's own means. -/
  | move (source target : Path)
  | copy (source target : Path)
  deriving DecidableEq

/-- What a request gives, with handles of type `η`. -/
inductive Reply (η : Type) where
  | done
  | entry (path : Path) (found : Option Stat)
  | entries (children : List (Name × Stat))
  | handle (h : η)
  | bytes (data : Bytes) (size : Nat)
  | size (n : Nat)

namespace Request

def name : Request → String
  | entry _ => "entry"
  | list _ => "list"
  | createDirectory _ _ => "create_directory"
  | createFile _ => "create_file"
  | openHandle _ => "open_handle"
  | readAt _ _ _ => "read_at"
  | writeAt _ _ _ => "write_at"
  | truncate _ _ => "truncate"
  | remove _ _ => "remove"
  | move _ _ => "move"
  | copy _ _ => "copy"

/-- The path that a request is about: the source of a move or a copy. -/
def path : Request → Path
  | entry p | list p | createDirectory p _ | createFile p | openHandle p | readAt p _ _ | writeAt p _ _
  | truncate p _ | remove p _ | move p _ | copy p _ => p

variable {φ : Type} [FileStore φ]

/-- Opens a handle, uses it and closes it. -/
def withHandle {α : Type} (p : Path) (use : FileStore.Handle φ → StoreM (Host × φ) α) :
    StoreM (Host × φ) α := do
  FileStore.file p false
  let handle ← FileStore.openHandle p
  let result ← (use handle).attempt
  FileStore.close handle
  StoreM.settle result

def execute : Request → StoreM (Host × φ) (Reply (FileStore.Handle φ))
  | entry p => do return .entry p (← FileStore.entry p)
  | list p => do
    FileStore.directory p false
    return .entries (← FileStore.list p)
  | createDirectory p parents => do
    if ¬ parents then
      if let some parent := p.parent? then FileStore.directory parent false
      if (← FileStore.entry p).isSome then throw (.alreadyExists p)
    FileStore.directory p true
    return .done
  | createFile p => do
    FileStore.file p true
    return .done
  | openHandle p => do
    FileStore.file p false
    return .handle (← FileStore.openHandle p)
  | readAt p offset length => withHandle p fun h => do
    let data ← (FileStore.channel h).readExactAt length offset
    return .bytes data (← FileStore.size h)
  | writeAt p offset data => do
    FileStore.file p false
    return .size (← FileStore.writeAt p offset data)
  | truncate p length => withHandle p fun h => do
    FileStore.truncate h length
    return .done
  | remove p recursive => do
    FileStore.remove p recursive
    return .done
  | move source target => do
    FileStore.move source target
    return .done
  | copy source target => do
    FileStore.copy source target
    return .done

end Request

namespace Reply

variable {η : Type}

/-! ### Replies in words -/

def describeStat (name : String) (s : Stat) : String :=
  let kind := match s with
    | .directory => "Directory"
    | .file n m => "File \x7b size: " ++ toString n ++ ", modified_ms: " ++ toString m ++ " \x7d"
  "StoreEntry \x7b name: " ++ Text.quoted name ++ ", kind: " ++ kind ++ " \x7d"

/-- A reply in words, as a report of a reply of the wrong form shows it. -/
def describe : Reply η → String
  | done => "Unit"
  | entry _ none => "Entry(None)"
  | entry p (some s) => "Entry(Some(" ++ describeStat ((p.name?.map Name.text).getD "") s ++ "))"
  | entries l => "Entries([" ++ ", ".intercalate (l.map fun (n, s) => describeStat n.text s) ++ "])"
  | handle _ => "Handle(..)"
  | bytes d n =>
    "Bytes \x7b data: [" ++ ", ".intercalate (d.map fun b => toString b.toNat) ++ "], size: " ++ toString n ++ " \x7d"
  | size n => "Size(" ++ toString n ++ ")"

/-! ### Replies of a known form -/

def toEntry : Reply η → Except StorageError (Option Stat)
  | entry _ s => .ok s
  | r => .error (.mismatch r.describe "an entry")

def toEntries : Reply η → Except StorageError (List (Name × Stat))
  | entries l => .ok l
  | r => .error (.mismatch r.describe "a listing")

def toHandle : Reply η → Except StorageError η
  | handle h => .ok h
  | r => .error (.mismatch r.describe "a handle")

/-- The bytes of a reply, with the length of the file. -/
def toBytes : Reply η → Except StorageError (Bytes × Nat)
  | bytes d n => .ok (d, n)
  | r => .error (.mismatch r.describe "bytes")

def toSize : Reply η → Except StorageError Nat
  | size n => .ok n
  | r => .error (.mismatch r.describe "a size")

end Reply

end Filespace
