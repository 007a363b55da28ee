import Filespace.Storage.Basic

/-!
# One of two stores

A store that is one of two kinds, decided when it is made. Every call goes to the kind at hand.
-/

namespace Filespace.Storage.Either

variable {φ ψ α β : Type}

/-- A call on whichever store there is. -/
def call (x : StoreM (Host × φ) α) (y : StoreM (Host × ψ) α) : StoreM (Host × (φ ⊕ ψ)) α := fun s =>
  match s.2 with
  | .inl a => let (r, t) := x (s.1, a); (r, (t.1, .inl t.2))
  | .inr b => let (r, t) := y (s.1, b); (r, (t.1, .inr t.2))

/-- A call with a handle, which belongs to one kind of store. -/
def callWith {H K : Type} (h : H ⊕ K) (x : H → StoreM (Host × φ) α) (y : K → StoreM (Host × ψ) α) :
    StoreM (Host × (φ ⊕ ψ)) α :=
  match h with
  | .inl a => call (x a) (throw .closed)
  | .inr b => call (throw .closed) (y b)

instance [FileStore φ] [FileStore ψ] : FileStore (φ ⊕ ψ) where
  Handle := FileStore.Handle φ ⊕ FileStore.Handle ψ
  directory p create := call (FileStore.directory p create) (FileStore.directory p create)
  file p create := call (FileStore.file p create) (FileStore.file p create)
  openHandle p := call (do return .inl (← FileStore.openHandle p)) (do return .inr (← FileStore.openHandle p))
  remove p recursive := call (FileStore.remove p recursive) (FileStore.remove p recursive)
  move source target := call (FileStore.move source target) (FileStore.move source target)
  list p := call (FileStore.list p) (FileStore.list p)
  entry p := call (FileStore.entry p) (FileStore.entry p)
  writeAt p offset data := call (FileStore.writeAt p offset data) (FileStore.writeAt p offset data)
  read h pos length := callWith h (FileStore.read · pos length) (FileStore.read · pos length)
  write h pos data := callWith h (FileStore.write · pos data) (FileStore.write · pos data)
  truncate h length := callWith h (FileStore.truncate · length) (FileStore.truncate · length)
  flush h := callWith h FileStore.flush FileStore.flush
  size h := callWith h FileStore.size FileStore.size
  close h := callWith h FileStore.close FileStore.close
  release h s := match h, s.2 with
    | .inl h, .inl a => let t := FileStore.release h (s.1, a); (t.1, .inl t.2)
    | .inr h, .inr b => let t := FileStore.release h (s.1, b); (t.1, .inr t.2)
    | _, _ => s
  bound s := match s.2 with
    | .inl a => FileStore.bound (s.1, a)
    | .inr b => FileStore.bound (s.1, b)

end Filespace.Storage.Either
