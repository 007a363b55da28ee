import Filespace.Storage.Error

/-!
# Callers and the helper

One helper serves a store for any number of callers. A caller puts a request with a fresh number on a bounded
queue and waits on its own reply slot; the helper takes requests in the order of arrival, one at a time, and
puts each outcome into the slot of its caller. A slot takes only the outcome that its caller waits for. A
request that the helper drops is answered with a failure, so nobody waits for ever.

Each thing that a caller or the helper does in one go is a function on the state of all callers, the queue and
the store: a caller issues a request (`submit`), gets it into the queue (`enter`) or finds the queue closed
(`refuse`), and takes the reply (`collect`); the helper takes a request (`take`), does its work (`work`), and
answers (`answer`), or drops it (`lose`, `abandon`). Any order of these is a run. `call` is the run of a lone
caller.
-/

namespace Filespace

open Storage (StorageError)

namespace Bridge

variable {σ ρ α : Type}

/-- The outcome of a request. -/
abbrev Outcome (α : Type) := Except StorageError α

/-- Where a caller finds its reply. -/
structure Slot (α : Type) where
  /-- The number of the request that the caller waits for. -/
  awaiting : Option Nat := none
  /-- The reply, with the number of the request it answers. -/
  response : Option (Nat × Outcome α) := none

/-- Puts an outcome into a slot, if it is the one waited for. -/
def Slot.deliver (s : Slot α) (id : Nat) (outcome : Outcome α) : Slot α :=
  if s.awaiting = some id then { s with response := some (id, outcome) } else s

/-- A request on its way. -/
structure Pending (ρ : Type) where
  client : Nat
  id : Nat
  request : ρ

/-- How far a caller has come with a call. -/
inductive Stage (ρ : Type) where
  | idle
  /-- Its request waits for room in the queue. -/
  | sending (p : Pending ρ)
  | waiting (id : Nat)

/-- A caller. -/
structure Client (ρ α : Type) where
  slot : Slot α := {}
  /-- The number of its last request. -/
  lastId : Nat := 0
  stage : Stage ρ := .idle

/-- The request that waits for room. -/
def Client.sent? (client : Client ρ α) : Option (Pending ρ) :=
  match client.stage with
  | .sending p => some p
  | _ => none

/-- A request in the hands of the helper, with its outcome when the work is done. -/
structure Service (ρ α : Type) where
  pending : Pending ρ
  outcome : Option (Outcome α) := none

end Bridge

/-- All callers, the queue between them and the helper, and the store behind it. -/
structure Bridge (σ ρ α : Type) where
  store : σ
  /-- The number of requests that fit in the queue. -/
  depth : Nat
  clients : List (Bridge.Client ρ α) := []
  /-- Requests on their way, first come first. -/
  queue : List (Bridge.Pending ρ) := []
  serving : Option (Bridge.Service ρ α) := none
  running : Bool := true

namespace Bridge

variable {σ ρ α : Type}

/-- A helper for a store. A queue holds at least one request. -/
def start (store : σ) (depth : Nat) : Bridge σ ρ α := { store := store, depth := max depth 1 }

def connect (b : Bridge σ ρ α) : Except StorageError (Nat × Bridge σ ρ α) :=
  if b.running then .ok (b.clients.length, { b with clients := b.clients ++ [{}] }) else .error .closed

def updateClient (b : Bridge σ ρ α) (c : Nat) (f : Client ρ α → Client ρ α) : Bridge σ ρ α :=
  { b with clients := b.clients.modify c f }

def hasRoom (b : Bridge σ ρ α) : Bool := b.queue.length < b.depth

/-- The request of a caller that waits for room. -/
def sent? (b : Bridge σ ρ α) (c : Nat) : Option (Pending ρ) := b.clients[c]?.bind Client.sent?

/-! ### What a caller does -/

/-- A caller issues a request. It must not wait for another. -/
def submit (b : Bridge σ ρ α) (c : Nat) (request : ρ) : Except StorageError (Pending ρ) × Bridge σ ρ α :=
  match b.clients[c]? with
  | none => (.error .closed, b)
  | some client =>
    let p : Pending ρ := ⟨c, client.lastId + 1, request⟩
    match client.slot.awaiting with
    | some other => (.error (.outstanding other), b.updateClient c fun cl => { cl with lastId := p.id })
    | none => (.ok p, b.updateClient c fun _ => ⟨⟨some p.id, none⟩, p.id, .sending p⟩)

/-- The request enters the queue. The queue must be open, with room in it. -/
def enter (b : Bridge σ ρ α) (c : Nat) : Option (Pending ρ × Bridge σ ρ α) :=
  match b.sent? c with
  | some p =>
    if b.running && b.hasRoom then
      some (p, { b.updateClient c fun cl => { cl with stage := .waiting p.id } with queue := b.queue ++ [p] })
    else none
  | none => none

/-- The queue is closed, and the call ends. -/
def refuse (b : Bridge σ ρ α) (c : Nat) : Option (Pending ρ × Bridge σ ρ α) :=
  match b.sent? c with
  | some p => if b.running then none else some (p, b.updateClient c fun cl => { cl with slot := {}, stage := .idle })
  | none => none

/-- A caller looks into its slot. If the reply that it waits for is there, the call ends; any other is thrown away. -/
def collect (b : Bridge σ ρ α) (c : Nat) : Option (Outcome α) × Bridge σ ρ α :=
  match b.clients[c]? with
  | none => (none, b)
  | some client => match client.stage, client.slot.response with
    | .waiting id, some (answered, outcome) =>
      if answered = id then (some outcome, b.updateClient c fun cl => { cl with slot := {}, stage := .idle })
      else (none, b.updateClient c fun cl => { cl with slot := { cl.slot with response := none } })
    | _, _ => (none, b)

/-! ### What the helper does -/

def deliver (b : Bridge σ ρ α) (p : Pending ρ) (outcome : Outcome α) : Bridge σ ρ α :=
  b.updateClient p.client fun cl => { cl with slot := cl.slot.deliver p.id outcome }

/-- The helper takes the first request. -/
def take (b : Bridge σ ρ α) : Option (Pending ρ × Bridge σ ρ α) :=
  match b.serving, b.queue with
  | none, p :: rest => some (p, { b with serving := some ⟨p, none⟩, queue := rest })
  | _, _ => none

/-- The helper does the work of the request that it took. -/
def work (exec : ρ → σ → Outcome α × σ) (b : Bridge σ ρ α) : Option ((Pending ρ × Outcome α) × Bridge σ ρ α) :=
  match b.serving with
  | some ⟨p, none⟩ =>
    let (outcome, store) := exec p.request b.store
    some ((p, outcome), { b with store := store, serving := some ⟨p, some outcome⟩ })
  | _ => none

def answer (b : Bridge σ ρ α) : Option (Pending ρ × Bridge σ ρ α) :=
  match b.serving with
  | some ⟨p, some outcome⟩ => some (p, ({ b with serving := none }).deliver p outcome)
  | _ => none

/-- The helper drops the request at a place in the queue. -/
def lose (b : Bridge σ ρ α) (i : Nat) : Option (Pending ρ × Bridge σ ρ α) :=
  match b.queue[i]? with
  | some p => some (p, ({ b with queue := b.queue.eraseIdx i }).deliver p (.error .dropped))
  | none => none

/-- The helper drops the request that it took. -/
def abandon (b : Bridge σ ρ α) : Option (Pending ρ × Bridge σ ρ α) :=
  match b.serving with
  | some s => some (s.pending, ({ b with serving := none }).deliver s.pending (.error .dropped))
  | none => none

/-- The queue is closed. What is in it stays. -/
def close (b : Bridge σ ρ α) : Bridge σ ρ α := { b with running := false }

/-- The helper serves the first request. -/
def serve (exec : ρ → σ → Outcome α × σ) (b : Bridge σ ρ α) : Option (Bridge σ ρ α) := do
  let (_, b) ← b.take
  let (_, b) ← b.work exec
  let (_, b) ← b.answer
  return b

/-- The helper serves everything in the queue. -/
def serveAll (exec : ρ → σ → Outcome α × σ) (b : Bridge σ ρ α) : Bridge σ ρ α :=
  b.queue.length.repeat (fun b => (b.serve exec).getD b) b

/-- The helper serves what is in the queue and takes no more. -/
def shutdown (exec : ρ → σ → Outcome α × σ) (b : Bridge σ ρ α) : Bridge σ ρ α := b.close.serveAll exec

/-- A lone caller's request from start to end. -/
def call (exec : ρ → σ → Outcome α × σ) (b : Bridge σ ρ α) (c : Nat) (request : ρ) :
    Outcome α × Bridge σ ρ α :=
  match b.submit c request with
  | (.error e, b) => (.error e, b)
  | (.ok _, b) =>
    let b := b.serveAll exec
    match b.refuse c, b.enter c with
    | some (_, b), _ => (.error .closed, b)
    | none, none => (.error .dropped, b)
    | none, some (_, b) => match (b.serveAll exec).collect c with
      | (some outcome, b) => (outcome, b)
      | (none, b) => (.error .dropped, b)

end Bridge

end Filespace
