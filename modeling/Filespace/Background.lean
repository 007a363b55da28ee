import Filespace.Error

/-!
# Background work

Work that nobody waits for is queued and done later in the order of submission. Each job has a number and a
label; while reports are wanted, the outcome of every job that is submitted is kept as a `Report`. A failure
reaches nobody but the reports.

A job stays in the queue as long as it is not ready. The queue does not know what a job is: `run` is given
how to tell whether it is ready and how to do it.
-/

namespace Filespace

open Storage (StorageError)

/-- How a job ended. -/
structure Report where
  id : Nat
  label : String
  outcome : Except Error Unit

def Report.succeeded (r : Report) : Bool := r.outcome.isOk

/-- A job in the queue. -/
structure Job (ω : Type) where
  /-- Its number, from one on. -/
  id : Nat
  label : String
  reported : Bool
  work : ω

/-- The queue and the reports. -/
structure Background (ω : Type) where
  nextId : Nat := 1
  /-- Are reports wanted of jobs from now on? -/
  hook : Bool := false
  /-- Jobs that are not done, first submitted first. -/
  queue : List (Job ω) := []
  /-- Reports that nobody has taken, last first. -/
  reports : List Report := []

namespace Background

variable {ω σ : Type}

instance : Inhabited (Background ω) := ⟨{}⟩

/-- Queues a job and gives its number. -/
def submit (b : Background ω) (label : String) (work : ω) : Nat × Background ω :=
  (b.nextId, { b with
    nextId := b.nextId + 1
    queue := b.queue ++ [⟨b.nextId, label, b.hook, work⟩] })

/-- The number of jobs that are not done. -/
def pending (b : Background ω) : Nat := b.queue.length

def finish (b : Background ω) (t : Job ω) (outcome : Except StorageError Unit) : Background ω :=
  if t.reported then { b with reports := ⟨t.id, t.label, outcome.mapError .storage⟩ :: b.reports } else b

/-- Does the given jobs in turn. Those that are not ready stay in the queue. -/
def runJobs (ready : ω → Bool) (exec : ω → σ → Except StorageError Unit × σ) :
    List (Job ω) → Background ω → σ → Background ω × σ
  | [], b, s => (b, s)
  | t :: ts, b, s =>
    if ready t.work then
      let (outcome, s) := exec t.work s
      runJobs ready exec ts (b.finish t outcome) s
    else runJobs ready exec ts { b with queue := b.queue ++ [t] } s

/-- Does the first `n` jobs of the queue that are ready to be done. -/
def run (ready : ω → Bool) (exec : ω → σ → Except StorageError Unit × σ) (n : Nat) (b : Background ω)
    (s : σ) : Background ω × σ :=
  let (b', s) := runJobs ready exec (b.queue.take n) { b with queue := [] } s
  ({ b' with queue := b'.queue ++ b.queue.drop n }, s)

/-- The reports so far in order of their numbers, which are then forgotten. -/
def takeReports (b : Background ω) : List Report × Background ω :=
  (b.reports.mergeSort (fun r s => r.id ≤ s.id), { b with reports := [] })

def describe (b : Background ω) : String :=
  "Background \x7b pending: " ++ toString b.pending ++ ", hook: " ++ toString b.hook ++ " \x7d"

end Background

end Filespace
