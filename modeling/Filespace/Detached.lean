import Filespace.Path

/-!
# Queued writes and their generations

A write that is queued for a path remembers the generation of the path. Whatever makes the queued writes of a
path meaningless (its removal, a move, a new length) raises the generation, and a write whose generation has
passed is left out when its turn comes. A path is known only while it has writes in the queue.
-/

namespace Filespace

/-- The queued writes of one path. -/
structure PathWrites where
  generation : Nat := 0
  pending : Nat := 0
  deriving DecidableEq, Inhabited

/-- The queued writes of all paths. -/
structure Detached where
  paths : Table Path PathWrites := ∅
  deriving DecidableEq

namespace Detached

instance : Inhabited Detached := ⟨{}⟩

/-- Notes a write for a path and gives its generation. -/
def enter (d : Detached) (p : Path) : Nat × Detached :=
  let w := (d.paths.get? p).getD {}
  (w.generation, ⟨d.paths.insert p { w with pending := w.pending + 1 }⟩)

/-- Notes that a write has left the queue. -/
def finish (d : Detached) (p : Path) : Detached :=
  match d.paths.get? p with
  | none => d
  | some w =>
    if w.pending ≤ 1 then ⟨d.paths.erase p⟩ else ⟨d.paths.insert p { w with pending := w.pending - 1 }⟩

/-- Is a write of this generation still meant? -/
def isCurrent (d : Detached) (p : Path) (generation : Nat) : Bool :=
  match d.paths.get? p with
  | some w => w.generation = generation
  | none => false

def hasPending (d : Detached) (p : Path) : Bool := d.paths.contains p

/-- Makes the queued writes at and below a path meaningless. -/
def invalidateUnder (d : Detached) (p : Path) : Detached :=
  ⟨d.paths.map fun q w => if q.under p then { w with generation := w.generation + 1 } else w⟩

end Detached

end Filespace
