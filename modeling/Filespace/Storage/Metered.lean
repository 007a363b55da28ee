import Filespace.Storage.Chunked

/-!
# A handle that moves few bytes at a time

`Metered` is a buffer whose handle moves at most `chunk` bytes in one call and at most `budget` bytes in all,
and may claim a length of its own. It records each call with its position and the number of bytes moved, so
that one can see how reads and writes in pieces proceed.
-/

namespace Filespace.Storage

/-- The direction of a call. -/
inductive Direction where
  | read | write
  deriving DecidableEq

/-- A buffer behind limits. -/
structure Metered where
  content : Bytes
  chunk : Nat
  /-- The most bytes that all calls together still move; no limit if none. -/
  budget : Option Nat := none
  /-- The length that the handle reports, if not that of the buffer. -/
  claim : Option Nat := none
  /-- The calls so far, last first: direction, position, bytes moved. -/
  log : List (Direction × Nat × Nat) := []
  deriving DecidableEq

namespace Metered

/-- How many of `n` bytes may move now. -/
def allowance (b : Metered) (n : Nat) : Nat :=
  let n := min n b.chunk
  match b.budget with
  | some left => min n left
  | none => n

def record (b : Metered) (d : Direction) (pos n : Nat) : Metered :=
  { b with budget := b.budget.map (· - n), log := (d, pos, n) :: b.log }

def channel : Channel (StoreM Metered) where
  size := do
    let b ← get
    return b.claim.getD b.content.length
  read pos length := do
    let b ← get
    let bytes := b.content.slice pos (b.allowance (min length (b.content.length - pos)))
    set (b.record .read pos bytes.length)
    return bytes
  write pos data := do
    let b ← get
    let n := b.allowance data.length
    set { b.record .write pos n with content := b.content.overwrite pos (data.take n) }
    return n

end Metered

end Filespace.Storage
