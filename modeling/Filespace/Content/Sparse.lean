import Filespace.Content

/-!
# Contents with gaps

`Sparse` keeps the content of a file as runs: bytes that were written, and gaps of zeroes that nobody wrote and
that take no room. So a file may be given a length, or be written at a position, far beyond what could be held
byte by byte.

Main statements: reading, writing and cutting runs is the same as reading, writing and cutting the bytes they
stand for (`toBytes_overwrite`, `toBytes_resize`, `slice_eq`), and they are as long (`length_toBytes`).
-/

namespace Filespace

/-- A stretch of a file. -/
inductive Run where
  | data (bytes : Bytes)
  /-- Zeroes that nobody wrote. -/
  | gap (length : Nat)
  deriving DecidableEq

namespace Run

def length : Run → Nat
  | data b => b.length
  | gap n => n

def toBytes : Run → Bytes
  | data b => b
  | gap n => List.replicate n 0

def take (n : Nat) : Run → Run
  | data b => data (b.take n)
  | gap m => gap (min n m)

def drop (n : Nat) : Run → Run
  | data b => data (b.drop n)
  | gap m => gap (m - n)

@[simp] theorem length_toBytes (r : Run) : r.toBytes.length = r.length := by cases r <;> simp [toBytes, length]

@[simp] theorem toBytes_take (n : Nat) (r : Run) : (r.take n).toBytes = r.toBytes.take n := by
  cases r <;> simp [take, toBytes, List.take_replicate]

@[simp] theorem toBytes_drop (n : Nat) (r : Run) : (r.drop n).toBytes = r.toBytes.drop n := by
  cases r <;> simp [drop, toBytes, List.drop_replicate]

end Run

/-- The content of a file as runs, first run first. -/
structure Sparse where
  runs : List Run := []
  deriving DecidableEq

namespace Sparse

def length (s : Sparse) : Nat := s.runs.foldr (fun r n => r.length + n) 0

def toBytes (s : Sparse) : Bytes := s.runs.flatMap Run.toBytes

def ofBytes (b : Bytes) : Sparse := ⟨[.data b]⟩

def takeRuns : Nat → List Run → List Run
  | _, [] => []
  | n, r :: rs =>
    if n = 0 then [] else if r.length ≤ n then r :: takeRuns (n - r.length) rs else [r.take n]

def dropRuns : Nat → List Run → List Run
  | _, [] => []
  | n, r :: rs => if r.length ≤ n then dropRuns (n - r.length) rs else r.drop n :: rs

/-- A gap in front of runs, if it is one. -/
def afterGap (n : Nat) (rs : List Run) : List Run := if n = 0 then rs else .gap n :: rs

/-- At most `n` bytes from position `pos` on. -/
def slice (s : Sparse) (pos n : Nat) : Bytes := (takeRuns n (dropRuns pos s.runs)).flatMap Run.toBytes

/-- The content with `data` written at position `pos`. -/
def overwrite (s : Sparse) (pos : Nat) (data : Bytes) : Sparse :=
  ⟨takeRuns pos s.runs ++ afterGap (pos - s.length) (.data data :: dropRuns (pos + data.length) s.runs)⟩

/-- The content cut or filled with a gap to `n` bytes. -/
def resize (s : Sparse) (n : Nat) : Sparse := ⟨takeRuns n s.runs ++ afterGap (n - s.length) []⟩

/-! ### Runs stand for bytes -/

@[simp] theorem toBytes_ofBytes (b : Bytes) : (ofBytes b).toBytes = b := by simp [ofBytes, toBytes, Run.toBytes]

@[simp] theorem length_toBytes (s : Sparse) : s.toBytes.length = s.length := by
  unfold toBytes length
  induction s.runs with
  | nil => rfl
  | cons r rs ih => simp [ih]

theorem flatMap_takeRuns (n : Nat) (rs : List Run) :
    (takeRuns n rs).flatMap Run.toBytes = (rs.flatMap Run.toBytes).take n := by
  induction rs generalizing n with
  | nil => simp [takeRuns]
  | cons r rs ih =>
    unfold takeRuns
    split
    · rename_i h
      simp [h]
    · split
      · rename_i h
        simp [ih, List.take_append, List.take_of_length_le, h]
      · rename_i h
        have : n - r.length = 0 := by omega
        simp [List.take_append, this]

theorem flatMap_dropRuns (n : Nat) (rs : List Run) :
    (dropRuns n rs).flatMap Run.toBytes = (rs.flatMap Run.toBytes).drop n := by
  induction rs generalizing n with
  | nil => simp [dropRuns]
  | cons r rs ih =>
    unfold dropRuns
    split
    · rename_i h
      simp [ih, List.drop_append, List.drop_of_length_le, h]
    · rename_i h
      have : n - r.length = 0 := by omega
      simp [List.drop_append, this]

theorem flatMap_afterGap (n : Nat) (rs : List Run) :
    (afterGap n rs).flatMap Run.toBytes = List.replicate n 0 ++ rs.flatMap Run.toBytes := by
  unfold afterGap
  split
  · rename_i h
    simp [h]
  · simp [Run.toBytes]

/-- A stretch of the runs is that stretch of the bytes. -/
theorem slice_eq (s : Sparse) (pos n : Nat) : s.slice pos n = s.toBytes.slice pos n := by
  simp [slice, flatMap_takeRuns, flatMap_dropRuns, Bytes.slice, toBytes]

/-- Writing into the runs writes into the bytes. -/
theorem toBytes_overwrite (s : Sparse) (pos : Nat) (data : Bytes) :
    (s.overwrite pos data).toBytes = s.toBytes.overwrite pos data := by
  have h : s.length = (s.runs.flatMap Run.toBytes).length := (length_toBytes s).symm
  simp only [overwrite, toBytes, List.flatMap_append, flatMap_takeRuns, flatMap_afterGap, List.flatMap_cons,
    flatMap_dropRuns, Run.toBytes, Bytes.overwrite, List.append_assoc, h]

/-- A new length for the runs is one for the bytes. -/
theorem toBytes_resize (s : Sparse) (n : Nat) : (s.resize n).toBytes = s.toBytes.resize n := by
  have h : s.length = (s.runs.flatMap Run.toBytes).length := (length_toBytes s).symm
  simp only [resize, toBytes, List.flatMap_append, flatMap_takeRuns, flatMap_afterGap, List.flatMap_nil,
    Bytes.resize, List.append_nil, h]

end Sparse

end Filespace
