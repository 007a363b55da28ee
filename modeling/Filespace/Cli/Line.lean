import Filespace.Text.Cluster

/-!
# Lines with corrections

A backspace in a line erases the cluster before it. What is typed is kept with the lengths of its clusters in
bytes, last first. A length takes one byte, so of a cluster with 256 bytes or more only the remainder is erased.
-/

namespace Filespace.Cli

/-- A line while it is typed. -/
structure Draft where
  /-- The characters so far, last first. -/
  typed : List Char := []
  /-- The lengths of the clusters so far, last first. -/
  sizes : List Nat := []

namespace Draft

/-- Characters without as many bytes in front as they can spare. -/
def dropBytes (n : Nat) : List Char → List Char
  | [] => []
  | c :: cs => if c.utf8Size ≤ n then dropBytes (n - c.utf8Size) cs else c :: cs

def erase (d : Draft) : Draft :=
  match d.sizes with
  | [] => d
  | n :: ns => ⟨dropBytes n d.typed, ns⟩

def backspace : Char := '\x08'

def type (d : Draft) (p : List Char) : Draft :=
  if p = [backspace] then d.erase
  else ⟨p.reverse ++ d.typed, (String.ofList p).utf8ByteSize % 256 :: d.sizes⟩

/-- Types clusters in turn. Without a backspace among them they follow what was typed. -/
theorem typed_foldl_type {ps : List (List Char)} (h : [backspace] ∉ ps) (d : Draft) :
    (ps.foldl type d).typed = ps.flatten.reverse ++ d.typed := by
  induction ps generalizing d with
  | nil => simp
  | cons p ps ih =>
    obtain ⟨hp, hps⟩ : [backspace] ≠ p ∧ [backspace] ∉ ps := by simpa using h
    simp [ih hps, type, hp.symm]

end Draft

/-- A line as its corrections leave it. -/
def edited (cs : List Char) : List Char := ((Text.clusters cs).foldl Draft.type {}).typed.reverse

/-- A line without corrections stays as it is. -/
theorem edited_of_not_mem {cs : List Char} (h : Draft.backspace ∉ cs) : edited cs = cs := by
  have hps : [Draft.backspace] ∉ Text.clusters cs := by
    intro hp
    apply h
    rw [← Text.flatten_clusters cs]
    exact List.mem_flatten.2 ⟨_, hp, by simp⟩
  simp [edited, Draft.typed_foldl_type hps, Text.flatten_clusters]

end Filespace.Cli
