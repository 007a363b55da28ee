import Filespace.Table
import Filespace.Text.Quoted

/-!
# Paths

A `Path` is the list of names from the root to an entry, and a `Name` is one plain segment: not empty,
not a dot or a double dot, without a slash and without a NUL. A text is read as a path by going through
its slash-separated pieces from left to right: an empty piece or a dot stays, a double dot goes up, and
any other piece goes down to the entry of that name (`walk`). Going up from the root is refused.

Design points:

* `Path.str` writes the names with slashes between them, and reading that text gives the path back;
* paths are ordered by that text, in which a slash comes after a dash but before a letter. The order is
  therefore not that of the lists of names, and a directory's subtree need not be contiguous in it;
* names carry the proof that they are plain, so extending a path by a name cannot fail.
-/

namespace Filespace

/-! ### Names -/

/-- May a text stand alone between two slashes of a path? -/
def isPlain (cs : List Char) : Bool :=
  !(cs.isEmpty || cs == ['.'] || cs == ['.', '.'] || cs.contains '/' || cs.contains '\x00')

/-- One plain segment of a path. -/
structure Name where
  text : String
  /-- It is neither empty nor a dot or double dot, and has no slash and no NUL. -/
  plain : isPlain text.toList = true
  deriving DecidableEq

namespace Name

def chars (n : Name) : List Char := n.text.toList

/-- The name with the given text, if the text is plain. -/
def ofText? (s : String) : Option Name :=
  if h : isPlain s.toList = true then some ⟨s, h⟩ else none

/-- The name with the given characters, if they are plain. -/
def ofChars? (cs : List Char) : Option Name :=
  if h : isPlain cs = true then some ⟨String.ofList cs, by simpa using h⟩ else none

theorem chars_inj {m n : Name} (h : m.chars = n.chars) : m = n := by
  cases m; cases n
  cases String.toList_inj.1 h
  rfl

instance : Key Name where
  decEq := inferInstance
  text := chars
  text_inj := chars_inj

@[simp] theorem ofChars?_chars (n : Name) : ofChars? n.chars = some n := by
  have h : isPlain n.chars = true := n.plain
  simp only [ofChars?, h, dite_true, Option.some.injEq]
  exact chars_inj (by simp [chars])

theorem chars_of_ofChars? {cs : List Char} {n : Name} (h : ofChars? cs = some n) : n.chars = cs := by
  unfold ofChars? at h
  split at h
  · cases h; simp [chars]
  · cases h

theorem chars_ne_nil (n : Name) : n.chars ≠ [] := fun h => by
  have := n.plain
  simp [isPlain, show n.text.toList = [] from h] at this

theorem slash_notMem (n : Name) : '/' ∉ n.chars := fun h => by
  have := n.plain
  simp [isPlain, show '/' ∈ n.text.toList from h] at this

end Name

/-! ### Pieces between slashes -/

/-- The pieces of a text between its slashes. There is always at least one. -/
def pieces : List Char → List (List Char)
  | [] => [[]]
  | c :: cs =>
    if c = '/' then [] :: pieces cs
    else match pieces cs with
      | [] => [[c]]
      | p :: ps => (c :: p) :: ps

def joined : List (List Char) → List Char
  | [] => []
  | [p] => p
  | p :: q :: ps => p ++ '/' :: joined (q :: ps)

theorem pieces_ne_nil (cs : List Char) : pieces cs ≠ [] := by
  induction cs with
  | nil => simp [pieces]
  | cons c cs ih =>
    rw [pieces]
    split
    · simp
    · cases h : pieces cs <;> simp

theorem pieces_of_notMem {p : List Char} (h : '/' ∉ p) : pieces p = [p] := by
  induction p with
  | nil => rfl
  | cons c p ih =>
    have hc : c ≠ '/' := fun e => h (by simp [e])
    simp [pieces, hc, ih (fun e => h (by simp [e]))]

theorem pieces_append_slash {p : List Char} (h : '/' ∉ p) (cs : List Char) :
    pieces (p ++ '/' :: cs) = p :: pieces cs := by
  induction p with
  | nil => simp [pieces]
  | cons c p ih =>
    have hc : c ≠ '/' := fun e => h (by simp [e])
    simp [pieces, hc, ih (fun e => h (by simp [e]))]

theorem pieces_joined {ps : List (List Char)} (hne : ps ≠ []) (h : ∀ p ∈ ps, '/' ∉ p) :
    pieces (joined ps) = ps := by
  induction ps with
  | nil => exact absurd rfl hne
  | cons p ps ih =>
    cases ps with
    | nil => exact pieces_of_notMem (h p (by simp))
    | cons q ps =>
      rw [joined, pieces_append_slash (h p (by simp)), ih (by simp) fun r hr => h r (by simp [hr])]

/-! ### Paths -/

/-- The names from the root down to an entry. -/
structure Path where
  /-- The names, outermost first. -/
  names : List Name
  deriving DecidableEq

namespace Path

def root : Path := ⟨[]⟩

instance : Inhabited Path := ⟨root⟩

def isRoot (p : Path) : Bool := p.names.isEmpty

/-- The characters of a path's text: its names with slashes between them, none in front. -/
def chars (p : Path) : List Char := joined (p.names.map Name.chars)

/-- The path's text, empty for the root. -/
def str (p : Path) : String := String.ofList p.chars

/-- The path as it is shown, with a slash in front. -/
def display (p : Path) : String := "/" ++ p.str

def segments (p : Path) : List String := p.names.map Name.text

def depth (p : Path) : Nat := p.names.length

/-- The path without its last name. The root has none to lose. -/
def parent? (p : Path) : Option Path :=
  if p.isRoot then none else some ⟨p.names.dropLast⟩

def name? (p : Path) : Option Name := p.names.getLast?

def join (p q : Path) : Path := ⟨p.names ++ q.names⟩

/-- The path of the entry with a given name in the directory at `p`. -/
def child (p : Path) (n : Name) : Path := ⟨p.names ++ [n]⟩

def under (p q : Path) : Bool := q.names.isPrefixOf p.names

def below (p q : Path) : Bool := p.under q && p ≠ q

/-- What leads from `q` down to `p`, if `p` is at or below `q`. -/
def relativeTo? (p q : Path) : Option Path :=
  if p.under q then some ⟨p.names.drop q.names.length⟩ else none

/-- The path and all that lead to it, ending with the root. -/
def ancestors (p : Path) : List Path :=
  (List.range (p.names.length + 1)).reverse.map fun i => ⟨p.names.take i⟩

/-- The paths that lead to `p`, outermost first and without the root, ending with `p` itself. -/
def trail (p : Path) : List Path :=
  (List.range p.names.length).map fun i => ⟨p.names.take (i + 1)⟩

theorem chars_inj {p q : Path} (h : p.chars = q.chars) : p = q := by
  have slash : ∀ r : Path, ∀ x ∈ r.names.map Name.chars, '/' ∉ x := by
    intro r x hx
    obtain ⟨n, -, rfl⟩ := List.mem_map.1 hx
    exact n.slash_notMem
  have split : ∀ r : Path, r.names.map Name.chars = (pieces r.chars).filter (· ≠ []) := by
    intro r
    by_cases hr : r.names.map Name.chars = []
    · simp [chars, hr, joined, pieces]
    · rw [chars, pieces_joined hr (slash r), List.filter_eq_self.2]
      intro x hx
      obtain ⟨n, -, rfl⟩ := List.mem_map.1 hx
      simpa using n.chars_ne_nil
  have : p.names.map Name.chars = q.names.map Name.chars := by rw [split p, split q, h]
  cases p; cases q
  congr 1
  exact List.map_inj_right (fun _ _ => Name.chars_inj) |>.1 this

instance : Key Path where
  decEq := inferInstance
  text := chars
  text_inj := chars_inj

/-! ### Reading -/

/-- Why a text names no path, or no child of a directory. -/
inductive Fault where
  | nul (raw : String)
  | escapes (raw : String)
  | badName (raw : String)
  deriving DecidableEq

def Fault.message : Fault → String
  | .nul raw => "path contains NUL byte: " ++ Text.quoted raw
  | .escapes raw => "path escapes root: " ++ raw
  | .badName raw => "invalid entry name: " ++ Text.quoted raw

/-- Where one piece of a text leads. -/
inductive Move where
  /-- To the same entry: an empty piece or a dot. -/
  | stay
  | up
  | down (n : Name)
  deriving DecidableEq

/-- The move of a piece without slashes, unless it has a NUL in it. -/
def Move.ofPiece? (cs : List Char) : Option Move :=
  if cs = [] ∨ cs = ['.'] then some .stay
  else if cs = ['.', '.'] then some .up
  else (Name.ofChars? cs).map .down

/-- Makes moves in turn from the directory whose names are `at`, innermost first. It fails on going up
from the root. -/
def walk (pos : List Name) : List Move → Option (List Name)
  | [] => some pos
  | .stay :: ms => walk pos ms
  | .up :: ms => match pos with
    | [] => none
    | _ :: rest => walk rest ms
  | .down n :: ms => walk (n :: pos) ms

/-- Reads a text from a directory on. A NUL anywhere is reported before an escape. -/
def parseFrom (base : Path) (raw : String) : Except Fault Path :=
  match (pieces raw.toList).mapM Move.ofPiece? with
  | none => .error (.nul raw)
  | some moves => match walk base.names.reverse moves with
    | none => .error (.escapes raw)
    | some pos => .ok ⟨pos.reverse⟩

/-- Reads a text as a path from the root. -/
def parse (raw : String) : Except Fault Path := parseFrom root raw

/-- The path of the entry with a given text as its name, if the text is one plain segment. -/
def child? (p : Path) (s : String) : Except Fault Path :=
  match Name.ofText? s with
  | some n => .ok (p.child n)
  | none => .error (.badName s)

/-! ### Small facts -/

@[simp] theorem names_root : root.names = [] := rfl

@[simp] theorem names_child (p : Path) (n : Name) : (p.child n).names = p.names ++ [n] := rfl

@[simp] theorem names_join (p q : Path) : (p.join q).names = p.names ++ q.names := rfl

theorem ext {p q : Path} (h : p.names = q.names) : p = q := by
  cases p; cases q; cases h; rfl

@[simp] theorem join_root (p : Path) : p.join root = p := ext (by simp)

@[simp] theorem root_join (p : Path) : root.join p = p := ext (by simp)

@[simp] theorem under_refl (p : Path) : p.under p = true := by simp [under]

@[simp] theorem under_root (p : Path) : p.under root = true := by simp [under]

/-- Being at or below means being some path further down. -/
theorem under_iff_exists_join {p q : Path} : p.under q = true ↔ ∃ r, p = q.join r := by
  simp only [under, List.isPrefixOf_iff_prefix]
  constructor
  · rintro ⟨t, ht⟩
    exact ⟨⟨t⟩, ext ht.symm⟩
  · rintro ⟨r, rfl⟩
    exact ⟨r.names, rfl⟩

@[simp] theorem parent?_child (p : Path) (n : Name) : (p.child n).parent? = some p := by
  simp [parent?, isRoot, child]

@[simp] theorem name?_child (p : Path) (n : Name) : (p.child n).name? = some n := by
  simp [name?, child]

end Path

end Filespace
