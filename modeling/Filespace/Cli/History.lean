import Filespace.Host.Calls
import Filespace.Text.Lines
import Filespace.Text.Utf8

/-!
# Lines typed before

The lines that were typed are kept in a file from one run to the next, at most a hundred of them. An empty line
and one that repeats the line before it are left out. In the file, a backslash and a line end are escaped, and
the first line names the format. A line with an escape of another kind is taken as it stands.
-/

namespace Filespace.Cli

open Storage (StoreM)

/-- Lines typed before, oldest first. -/
structure History where
  lines : List String := []
  /-- Were any added since the file was read? -/
  fresh : Bool := false
  deriving DecidableEq

namespace History

/-- The most lines that are kept. -/
def limit : Nat := 100

def add (h : History) (line : String) : History :=
  if line.isEmpty ∨ h.lines.getLast? = some line then h
  else ⟨(h.lines ++ [line]).drop (h.lines.length + 1 - limit), true⟩

def escape (cs : List Char) : List Char :=
  cs.flatMap fun c => if c = '\\' then ['\\', '\\'] else if c = '\n' then ['\\', 'n'] else [c]

/-- A line as it was typed, if its escapes are known. -/
def unescape? : List Char → Option (List Char)
  | [] => some []
  | '\\' :: 'n' :: cs => (unescape? cs).map ('\n' :: ·)
  | '\\' :: '\\' :: cs => (unescape? cs).map ('\\' :: ·)
  | c :: cs => if c = '\\' then none else (unescape? cs).map (c :: ·)

def formatName : String := "#V2"

def print (h : History) : String :=
  String.join ((formatName :: h.lines.map fun l => String.ofList (escape l.toList)).map (· ++ "\n"))

/-- The lines in a file. A file of another format has them as typed. -/
def parse (text : String) : History :=
  let lines := Text.lines text
  let typed := if lines.head? = some formatName.toList then lines.tail.map fun l => (unescape? l).getD l else lines
  { (typed.map String.ofList).foldl add {} with fresh := false }

def load (location : String) (h : Host) : History :=
  match (Host.contentAt location h).1 with
  | .ok bytes => parse (Text.decoded bytes)
  | .error _ => {}

/-- Writes the file if there is anything new in it. Failures are passed over. -/
def save (history : History) (location : String) (h : Host) : Host :=
  let h := match Host.Location.parent? location with
    | some dir => (Host.makeAll dir h).2
    | none => h
  if history.fresh then (Host.putContent location (Text.utf8 history.print) h).2 else h

/-- Escaping can be undone. -/
theorem unescape?_escape (cs : List Char) : unescape? (escape cs) = some cs := by
  induction cs with
  | nil => rfl
  | cons c cs ih =>
    by_cases h : c = '\\'
    · subst h
      have : escape ('\\' :: cs) = '\\' :: '\\' :: escape cs := by simp [escape]
      simp [this, unescape?, ih]
    · by_cases h' : c = '\n'
      · subst h'
        have : escape ('\n' :: cs) = '\\' :: 'n' :: escape cs := by simp [escape]
        simp [this, unescape?, ih]
      · have : escape (c :: cs) = c :: escape cs := by simp [escape, h, h']
        rw [this, unescape?]
        · simp [h, ih]
        · rintro r hc
          exact absurd hc h
        · rintro r hc
          exact absurd hc h

end History

end Filespace.Cli
