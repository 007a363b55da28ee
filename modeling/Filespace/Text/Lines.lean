/-!
# Lines

A line ends with a line feed, which a carriage return may precede. The last line of a text need not be closed;
what is left of it is then a line as it stands.
-/

namespace Filespace.Text

/-- A closed line without the carriage return at its end. -/
def dropReturn (cs : List Char) : List Char := if cs.getLast? = some '\r' then cs.dropLast else cs

def lines (s : String) : List (List Char) :=
  let pieces := (s.splitOn "\n").map String.toList
  let closed := pieces.dropLast.map dropReturn
  match pieces.getLast? with
  | some l => if l.isEmpty then closed else closed ++ [l]
  | none => closed

end Filespace.Text
