import Filespace.Path

/-!
# Host locations

A host location is a text with slashes, absolute when it starts with one. Unlike a path of the namespace it
is used as given: dots and double dots in it are left to the host. The operations here work on its pieces,
where empty pieces and dots count for nothing.
-/

namespace Filespace.Host.Location

/-- Does the location start at the root of the host? -/
def isAbsolute (s : String) : Bool := s.toList.head? = some '/'

/-- A location below another. An absolute one replaces it, and an empty one adds a slash at the end. -/
def join (base s : String) : String :=
  if isAbsolute s ∨ base.isEmpty then s
  else if base.toList.getLast? = some '/' then base ++ s
  else base ++ "/" ++ s

/-- The pieces that count. -/
def parts (s : String) : List (List Char) :=
  (pieces s.toList).filter fun p => p ≠ [] ∧ p ≠ ['.']

/-- The location with the given parts, absolute or not. -/
def ofParts (absolute : Bool) (ps : List (List Char)) : String :=
  String.ofList (if absolute then '/' :: joined ps else joined ps)

/-- The location of the directory around. The root and the empty location have none. -/
def parent? (s : String) : Option String :=
  match parts s with
  | [] => if s.isEmpty ∨ isAbsolute s then none else some ""
  | ps => some (ofParts (isAbsolute s) ps.dropLast)

/-- The last part, unless it leads upwards. -/
def fileName? (s : String) : Option (List Char) :=
  match (parts s).getLast? with
  | some p => if p = ['.', '.'] then none else some p
  | none => none

/-- A name up to its last dot. A dot in front starts no extension. -/
def stem (name : List Char) : List Char :=
  match (name.reverse.dropWhile (· ≠ '.')).reverse with
  | [] => name
  | ['.'] => name
  | front => front.dropLast

/-- The location with another extension. A location without a name stays as it is. The old extension is cut
off first, which may leave a name of two dots; if that ends the location, it leads upwards and takes no
extension. -/
def withExtension (s : String) (extension : String) : String :=
  match fileName? s with
  | none => s
  | some name =>
    let front := (parts s).dropLast
    let last := if stem name = ['.'] ∧ (pieces s.toList).getLast? = some name then ['.', '.']
      else stem name ++ '.' :: extension.toList
    ofParts (isAbsolute s) (front ++ [last])

end Filespace.Host.Location
