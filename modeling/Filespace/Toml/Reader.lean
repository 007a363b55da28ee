import Filespace.Toml.Scalar
import Filespace.Toml.Tables

/-!
# Reading TOML

A document is read line by line into statements, which are then put together. Blanks are the space and the
tab; a line ends with a line feed, which a carriage return may precede; a comment runs to the end of its line.
Inside brackets and braces a line may end between any two parts, but not within dotted names. Arrays and tables
in braces may be nested in at most `maxDepth` levels, and as many names may be joined by dots. The recursion is
bounded by the length of the text, which every step shortens.
-/

namespace Filespace.Toml

/-- The most levels of arrays and tables in braces, and the most names joined by dots. -/
def maxDepth : Nat := 80

def skipBlanks (cs : List Char) : List Char := cs.dropWhile fun c => c = ' ' || c = '\t'

/-- What follows a comment in front, if it is well-formed. -/
def skipComment : List Char → Option (List Char)
  | '#' :: cs =>
    let rest := cs.dropWhile isPrintable
    match rest with
    | [] | '\n' :: _ | '\r' :: '\n' :: _ => some rest
    | _ => none
  | cs => some cs

/-- Leaves out blanks, comments and line ends. -/
def skipLines : Nat → List Char → Option (List Char)
  | 0, cs => some cs
  | fuel + 1, cs => do
    match ← skipComment (skipBlanks cs) with
    | '\n' :: r | '\r' :: '\n' :: r => skipLines fuel r
    | r => some r

/-- What follows the end of a line, of which nothing but blanks and a comment are left. -/
def endLine (cs : List Char) : Option (List Char) := do
  match ← skipComment (skipBlanks cs) with
  | [] => some []
  | '\n' :: r | '\r' :: '\n' :: r => some r
  | _ => none

/-! ### Names -/

/-- May the character stand in a name without quotes? -/
def isBare (c : Char) : Bool := ('a' ≤ c && c ≤ 'z') || ('A' ≤ c && c ≤ 'Z') || c.isDigit || c = '_' || c = '-'

def readName : List Char → Option (String × List Char)
  | '"' :: cs => (readBasic cs).map fun (t, r) => (String.ofList t, r)
  | '\'' :: cs => (readLiteral cs).map fun (t, r) => (String.ofList t, r)
  | cs =>
    let name := cs.takeWhile isBare
    if name.isEmpty then none else some (String.ofList name, cs.dropWhile isBare)

/-- Names with dots between them: those before the last, the last, and what is left after blanks. -/
def readNames : Nat → List Char → Option (List String × String × List Char)
  | 0, _ => none
  | fuel + 1, cs => do
    let (name, rest) ← readName (skipBlanks cs)
    match skipBlanks rest with
    | '.' :: r => do
      let (path, last, rest) ← readNames fuel r
      return (name :: path, last, rest)
    | r => return ([], name, r)

/-- The names of one member or table, at most `maxDepth` of them. -/
def readKey (fuel : Nat) (cs : List Char) : Option (List String × String × List Char) := do
  let (path, name, rest) ← readNames fuel cs
  if path.length < maxDepth then return (path, name, rest) else none

/-! ### Values -/

mutual

def readValue : Nat → Nat → List Char → Option (Toml × List Char)
  | 0, _, _ => none
  | fuel + 1, depth, cs => match cs with
    | '[' :: r => match depth with
      | 0 => none
      | d + 1 => (readItems fuel d r).map fun (l, rest) => (array l, rest)
    | '\x7b' :: r => match depth with
      | 0 => none
      | d + 1 => do
        let (l, rest) ← readPairs fuel d r
        return (← ofPairs? l, rest)
    | cs => match readText? cs with
      | some r => r.map fun (s, rest) => (text s, rest)
      | none =>
        let (w, rest) := takeWord cs
        (ofWord? w).map fun v => (v, rest)

/-- The items of an array up to its end. -/
def readItems : Nat → Nat → List Char → Option (List Toml × List Char)
  | 0, _, _ => none
  | fuel + 1, depth, cs => do
    match ← skipLines fuel cs with
    | ']' :: rest => return ([], rest)
    | r => do
      let (v, rest) ← readValue fuel depth r
      match ← skipLines fuel rest with
      | ',' :: r => do
        let (vs, rest) ← readItems fuel depth r
        return (v :: vs, rest)
      | ']' :: rest => return ([v], rest)
      | _ => none

/-- The members of a table in braces up to its end. -/
def readPairs : Nat → Nat → List Char → Option (List (List String × String × Toml) × List Char)
  | 0, _, _ => none
  | fuel + 1, depth, cs => do
    match ← skipLines fuel cs with
    | '\x7d' :: rest => return ([], rest)
    | r => do
      let (path, name, rest) ← readKey fuel r
      match ← skipLines fuel rest with
      | '=' :: r => do
        let (v, rest) ← readValue fuel depth (← skipLines fuel r)
        match ← skipLines fuel rest with
        | ',' :: r => do
          let (ps, rest) ← readPairs fuel depth r
          return ((path, name, v) :: ps, rest)
        | '\x7d' :: rest => return ([(path, name, v)], rest)
        | _ => none
      | _ => none

end

/-! ### Documents -/

/-- The statement in front and what follows its line. -/
def readStatement (fuel : Nat) (cs : List Char) : Option (Statement × List Char) := do
  match cs with
  | '[' :: '[' :: r => do
    let (path, name, rest) ← readKey fuel r
    match rest with
    | ']' :: ']' :: rest => return (.item path name, ← endLine rest)
    | _ => none
  | '[' :: r => do
    let (path, name, rest) ← readKey fuel r
    match rest with
    | ']' :: rest => return (.header path name, ← endLine rest)
    | _ => none
  | cs => do
    let (path, name, rest) ← readKey fuel cs
    match rest with
    | '=' :: r => do
      let (v, rest) ← readValue fuel maxDepth (skipBlanks r)
      return (.assign path name v, ← endLine rest)
    | _ => none

def readStatements : Nat → List Char → Option (List Statement)
  | 0, _ => none
  | fuel + 1, cs => do
    match ← skipLines fuel cs with
    | [] => return []
    | r => do
      let (s, rest) ← readStatement (fuel + 1) r
      return s :: (← readStatements fuel rest)

/-- The members of the document that a text holds. A byte-order mark in front is left out. -/
def parse? (s : String) : Option (List (String × Toml)) := do
  let cs := match s.toList with
    | '\uFEFF' :: r => r
    | r => r
  ofStatements? (← readStatements (2 * cs.length + 2) cs)

end Filespace.Toml
