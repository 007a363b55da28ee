import Filespace.Toml.Basic

/-!
# Putting a document together

The statements of a document name tables by their path, and each name may be given a value only once. A table
comes to be in one of three ways: a header states it, a header states one below it, or a dotted name leads
through it. A table that is not yet stated may still be, one that is stated may not be stated again, and a
dotted name leads only through tables that came to be by dotted names.
-/

namespace Filespace.Toml

/-- How a table came to be. -/
inductive Form where
  | stated
  | implied
  | dotted
  deriving DecidableEq

/-- A part of a document under construction. -/
inductive Node where
  | value (v : Toml)
  | table (form : Form) (rows : List (String × Node))
  /-- Tables under one name, the last one first. -/
  | tables (items : List (List (String × Node)))

/-- The members of a table. -/
abbrev Rows := List (String × Node)

/-- Changes the member of a given name, or adds it at the end. -/
def alter (k : String) (f : Option Node → Option Node) : Rows → Option Rows
  | [] => (f none).map fun n => [(k, n)]
  | (k', n) :: rest =>
    if k = k' then (f (some n)).map fun n => (k, n) :: rest
    else (alter k f rest).map ((k', n) :: ·)

/-- Changes the table at the end of a path. Tables on the way are made if they are missing; of tables under one
name the last is meant. Dotted names do not lead through tables with a header of their own. -/
def descend (byDots : Bool) : List String → (Form → Rows → Option Rows) → Form → Rows → Option Rows
  | [], f, form, rows => f form rows
  | k :: ks, f, _, rows =>
    let made : Form := if byDots then .dotted else .implied
    let step : Option Node → Option Node
      | none => (descend byDots ks f made []).map (.table made)
      | some (.table form rows) =>
        if byDots ∧ form = .stated then none else (descend byDots ks f form rows).map (.table form)
      | some (.tables (last :: earlier)) => (descend byDots ks f .stated last).map fun r => .tables (r :: earlier)
      | some _ => none
    alter k step rows

/-- A statement of a document. -/
inductive Statement where
  | header (path : List String) (name : String)
  /-- One of several tables under the same name starts. -/
  | item (path : List String) (name : String)
  | assign (path : List String) (name : String) (value : Toml)

def assign (path : List String) (name : String) (v : Toml) (rows : Rows) : Option Rows :=
  let put (form : Form) (rows : Rows) : Option Rows :=
    if path.isEmpty ∨ form = .dotted then
      alter name (fun n => if n.isNone then some (.value v) else none) rows
    else none
  descend true path put .stated rows

/-- A document up to some statement: its tables, and the path of the one that is open. -/
structure Draft where
  rows : Rows := []
  /-- The path of the table that values go to. -/
  current : List String := []

def Draft.add (d : Draft) : Statement → Option Draft
  | .header path name => do
    let start : Option Node → Option Node
      | none => some (.table .stated [])
      | some (.table .implied rows) => some (.table .stated rows)
      | some _ => none
    let rows ← descend false path (fun _ => alter name start) .stated d.rows
    return ⟨rows, path ++ [name]⟩
  | .item path name => do
    let start : Option Node → Option Node
      | none => some (.tables [[]])
      | some (.tables items) => some (.tables ([] :: items))
      | some _ => none
    let rows ← descend false path (fun _ => alter name start) .stated d.rows
    return ⟨rows, path ++ [name]⟩
  | .assign path name v => do
    return { d with rows := ← descend false d.current (fun _ => assign path name v) .stated d.rows }

mutual

def Node.toToml : Node → Toml
  | .value v => v
  | .table _ rows => .table (rowsToToml rows)
  | .tables items => .array (itemsToToml items).reverse

def rowsToToml : Rows → List (String × Toml)
  | [] => []
  | (k, n) :: rest => (k, n.toToml) :: rowsToToml rest

def itemsToToml : List Rows → List Toml
  | [] => []
  | rows :: rest => .table (rowsToToml rows) :: itemsToToml rest

end

/-- The document that statements make up. -/
def ofStatements? (l : List Statement) : Option (List (String × Toml)) :=
  (l.foldlM Draft.add {}).map fun d => rowsToToml d.rows

/-- The table that a list of values in braces makes up. -/
def ofPairs? (l : List (List String × String × Toml)) : Option Toml :=
  (l.foldlM (fun rows (path, name, v) => assign path name v rows) []).map fun rows => .table (rowsToToml rows)

end Filespace.Toml
