import Filespace.Json.Reader
import Filespace.Json.Printer
import Filespace.Entry
import Filespace.Error

/-!
# Entries, kinds, codes and paths as JSON

An entry is an object with a `type` and the fields of that type, or an array with the type first and the
fields after it. A kind or a code is its tag, alone or as an object with that one member and `null` as its
value. A path is the text of a path and is normalised when it is read. Members that are not known are left
out; a known one may not be given twice.
-/

namespace Filespace

open Json

/-! ### Tags -/

/-- The tag of a value that has no fields. -/
def Json.tag? : Json → Option String
  | .text s => s
  | .object [(some k, .null)] => some k
  | _ => none

def EntryKind.ofJson? (j : Json) : Option EntryKind := do EntryKind.ofTag? (← j.tag?)

def EntryKind.toJson (k : EntryKind) : String := printText k.tag

def Code.ofJson? (j : Json) : Option Code := do Code.ofTag? (← j.tag?)

def Code.toJson (c : Code) : String := printText c.tag

/-! ### Paths -/

/-- A path. -/
def Path.ofJson? (j : Json) : Option Path := do
  match Path.parse (← j.text?) with
  | .ok p => some p
  | .error _ => none

def Path.toJson (p : Path) : String := printText p.str

/-! ### Rows of a listing -/

/-- A row of a listing: an object, or an array of name and kind. -/
def DirEntry.ofJson? : Json → Option DirEntry
  | .array [n, k] => do return ⟨← n.text?, ← EntryKind.ofJson? k⟩
  | .object members => do
    let ms ← names? members
    return ⟨← (← field? "name" ms).text?, ← EntryKind.ofJson? (← field? "kind" ms)⟩
  | _ => none

def DirEntry.toJson (e : DirEntry) : String :=
  "\x7b\"name\":" ++ printText e.name ++ ",\"kind\":" ++ e.kind.toJson ++ "\x7d"

/-! ### Entries -/

/-- The entry of a type from its fields in order. -/
def Entry.ofFields? (type : String) (fields : List Json) : Option Entry :=
  if type = "directory" then if fields.isEmpty then some .directory else none
  else if type = "file" then match fields with
    | [n, m] => do return .file (← n.word?) (← m.word?)
    | _ => none
  else if type = "symlink" then match fields with
    | [t] => t.text?.map .link
    | _ => none
  else none

def Entry.fieldNames (type : String) : List String :=
  if type = "file" then ["size", "mtime_millis"]
  else if type = "symlink" then ["target"]
  else []

/-- An entry. All of the document is kept until its type is known, so all of it must be keepable. -/
def Entry.ofJson? (j : Json) : Option Entry :=
  if j.strict maxDepth then
    match j with
    | .array (t :: fields) => do Entry.ofFields? (← t.text?) fields
    | .object members => do
      let ms ← names? members
      let type ← (← field? "type" ms).text?
      Entry.ofFields? type (← (Entry.fieldNames type).mapM fun f => field? f ms)
    | _ => none
  else none

def Entry.toJson : Entry → String
  | .directory => "\x7b\"type\":\"directory\"\x7d"
  | .file n m => "\x7b\"type\":\"file\",\"size\":" ++ toString n ++ ",\"mtime_millis\":" ++ toString m ++ "\x7d"
  | .link t => "\x7b\"type\":\"symlink\",\"target\":" ++ printText t ++ "\x7d"

end Filespace
