import Filespace.Host.Calls
import Filespace.Json.Printer
import Filespace.Json.Reader
import Filespace.Links.Map

/-!
# Link records in a host file

`Document` keeps the records in a JSON document on the host, an object with the version of the format and the
records. Every change writes the whole document to a file beside it and renames that over the old one, so the
document is always complete: the old one or the new one. What is asked of the host for this is a `Desk`.

The records are read once and then known. A change that could not be written stays known and is written
with the next one.
-/

namespace Filespace

open Storage (StoreM StorageError)

namespace Document

/-- The text of a document: one record a line, in order of the paths. -/
def print (links : LinkRecords) : String :=
  let line (r : String × String) := "    " ++ Json.printText r.1 ++ ": " ++ Json.printText r.2
  let body := if links.isEmpty then "\x7b\x7d"
    else "\x7b\n" ++ ",\n".intercalate (links.rows.map line) ++ "\n  \x7d"
  "\x7b\n  \"version\": 1,\n  \"links\": " ++ body ++ "\n\x7d"

/-- Records as a JSON object. A path given twice has its last target. -/
def recordsOfJson? : Json → Option LinkRecords
  | .object members => do
    let ms ← Json.names? members
    return .ofList (← ms.mapM fun (k, j) => j.text?.map (k, ·))
  | _ => none

/-- The records of a document: an object, or an array of version and records. -/
def ofJson? : Json → Option LinkRecords
  | .array [version, links] => do
    let _ ← version.natBelow? UInt32.size
    recordsOfJson? links
  | .object members => do
    let ms ← Json.names? members
    let _ ← (← Json.field? "version" ms).natBelow? UInt32.size
    recordsOfJson? (← Json.field? "links" ms)
  | _ => none

/-- The records that the content of a file holds. -/
def parse? (bytes : Bytes) : Option LinkRecords := do
  ofJson? (← Json.ofBytes? bytes)

end Document

/-- The steps in which a document is read and written, on a host whose state is `σ`. -/
structure Desk (σ : Type) where
  read : StoreM σ Bytes
  /-- Makes the directory that the document is in. -/
  makeRoom : StoreM σ Unit
  draft (bytes : Bytes) : StoreM σ Unit
  publish : StoreM σ Unit

/-- A document at a location of the host. -/
def Desk.ofLocation (location : String) : Desk Host where
  read := Host.contentAt location
  makeRoom := do if let some dir := Host.Location.parent? location then Host.makeAll dir
  draft bytes := Host.putContent (Host.Location.withExtension location "json.tmp") bytes
  publish := Host.rename (Host.Location.withExtension location "json.tmp") location

namespace Document

variable {σ α : Type}

/-- The records of the document. Without a file there are none. -/
def readRecords (desk : Desk σ) : StoreM σ LinkRecords := do
  match ← desk.read.attempt with
  | .ok bytes => match parse? bytes with
    | some links => return links
    | none => throw .badDocument
  | .error e => if e.kind = .notFound then return ∅ else throw e

def writeRecords (desk : Desk σ) (links : LinkRecords) : StoreM σ Unit := do
  desk.makeRoom
  desk.draft (Text.utf8 (print links))
  desk.publish

/-- Uses the desk beside what is known. -/
def atDesk (x : StoreM σ α) : StoreM (σ × Option LinkRecords) α := .within Prod.fst (fun h s => (h, s.2)) x

/-- Reads the records anew. If that fails, what was known stays known. -/
def load (desk : Desk σ) : StoreM (σ × Option LinkRecords) LinkRecords := do
  let links ← atDesk (readRecords desk)
  modify fun s => (s.1, some links)
  return links

/-- Changes the records and writes them. -/
def update (desk : Desk σ) (f : LinkRecords → LinkRecords) : StoreM (σ × Option LinkRecords) Unit := do
  let links ← match (← get).2 with
    | some links => pure links
    | none => atDesk (readRecords desk)
  let links := f links
  let written ← (atDesk (writeRecords desk links)).attempt
  modify fun s => (s.1, some links)
  StoreM.settle written

end Document

/-- A document at a location of the host, and what is known of it. -/
structure Document where
  location : String
  known : Option LinkRecords := none

namespace Document

def onHost {α : Type} (x : Desk Host → StoreM (Host × Option LinkRecords) α) : StoreM (Host × Document) α := do
  .within (fun s => (s.1, s.2.known)) (fun t s => (t.1, { s.2 with known := t.2 }))
    (x (.ofLocation (← get).2.location))

instance : LinkMap Document where
  load := onHost load
  put key target := onHost fun desk => update desk fun r => r.insert key target
  delete key := onHost fun desk => update desk fun r => r.erase key

end Document

end Filespace
