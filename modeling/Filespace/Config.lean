import Filespace.Links.Document
import Filespace.Links.Either
import Filespace.Locations
import Filespace.Storage.Rooted
import Filespace.Toml.Reader
import Filespace.Vfs.Start

/-!
# Configuration

A `Config` says what an instance is called, what keeps its files and its links, and the options of its
namespace. It is read from a TOML document in which every field may be left out; fields that nobody knows are
passed over.
-/

namespace Filespace

open Storage (StoreM StorageError Memory Rooted)

/-- What keeps the files of an instance. -/
inductive StoreChoice where
  | memory
  /-- A directory of the host, or the one that belongs to the name of the instance. -/
  | directory (root : Option String)
  deriving DecidableEq

/-- The configuration of an instance. -/
structure Config where
  name : String := "default"
  store : StoreChoice := .directory none
  /-- The document with its links, if one is named. -/
  linkFile : Option String := none
  workingDirectory : String := "/"
  coldPath : ColdPath := .acquire
  cacheListings : Bool := false
  maxLinkDepth : Nat := 40
  /-- The number of requests that fit in the queue. -/
  queueDepth : Nat := 64
  deriving DecidableEq

/-- Why there is no configuration. -/
inductive ConfigError where
  | read (location : String) (cause : StorageError)
  /-- The document is not well-formed or a field is not of its type. -/
  | malformed
  deriving DecidableEq

/-- The failure and what caused it, outermost first. -/
def ConfigError.chain : ConfigError → List String
  | read l e => ["failed to read config " ++ l ++ ": " ++ e.message, e.message]
  | malformed => ["invalid config"]

namespace Config

/-- An instance that leaves nothing behind. -/
def transient : Config := { name := "transient", store := .memory }

/-- An instance that is kept under a name. -/
def persistent (name : String) : Config := { name := name }

/-! ### Reading -/

/-- A field of a document, or a default if it is left out. -/
def field {α : Type} (members : List (String × Toml)) (name : String) (default : α) (read : Toml → Option α) :
    Option α :=
  match members.lookup name with
  | none => some default
  | some v => read v

/-- The kind of a store and its root: a table with the kind, or an array that starts with it. -/
def storeKind? : Toml → Option StoreChoice
  | .table members => do
    match ← (← members.lookup "kind").text? with
    | "memory" => return .memory
    | "local" => return .directory (← field members "root" none fun v => v.text?.map some)
    | _ => none
  | .array [kind] => do
    match ← kind.text? with
    | "memory" => return .memory
    | "local" => return .directory none
    | _ => none
  | .array [kind, root] => do
    if (← kind.text?) = "local" then return .directory (some (← root.text?)) else none
  | _ => none

/-- The choice of a store. All that is said of it is kept until its kind is known, so its numbers must be of a
width that can be kept, whether anyone asks for them or not. -/
def storeOfToml? (v : Toml) : Option StoreChoice := if v.fitsWords then storeKind? v else none

/-- The configuration that a document holds. -/
def ofToml? (members : List (String × Toml)) : Option Config := do
  let base : Config := {}
  return {
    name := ← field members "name" base.name Toml.text?
    store := ← field members "store" base.store storeOfToml?
    linkFile := ← field members "symlink_db" none fun v => v.text?.map some
    workingDirectory := ← field members "cwd" base.workingDirectory Toml.text?
    coldPath := ← field members "cold_path" base.coldPath fun v => v.choice?.bind ColdPath.ofTag?
    cacheListings := ← field members "cache_listings" base.cacheListings Toml.bool?
    maxLinkDepth := ← field members "max_symlink_depth" base.maxLinkDepth Toml.word?
    queueDepth := ← field members "bridge_queue_depth" base.queueDepth Toml.word? }

/-- The configuration that a text holds. -/
def parse (s : String) : Except ConfigError Config :=
  match (Toml.parse? s).bind ofToml? with
  | some c => .ok c
  | none => .error .malformed

/-- The configuration in a file of the host. -/
def load (location : String) (h : Host) : Except ConfigError Config :=
  match (Host.contentAt location h).1 with
  | .error e => .error (.read location e)
  | .ok bytes => match String.fromUTF8? ⟨bytes.toArray⟩ with
    | none => .error (.read location .notText)
    | some s => parse s

/-! ### Writing -/

/-- A text in a document, or that there is none. -/
def optionalText : Option String → String
  | some s => Json.printText s
  | none => "null"

/-- The choice of a store as a JSON document. -/
def storeToJson : StoreChoice → String
  | .memory => "\x7b\"kind\":\"memory\"\x7d"
  | .directory root => "\x7b\"kind\":\"local\",\"root\":" ++ optionalText root ++ "\x7d"

/-- The configuration as a JSON document. -/
def toJson (c : Config) : String :=
  "\x7b\"name\":" ++ Json.printText c.name ++ ",\"store\":" ++ storeToJson c.store
    ++ ",\"symlink_db\":" ++ optionalText c.linkFile ++ ",\"cwd\":" ++ Json.printText c.workingDirectory
    ++ ",\"cold_path\":" ++ Json.printText c.coldPath.tag ++ ",\"cache_listings\":" ++ toString c.cacheListings
    ++ ",\"max_symlink_depth\":" ++ toString c.maxLinkDepth ++ ",\"bridge_queue_depth\":"
    ++ toString c.queueDepth ++ "\x7d"

/-! ### What it describes -/

/-- The directory with the files, if a directory keeps them. -/
def storeRoot? (c : Config) (env : Environment) : Option String :=
  match c.store with
  | .memory => none
  | .directory root => some (root.getD (env.storeRoot c.name))

/-- The document with the links, if they are kept in one. -/
def linkFile? (c : Config) (env : Environment) : Option String :=
  match c.linkFile, c.store with
  | some f, _ => some f
  | none, .memory => none
  | none, .directory _ => some (env.linkFile c.name)

def options (c : Config) : Options :=
  { workingDirectory := c.workingDirectory
    coldPath := c.coldPath
    cacheListings := c.cacheListings
    maxLinkDepth := c.maxLinkDepth
    queueDepth := c.queueDepth }

/-- A store of either kind. -/
abbrev Files := Memory ⊕ Rooted

/-- Link records of either kind. -/
abbrev LinkFiles := Records ⊕ Document

/-- What lies behind the namespace: the directory of the store is made. -/
def world (c : Config) (env : Environment) (h : Host) : Except StartError (World Files LinkFiles) × Host :=
  let map : LinkFiles := match c.linkFile? env with
    | some f => .inr { location := f }
    | none => .inl {}
  match c.storeRoot? env with
  | none => (.ok ⟨h, .inl {}, map⟩, h)
  | some root => match Host.makeAll root h with
    | (.error e, h) => (.error (.storeRoot root e), h)
    | (.ok (), h) => (.ok ⟨h, .inr ⟨root⟩, map⟩, h)

/-- Starts the namespace of an instance. -/
def start (c : Config) (env : Environment) (h : Host) : Except StartError (Vfs Files LinkFiles) × Host :=
  match c.world env h with
  | (.error e, h) => (.error e, h)
  | (.ok w, _) =>
    let (r, w) := Vfs.start c.options w
    (r, w.host)

end Config

end Filespace
