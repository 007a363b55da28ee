import Filespace.Storage.Basic

/-!
# Where link records are kept

Links live beside the store, as records from the text of a path to the text of a target. A `LinkMap` keeps
these records over restarts. `Records` keeps them in memory and can be switched to refuse changes.
-/

namespace Filespace

open Storage (StoreM StorageError)

/-- Records by the text of the path. -/
abbrev LinkRecords := Table String String

/-- The calls of a map whose state is `μ`, on a host. -/
class LinkMap (μ : Type) where
  load : StoreM (Host × μ) LinkRecords
  put (key target : String) : StoreM (Host × μ) Unit
  delete (key : String) : StoreM (Host × μ) Unit

/-- Records kept in memory. -/
structure Records where
  records : LinkRecords := ∅
  failing : Bool := false
  deriving DecidableEq

namespace Records

instance : Inhabited Records := ⟨{}⟩

/-- A map that starts with the given records; of two for one path the later counts. -/
def ofList (l : List (String × String)) : Records := { records := .ofList l }

/-- Changes the records, unless changes are refused. -/
def update (f : LinkRecords → LinkRecords) : StoreM Records Unit := do
  if (← get).failing then throw .mapUnavailable
  else modify fun m => { m with records := f m.records }

instance : LinkMap Records where
  load := .onSecond do return (← get).records
  put key target := .onSecond (update fun r => r.insert key target)
  delete key := .onSecond (update fun r => r.erase key)

end Records

end Filespace
