import Filespace.Links.Map
import Filespace.Storage.Either

/-!
# One of two maps

A map of link records that is one of two kinds, decided when it is made.
-/

namespace Filespace

open Storage (Either.call)

instance {μ ν : Type} [LinkMap μ] [LinkMap ν] : LinkMap (μ ⊕ ν) where
  load := Either.call LinkMap.load LinkMap.load
  put key target := Either.call (LinkMap.put key target) (LinkMap.put key target)
  delete key := Either.call (LinkMap.delete key) (LinkMap.delete key)

end Filespace
