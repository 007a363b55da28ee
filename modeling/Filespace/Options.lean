import Filespace.Text.Quoted

/-!
# Options of a namespace

How a namespace treats files without a warm handle, what it remembers, and its limits.
-/

namespace Filespace

/-- What a read or write does with a file that has no warm handle. -/
inductive ColdPath where
  | acquire
  | direct
  deriving DecidableEq, Inhabited

namespace ColdPath

/-- The policy as it is written in documents. -/
def tag : ColdPath → String
  | acquire => "acquire"
  | direct => "direct"

def ofTag? (s : String) : Option ColdPath :=
  if s = "acquire" then some .acquire else if s = "direct" then some .direct else none

def describe : ColdPath → String
  | acquire => "Acquire"
  | direct => "Direct"

end ColdPath

/-- The options a namespace is started with. -/
structure Options where
  /-- The working directory, made if there is none. -/
  workingDirectory : String := "/"
  coldPath : ColdPath := .acquire
  cacheListings : Bool := false
  maxLinkDepth : Nat := 40
  /-- The number of requests that fit in the queue. -/
  queueDepth : Nat := 64
  hook : Bool := false
  deriving DecidableEq, Inhabited

def Options.describe (o : Options) : String :=
  "VfsOptions \x7b cwd: " ++ Text.quoted o.workingDirectory ++ ", cold_path: " ++ o.coldPath.describe
    ++ ", cache_listings: " ++ toString o.cacheListings ++ ", max_symlink_depth: " ++ toString o.maxLinkDepth
    ++ ", bridge_queue_depth: " ++ toString o.queueDepth ++ ", completion_hook: " ++ toString o.hook ++ " \x7d"

end Filespace
