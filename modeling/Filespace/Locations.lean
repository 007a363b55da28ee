import Filespace.Host.Location

/-!
# Where things are kept

Data and configuration live in directories of their own below those that the environment names, or else below
the home directory.
-/

namespace Filespace

/-- The part of the environment that decides where things are kept. -/
structure Environment where
  /-- The home directory, if it is given. -/
  home : Option String := none
  /-- The home directory of the account, used if no other is given. -/
  accountHome : String := "/root"
  /-- The directory for data, if it is given. -/
  dataHome : Option String := none
  /-- The directory for configuration, if it is given. -/
  configHome : Option String := none
  deriving DecidableEq

namespace Environment

open Host.Location

/-- The environment in which variables have the given values. -/
def ofVariables (get : String → Option String) : Environment :=
  { home := get "HOME", dataHome := get "XDG_DATA_HOME", configHome := get "XDG_CONFIG_HOME" }

def homeDirectory (env : Environment) : String :=
  match env.home with
  | some h => if h.isEmpty then env.accountHome else h
  | none => env.accountHome

/-- A directory that the environment names by an absolute location, or one below the home directory. -/
def baseDirectory (env : Environment) (given : Option String) (below : String) : String :=
  match given with
  | some d => if isAbsolute d then d else join env.homeDirectory below
  | none => join env.homeDirectory below

def dataDirectory (env : Environment) : String :=
  join (env.baseDirectory env.dataHome ".local/share") "syncvfs"

def configDirectory (env : Environment) : String :=
  join (env.baseDirectory env.configHome ".config") "syncvfs"

/-- The configuration that is used if no other is named. -/
def configFile (env : Environment) : String := join env.configDirectory "config.toml"

/-- The directory with the files of a named instance. -/
def storeRoot (env : Environment) (name : String) : String := join (join env.dataDirectory "stores") name

/-- The link records of a named instance. -/
def linkFile (env : Environment) (name : String) : String :=
  join (join env.dataDirectory "symlinks") (name ++ ".json")

def historyFile (env : Environment) : String := join env.dataDirectory "history.txt"

end Environment

end Filespace
