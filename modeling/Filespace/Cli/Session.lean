import Filespace.Cli.Arguments
import Filespace.Cli.History
import Filespace.Cli.Line
import Filespace.Shell.Basic

/-!
# The command line

The arguments decide what instance is opened; a `Session` then does one line after the other until the user is
done or the lines end. Everything happens to a `Host`, so a run is a function of the host, the environment, the
arguments and the lines.
-/

namespace Filespace.Cli

/-- The name and version of the program. -/
def version : String := "syncvfs 0.1.0"

/-- What is shown at the start of a session. -/
def banner : String := "syncvfs v0.1.0\nType /help for commands, /quit to exit.\n\n"

def helpText : String := String.join <| List.map (· ++ "\n")
  ["Interactive shell over a synchronous virtual filesystem",
   "",
   "Usage: syncvfs [OPTIONS]",
   "",
   "Options:",
   "  -c, --config <CONFIG>  Config file (defaults to the XDG config path when it exists)",
   "      --name <NAME>      Instance name, used for default store and symlink locations",
   "      --root <ROOT>      Back the filesystem with this host directory",
   "      --memory           Keep everything in memory",
   "      --cwd <CWD>        Initial working directory inside the filesystem",
   "  -h, --help             Print help",
   "  -V, --version          Print version"]

/-! ### Failures -/

/-- A text with every line after the first moved to the right. -/
def indentLines (indent text : String) : String := ("\n" ++ indent).intercalate (text.splitOn "\n")

/-- A failure and its causes. Several causes are numbered. -/
def failureText : List String → String
  | [] => ""
  | [outer] => outer
  | [outer, cause] => outer ++ "\n\nCaused by:\n    " ++ indentLines "    " cause
  | outer :: causes =>
    let line (n : Nat) (cause : String) : String :=
      let digits := toString n
      "\n" ++ String.ofList (List.replicate (5 - digits.length) ' ') ++ digits ++ ": " ++ indentLines "       " cause
    outer ++ "\n\nCaused by:" ++ String.join (causes.mapIdx line)

/-- What is written when a session cannot be started. -/
def errorText (chain : List String) : String := "Error: " ++ failureText chain ++ "\n"

/-! ### Sessions -/

/-- What is written to the two outputs. -/
structure Output where
  out : String := ""
  err : String := ""
  deriving DecidableEq

/-- One output after another. -/
def Output.append (a b : Output) : Output := ⟨a.out ++ b.out, a.err ++ b.err⟩

/-- A running shell, and the lines typed so far. -/
structure Session where
  shell : Shell Config.Files Config.LinkFiles
  history : History

/-- The configuration that arguments and environment lead to. -/
def configOf (a : Arguments) (env : Environment) (h : Host) : Except ConfigError Config := do
  let base ← match a.config with
    | some location => Config.load location h
    | none => if h.isPresent env.configFile then Config.load env.configFile h else pure {}
  return a.applyTo base

namespace Session

/-- Starts a session, or says why there is none. -/
def start (a : Arguments) (env : Environment) (h : Host) : Except (List String) Session × Host :=
  match configOf a env h with
  | .error e => (.error e.chain, h)
  | .ok c => match c.start env h with
    | (.error e, h) => (.error ("failed to open filesystem" :: e.chain), h)
    | (.ok v, h) => (.ok ⟨{ space := v }, History.load env.historyFile h⟩, h)

/-- Does one line. Work in the background is done before the next. -/
def line (s : Session) (text : String) : Output × Session :=
  let (r, shell) := s.shell.process text
  let output : Output := match r with
    | .ok (some t) => { out := t ++ "\n" }
    | .ok none => {}
    | .error e => { err := "Error: " ++ e.message ++ "\n" }
  (output, { shell := { shell with space := shell.space.drain }, history := s.history.add text })

/-- Does lines until the user is done. Where they end before that, a mark is shown. -/
def lines (s : Session) : List String → Output × Session
  | [] => (if s.shell.done then {} else { out := "^D\n" }, s)
  | l :: ls =>
    if s.shell.done then ({}, s)
    else
      let (output, s) := s.line l
      let (rest, s) := lines s ls
      (output.append rest, s)

/-- Ends a session and gives the host back. -/
def finish (s : Session) (env : Environment) : Host :=
  s.history.save env.historyFile s.shell.space.stop.host

end Session

/-! ### Whole runs -/

def inputLines (input : String) : List String :=
  (Text.lines input).map fun l => String.ofList (edited l)

/-- The end of a run: the status and what was written. -/
structure Result extends Output where
  /-- Zero for success. -/
  status : Nat := 0
  deriving DecidableEq

def run (env : Environment) (args : List String) (input : String) (h : Host) : Result × Host :=
  match Arguments.parse args with
  | .help => ({ out := helpText }, h)
  | .version => ({ out := version ++ "\n" }, h)
  | .refused => ({ status := 2 }, h)
  | .run a => match Session.start a env h with
    | (.error chain, h) => ({ err := errorText chain, status := 1 }, h)
    | (.ok s, _) =>
      let (output, s) := s.lines (inputLines input)
      ({ toOutput := Output.append { out := banner } output }, s.finish env)

end Filespace.Cli
