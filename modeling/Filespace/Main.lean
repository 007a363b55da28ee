import Filespace.Cli.Session
import Filespace.Host.Changes

/-!
# The program

The command line on the machine that it runs on. What a session can touch is read before it starts: the
configuration, the directory of the store, the document with the links and the lines typed before. After every
line the machine is brought to the state of the session's host.
-/

namespace Filespace.Program

open Storage (StoreM)

def locationOf (p : Path) : String := p.display

def apply : Host.Change → IO Unit
  | .removeFile p => IO.FS.removeFile (locationOf p)
  | .removeDirectory p => IO.FS.removeDir (locationOf p)
  | .makeDirectory p => IO.FS.createDirAll (locationOf p)
  | .putContent p bytes => IO.FS.writeBinFile (locationOf p) ⟨bytes.toArray⟩
  | .makeLink _ _ => pure ()

/-- Brings the machine from one state to another. Changes that it refuses are passed over. -/
def update (old new : Host) : IO Unit := do
  for c in Host.changes old new do
    try apply c catch _ => pure ()

/-- Takes a step on the host, whatever comes of it. -/
def step (x : StoreM Host Unit) (h : Host) : Host := (x h).2

/-- Reads what is at a location into a host, with all that is below it. -/
partial def fetch (location : String) (h : Host) : IO Host := do
  let place := (← IO.currentDir) / location
  try
    if ← place.isDir then
      let mut h := step (Host.makeAll place.toString) h
      for e in ← place.readDir do
        h ← fetch e.path.toString h
      return h
    else
      let bytes ← IO.FS.readBinFile place
      return step (Host.putContentBelow place.toString bytes.data.toList) h
  catch _ => return h

def environment : IO Environment := do
  let home ← IO.getEnv "HOME"
  let dataHome ← IO.getEnv "XDG_DATA_HOME"
  let configHome ← IO.getEnv "XDG_CONFIG_HOME"
  return { home := home, dataHome := dataHome, configHome := configHome }

/-- What a session with the given arguments can touch, read into a host. -/
def snapshot (a : Cli.Arguments) (env : Environment) : IO Host := do
  let here ← IO.currentDir
  let h : Host := step (Host.makeAll here.toString) {}
  let h := match Path.parse here.toString with
    | .ok p => { h with workingDirectory := p }
    | .error _ => h
  let h ← fetch (a.config.getD env.configFile) h
  match Cli.configOf a env h with
  | .error _ => return h
  | .ok c =>
    let mut h := h
    for location in (c.storeRoot? env).toList ++ (c.linkFile? env).toList ++ [env.historyFile] do
      h ← fetch location h
    return h

def write (o : Cli.Output) : IO Unit := do
  (← IO.getStdout).putStr o.out
  (← IO.getStdout).flush
  (← IO.getStderr).putStr o.err

/-- Does lines until the user is done, and then saves what is left to save. -/
partial def loop (env : Environment) (known : Host) (s : Cli.Session) : IO UInt32 := do
  let line ← if s.shell.done then pure "" else (← IO.getStdin).getLine
  if line.isEmpty then
    write (s.lines []).1
    update known (s.finish env)
    return 0
  else
    let (output, s) := s.line ((Cli.inputLines line).headD "")
    write output
    update known s.shell.space.world.host
    loop env s.shell.space.world.host s

def run (args : List String) : IO UInt32 := do
  match Cli.Arguments.parse args with
  | .help => do
    write { out := Cli.helpText }
    return 0
  | .version => do
    write { out := Cli.version ++ "\n" }
    return 0
  | .refused => return 2
  | .run a => do
    let env ← environment
    let h ← snapshot a env
    match Cli.Session.start a env h with
    | (.error chain, new) => do
      update h new
      write { err := Cli.errorText chain }
      return 1
    | (.ok s, new) => do
      update h new
      write { out := Cli.banner }
      loop env new s

end Filespace.Program

def main (args : List String) : IO UInt32 := Filespace.Program.run args
