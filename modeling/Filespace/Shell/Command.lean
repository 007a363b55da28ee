import Filespace.Shell.Error
import Filespace.Text.Blank

/-!
# Commands

A line of the shell is a command with its words. Blanks around the line do not count; a line that is empty or
starts with a number sign asks for nothing, and one that starts with a slash is about the shell itself. The
text to be written is the rest of its line.
-/

namespace Filespace

/-- What a line asks for. -/
inductive Command where
  | nothing
  | quit
  | help
  | status
  | list (path : String)
  | print (path : String)
  /-- Replaces the content of a file by a line, or adds a line to it. -/
  | write (path text : String) (append : Bool)
  | touch (path : String)
  | truncate (path : String) (length : Nat)
  | makeDirectory (path : String) (parents : Bool)
  | removeDirectory (path : String)
  | remove (path : String)
  | move (source target : String)
  | link (target path : String)
  | hardLink (source target : String)
  | readLink (path : String)
  | stat (path : String) (follow : Bool)
  | goTo (path : String)
  | whereAmI
  | flush
  | unknown (word : String)
  deriving DecidableEq

namespace Command

open Text

def oneWord (command : String) (rest : List Char) : Except ShellError String :=
  match words rest with
  | [a] => .ok (String.ofList a)
  | _ => .error (.usage (command ++ " PATH"))

def twoWords (command : String) (rest : List Char) : Except ShellError (String × String) :=
  match words rest with
  | [a, b] => .ok (String.ofList a, String.ofList b)
  | _ => .error (.usage (command ++ " A B"))

/-- A path and the text to be written to it. -/
def pathAndText (append : Bool) (rest : List Char) : Except ShellError Command :=
  let (path, text) := splitWord rest
  if path.isEmpty then .error (.usage "write PATH TEXT")
  else .ok (write (String.ofList path) (String.ofList text) append)

def ofMeta (line : List Char) : Command :=
  let word := String.ofList ((words line).headD [])
  if word = "/quit" ∨ word = "/q" ∨ word = "/exit" then quit
  else if word = "/help" ∨ word = "/h" ∨ word = "/?" then help
  else if word = "/status" then status
  else unknown word

/-- The command with a given first word and the rest of the line. -/
def ofWord (word : String) (rest : List Char) : Except ShellError Command := do
  match word with
  | "ls" => if rest.isEmpty then return list "." else return list (← oneWord "ls" rest)
  | "cat" => return print (← oneWord "cat" rest)
  | "write" => pathAndText false rest
  | "append" => pathAndText true rest
  | "touch" => return touch (← oneWord "touch" rest)
  | "truncate" => do
    let (path, length) ← twoWords "truncate" rest
    return truncate path (← (readNumber length).mapError .badLength)
  | "mkdir" => match wordsOf (String.ofList rest) with
    | [path] => return makeDirectory path false
    | ["-p", path] => return makeDirectory path true
    | _ => throw (.usage "mkdir [-p] PATH")
  | "rmdir" => return removeDirectory (← oneWord "rmdir" rest)
  | "rm" => return remove (← oneWord "rm" rest)
  | "mv" => do
    let (source, target) ← twoWords "mv" rest
    return move source target
  | "ln" => match wordsOf (String.ofList rest) with
    | ["-s", target, path] => return link target path
    | [source, target] => return hardLink source target
    | _ => throw (.usage "ln -s TARGET LINK")
  | "readlink" => return readLink (← oneWord "readlink" rest)
  | "stat" => match wordsOf (String.ofList rest) with
    | [path] => return stat path false
    | ["-L", path] => return stat path true
    | _ => throw (.usage "stat [-L] PATH")
  | "cd" => if rest.isEmpty then return goTo "/" else return goTo (← oneWord "cd" rest)
  | "pwd" => return whereAmI
  | "sync" => return flush
  | word => return unknown word

def ofLine (line : String) : Except ShellError Command :=
  match trim line.toList with
  | [] => .ok nothing
  | '/' :: cs => .ok (ofMeta ('/' :: cs))
  | '#' :: _ => .ok nothing
  | cs =>
    let (word, rest) := splitWord cs
    ofWord (String.ofList word) rest

end Command

end Filespace
