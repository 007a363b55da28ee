import Filespace.Text.Quoted

/-!
# JSON texts

How a text is written in a document: in double quotes, with the quote, the backslash and the controls
escaped and every other character as it is.
-/

namespace Filespace.Json

/-- Two hexadecimal digits of a number below 256. -/
def hex2 (n : Nat) : List Char := [Nat.digitChar (n / 16), Nat.digitChar (n % 16)]

/-- One character between the quotes of a text. -/
def escapeChar (c : Char) : List Char :=
  if c = '"' then ['\\', '"']
  else if c = '\\' then ['\\', '\\']
  else if c = '\x08' then ['\\', 'b']
  else if c = '\x0c' then ['\\', 'f']
  else if c = '\n' then ['\\', 'n']
  else if c = '\r' then ['\\', 'r']
  else if c = '\t' then ['\\', 't']
  else if c < ' ' then ['\\', 'u', '0', '0'] ++ hex2 c.toNat
  else [c]

/-- The characters of a text in a document. -/
def printChars (cs : List Char) : List Char := '"' :: cs.flatMap escapeChar ++ ['"']

def printText (s : String) : String := String.ofList (printChars s.toList)

end Filespace.Json
