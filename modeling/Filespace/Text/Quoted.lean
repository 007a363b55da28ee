import Filespace.Text.Unprintable

/-!
# Quoted text

Messages that show a name or a path as the caller gave it put it in double quotes and escape what a
reader could not see: the quote and the backslash, the usual controls by letter, and any other character
without a visible shape of its own by its code point in braces.
-/

namespace Filespace.Text

/-- The lower-case hexadecimal digits of a number, without leading zeros. -/
def hexDigits (n : Nat) : List Char :=
  Nat.toDigits 16 n

/-- One character as it stands between the quotes. -/
def quoteChar (c : Char) : List Char :=
  if c = '\x00' then ['\\', '0']
  else if c = '\t' then ['\\', 't']
  else if c = '\n' then ['\\', 'n']
  else if c = '\r' then ['\\', 'r']
  else if c = '"' then ['\\', '"']
  else if c = '\\' then ['\\', '\\']
  else if isUnprintable c then ['\\', 'u', '\x7b'] ++ hexDigits c.toNat ++ ['\x7d']
  else [c]

def quoted (s : String) : String :=
  String.ofList ('"' :: s.toList.flatMap quoteChar ++ ['"'])

/-- A printable character other than the quote and the backslash stands for itself. -/
theorem quoteChar_of_printable {c : Char} (h : isUnprintable c = false)
    (h₀ : c ≠ '\x00') (ht : c ≠ '\t') (hn : c ≠ '\n') (hr : c ≠ '\r') (hq : c ≠ '"') (hb : c ≠ '\\') :
    quoteChar c = [c] := by
  simp [quoteChar, h, h₀, ht, hn, hr, hq, hb]

end Filespace.Text
