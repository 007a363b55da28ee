import Filespace.Error

/-!
# Failures of the shell

A line of the shell fails because the namespace refused, because it is not of the form that its command asks
for, or because a length is no number.
-/

namespace Filespace

/-- Why a text is no number below 2 ^ 64. -/
inductive NumberFault where
  | empty
  | badDigit
  | tooLarge
  deriving DecidableEq

def NumberFault.message : NumberFault → String
  | empty => "cannot parse integer from empty string"
  | badDigit => "invalid digit found in string"
  | tooLarge => "number too large to fit in target type"

/-- One more digit. The digit is looked at before the size. -/
def appendDigit (n : Nat) (c : Char) : Except NumberFault Nat :=
  if ¬ c.isDigit then .error .badDigit
  else
    let m := n * 10 + (c.toNat - '0'.toNat)
    if m < UInt64.size then .ok m else .error .tooLarge

/-- The number that a text stands for. A plus sign may precede it. -/
def readNumber (s : String) : Except NumberFault Nat :=
  match s.toList with
  | [] => .error .empty
  | ['+'] => .error .badDigit
  | '+' :: cs => cs.foldlM appendDigit 0
  | cs => cs.foldlM appendDigit 0

/-- Why a line failed. -/
inductive ShellError where
  | space (e : Error)
  /-- The line is not of the form that the command asks for. -/
  | usage (form : String)
  | badLength (fault : NumberFault)
  deriving DecidableEq

namespace ShellError

/-- The failure and what caused it, outermost first. -/
def chain : ShellError → List String
  | space e => [e.display]
  | usage form => ["usage: " ++ form]
  | badLength f => ["truncate: length must be a number", f.message]

def message (e : ShellError) : String := e.chain.headD ""

/-- The class of the failure of the namespace, if it is one. -/
def code? : ShellError → Option Code
  | space e => some e.code
  | usage _ | badLength _ => none

end ShellError

end Filespace
