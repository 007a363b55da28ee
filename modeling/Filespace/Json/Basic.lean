/-!
# JSON documents as read

A `Json` value keeps what a typed reader may still have to refuse: the members of an object in order, a
name twice if it was written twice; numbers by whether they are plain digits and whether they fit a double;
and texts that are not made of characters (an unpaired surrogate, bytes that are not UTF-8) as no text at all.
Parts of a document that nobody asks for need only be well-formed, so these cases are decided by whoever looks
at them (`Json.strict`).
-/

namespace Filespace

/-- A number of a document, as far as anyone asks. -/
structure Json.Number where
  /-- Its value, if it is written as digits only. -/
  whole : Option Nat
  /-- Is its magnitude in the range of a double? -/
  finite : Bool
  deriving DecidableEq

/-- A document. -/
inductive Json where
  | null
  | bool (b : Bool)
  | number (n : Json.Number)
  /-- A text, or none if its bytes and escapes are not all characters. -/
  | text (s : Option String)
  | array (items : List Json)
  | object (members : List (Option String × Json))
  deriving Inhabited

namespace Json

mutual

/-- Can every part be kept as a value? Texts must be texts, numbers must fit a double, and arrays and objects
may be nested in at most `depth` levels. -/
def strict (depth : Nat) : Json → Bool
  | null | bool _ => true
  | number n => n.finite
  | text s => s.isSome
  | array items => match depth with
    | 0 => false
    | d + 1 => strictItems d items
  | object members => match depth with
    | 0 => false
    | d + 1 => strictMembers d members

/-- `strict` for each item. -/
def strictItems (depth : Nat) : List Json → Bool
  | [] => true
  | j :: js => strict depth j && strictItems depth js

/-- `strict` for each member and its name. -/
def strictMembers (depth : Nat) : List (Option String × Json) → Bool
  | [] => true
  | (k, j) :: ms => k.isSome && strict depth j && strictMembers depth ms

end

/-- How deep arrays and objects may be nested where they are kept. -/
def maxDepth : Nat := 127

/-! ### Typed views -/

def text? : Json → Option String
  | text s => s
  | _ => none

def natBelow? (bound : Nat) : Json → Option Nat
  | number ⟨some n, _⟩ => if n < bound then some n else none
  | _ => none

def word? (j : Json) : Option Nat := j.natBelow? UInt64.size

/-- Names of members, all of which must be texts. -/
def names? (members : List (Option String × Json)) : Option (List (String × Json)) :=
  members.mapM fun (k, j) => k.map (·, j)

/-- The value of a member that must be there exactly once. -/
def field? (name : String) (members : List (String × Json)) : Option Json :=
  match members.filter fun m => m.1 = name with
  | [m] => some m.2
  | _ => none

end Json

end Filespace
