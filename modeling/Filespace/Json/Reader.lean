import Filespace.Content
import Filespace.Json.Basic
import Filespace.Text.Double
import Filespace.Text.Utf8

/-!
# Reading JSON

A reader of the JSON grammar over the bytes of a document. All that the grammar knows is ASCII, so a byte is
looked at as the character with its number; only the bytes inside a text are put together to characters, once
the text is complete. Blanks are the space, the tab and the two line ends; a number has no leading zeros and no
bare point; a text has no raw controls. Each function returns what it read and what is left. The recursion
through arrays and objects is bounded by the length of the document, which every level shortens.
-/

namespace Filespace.Json

open Text (hexValue? takeDigits digitsValue fitsQuickly)

/-- A character that may stand between the parts of a document. -/
def isSpace (c : Char) : Bool := c = ' ' || c = '\t' || c = '\n' || c = '\r'

def skip (cs : List Char) : List Char := cs.dropWhile isSpace

/-! ### Texts -/

/-- The value of four hexadecimal digits. -/
def hex4? (a b c d : Char) : Option Nat := do
  return (((← hexValue? a) * 16 + (← hexValue? b)) * 16 + (← hexValue? c)) * 16 + (← hexValue? d)

/-- The code point of a one-letter escape. -/
def shortEscape? (c : Char) : Option Nat :=
  if c = '"' ∨ c = '\\' ∨ c = '/' then some c.toNat
  else if c = 'b' then some 0x08
  else if c = 'f' then some 0x0c
  else if c = 'n' then some 0x0a
  else if c = 'r' then some 0x0d
  else if c = 't' then some 0x09
  else none

/-- A piece of a text as written. -/
inductive Piece where
  | byte (b : Char)
  /-- A code unit that an escape names, maybe half of a surrogate pair. -/
  | unit (u : Nat)
  deriving DecidableEq

/-- The pieces of a text up to its closing quote. -/
def scanPieces : List Char → Option (List Piece × List Char)
  | [] => none
  | '"' :: cs => some ([], cs)
  | '\\' :: 'u' :: a :: b :: c :: d :: cs => do
    let u ← hex4? a b c d
    let (ps, rest) ← scanPieces cs
    return (.unit u :: ps, rest)
  | '\\' :: e :: cs => do
    let u ← shortEscape? e
    let (ps, rest) ← scanPieces cs
    return (.unit u :: ps, rest)
  | c :: cs =>
    if c < ' ' ∨ c = '\\' then none
    else do
      let (ps, rest) ← scanPieces cs
      return (.byte c :: ps, rest)

/-- The bytes of a character with a given code point. -/
def unitBytes (u : Nat) : Bytes := String.utf8EncodeChar (Char.ofNat u)

/-- Is the number the first half of a surrogate pair? -/
def isLead (u : Nat) : Bool := 0xd800 ≤ u && u < 0xdc00

/-- Is the number the second half of a surrogate pair? -/
def isTrail (u : Nat) : Bool := 0xdc00 ≤ u && u < 0xe000

/-- The bytes that pieces stand for, if every surrogate is one half of a pair. -/
def pieceBytes : List Piece → Option Bytes
  | [] => some []
  | .byte b :: ps => (pieceBytes ps).map (b.toNat.toUInt8 :: ·)
  | .unit u :: ps =>
    if isTrail u then none
    else if isLead u then match ps with
      | .unit v :: ps =>
        if isTrail v then
          (pieceBytes ps).map (unitBytes (0x10000 + (u - 0xd800) * 0x400 + (v - 0xdc00)) ++ ·)
        else none
      | _ => none
    else (pieceBytes ps).map (unitBytes u ++ ·)

def readText (cs : List Char) : Option (Option String × List Char) := do
  let (ps, rest) ← scanPieces cs
  return ((pieceBytes ps).bind fun bytes => String.fromUTF8? ⟨bytes.toArray⟩, rest)

/-! ### Numbers -/

/-- The part of a number after its point, if it has one. -/
def readFraction : List Char → Option (Option (List Char) × List Char)
  | '.' :: cs =>
    let (ds, rest) := takeDigits cs
    if ds.isEmpty then none else some (some ds, rest)
  | cs => some (none, cs)

/-- The exponent of a number, if it has one. -/
def readExponent : List Char → Option (Option Int × List Char)
  | c :: cs =>
    if c = 'e' ∨ c = 'E' then
      let (negative, body) := match cs with
        | '-' :: r => (true, r)
        | '+' :: r => (false, r)
        | r => (false, r)
      let (ds, rest) := takeDigits body
      if ds.isEmpty then none
      else
        let n : Int := digitsValue 10 ds
        some (some (if negative then -n else n), rest)
    else some (none, c :: cs)
  | [] => some (none, [])

def readNumber (cs : List Char) : Option (Number × List Char) := do
  let (negative, body) := match cs with
    | '-' :: r => (true, r)
    | r => (false, r)
  let (ds, rest) := takeDigits body
  if ds.isEmpty ∨ (ds.length > 1 ∧ ds.head? = some '0') then none
  else
    let (fraction, rest) ← readFraction rest
    let (exponent, rest) ← readExponent rest
    let whole := if negative ∨ fraction.isSome ∨ exponent.isSome then none else some (digitsValue 10 ds)
    return (⟨whole, fitsQuickly ds (fraction.getD []) (exponent.getD 0)⟩, rest)

/-! ### Values -/

def afterWord? : List Char → List Char → Option (List Char)
  | [], cs => some cs
  | _ :: _, [] => none
  | w :: ws, c :: cs => if w = c then afterWord? ws cs else none

mutual

def readValue : Nat → List Char → Option (Json × List Char)
  | 0, _ => none
  | fuel + 1, cs => match skip cs with
    | [] => none
    | '"' :: r => (readText r).map fun (s, rest) => (text s, rest)
    | '[' :: r => match skip r with
      | ']' :: rest => some (array [], rest)
      | r => do
        let (j, rest) ← readValue fuel r
        let (js, rest) ← readItems fuel rest
        return (array (j :: js), rest)
    | '\x7b' :: r => match skip r with
      | '\x7d' :: rest => some (object [], rest)
      | r => do
        let (m, rest) ← readMember fuel r
        let (ms, rest) ← readMembers fuel rest
        return (object (m :: ms), rest)
    | c :: r =>
      if c = 'n' then (afterWord? ['u', 'l', 'l'] r).map (null, ·)
      else if c = 't' then (afterWord? ['r', 'u', 'e'] r).map (bool true, ·)
      else if c = 'f' then (afterWord? ['a', 'l', 's', 'e'] r).map (bool false, ·)
      else (readNumber (c :: r)).map fun (n, rest) => (number n, rest)

/-- The items of an array after its first one. -/
def readItems : Nat → List Char → Option (List Json × List Char)
  | 0, _ => none
  | fuel + 1, cs => match skip cs with
    | ']' :: rest => some ([], rest)
    | ',' :: r => do
      let (j, rest) ← readValue fuel r
      let (js, rest) ← readItems fuel rest
      return (j :: js, rest)
    | _ => none

def readMember : Nat → List Char → Option ((Option String × Json) × List Char)
  | 0, _ => none
  | fuel + 1, cs => match skip cs with
    | '"' :: r => do
      let (k, rest) ← readText r
      match skip rest with
      | ':' :: r => do
        let (j, rest) ← readValue fuel r
        return ((k, j), rest)
      | _ => none
    | _ => none

/-- The members of an object after its first one. -/
def readMembers : Nat → List Char → Option (List (Option String × Json) × List Char)
  | 0, _ => none
  | fuel + 1, cs => match skip cs with
    | '\x7d' :: rest => some ([], rest)
    | ',' :: r => do
      let (m, rest) ← readMember fuel r
      let (ms, rest) ← readMembers fuel rest
      return (m :: ms, rest)
    | _ => none

end

/-- The document that bytes hold. Nothing but blanks may follow it. -/
def ofBytes? (bytes : Bytes) : Option Json := do
  let cs := bytes.map fun b => Char.ofNat b.toNat
  let (j, rest) ← readValue (2 * cs.length + 2) cs
  if (skip rest).isEmpty then some j else none

def parse? (s : String) : Option Json := ofBytes? (Text.utf8 s)

end Filespace.Json
