import Filespace.Text.Double
import Filespace.Toml.Basic

/-!
# Texts, numbers and points in time

The values of a document that have no parts. A text is read from its opening quote on, and what is left
after its closing quote is returned; all other values are words without blanks, recognised as a whole.
-/

namespace Filespace.Toml

open Text (hexValue? isDigitOf digitsValue takeDigits fitsDouble scalar?)

/-! ### Texts -/

/-- A character that may stand in a text or a comment as it is: no control other than the tab. -/
def isPrintable (c : Char) : Bool := c = '\t' || (' ' ≤ c && c ≠ '\x7f')

/-- The character of a one-letter escape. -/
def escape? (c : Char) : Option Char :=
  if c = '"' ∨ c = '\\' then some c
  else if c = 'b' then some '\x08'
  else if c = 't' then some '\t'
  else if c = 'n' then some '\n'
  else if c = 'f' then some '\x0c'
  else if c = 'r' then some '\r'
  else if c = 'e' then some '\x1b'
  else none

/-- The character whose code point is written in hexadecimal. -/
def codePoint? (ds : List Char) : Option Char := do
  if ds.all (isDigitOf 16) then scalar? (digitsValue 16 ds) else none

def readBasic : List Char → Option (List Char × List Char)
  | [] => none
  | '"' :: cs => some ([], cs)
  | '\\' :: 'x' :: a :: b :: cs => do
    let x ← codePoint? [a, b]
    let (t, rest) ← readBasic cs
    return (x :: t, rest)
  | '\\' :: 'u' :: a :: b :: c :: d :: cs => do
    let x ← codePoint? [a, b, c, d]
    let (t, rest) ← readBasic cs
    return (x :: t, rest)
  | '\\' :: 'U' :: a :: b :: c :: d :: e :: f :: g :: h :: cs => do
    let x ← codePoint? [a, b, c, d, e, f, g, h]
    let (t, rest) ← readBasic cs
    return (x :: t, rest)
  | '\\' :: e :: cs => do
    let x ← escape? e
    let (t, rest) ← readBasic cs
    return (x :: t, rest)
  | c :: cs =>
    if isPrintable c ∧ c ≠ '\\' then do
      let (t, rest) ← readBasic cs
      return (c :: t, rest)
    else none

def readLiteral : List Char → Option (List Char × List Char)
  | [] => none
  | '\'' :: cs => some ([], cs)
  | c :: cs =>
    if isPrintable c then do
      let (t, rest) ← readLiteral cs
      return (c :: t, rest)
    else none

def blankLine (cs : List Char) : Bool :=
  match cs.dropWhile fun c => c = ' ' || c = '\t' with
  | '\n' :: _ | '\r' :: '\n' :: _ => true
  | _ => false

/-- The text up to three double quotes; up to two more are part of it. A backslash at the end of a line joins
it to the next character that is no blank; while that is looked for, `joining` holds. -/
def readLong (joining : Bool) : List Char → Option (List Char × List Char)
  | [] => none
  | '"' :: '"' :: '"' :: '"' :: '"' :: cs => some (['"', '"'], cs)
  | '"' :: '"' :: '"' :: '"' :: cs => some (['"'], cs)
  | '"' :: '"' :: '"' :: cs => some ([], cs)
  | '\\' :: 'x' :: a :: b :: cs => do
    let x ← codePoint? [a, b]
    let (t, rest) ← readLong false cs
    return (x :: t, rest)
  | '\\' :: 'u' :: a :: b :: c :: d :: cs => do
    let x ← codePoint? [a, b, c, d]
    let (t, rest) ← readLong false cs
    return (x :: t, rest)
  | '\\' :: 'U' :: a :: b :: c :: d :: e :: f :: g :: h :: cs => do
    let x ← codePoint? [a, b, c, d, e, f, g, h]
    let (t, rest) ← readLong false cs
    return (x :: t, rest)
  | '\\' :: e :: cs =>
    if blankLine (e :: cs) then readLong true cs
    else do
      let x ← escape? e
      let (t, rest) ← readLong false cs
      return (x :: t, rest)
  | '\r' :: '\n' :: cs =>
    if joining then readLong true cs
    else do
      let (t, rest) ← readLong false cs
      return ('\r' :: '\n' :: t, rest)
  | c :: cs =>
    if joining ∧ (c = ' ' ∨ c = '\t' ∨ c = '\n') then readLong true cs
    else if (isPrintable c ∨ c = '\n') ∧ c ≠ '\\' then do
      let (t, rest) ← readLong false cs
      return (c :: t, rest)
    else none

/-- The text up to three single quotes; up to two more are part of it. -/
def readLongLiteral : List Char → Option (List Char × List Char)
  | [] => none
  | '\'' :: '\'' :: '\'' :: '\'' :: '\'' :: cs => some (['\'', '\''], cs)
  | '\'' :: '\'' :: '\'' :: '\'' :: cs => some (['\''], cs)
  | '\'' :: '\'' :: '\'' :: cs => some ([], cs)
  | '\r' :: '\n' :: cs => do
    let (t, rest) ← readLongLiteral cs
    return ('\r' :: '\n' :: t, rest)
  | c :: cs =>
    if isPrintable c ∨ c = '\n' then do
      let (t, rest) ← readLongLiteral cs
      return (c :: t, rest)
    else none

/-- The characters after a line end in front. -/
def afterLine : List Char → List Char
  | '\n' :: cs => cs
  | '\r' :: '\n' :: cs => cs
  | cs => cs

/-- A text from its opening quote on, if there is one. -/
def readText? : List Char → Option (Option (String × List Char))
  | '"' :: '"' :: '"' :: cs => some ((readLong false (afterLine cs)).map fun (t, r) => (String.ofList t, r))
  | '"' :: cs => some ((readBasic cs).map fun (t, r) => (String.ofList t, r))
  | '\'' :: '\'' :: '\'' :: cs => some ((readLongLiteral (afterLine cs)).map fun (t, r) => (String.ofList t, r))
  | '\'' :: cs => some ((readLiteral cs).map fun (t, r) => (String.ofList t, r))
  | _ => none

/-! ### Numbers -/

/-- Digits without the underscores between them. An underscore stands between two digits. -/
def ungroup? (isDigit : Char → Bool) : List Char → Option (List Char)
  | [] => none
  | [c] => if isDigit c then some [c] else none
  | c :: '_' :: cs => if isDigit c then (ungroup? isDigit cs).map (c :: ·) else none
  | c :: cs => if isDigit c then (ungroup? isDigit cs).map (c :: ·) else none

/-- Digits that start with a zero only if there is no other. -/
def plainDigits? (cs : List Char) : Option (List Char) := do
  let ds ← ungroup? Char.isDigit cs
  if ds.length > 1 ∧ ds.head? = some '0' then none else some ds

def takeSign : List Char → Option Bool × List Char
  | '+' :: cs => (some false, cs)
  | '-' :: cs => (some true, cs)
  | cs => (none, cs)

/-- A whole number. Numbers that need more than 128 bits are refused. -/
def integer? (cs : List Char) : Option Int := do
  let (sign, body) := takeSign cs
  let based (base : Nat) (ds : List Char) : Option Nat :=
    if sign.isSome then none else (ungroup? (isDigitOf base) ds).map (digitsValue base)
  let n ← match body with
    | '0' :: 'x' :: ds => based 16 ds
    | '0' :: 'o' :: ds => based 8 ds
    | '0' :: 'b' :: ds => based 2 ds
    | ds => (plainDigits? ds).map (digitsValue 10)
  let n : Int := if sign = some true then -n else n
  if -(1 <<< 127 : Nat) ≤ n ∧ n < (1 <<< 128 : Nat) then some n else none

/-- Is the text a fraction, an infinity or no number? A fraction beyond the range of a double is refused. -/
def isFloat (cs : List Char) : Bool :=
  let body := (takeSign cs).2
  body = ['i', 'n', 'f'] || body = ['n', 'a', 'n'] ||
    let isPart (c : Char) : Bool := c.isDigit || c = '_'
    let whole := body.takeWhile isPart
    let (fraction, rest) := match body.dropWhile isPart with
      | '.' :: r => (some (r.takeWhile isPart), r.dropWhile isPart)
      | r => (none, r)
    let exponent := match rest with
      | 'e' :: r | 'E' :: r => some (takeSign r)
      | _ => none
    let parsed : Option (Nat × Int) := do
      let w ← plainDigits? whole
      let f ← match fraction with
        | some f => ungroup? Char.isDigit f
        | none => some []
      let e ← match exponent with
        | some (sign, ds) => do
          let n : Int := digitsValue 10 (← ungroup? Char.isDigit ds)
          some (if sign = some true then -n else n)
        | none => if rest.isEmpty ∧ fraction.isSome then some 0 else none
      return (digitsValue 10 (w ++ f), e - f.length)
    parsed.any fun (m, e) => fitsDouble m e

/-! ### Points in time -/

/-- A number of exactly `n` digits in front. -/
def fixed? (n : Nat) (cs : List Char) : Option (Nat × List Char) :=
  let ds := cs.take n
  if ds.length = n ∧ ds.all Char.isDigit then some (digitsValue 10 ds, cs.drop n) else none

def daysIn (year month : Nat) : Nat :=
  if month = 2 then if year % 4 = 0 ∧ (year % 100 ≠ 0 ∨ year % 400 = 0) then 29 else 28
  else if month = 4 ∨ month = 6 ∨ month = 9 ∨ month = 11 then 30 else 31

def after? (c : Char) : List Char → Option (List Char)
  | d :: cs => if c = d then some cs else none
  | [] => none

def date? (cs : List Char) : Option (List Char) := do
  let (year, cs) ← fixed? 4 cs
  let (month, cs) ← fixed? 2 (← after? '-' cs)
  let (day, cs) ← fixed? 2 (← after? '-' cs)
  if 1 ≤ month ∧ month ≤ 12 ∧ 1 ≤ day ∧ day ≤ daysIn year month then some cs else none

/-- What follows a time of day in front. Seconds and their fraction may be left out. -/
def time? (cs : List Char) : Option (List Char) := do
  let (hour, cs) ← fixed? 2 cs
  let (minute, cs) ← fixed? 2 (← after? ':' cs)
  if 23 < hour ∨ 59 < minute then none
  else match cs with
    | ':' :: cs => do
      let (second, cs) ← fixed? 2 cs
      if 60 < second then none
      else match cs with
        | '.' :: cs =>
          let (ds, cs) := takeDigits cs
          if ds.isEmpty then none else some cs
        | cs => some cs
    | cs => some cs

/-- Is the text the distance of a zone, or nothing? -/
def isZone : List Char → Bool
  | [] | ['Z'] | ['z'] => true
  | c :: cs => (c = '+' || c = '-') && (do
      let (hour, cs) ← fixed? 2 cs
      let (minute, cs) ← fixed? 2 (← after? ':' cs)
      if cs.isEmpty ∧ hour ≤ 23 ∧ minute ≤ 59 then some () else none : Option Unit).isSome

/-- Is the text a date, a time of day, or both? -/
def isMoment (cs : List Char) : Bool :=
  match date? cs with
  | some [] => true
  | some (c :: r) => (c = 'T' || c = 't' || c = ' ') && (time? r).any isZone
  | none => time? cs = some []

/-! ### Words -/

/-- May the character be part of a word? -/
def isWordChar (c : Char) : Bool := !(" \t\r\n,]\x7d#".contains c)

/-- The word in front. A time of day after a date and a space belongs to it. -/
def takeWord (cs : List Char) : List Char × List Char :=
  let word := cs.takeWhile isWordChar
  let rest := cs.dropWhile isWordChar
  match rest with
  | ' ' :: d :: r =>
    if date? word = some [] ∧ d.isDigit then
      (word ++ ' ' :: (d :: r).takeWhile isWordChar, (d :: r).dropWhile isWordChar)
    else (word, rest)
  | _ => (word, rest)

def ofWord? (w : List Char) : Option Toml :=
  if w = ['t', 'r', 'u', 'e'] then some (bool true)
  else if w = ['f', 'a', 'l', 's', 'e'] then some (bool false)
  else match integer? w with
    | some n => some (integer n)
    | none => if isFloat w then some float else if isMoment w then some moment else none

end Filespace.Toml
