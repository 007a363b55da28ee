/-!
# TOML documents

A document is a table; a value is a text, a number, a truth value, a point in time, an array or a table. Only
whole numbers are kept by value: a fraction or a point in time is never asked for and only has to be
well-formed.
-/

namespace Filespace

/-- A value of a document. -/
inductive Toml where
  | text (s : String)
  | integer (n : Int)
  | float
  | moment
  | bool (b : Bool)
  | array (items : List Toml)
  /-- Members in the order in which they are first named. -/
  | table (members : List (String × Toml))
  deriving Inhabited

namespace Toml

def text? : Toml → Option String
  | text s => some s
  | _ => none

/-- The truth value, if the value is one. -/
def bool? : Toml → Option Bool
  | bool b => some b
  | _ => none

/-- The number below 2 ^ 64, if the value is one. -/
def word? : Toml → Option Nat
  | integer n => if 0 ≤ n ∧ n < UInt64.size then some n.toNat else none
  | _ => none

/-- A text that stands for itself or is the only name in a table, over nothing. -/
def choice? : Toml → Option String
  | text s => some s
  | table [(k, array [])] | table [(k, table [])] => some k
  | _ => none

mutual

/-- Do all whole numbers of a value fit 64 bits, with or without a sign? -/
def fitsWords : Toml → Bool
  | integer n => -(UInt64.size / 2 : Nat) ≤ n && n < UInt64.size
  | array items => itemsFitWords items
  | table members => membersFitWords members
  | _ => true

/-- `fitsWords` for each item. -/
def itemsFitWords : List Toml → Bool
  | [] => true
  | v :: vs => fitsWords v && itemsFitWords vs

/-- `fitsWords` for each member. -/
def membersFitWords : List (String × Toml) → Bool
  | [] => true
  | (_, v) :: ms => fitsWords v && membersFitWords ms

end

end Toml

end Filespace
