/-!
# Digits

Numbers written in a positional system, most significant digit first.
-/

namespace Filespace.Text

/-- The value of a digit up to `f`, in either case. -/
def hexValue? (c : Char) : Option Nat :=
  if '0' ≤ c ∧ c ≤ '9' then some (c.toNat - '0'.toNat)
  else if 'a' ≤ c ∧ c ≤ 'f' then some (c.toNat - 'a'.toNat + 10)
  else if 'A' ≤ c ∧ c ≤ 'F' then some (c.toNat - 'A'.toNat + 10)
  else none

/-- Is the character a digit of the system with a given base? -/
def isDigitOf (base : Nat) (c : Char) : Bool := (hexValue? c).any fun d => d < base

/-- The value of digits in the system with a given base. -/
def digitsValue (base : Nat) (ds : List Char) : Nat :=
  ds.foldl (fun n d => n * base + (hexValue? d).getD 0) 0

def takeDigits (cs : List Char) : List Char × List Char :=
  (cs.takeWhile Char.isDigit, cs.dropWhile Char.isDigit)

/-- The character with a given code point. Surrogates and numbers above the last code point are none. -/
def scalar? (n : Nat) : Option Char :=
  if n < 0xd800 ∨ (0xe000 ≤ n ∧ n < 0x110000) then some (Char.ofNat n) else none

@[simp] theorem digitsValue_nil (base : Nat) : digitsValue base [] = 0 := rfl

/-- A digit at the end counts once, those before it count for the base. -/
theorem digitsValue_concat (base : Nat) (ds : List Char) (d : Char) :
    digitsValue base (ds ++ [d]) = digitsValue base ds * base + (hexValue? d).getD 0 := by
  simp [digitsValue, List.foldl_append]

end Filespace.Text
