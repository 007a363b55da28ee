import Filespace.Text.Digits

/-!
# Numbers that fit a double

A double has 53 significant bits and is below 2 ^ 1024. Whether a decimal number fits depends on how it is
turned into one: exactly, and rounded once at the end (`fitsDouble`), or quickly, from as many digits as fit a
word and a power of ten, each of which is rounded before they are multiplied (`fitsQuickly`). The two differ
only next to the bound.
-/

namespace Filespace.Text

/-- The first magnitude that no longer rounds to a double: it is half a step from the power of two above the
largest one. -/
def doubleBound : Nat := 1 <<< 1024 - 1 <<< 970

/-- Does `m * 10 ^ e` fit a double? Far from the bound the number of digits decides. -/
def fitsDouble (m : Nat) (e : Int) : Bool :=
  if m = 0 then true
  else
    let digits : Int := (toString m).length
    if digits + e < 309 then true
    else if digits + e > 309 then false
    else if 0 ≤ e then m * Nat.pow 10 e.toNat < doubleBound
    else m < doubleBound * Nat.pow 10 (-e).toNat

/-- The nearest number with 53 significant bits; a tie goes to the even one. -/
def nearest53 (n : Nat) : Nat :=
  let unit := 1 <<< (n.log2 + 1 - 53)
  let q := n / unit
  let twice := 2 * (n % unit)
  (if twice < unit ∨ (twice = unit ∧ q % 2 = 0) then q else q + 1) * unit

/-- As many digits in front as fit a word together with a number before them, and the digits left. -/
def gatherWord (n : Nat) : List Char → Nat × List Char
  | [] => (n, [])
  | d :: ds =>
    let m := n * 10 + (hexValue? d).getD 0
    if m < UInt64.size then gatherWord m ds else (n, d :: ds)

/-- Does the number with given digits before and after the point and a given exponent fit a double, if it is
worked out quickly? Digits that no longer fit the word count as zeros. -/
def fitsQuickly (whole fraction : List Char) (exponent : Int) : Bool :=
  let (n, more) := gatherWord 0 whole
  let (n, unread) := gatherWord n fraction
  let e := exponent + more.length - (fraction.length - unread.length : Nat)
  n = 0 || e < 0 || (e ≤ 308 && nearest53 n * nearest53 (Nat.pow 10 e.toNat) < doubleBound)

/-- A number of at most 53 bits is its own nearest. -/
theorem nearest53_of_lt {n : Nat} (h : n.log2 < 53) : nearest53 n = n := by
  have hlog : n.log2 + 1 - 53 = 0 := by
    omega
  simp [nearest53, hlog, Nat.mod_one]

end Filespace.Text
