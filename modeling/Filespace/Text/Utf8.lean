/-!
# UTF-8

A text as bytes, and bytes as text. Bytes that are not well-formed are read all the same: every longest start
of a character that is not continued becomes one replacement character.
-/

namespace Filespace.Text

def utf8 (s : String) : List UInt8 := s.toList.flatMap String.utf8EncodeChar

/-- What stands for bytes that are no character. -/
def replacement : Char := '�'

/-- A byte that continues a character. -/
def isTail (b : UInt8) : Bool := 0x80 ≤ b && b ≤ 0xbf

/-- Do two bytes make a character? -/
def isPair (a b : UInt8) : Bool := 0xc2 ≤ a && a ≤ 0xdf && isTail b

/-- Can two bytes start a character of three? Those that a shorter form has, and halves of surrogate pairs,
are left out. -/
def startsThree (a b : UInt8) : Bool :=
  (a = 0xe0 && 0xa0 ≤ b && b ≤ 0xbf) || (0xe1 ≤ a && a ≤ 0xec && isTail b) ||
    (a = 0xed && 0x80 ≤ b && b ≤ 0x9f) || (0xee ≤ a && a ≤ 0xef && isTail b)

/-- Can two bytes start a character of four? Those that a shorter form has, and what is above the last code
point, are left out. -/
def startsFour (a b : UInt8) : Bool :=
  (a = 0xf0 && 0x90 ≤ b && b ≤ 0xbf) || (0xf1 ≤ a && a ≤ 0xf3 && isTail b) ||
    (a = 0xf4 && 0x80 ≤ b && b ≤ 0x8f)

/-- The bits that a first byte and the bytes after it give to the code point. -/
def codePoint (lead : Nat) (tails : List UInt8) : Char :=
  Char.ofNat (tails.foldl (fun n b => n * 64 + b.toNat % 64) lead)

/-- The character that starts with a given byte, and the bytes after it. -/
def next (a : UInt8) (s : List UInt8) : Char × List UInt8 :=
  if a < 0x80 then (Char.ofNat a.toNat, s)
  else match s with
    | [] => (replacement, [])
    | b :: t =>
      if isPair a b then (codePoint (a.toNat % 32) [b], t)
      else if startsThree a b then match t with
        | [] => (replacement, [])
        | c :: u => if isTail c then (codePoint (a.toNat % 16) [b, c], u) else (replacement, c :: u)
      else if startsFour a b then match t with
        | [] => (replacement, [])
        | c :: u =>
          if isTail c then match u with
            | [] => (replacement, [])
            | d :: v => if isTail d then (codePoint (a.toNat % 8) [b, c, d], v) else (replacement, d :: v)
          else (replacement, c :: u)
      else (replacement, b :: t)

/-- Nothing is added to the bytes. -/
theorem length_next_le (a : UInt8) (s : List UInt8) : (next a s).2.length ≤ s.length := by
  fun_cases next a s <;> simp +arith

def ofUtf8 : List UInt8 → List Char
  | [] => []
  | a :: s => (next a s).1 :: ofUtf8 (next a s).2
termination_by bytes => bytes.length
decreasing_by
  have := length_next_le a s
  simp only [List.length_cons]
  omega

def decoded (bytes : List UInt8) : String := String.ofList (ofUtf8 bytes)

@[simp] theorem utf8_empty : utf8 "" = [] := by simp [utf8]

/-- The bytes of two texts follow each other. -/
theorem utf8_append (s t : String) : utf8 (s ++ t) = utf8 s ++ utf8 t := by simp [utf8]

end Filespace.Text
