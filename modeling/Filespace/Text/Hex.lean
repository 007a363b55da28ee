import Filespace.Text.Digits

/-!
# Bytes in hexadecimal

Each byte is written as two digits. Contents too long to be written out are told apart by a 64-bit digest,
in which each byte is mixed in by an exclusive or and a multiplication by the FNV prime.
-/

namespace Filespace.Text

def toHex (bytes : List UInt8) : String :=
  String.ofList (bytes.flatMap fun b => [Nat.digitChar (b.toNat / 16), Nat.digitChar (b.toNat % 16)])

/-- The bytes of pairs of digits. A digit without a partner is left out. -/
def pairsToBytes : List Char → List UInt8
  | a :: b :: r => UInt8.ofNat ((hexValue? a).getD 0 * 16 + (hexValue? b).getD 0) :: pairsToBytes r
  | _ => []

/-- The bytes of a text of pairs of digits. -/
def ofHex (s : String) : List UInt8 := pairsToBytes s.toList

def digest (bytes : List UInt8) : UInt64 :=
  bytes.foldl (fun h b => (h ^^^ b.toUInt64) * 0x100000001b3) 0xcbf29ce484222325

def digestText (bytes : List UInt8) : String :=
  let ds := Nat.toDigits 16 (digest bytes).toNat
  String.ofList (List.replicate (16 - ds.length) '0' ++ ds)

end Filespace.Text
