/-!
# File contents

The content of a file is its list of bytes. A write replaces a stretch of it and fills the gap in front
with zeroes when it starts past the end; a new length cuts the content or adds zeroes.

Main statements: for a read, a write and a new length, the length of the result (`length_overwrite`) and each
byte of it (`getElem?_overwrite`), from which every law of consecutive reads and writes follows.
-/

namespace Filespace

/-- The bytes of a file, first byte first. -/
abbrev Bytes := List UInt8

namespace Bytes

/-- The offsets of a file are below this bound. -/
def offsetLimit : Nat := UInt64.size

/-- At most `n` bytes from position `pos` on. -/
def slice (b : Bytes) (pos n : Nat) : Bytes := (b.drop pos).take n

/-- The content with `data` written at position `pos`. -/
def overwrite (b : Bytes) (pos : Nat) (data : Bytes) : Bytes :=
  b.take pos ++ List.replicate (pos - b.length) 0 ++ data ++ b.drop (pos + data.length)

/-- The content cut or filled with zeroes to `n` bytes. -/
def resize (b : Bytes) (n : Nat) : Bytes :=
  b.take n ++ List.replicate (n - b.length) 0

theorem length_overwrite (b : Bytes) (pos : Nat) (data : Bytes) :
    (b.overwrite pos data).length = max b.length (pos + data.length) := by
  simp [overwrite]; omega

theorem length_resize (b : Bytes) (n : Nat) : (b.resize n).length = n := by
  simp [resize]; omega

theorem length_slice (b : Bytes) (pos n : Nat) : (b.slice pos n).length = min n (b.length - pos) := by
  simp [slice]

theorem getElem?_slice (b : Bytes) (pos n i : Nat) :
    (b.slice pos n)[i]? = if i < n then b[pos + i]? else none := by
  simp [slice, List.getElem?_take]

theorem getElem?_resize (b : Bytes) (n i : Nat) :
    (b.resize n)[i]? = if i < n then (if i < b.length then b[i]? else some 0) else none := by
  rw [resize, List.getElem?_append, List.getElem?_take, List.getElem?_replicate]
  grind

theorem getElem?_overwrite (b : Bytes) (pos : Nat) (data : Bytes) (i : Nat) :
    (b.overwrite pos data)[i]? =
      if i < pos then (if i < b.length then b[i]? else some 0)
      else if i < pos + data.length then data[i - pos]?
      else b[i]? := by
  have front : (b.take pos ++ List.replicate (pos - b.length) 0).length = pos := by simp; omega
  unfold overwrite
  split
  · rename_i h
    rw [List.append_assoc, List.getElem?_append_left (by omega)]
    split
    · rename_i hb
      rw [List.getElem?_append_left (by simp; omega), List.getElem?_take_of_lt h]
    · rename_i hb
      rw [List.getElem?_append_right (by simp; omega), List.getElem?_replicate, if_pos (by simp; omega)]
  · rename_i h
    split
    · rename_i hd
      rw [List.append_assoc, List.getElem?_append_right (by omega), front,
        List.getElem?_append_left (by omega)]
    · rename_i hd
      rw [List.getElem?_append_right (by simp; omega), List.getElem?_drop]
      congr 1
      simp
      omega

end Bytes

end Filespace
