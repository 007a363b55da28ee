/-!
# Blank characters and words

The shell cuts its lines at blank characters, and a blank is any character with the Unicode property
`White_Space`: the five ASCII controls, the space, and the wider spaces of other scripts. A zero-width
space or a byte-order mark is not one.

Everything here works on the characters of a text in order, so that a statement about a text is one
about a list.
-/

namespace Filespace.Text

/-- The characters with the Unicode property `White_Space`, as inclusive ranges of code points. -/
def blankRanges : List (Nat × Nat) :=
  [(0x09, 0x0d), (0x20, 0x20), (0x85, 0x85), (0xa0, 0xa0), (0x1680, 0x1680), (0x2000, 0x200a),
   (0x2028, 0x2029), (0x202f, 0x202f), (0x205f, 0x205f), (0x3000, 0x3000)]

def isBlank (c : Char) : Bool :=
  blankRanges.any fun (lo, hi) => lo ≤ c.toNat && c.toNat ≤ hi

/-- The text from its first character that is not blank. -/
def trimStart (cs : List Char) : List Char :=
  cs.dropWhile isBlank

/-- The text up to its last character that is not blank. -/
def trimEnd (cs : List Char) : List Char :=
  (cs.reverse.dropWhile isBlank).reverse

/-- The text without the blanks at either end. -/
def trim (cs : List Char) : List Char :=
  trimEnd (trimStart cs)

/-- The first word of a text and what follows it, with the blanks that divide the two removed. A text
that starts with a blank has the empty word first. -/
def splitWord (cs : List Char) : List Char × List Char :=
  (cs.takeWhile (fun c => !isBlank c), trimStart (cs.dropWhile fun c => !isBlank c))

/-- The pieces of a text between its blanks. There is always at least one. -/
def cutAtBlanks : List Char → List (List Char)
  | [] => [[]]
  | c :: cs =>
    if isBlank c then [] :: cutAtBlanks cs
    else match cutAtBlanks cs with
      | [] => [[c]]
      | p :: ps => (c :: p) :: ps

/-- The words of a text: what stands between blanks and is not empty. -/
def words (cs : List Char) : List (List Char) :=
  (cutAtBlanks cs).filter (· ≠ [])

/-- A text is its trimmed front followed by what was cut. -/
theorem takeWhile_append_trimStart (cs : List Char) : cs.takeWhile isBlank ++ trimStart cs = cs :=
  List.takeWhile_append_dropWhile

/-- Core's own whitespace characters are all blank. -/
theorem isBlank_of_isWhitespace {c : Char} (h : c.isWhitespace = true) : isBlank c = true := by
  simp only [Char.isWhitespace, Bool.or_eq_true, decide_eq_true_eq] at h
  rcases h with ((h | h) | h) | h <;> subst h <;> decide

/-! ### Strings -/

/-- A string without the blanks at either end. -/
def trimmed (s : String) : String :=
  String.ofList (trim s.toList)

def wordsOf (s : String) : List String :=
  (words s.toList).map String.ofList

/-- A string without the blanks at its end. -/
def trimmedEnd (s : String) : String :=
  String.ofList (trimEnd s.toList)

end Filespace.Text
