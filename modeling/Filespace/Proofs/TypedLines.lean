import Filespace.Shell.Command
import Filespace.Text.Utf8
import Mathlib.Logic.Basic
import Mathlib.Tactic.SplitIfs

/-!
# Lines as they are typed

What a line of the shell hands on to its command. A word has no blanks, so the first one of a line is found whole, and a
path that is a word comes through as it is. The text to be written comes through without the blanks around it. In the file
it is UTF-8, from which it is read back (`decoded_utf8`), whatever characters are in it.
-/

namespace Filespace.Text

/-! ### UTF-8 read back -/

section Utf8

variable {a b d e : UInt8} {c : Char} {s : List UInt8}

theorem lt_ascii_iff : a < 0x80 ↔ a.toNat < 0x80 := UInt8.lt_iff_toNat_lt

theorem isTail_iff : isTail a = true ↔ 0x80 ≤ a.toNat ∧ a.toNat ≤ 0xbf := by
  simp only [isTail, Bool.and_eq_true, decide_eq_true_eq, UInt8.le_iff_toNat_le, UInt8.reduceToNat]

theorem isPair_iff : isPair a b = true ↔ 0xc2 ≤ a.toNat ∧ a.toNat ≤ 0xdf ∧ 0x80 ≤ b.toNat ∧ b.toNat ≤ 0xbf := by
  simp only [isPair, Bool.and_eq_true, isTail_iff, decide_eq_true_eq, UInt8.le_iff_toNat_le, UInt8.reduceToNat, and_assoc]

theorem startsThree_iff : startsThree a b = true ↔ 0xe0 ≤ a.toNat ∧ a.toNat ≤ 0xef ∧ 0x80 ≤ b.toNat ∧ b.toNat ≤ 0xbf ∧
    (a.toNat = 0xe0 → 0xa0 ≤ b.toNat) ∧ (a.toNat = 0xed → b.toNat ≤ 0x9f) := by
  simp only [startsThree, Bool.or_eq_true, Bool.and_eq_true, isTail_iff, decide_eq_true_eq, UInt8.le_iff_toNat_le,
    ← UInt8.toNat_inj, UInt8.reduceToNat]
  omega

theorem startsFour_iff : startsFour a b = true ↔ 0xf0 ≤ a.toNat ∧ a.toNat ≤ 0xf4 ∧ 0x80 ≤ b.toNat ∧ b.toNat ≤ 0xbf ∧
    (a.toNat = 0xf0 → 0x90 ≤ b.toNat) ∧ (a.toNat = 0xf4 → b.toNat ≤ 0x8f) := by
  simp only [startsFour, Bool.or_eq_true, Bool.and_eq_true, isTail_iff, decide_eq_true_eq, UInt8.le_iff_toNat_le,
    ← UInt8.toNat_inj, UInt8.reduceToNat]
  omega

theorem next_one (ha : a.toNat = c.toNat) (hhigh : c.toNat ≤ 0x7f) : next a s = (c, s) := by
  rw [next.eq_def, if_pos (lt_ascii_iff.2 (by omega)), ha, Char.ofNat_toNat]

theorem next_two (ha : a.toNat = c.toNat / 64 % 32 + 192) (hb : b.toNat = c.toNat % 64 + 128) (hlow : 0x7f < c.toNat)
    (hhigh : c.toNat ≤ 0x7ff) : next a (b :: s) = (c, s) := by
  have hpoint : codePoint (a.toNat % 32) [b] = c := by
    have hsum : a.toNat % 32 * 64 + b.toNat % 64 = c.toNat := by omega
    simp only [codePoint, List.foldl_cons, List.foldl_nil, hsum, Char.ofNat_toNat]
  rw [next.eq_def, if_neg (lt_ascii_iff.not.2 (by omega))]
  dsimp only
  rw [if_pos (isPair_iff.2 (by omega)), hpoint]

theorem next_three (ha : a.toNat = c.toNat / 4096 % 16 + 224) (hb : b.toNat = c.toNat / 64 % 64 + 128)
    (hd : d.toNat = c.toNat % 64 + 128) (hlow : 0x7ff < c.toNat) (hhigh : c.toNat ≤ 0xffff) :
    next a (b :: d :: s) = (c, s) := by
  -- The second byte is in its range because no half of a surrogate pair is a character.
  have hvalid : c.toNat < 0xd800 ∨ 0xdfff < c.toNat ∧ c.toNat < 0x110000 := c.valid
  have hpoint : codePoint (a.toNat % 16) [b, d] = c := by
    have hsum : (a.toNat % 16 * 64 + b.toNat % 64) * 64 + d.toNat % 64 = c.toNat := by omega
    simp only [codePoint, List.foldl_cons, List.foldl_nil, hsum, Char.ofNat_toNat]
  rw [next.eq_def, if_neg (lt_ascii_iff.not.2 (by omega))]
  dsimp only
  rw [if_neg (isPair_iff.not.2 (by omega)), if_pos (startsThree_iff.2 (by omega)), if_pos (isTail_iff.2 (by omega)), hpoint]

theorem next_four (ha : a.toNat = c.toNat / 262144 % 8 + 240) (hb : b.toNat = c.toNat / 4096 % 64 + 128)
    (hd : d.toNat = c.toNat / 64 % 64 + 128) (he : e.toNat = c.toNat % 64 + 128) (hlow : 0xffff < c.toNat) :
    next a (b :: d :: e :: s) = (c, s) := by
  have hvalid : c.toNat < 0xd800 ∨ 0xdfff < c.toNat ∧ c.toNat < 0x110000 := c.valid
  have hpoint : codePoint (a.toNat % 8) [b, d, e] = c := by
    have hsum : ((a.toNat % 8 * 64 + b.toNat % 64) * 64 + d.toNat % 64) * 64 + e.toNat % 64 = c.toNat := by omega
    simp only [codePoint, List.foldl_cons, List.foldl_nil, hsum, Char.ofNat_toNat]
  rw [next.eq_def, if_neg (lt_ascii_iff.not.2 (by omega))]
  dsimp only
  rw [if_neg (isPair_iff.not.2 (by omega)), if_neg (startsThree_iff.not.2 (by omega)), if_pos (startsFour_iff.2 (by omega)),
    if_pos (isTail_iff.2 (by omega)), if_pos (isTail_iff.2 (by omega)), hpoint]

theorem toNat_byte {n : Nat} (h : n < 256) : (UInt8.ofNat n).toNat = n := by
  exact Nat.mod_eq_of_lt h

/-- A character is read back from its bytes, and what follows is left. -/
theorem ofUtf8_encoded (c : Char) (s : List UInt8) : ofUtf8 (String.utf8EncodeChar c ++ s) = c :: ofUtf8 s := by
  have hcons : ∀ {a t}, next a (t ++ s) = (c, s) → ofUtf8 (a :: t ++ s) = c :: ofUtf8 s := by
    intro a t h
    rw [List.cons_append, ofUtf8, h]
  simp only [String.utf8EncodeChar, Char.toNat_val]
  split_ifs with h1 h2 h3
  · exact hcons (next_one (toNat_byte (by omega)) h1)
  · exact hcons (next_two (toNat_byte (by omega)) (toNat_byte (by omega)) (by omega) h2)
  · exact hcons
      (next_three (toNat_byte (by omega)) (toNat_byte (by omega)) (toNat_byte (by omega)) (by omega) h3)
  · exact hcons
      (next_four (toNat_byte (by omega)) (toNat_byte (by omega)) (toNat_byte (by omega)) (toNat_byte (by omega)) (by omega))

/-- A text is read back from its bytes. -/
theorem decoded_utf8 (s : String) : decoded (utf8 s) = s := by
  have hchars : ∀ l, ofUtf8 (l.flatMap String.utf8EncodeChar) = l := by
    intro l
    induction l with
    | nil => simp [ofUtf8]
    | cons c l ih => rw [List.flatMap_cons, ofUtf8_encoded, ih]
  rw [decoded, utf8, hchars, String.ofList_toList]

end Utf8

/-! ### Blanks around words -/

/-- Some characters, none of them blank. -/
structure IsWord (w : List Char) : Prop where
  some_left : w ≠ []
  none_blank : ∀ c ∈ w, isBlank c = false

instance (w : List Char) : Decidable (IsWord w) :=
  decidable_of_iff (w ≠ [] ∧ w.all (fun c => !isBlank c) = true)
    ⟨fun h => ⟨h.1, by simpa using h.2⟩, fun h => ⟨h.1, by simpa using h.2⟩⟩

section Words

variable {c : Char} {w l r : List Char}

theorem trimStart_of_blank (h : isBlank c = true) : trimStart (c :: l) = trimStart l := List.dropWhile_cons_of_pos h

theorem trimStart_of_not_blank (h : isBlank c = false) : trimStart (c :: l) = c :: l :=
  List.dropWhile_cons_of_neg (by simp [h])

theorem trimEnd_cons_of_blank (h : isBlank c = true) :
    trimEnd (c :: l) = if trimEnd l = [] then [] else c :: trimEnd l := by
  simp only [trimEnd, List.reverse_cons, List.dropWhile_append, List.reverse_eq_nil_iff, List.isEmpty_iff]
  split
  · simp [List.dropWhile_cons_of_pos h]
  · simp

/-- What ends with a character that is not blank keeps it. -/
theorem trimEnd_append_of_not_blank (h : isBlank c = false) : trimEnd (l ++ c :: r) = l ++ c :: trimEnd r := by
  have hback : (l ++ c :: r).reverse = r.reverse ++ c :: l.reverse := by simp
  simp only [trimEnd, hback, List.dropWhile_append]
  split
  · rename_i hnil
    rw [List.isEmpty_iff] at hnil
    simp [hnil, List.dropWhile_cons_of_neg, h]
  · simp

/-- It does not matter which end is trimmed first. -/
theorem trimStart_trimEnd (l : List Char) : trimStart (trimEnd l) = trim l := by
  unfold trim
  induction l with
  | nil => rfl
  | cons c l ih =>
    cases hc : isBlank c with
    | true =>
      rw [trimStart_of_blank hc, ← ih, trimEnd_cons_of_blank hc]
      split
      · rename_i hnil
        rw [hnil]
      · exact trimStart_of_blank hc
    | false =>
      have hkept : trimEnd (c :: l) = c :: trimEnd l := trimEnd_append_of_not_blank (l := []) hc
      rw [trimStart_of_not_blank hc, hkept, trimStart_of_not_blank hc]

namespace IsWord

theorem trimStart_append (hw : IsWord w) (r : List Char) : trimStart (w ++ r) = w ++ r := by
  obtain ⟨c, w, rfl⟩ := List.exists_cons_of_ne_nil hw.some_left
  exact trimStart_of_not_blank (hw.none_blank c List.mem_cons_self)

theorem trimEnd_append (hw : IsWord w) (l r : List Char) : trimEnd (l ++ w ++ r) = l ++ w ++ trimEnd r := by
  obtain ⟨w, c, rfl⟩ := List.eq_nil_or_concat w |>.resolve_left hw.some_left
  have hc : isBlank c = false := hw.none_blank c (by simp)
  simpa using trimEnd_append_of_not_blank (l := l ++ w) hc

/-- A word is split off where a blank follows or nothing. -/
theorem splitWord_append (hw : IsWord w) (hrest : r = [] ∨ ∃ c l, r = c :: l ∧ isBlank c = true) :
    splitWord (w ++ r) = (w, trimStart r) := by
  have hplain : ∀ c ∈ w, (!isBlank c) = true := fun c hc => by rw [hw.none_blank c hc]; rfl
  have hstop : r.takeWhile (fun c => !isBlank c) = [] ∧ r.dropWhile (fun c => !isBlank c) = r := by
    rcases hrest with rfl | ⟨c, l, rfl, hc⟩
    · exact ⟨rfl, rfl⟩
    · simp [hc]
  rw [splitWord, List.takeWhile_append_of_pos hplain, List.dropWhile_append_of_pos hplain, hstop.1, hstop.2,
    List.append_nil]

theorem words_eq (hw : IsWord w) : words w = [w] := by
  have hcut : ∀ l, (∀ c ∈ l, isBlank c = false) → cutAtBlanks l = [l] := by
    intro l hl
    induction l with
    | nil => rfl
    | cons c l ih =>
      rw [cutAtBlanks, hl c List.mem_cons_self, ih fun c hc => hl c (List.mem_cons_of_mem _ hc)]
      rfl
  rw [words, hcut w hw.none_blank]
  simp [hw.some_left]

end IsWord

end Words

end Filespace.Text

namespace Filespace

open Text

/-! ### Lines that write -/

/-- What is typed to write to a file: a text that replaces the content or is added to it. -/
structure Typed where
  text : String
  append : Bool
  deriving DecidableEq

/-- The word that the line starts with. -/
def Typed.word (x : Typed) : String := if x.append then "append" else "write"

/-- The line, for a given path. -/
def Typed.line (x : Typed) (path : String) : String := x.word ++ " " ++ path ++ " " ++ x.text

/-- What the line writes: the text without the blanks around it, and the end of a line. -/
def Typed.written (x : Typed) : String := trimmed x.text ++ "\n"

/-- What is in the file after the line, as text, if `c` was in it before. -/
def Typed.after (c : String) (x : Typed) : String := (if x.append then c else "") ++ x.written

namespace Command

variable {path : String}

/-- The first word of a line is told from the rest, with a path that follows it. -/
theorem ofLine_of_words {line : String} {c : Char} {w r : List Char} (hw : IsWord (c :: w)) (hslash : c ≠ '/')
    (hsharp : c ≠ '#') (hpath : IsWord path.toList) (hline : line.toList = c :: w ++ ' ' :: (path.toList ++ r)) :
    ofLine line = ofWord (String.ofList (c :: w)) (path.toList ++ trimEnd r) := by
  have hspace : isBlank ' ' = true := by decide
  have htrim : trim line.toList = c :: w ++ ' ' :: (path.toList ++ trimEnd r) := by
    rw [hline, trim, hw.trimStart_append]
    simpa using hpath.trimEnd_append (c :: w ++ [' ']) r
  rw [ofLine, htrim, List.cons_append]
  split
  · rename_i h
    cases h
  · rename_i h
    exact absurd (List.cons.inj h).1 hslash
  · rename_i h
    exact absurd (List.cons.inj h).1 hsharp
  · rw [← List.cons_append, hw.splitWord_append (.inr ⟨' ', _, rfl, hspace⟩), trimStart_of_blank hspace,
      hpath.trimStart_append]

/-- A path and the text behind it. -/
theorem pathAndText_typed (hpath : IsWord path.toList) (x : Typed) :
    pathAndText x.append (path.toList ++ trimEnd (' ' :: x.text.toList)) =
      .ok (write path (trimmed x.text) x.append) := by
  have hspace : isBlank ' ' = true := by decide
  have hrest : trimEnd (' ' :: x.text.toList) = [] ∨
      ∃ c l, trimEnd (' ' :: x.text.toList) = c :: l ∧ isBlank c = true := by
    rw [trimEnd_cons_of_blank hspace]
    split
    · exact .inl rfl
    · exact .inr ⟨' ', _, rfl, hspace⟩
  have htext : trimStart (trimEnd (' ' :: x.text.toList)) = trim x.text.toList := by
    rw [trimStart_trimEnd, trim, trimStart_of_blank hspace, trim]
  rw [pathAndText, hpath.splitWord_append hrest, htext]
  simp [hpath.some_left, trimmed]

/-- A line that writes asks for the write of its text, trimmed. -/
theorem ofLine_typed (hpath : IsWord path.toList) (x : Typed) :
    ofLine (x.line path) = .ok (write path (trimmed x.text) x.append) := by
  rw [← pathAndText_typed hpath]
  cases happend : x.append with
  | false =>
    refine (ofLine_of_words (c := 'w') (w := ['r', 'i', 't', 'e'])
      (r := ' ' :: x.text.toList) (by decide) (by decide) (by decide) hpath ?_).trans ?_
    · simp [Typed.line, Typed.word, happend]
    · rfl
  | true =>
    refine (ofLine_of_words (c := 'a') (w := ['p', 'p', 'e', 'n', 'd'])
      (r := ' ' :: x.text.toList) (by decide) (by decide) (by decide) hpath ?_).trans ?_
    · simp [Typed.line, Typed.word, happend]
    · rfl

/-- A line that prints asks for its file. -/
theorem ofLine_cat (hpath : IsWord path.toList) : ofLine ("cat " ++ path) = .ok (print path) := by
  refine (ofLine_of_words (c := 'c') (w := ['a', 't']) (r := []) (by decide) (by decide) (by decide) hpath ?_).trans ?_
  · simp
  · have hone : oneWord "cat" (path.toList ++ trimEnd []) = .ok path := by
      simp [oneWord, trimEnd, hpath.words_eq]
    simp [ofWord, hone, Functor.map, Except.map]

end Command

end Filespace
