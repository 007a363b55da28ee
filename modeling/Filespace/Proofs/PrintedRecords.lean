import Filespace.Links.Document
import Filespace.Proofs.Tables
import Mathlib.Tactic.SplitIfs

/-!
# Documents read back

The text that a document is printed as holds the records that were printed (`Document.parse?_print`), whatever
characters their paths and targets are made of. The reader sees a text byte by byte (`Json.seen`); a character comes
back from what is printed for it, as an escape or as its bytes (`Json.Scans.escaped`), so a whole text does, and so do
the members of an object, one after the other.
-/

namespace Filespace

open Table

namespace Json

variable {cs rest : List Char} {bs : Bytes} {c : Char} {u : Nat}

/-- Characters as the reader sees them, byte by byte. -/
def seen (cs : List Char) : List Char := (cs.flatMap String.utf8EncodeChar).map fun b => Char.ofNat b.toNat

@[simp] theorem seen_append (cs ds : List Char) : seen (cs ++ ds) = seen cs ++ seen ds := by simp [seen]

theorem seen_flatMap {α : Type} (l : List α) (f : α → List Char) : seen (l.flatMap f) = l.flatMap fun x => seen (f x) := by
  simp [seen, List.flatMap_assoc, List.map_flatMap]

theorem utf8EncodeChar_of_lt (h : c.toNat < 128) : String.utf8EncodeChar c = [UInt8.ofNat c.toNat] := by
  exact if_pos (Nat.le_of_lt_succ h)

/-- All bytes of a character outside ASCII are outside it. -/
theorem le_of_mem_utf8EncodeChar {b : UInt8} (h : 128 ≤ c.toNat) (hb : b ∈ String.utf8EncodeChar c) : 128 ≤ b.toNat := by
  simp only [String.utf8EncodeChar.eq_1, Char.toNat_val] at hb
  split_ifs at hb <;> simp only [List.mem_cons, List.not_mem_nil, or_false, ← UInt8.toNat_inj, UInt8.toNat_ofNat'] at hb <;>
    omega

theorem seen_eq_self (h : ∀ c ∈ cs, c.toNat < 128) : seen cs = cs := by
  induction cs with
  | nil => rfl
  | cons c cs ih =>
    have hc := h c (by simp)
    have hone : seen [c] = [c] := by
      simp [seen, utf8EncodeChar_of_lt hc, Nat.mod_eq_of_lt (show c.toNat < 256 by omega)]
    rw [← List.singleton_append, seen_append, hone, ih fun d hd => h d (List.mem_cons_of_mem _ hd)]

/-! ### Texts -/

/-- What is read up to a closing quote stands for the bytes. -/
def Scans (cs : List Char) (bs : Bytes) (rest : List Char) : Prop :=
  ∃ ps, scanPieces cs = some (ps, rest) ∧ pieceBytes ps = some bs

theorem Scans.quote (rest : List Char) : Scans ('"' :: rest) [] rest := ⟨[], by simp [scanPieces], rfl⟩

/-- A byte that needs no escape. -/
def IsPlain (b : UInt8) : Prop := 0x20 ≤ b.toNat ∧ b.toNat ≠ 0x22 ∧ b.toNat ≠ 0x5c

theorem Scans.byte (h : Scans cs bs rest) {b : UInt8} (hb : IsPlain b) :
    Scans (Char.ofNat b.toNat :: cs) (b :: bs) rest := by
  obtain ⟨ps, hscan, hbytes⟩ := h
  have hn : (Char.ofNat b.toNat).toNat = b.toNat := by
    have hvalid : b.toNat.isValidChar := .inl (by have := b.toNat_lt; omega)
    rw [Char.ofNat, dif_pos hvalid]
    rfl
  have hquote : Char.ofNat b.toNat ≠ '"' := fun e => hb.2.1 (by rw [← hn, e]; rfl)
  have hslash : Char.ofNat b.toNat ≠ '\\' := fun e => hb.2.2 (by rw [← hn, e]; rfl)
  have hlow : ¬ Char.ofNat b.toNat < ' ' := Nat.not_lt.2 (hn.symm ▸ hb.1 : 0x20 ≤ (Char.ofNat b.toNat).toNat)
  refine ⟨.byte (Char.ofNat b.toNat) :: ps, ?_, ?_⟩
  · rw [scanPieces.eq_5 _ _ hquote (fun _ _ _ _ _ e => absurd e hslash) (fun _ _ e => absurd e hslash),
      if_neg (not_or.2 ⟨hlow, hslash⟩), hscan]
    rfl
  · simp [pieceBytes, hbytes, hn]

theorem Scans.plain (h : Scans cs bs rest) {more : Bytes} (hmore : ∀ b ∈ more, IsPlain b) :
    Scans (more.map (fun b => Char.ofNat b.toNat) ++ cs) (more ++ bs) rest := by
  induction more with
  | nil => exact h
  | cons b more ih => exact (ih fun d hd => hmore d (List.mem_cons_of_mem _ hd)).byte (hmore b List.mem_cons_self)

theorem pieceBytes_unit {ps : List Piece} (hu : u < 0xd800) (h : pieceBytes ps = some bs) :
    pieceBytes (.unit u :: ps) = some (unitBytes u ++ bs) := by
  have htrail : isTrail u = false := by simp [isTrail]; omega
  have hlead : isLead u = false := by simp [isLead]; omega
  unfold pieceBytes
  simp [htrail, hlead, h]

theorem Scans.short (h : Scans cs bs rest) {e : Char} (he : shortEscape? e = some u) (hu : u < 0xd800) :
    Scans ('\\' :: e :: cs) (unitBytes u ++ bs) rest := by
  obtain ⟨ps, hscan, hbytes⟩ := h
  have hne : e ≠ 'u' := by
    rintro rfl
    exact absurd he (by simp [shortEscape?])
  refine ⟨.unit u :: ps, ?_, pieceBytes_unit hu hbytes⟩
  rw [scanPieces.eq_4 _ _ fun _ _ _ _ _ e' => absurd e' hne, he, hscan]
  rfl

theorem Scans.hex (h : Scans cs bs rest) {x y z w : Char} (he : hex4? x y z w = some u) (hu : u < 0xd800) :
    Scans ('\\' :: 'u' :: x :: y :: z :: w :: cs) (unitBytes u ++ bs) rest := by
  obtain ⟨ps, hscan, hbytes⟩ := h
  refine ⟨.unit u :: ps, ?_, pieceBytes_unit hu hbytes⟩
  rw [scanPieces.eq_3, he, hscan]
  rfl

/-- The digits of a control name it. -/
theorem hex4?_hex2 : ∀ n < 32, hex4? '0' '0' (Nat.digitChar (n / 16)) (Nat.digitChar (n % 16)) = some n := by decide

/-- A character is printed as a short escape, as one by its number or as it is. -/
theorem escapeChar_cases (c : Char) :
    (∃ e, escapeChar c = ['\\', e] ∧ shortEscape? e = some c.toNat ∧ c.toNat < 128 ∧ e.toNat < 128) ∨
    (escapeChar c = ['\\', 'u', '0', '0'] ++ hex2 c.toNat ∧ c.toNat < 32) ∨
    (escapeChar c = [c] ∧ 32 ≤ c.toNat ∧ c ≠ '"' ∧ c ≠ '\\') := by
  unfold escapeChar
  split_ifs with hquote hslash hb hf hn hr ht hlow
  · exact .inl ⟨_, rfl, by subst c; decide⟩
  · exact .inl ⟨_, rfl, by subst c; decide⟩
  · exact .inl ⟨_, rfl, by subst c; decide⟩
  · exact .inl ⟨_, rfl, by subst c; decide⟩
  · exact .inl ⟨_, rfl, by subst c; decide⟩
  · exact .inl ⟨_, rfl, by subst c; decide⟩
  · exact .inl ⟨_, rfl, by subst c; decide⟩
  · exact .inr (.inl ⟨rfl, hlow⟩)
  · exact .inr (.inr ⟨rfl, Nat.not_lt.1 hlow, hquote, hslash⟩)

/-- What is printed for a character stands for it. -/
theorem Scans.escaped (h : Scans cs bs rest) (c : Char) :
    Scans (seen (escapeChar c) ++ cs) (String.utf8EncodeChar c ++ bs) rest := by
  have hunit : unitBytes c.toNat = String.utf8EncodeChar c := by rw [unitBytes, Char.ofNat_toNat]
  rcases escapeChar_cases c with ⟨e, hc, he, hlow, hascii⟩ | ⟨hc, hlow⟩ | ⟨hc, hlow, hquote, hslash⟩
  · rw [hc, seen_eq_self (by simpa using hascii), ← hunit]
    exact h.short he (by omega)
  · have hdigits : ∀ n < 32, (['\\', 'u', '0', '0'] ++ hex2 n).all (fun d => d.toNat < 128) = true := by decide
    rw [hc, seen_eq_self (by simpa using hdigits _ hlow), ← hunit]
    exact h.hex (hex4?_hex2 _ hlow) (by omega)
  · rw [hc, seen, List.flatMap_singleton]
    refine h.plain fun b hb => ?_
    by_cases hascii : c.toNat < 128
    · rw [utf8EncodeChar_of_lt hascii, List.mem_singleton] at hb
      have hn : b.toNat = c.toNat := by rw [hb, UInt8.toNat_ofNat']; omega
      rw [IsPlain, hn]
      exact ⟨hlow, fun e => hquote (Char.toNat_inj.1 e), fun e => hslash (Char.toNat_inj.1 e)⟩
    · have := le_of_mem_utf8EncodeChar (Nat.not_lt.1 hascii) hb
      exact ⟨by omega, by omega, by omega⟩

theorem scans_printed (cs rest : List Char) :
    Scans (seen (cs.flatMap escapeChar) ++ '"' :: rest) (cs.flatMap String.utf8EncodeChar) rest := by
  induction cs with
  | nil => exact .quote rest
  | cons c cs ih =>
    rw [List.flatMap_cons, seen_append, List.append_assoc]
    exact ih.escaped c

/-- A text as the reader sees it in a document. -/
def shown (s : String) : List Char := '"' :: (seen (s.toList.flatMap escapeChar) ++ ['"'])

theorem seen_printText (s : String) : seen (printText s).toList = shown s := by
  have hq : seen ['"'] = ['"'] := rfl
  rw [printText, String.toList_ofList, printChars]
  simp only [seen_append, hq]
  rfl

theorem readText_shown (s : String) (rest : List Char) :
    readText (seen (s.toList.flatMap escapeChar) ++ '"' :: rest) = some (some s, rest) := by
  obtain ⟨ps, hscan, hbytes⟩ := scans_printed s.toList rest
  have hs : String.fromUTF8? ⟨(s.toList.flatMap String.utf8EncodeChar).toArray⟩ = some s := by
    have hbytes : (⟨(s.toList.flatMap String.utf8EncodeChar).toArray⟩) = s.toByteArray := by
      rw [← String.utf8Encode_toList]
      exact ByteArray.ext (by simp [List.utf8Encode])
    rw [hbytes, String.fromUTF8?, dif_pos s.isValidUTF8]
    rfl
  rw [readText, hscan]
  simp [hbytes, hs]

/-! ### Members -/

variable {fuel : Nat} {m : Option String × Json} {ms : List (Option String × Json)} {more : List Char}

/-- A member is read back after any blanks. -/
theorem readMember_shown {j : Json} {k : String} {value : List Char}
    (hcs : skip cs = shown k ++ ':' :: value) (hvalue : readValue fuel value = some (j, rest)) :
    readMember (fuel + 1) cs = some ((some k, j), rest) := by
  have hcs : skip cs = '"' :: (seen (k.toList.flatMap escapeChar) ++ '"' :: ':' :: value) := by
    rw [hcs]
    simp [shown]
  have hcolon : skip (':' :: value) = ':' :: value := by simp [skip, isSpace]
  rw [readMember, hcs]
  simp only [readText_shown, Option.bind_eq_bind, Option.bind_some, hcolon, hvalue]
  rfl

theorem readValue_shown (fuel : Nat) (s : String) (rest : List Char) :
    readValue (fuel + 1) (' ' :: (shown s ++ rest)) = some (text (some s), rest) := by
  have hskip : skip (' ' :: (shown s ++ rest)) = '"' :: (seen (s.toList.flatMap escapeChar) ++ '"' :: rest) := by
    simp [skip, shown, isSpace]
  rw [readValue, hskip]
  simp only [readText_shown]
  rfl

/-- A member whose value is a text, as the reader sees it on a line of its own. -/
def line (r : String × String) : List Char := '\n' :: ("    ".toList ++ shown r.1 ++ ": ".toList ++ shown r.2)

def memberOf (r : String × String) : Option String × Json := (some r.1, text (some r.2))

theorem readMember_line (fuel : Nat) (r : String × String) (rest : List Char) :
    readMember (fuel + 2) (line r ++ rest) = some (memberOf r, rest) := by
  refine readMember_shown ?_ (readValue_shown fuel r.2 rest)
  simp [line, skip, isSpace, shown]

theorem readMembers_cons (hm : readMember fuel cs = some (m, more)) (hms : readMembers fuel more = some (ms, rest)) :
    readMembers (fuel + 1) (',' :: cs) = some (m :: ms, rest) := by
  have hskip : skip (',' :: cs) = ',' :: cs := by simp [skip, isSpace]
  rw [readMembers, hskip]
  simp only [hm, hms, Option.bind_eq_bind, Option.bind_some]
  rfl

/-- Members are read back up to the closing brace. -/
theorem readMembers_lines (rows : List (String × String)) (rest : List Char) (hfuel : rows.length + 3 ≤ fuel) :
    readMembers fuel (rows.flatMap (fun r => ',' :: line r) ++ ("\n  \x7d".toList ++ rest)) =
      some (rows.map memberOf, rest) := by
  induction rows generalizing fuel with
  | nil =>
    obtain ⟨fuel, rfl⟩ : ∃ n, fuel = n + 1 := ⟨fuel - 1, by omega⟩
    simp [readMembers, skip, isSpace]
  | cons r rows ih =>
    rw [List.length_cons] at hfuel
    obtain ⟨fuel, rfl⟩ : ∃ n, fuel = n + 3 := ⟨fuel - 3, by omega⟩
    rw [List.flatMap_cons, List.append_assoc]
    exact readMembers_cons (readMember_line fuel r _) (ih (by omega))

/-- An object of texts as the reader sees it. -/
def lines : List (String × String) → List Char
  | [] => "\x7b\x7d".toList
  | r :: rows => '\x7b' :: (line r ++ (rows.flatMap (fun r => ',' :: line r) ++ "\n  \x7d".toList))

/-- An object is read from its members. -/
theorem readValue_object {body : List Char} (hcs : skip cs = '\x7b' :: body) (hbody : ∃ q, skip body = '"' :: q)
    (hm : readMember fuel body = some (m, more)) (hms : readMembers fuel more = some (ms, rest)) :
    readValue (fuel + 1) cs = some (object (m :: ms), rest) := by
  obtain ⟨q, hbody⟩ := hbody
  have hm : readMember fuel ('"' :: q) = some (m, more) := by
    cases fuel with
    | zero => simp [readMember] at hm
    | succ fuel =>
      have hq : skip ('"' :: q) = skip body := by rw [hbody]; simp [skip, isSpace]
      rw [← hm, readMember, hq, readMember]
  rw [readValue, hcs]
  simp [hbody, hm, hms]

theorem readValue_lines (rows : List (String × String)) (rest : List Char) (hfuel : rows.length + 3 ≤ fuel) :
    readValue fuel (' ' :: (lines rows ++ rest)) = some (object (rows.map memberOf), rest) := by
  obtain ⟨fuel, rfl⟩ : ∃ n, fuel = n + 3 := ⟨fuel - 3, by omega⟩
  cases rows with
  | nil => simp [readValue, lines, skip, isSpace]
  | cons r rows =>
    rw [List.length_cons] at hfuel
    rw [lines, List.cons_append, List.append_assoc, List.append_assoc]
    exact readValue_object rfl ⟨_, rfl⟩ (readMember_line fuel r _) (readMembers_lines rows rest (by omega))

theorem length_le_lines (rows : List (String × String)) : rows.length ≤ (lines rows).length := by
  have hone : ∀ rows : List (String × String), rows.length ≤ (rows.flatMap fun r => ',' :: line r).length := by
    intro rows
    induction rows with
    | nil => exact Nat.le_refl 0
    | cons r rows ih =>
      simp only [List.flatMap_cons, List.length_append, List.length_cons]
      omega
  cases rows with
  | nil => exact Nat.zero_le _
  | cons r rows =>
    have := hone rows
    simp only [lines, List.length_append, List.length_cons]
    omega

end Json

namespace Document

open Json

theorem toList_intercalate_cons (sep s : String) (l : List String) :
    (sep.intercalate (s :: l)).toList = s.toList ++ l.flatMap fun t => sep.toList ++ t.toList := by
  induction l generalizing s with
  | nil => simp
  | cons t l ih =>
    have := ih t
    simp only [String.toList_intercalate, List.map_cons, List.flatMap_cons] at this ⊢
    rw [List.intercalate_cons_cons, this]
    simp

/-- Records as the reader sees them, if there are any. -/
theorem seen_records (r : String × String) (rows : List (String × String)) :
    seen ("\x7b\n" ++ ",\n".intercalate ((r :: rows).map fun r => "    " ++ printText r.1 ++ ": " ++ printText r.2) ++
      "\n  \x7d").toList = lines (r :: rows) := by
  have hopen : seen "\x7b\n".toList = "\x7b\n".toList := seen_eq_self (by simp)
  have hclose : seen "\n  \x7d".toList = "\n  \x7d".toList := seen_eq_self (by simp)
  have hcomma : seen ",\n".toList = ",\n".toList := seen_eq_self (by simp)
  have hindent : seen "    ".toList = "    ".toList := seen_eq_self (by simp)
  have hcolon : seen ": ".toList = ": ".toList := seen_eq_self (by simp)
  simp only [String.toList_append, List.map_cons, toList_intercalate_cons, seen_append, seen_flatMap, List.flatMap_map,
    seen_printText, hopen, hclose, hcomma, hindent, hcolon, lines, line]
  simp

/-- A document as the reader sees it. -/
theorem seen_print (links : LinkRecords) : seen (print links).toList = "\x7b\n  ".toList ++ (shown "version" ++
    (": 1,\n  ".toList ++ (shown "links" ++ (": ".toList ++ (lines links.rows ++ "\n\x7d".toList))))) := by
  have hhead : seen "\x7b\n  \"version\": 1,\n  \"links\": ".toList =
      "\x7b\n  ".toList ++ (shown "version" ++ (": 1,\n  ".toList ++ (shown "links" ++ ": ".toList))) := by decide +kernel
  have hbody : seen "\x7b\x7d".toList = "\x7b\x7d".toList := seen_eq_self (by simp)
  have hend : seen "\n\x7d".toList = "\n\x7d".toList := seen_eq_self (by simp)
  obtain ⟨rows, hs⟩ := links
  unfold print
  rw [String.toList_append, String.toList_append, seen_append, seen_append, hhead, hend]
  simp only [List.append_assoc, List.append_cancel_left_eq, List.append_cancel_right_eq]
  cases rows with
  | nil => exact hbody
  | cons r rows => exact seen_records r rows

theorem ofJson?_rows (rows : List (String × String)) (b : Bool) :
    ofJson? (.object [(some "version", .number ⟨some 1, b⟩), (some "links", .object (rows.map memberOf))]) =
      some (.ofList rows) := by
  have hnames : names? (rows.map memberOf) = some (rows.map fun r => (r.1, text (some r.2))) := by
    rw [names?, List.mapM_map]
    exact List.mapM_pure
  have hfields : (rows.map fun r => (r.1, text (some r.2))).mapM (fun x => x.2.text?.map (x.1, ·)) = some rows := by
    rw [List.mapM_map]
    exact List.mapM_pure.trans (congrArg some (List.map_id rows))
  have hlinks : recordsOfJson? (.object (rows.map memberOf)) = some (.ofList rows) := by
    rw [recordsOfJson?, hnames]
    simp [hfields]
  show (do
    let _ ← natBelow? UInt32.size (.number ⟨some 1, b⟩)
    recordsOfJson? (.object (rows.map memberOf))) = _
  rw [hlinks]
  rfl

theorem ofList_rows (t : LinkRecords) : ofList t.rows = t := by
  apply ext_get?
  intro k
  cases h : t.get? k with
  | none =>
    refine (get?_insertMany_of_not_mem empty fun v hv => ?_).trans (get?_empty k)
    rw [get?_eq_some_iff.2 hv] at h
    cases h
  | some v =>
    refine get?_insertMany_of_mem empty (get?_eq_some_iff.1 h) fun w hw => ?_
    rw [get?_eq_some_iff.2 hw] at h
    exact Option.some.inj h

theorem readValue_one : ∃ b, ∀ fuel cs, readValue (fuel + 1) (" 1,".toList ++ cs) = some (number ⟨some 1, b⟩, ',' :: cs) := by
  refine ⟨Text.fitsQuickly ['1'] [] 0, fun fuel cs => ?_⟩
  rfl

/-- The links of a document are read after its version. -/
theorem readMembers_links (rows : List (String × String)) {fuel : Nat} (hfuel : rows.length + 3 ≤ fuel) :
    readMembers (fuel + 2) (",\n  ".toList ++ (shown "links" ++ (": ".toList ++ (lines rows ++ "\n\x7d".toList)))) =
      some ([(some "links", .object (rows.map memberOf))], []) := by
  have hend : readMembers (fuel + 1) "\n\x7d".toList = some ([], []) := by simp [readMembers, skip, isSpace]
  exact readMembers_cons (readMember_shown rfl (readValue_lines rows _ hfuel)) hend

/-- Records come back from their document. -/
theorem parse?_print (links : LinkRecords) : parse? (Text.utf8 (print links)) = some links := by
  have hbytes : (Text.utf8 (print links)).map (fun b => Char.ofNat b.toNat) = seen (print links).toList := rfl
  obtain ⟨fuel, hfuel, hlen⟩ : ∃ n, links.rows.length + 3 ≤ n ∧ 2 * (seen (print links).toList).length + 2 = n + 3 := by
    have := length_le_lines links.rows
    refine ⟨2 * (seen (print links).toList).length - 1, ?_⟩
    rw [seen_print]
    simp only [List.length_append, shown, List.length_cons]
    omega
  obtain ⟨b, hone⟩ := readValue_one
  have hvalue : readValue (fuel + 3) (seen (print links).toList) =
      some (.object [(some "version", .number ⟨some 1, b⟩), (some "links", .object (links.rows.map memberOf))], []) := by
    rw [seen_print]
    exact readValue_object rfl ⟨_, rfl⟩ (readMember_shown rfl (hone fuel _)) (readMembers_links links.rows hfuel)
  rw [parse?, ofBytes?]
  have hskip : skip [] = [] := by simp [skip]
  simp only [hbytes, hlen, hvalue, hskip, Option.bind_eq_bind, Option.bind_some, List.isEmpty_nil, if_true, ofJson?_rows,
    ofList_rows]

end Document

end Filespace
