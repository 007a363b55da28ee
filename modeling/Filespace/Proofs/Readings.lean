import Filespace.Resolver
import Filespace.Proofs.FlatPaths
import Mathlib.Logic.Relation

/-!
# Reading a text as a path

A text is read piece by piece. Empty pieces and dots are skipped, and of what is left (`steps`) each double dot cancels
the nearest segment in front of it that is still there. This module says what that comes to without a walk.

* `Cancels`: a double dot goes together with the segment right in front of it, anywhere in the list. What is left once
  there is no double dot any more (`Leaves`) is the path, in whichever order they were cancelled.
* `Climbs`: some beginning of the list has more double dots than segments. Then, and only then, a double dot has nothing
  to cancel.
* `parseFrom_append`: reading two texts with a slash between them is reading the second one from where the first one led.
  What is known about a base directory and a text behind it comes from this.
-/

namespace Filespace

open Storage Path

variable {raw : String} {ms : List Move}

namespace Path

/-- The piece that goes up. -/
def dots : List Char := ['.', '.']

/-- Does a piece count, or is it skipped? -/
def isStep (s : List Char) : Bool := s ≠ [] ∧ s ≠ ['.']

/-- The pieces of a text that are not skipped. -/
def steps (raw : String) : List (List Char) := (pieces raw.toList).filter isStep

/-- A double dot and the segment right in front of it cancel. -/
inductive Cancels : List (List Char) → List (List Char) → Prop
  | intro {s : List Char} (front back : List (List Char)) (hs : s ≠ dots) :
      Cancels (front ++ s :: dots :: back) (front ++ back)

/-- The segments that are left of a list once every double dot in it has cancelled one. -/
def Leaves (l left : List (List Char)) : Prop := Relation.ReflTransGen Cancels l left ∧ dots ∉ left

/-- Does a list that stands behind `depth` segments have, up to some place, more double dots than there are segments? -/
def Climbs (depth : Nat) (l : List (List Char)) : Prop :=
  ∃ front, front <+: l ∧ depth + front.countP (· ≠ dots) < front.count dots

/-! ### Climbing -/

theorem not_climbs_nil (depth : Nat) : ¬ Climbs depth [] := by
  rintro ⟨front, hfront, hlt⟩
  simp [List.prefix_nil.1 hfront] at hlt

theorem climbs_cons_segment {s : List Char} (hs : s ≠ dots) {depth : Nat} {l : List (List Char)} :
    Climbs depth (s :: l) ↔ Climbs (depth + 1) l := by
  constructor
  · rintro ⟨front, hfront, hlt⟩
    rcases List.prefix_cons_iff.1 hfront with rfl | ⟨front, rfl, hrest⟩
    · simp at hlt
    · rw [List.countP_cons_of_pos (by simpa using hs), List.count_cons_of_ne hs] at hlt
      exact ⟨front, hrest, by omega⟩
  · rintro ⟨front, hfront, hlt⟩
    refine ⟨s :: front, List.cons_prefix_cons.2 ⟨rfl, hfront⟩, ?_⟩
    rw [List.countP_cons_of_pos (by simpa using hs), List.count_cons_of_ne hs]
    omega

theorem climbs_zero_cons_dots (l : List (List Char)) : Climbs 0 (dots :: l) :=
  ⟨[dots], by simp, by simp⟩

theorem climbs_succ_cons_dots {depth : Nat} {l : List (List Char)} : Climbs (depth + 1) (dots :: l) ↔ Climbs depth l := by
  constructor
  · rintro ⟨front, hfront, hlt⟩
    rcases List.prefix_cons_iff.1 hfront with rfl | ⟨front, rfl, hrest⟩
    · simp at hlt
    · rw [List.countP_cons_of_neg (by simp), List.count_cons_self] at hlt
      exact ⟨front, hrest, by omega⟩
  · rintro ⟨front, hfront, hlt⟩
    refine ⟨dots :: front, List.cons_prefix_cons.2 ⟨rfl, hfront⟩, ?_⟩
    rw [List.countP_cons_of_neg (by simp), List.count_cons_self]
    omega

/-! ### Moves and the pieces they come from -/

/-- The piece of a move that is not skipped. -/
def Move.piece : Move → List Char
  | .stay => []
  | .up => dots
  | .down n => n.chars

theorem chars_ne_dots (n : Name) : n.chars ≠ dots := (isPlain_iff.1 n.plain).2.2.1

theorem Move.eq_up_of_piece {m : Move} (h : m.piece = dots) : m = .up := by
  cases m with
  | stay => cases h
  | up => rfl
  | down n => exact absurd h (chars_ne_dots n)

theorem Move.eq_down_of_piece {m : Move} {n : Name} (h : m.piece = n.chars) : m = .down n := by
  cases m with
  | stay => exact absurd h.symm n.chars_ne_nil
  | up => exact absurd h.symm (chars_ne_dots n)
  | down k => rw [Name.chars_inj h]

/-- Names come from moves down alone. -/
theorem eq_map_down {ns : List Name} (h : ms.map Move.piece = ns.map Name.chars) : ms = ns.map .down := by
  induction ns generalizing ms with
  | nil => simpa using h
  | cons n ns ih =>
    obtain ⟨m, ms, rfl, hm, hms⟩ := List.map_eq_cons_iff.1 h
    rw [Move.eq_down_of_piece hm, ih hms, List.map_cons]

/-- A piece without slashes has a move unless there is a NUL in it. -/
theorem Move.ofPiece?_eq_none_iff {s : List Char} (hs : '/' ∉ s) : Move.ofPiece? s = none ↔ '\x00' ∈ s := by
  by_cases hstay : s = [] ∨ s = ['.']
  · rcases hstay with rfl | rfl <;> decide
  · by_cases hup : s = ['.', '.']
    · subst hup
      decide
    · rw [Move.ofPiece?, if_neg hstay, if_neg hup, Name.ofChars?]
      rw [not_or] at hstay
      have hplain : isPlain s = true ↔ '\x00' ∉ s := by
        rw [isPlain_iff]
        simp [hstay, hup, hs]
      by_cases hnul : '\x00' ∈ s <;> simp [hplain, hnul]

theorem Move.piece_of_ofPiece? {s : List Char} {m : Move} (h : Move.ofPiece? s = some m) :
    isStep s = decide (m ≠ .stay) ∧ (m ≠ .stay → m.piece = s) := by
  rw [Move.ofPiece?] at h
  split at h
  · rename_i hs
    cases h
    rcases hs with rfl | rfl <;> simp [isStep]
  · rename_i hs
    rw [not_or] at hs
    split at h
    · rename_i hup
      cases h
      simp [isStep, hup, Move.piece, dots]
    · obtain ⟨n, hn, rfl⟩ := Option.map_eq_some_iff.1 h
      simp [isStep, hs, Move.piece, Name.chars_of_ofChars? hn]

/-- The moves of a text that lead somewhere come from its steps. -/
theorem map_piece_of_mapM {l : List (List Char)} (h : l.mapM Move.ofPiece? = some ms) :
    (ms.filter (· ≠ .stay)).map Move.piece = l.filter isStep := by
  induction l generalizing ms with
  | nil =>
    cases h
    rfl
  | cons s l ih =>
    simp only [List.mapM_cons, Option.bind_eq_bind, Option.bind_eq_some_iff, Option.pure_def, Option.some.injEq] at h
    obtain ⟨m, hm, ms, hms, rfl⟩ := h
    obtain ⟨hstep, hpiece⟩ := Move.piece_of_ofPiece? hm
    by_cases hstay : m = .stay
    · simpa [hstay, hstep] using ih hms
    · simpa [hstay, hstep, hpiece hstay] using ih hms

theorem mapM_ofPiece?_eq_none_iff (t : List Char) : (pieces t).mapM Move.ofPiece? = none ↔ '\x00' ∈ t := by
  have hnul : '\x00' ∈ t ↔ ∃ s ∈ pieces t, '\x00' ∈ s := by
    conv_lhs => rw [← joined_pieces t]
    exact mem_joined_iff (by decide)
  have hslash : ∀ s ∈ pieces t, '/' ∉ s := fun s hs => slash_notMem_of_mem_pieces hs
  rw [hnul]
  generalize pieces t = l at hslash
  induction l with
  | nil => simp
  | cons s l ih =>
    have ih := ih fun r hr => hslash r (by simp [hr])
    have hs := Move.ofPiece?_eq_none_iff (hslash s (by simp))
    cases hm : Move.ofPiece? s with
    | none => simp [List.mapM_cons, hm, hs.1 hm]
    | some m =>
      have hfree : '\x00' ∉ s := fun h => by simp [hs.2 h] at hm
      cases hms : l.mapM Move.ofPiece? with
      | none => simp [List.mapM_cons, hm, hms, ← ih]
      | some ms => simp [List.mapM_cons, hm, hms, hfree, ← ih]

/-! ### Walking -/

theorem walk_filter_stay (pos : List Name) (ms : List Move) : walk pos (ms.filter (· ≠ .stay)) = walk pos ms := by
  induction ms generalizing pos with
  | nil => rfl
  | cons m ms ih =>
    cases m with
    | stay => simpa [walk] using ih pos
    | up =>
      cases pos with
      | nil => simp [walk]
      | cons n pos => simpa [walk] using ih pos
    | down n => simpa [walk] using ih (n :: pos)

theorem walk_append (pos : List Name) (ms ms' : List Move) :
    walk pos (ms ++ ms') = (walk pos ms).bind fun pos' => walk pos' ms' := by
  induction ms generalizing pos with
  | nil => rfl
  | cons m ms ih =>
    cases m with
    | stay => exact ih pos
    | up =>
      cases pos with
      | nil => rfl
      | cons n pos => exact ih pos
    | down n => exact ih (n :: pos)

/-- A walk fails where the pieces climb. -/
theorem walk_eq_none_iff (hstay : .stay ∉ ms) (pos : List Name) :
    walk pos ms = none ↔ Climbs pos.length (ms.map Move.piece) := by
  induction ms generalizing pos with
  | nil => simp [walk, not_climbs_nil]
  | cons m ms ih =>
    have ih := ih fun h => hstay (by simp [h])
    cases m with
    | stay => simp at hstay
    | up =>
      cases pos with
      | nil => simp [walk, Move.piece, climbs_zero_cons_dots]
      | cons n pos => simp [walk, Move.piece, climbs_succ_cons_dots, ih]
    | down n => simp [walk, Move.piece, climbs_cons_segment (chars_ne_dots n), ih]

/-- A walk cancels each double dot against the segment that it goes up from. -/
theorem cancels_of_walk (hstay : .stay ∉ ms) {pos pos' : List Name} (h : walk pos ms = some pos') :
    Relation.ReflTransGen Cancels (pos.reverse.map Name.chars ++ ms.map Move.piece) (pos'.reverse.map Name.chars) := by
  induction ms generalizing pos with
  | nil =>
    cases h
    simp [Relation.ReflTransGen.refl]
  | cons m ms ih =>
    have htail : .stay ∉ ms := fun h => hstay (by simp [h])
    cases m with
    | stay => simp at hstay
    | up =>
      cases pos with
      | nil => cases h
      | cons n pos =>
        refine .head ?_ (ih htail h)
        simpa [Move.piece] using Cancels.intro (pos.reverse.map Name.chars) (ms.map Move.piece) (chars_ne_dots n)
    | down n =>
      have hbelow : walk (n :: pos) ms = some pos' := h
      simpa [Move.piece] using ih htail hbelow

/-- Cancelling takes two moves out of a walk that lead back to where they started. -/
theorem Cancels.walk_eq {l l' : List (List Char)} (h : Cancels l l') (hstay : .stay ∉ ms) (hl : ms.map Move.piece = l) :
    ∃ ms', .stay ∉ ms' ∧ ms'.map Move.piece = l' ∧ walk [] ms' = walk [] ms := by
  cases h with
  | @intro s front back hs =>
    obtain ⟨before, rest, rfl, rfl, hrest⟩ := List.map_eq_append_iff.1 hl
    obtain ⟨m, rest, rfl, rfl, htail⟩ := List.map_eq_cons_iff.1 hrest
    obtain ⟨m', after, rfl, hup, rfl⟩ := List.map_eq_cons_iff.1 htail
    obtain rfl := Move.eq_up_of_piece hup
    refine ⟨before ++ after, fun h => hstay (by simp_all), by simp, ?_⟩
    cases m with
    | stay => simp at hstay
    | up => exact absurd rfl hs
    | down n => simp [walk_append, walk]

/-- What is left does not depend on the order of cancelling: it is where the walk ends. -/
theorem walk_eq_some_iff (hstay : .stay ∉ ms) {pos : List Name} :
    walk [] ms = some pos ↔ Leaves (ms.map Move.piece) (pos.reverse.map Name.chars) := by
  constructor
  · intro h
    refine ⟨cancels_of_walk hstay h, ?_⟩
    rw [List.mem_map]
    rintro ⟨n, -, hn⟩
    exact chars_ne_dots n hn
  · rintro ⟨hcancels, hdots⟩
    generalize hl : ms.map Move.piece = l at hcancels
    induction hcancels using Relation.ReflTransGen.head_induction_on generalizing ms with
    | refl =>
      -- Nothing goes up any more: the moves are the names that are left.
      rw [eq_map_down hl, walk_down, List.reverse_reverse, List.append_nil]
    | head hc _ ih =>
      obtain ⟨ms', hstay', hl', hwalk⟩ := hc.walk_eq hstay hl
      rw [← hwalk]
      exact ih hstay' hl'

/-! ### Reading -/

/-- A text whose pieces are moves is read by walking. -/
theorem parseFrom_of_moves (hms : (pieces raw.toList).mapM Move.ofPiece? = some ms) (base : Path) :
    (parseFrom base raw = .error (.escapes raw) ↔ walk base.names.reverse ms = none) ∧
    ∀ p, parseFrom base raw = .ok p ↔ walk base.names.reverse ms = some p.names.reverse := by
  simp only [parseFrom, hms]
  cases walk base.names.reverse ms with
  | none => simp
  | some pos =>
    refine ⟨by simp, fun p => ?_⟩
    simp only [Except.ok.injEq, Option.some.injEq, ← List.reverse_eq_iff]
    exact ⟨congrArg names, fun h => ext h⟩

theorem exists_moves (hnul : '\x00' ∉ raw.toList) : ∃ ms, (pieces raw.toList).mapM Move.ofPiece? = some ms := by
  cases hms : (pieces raw.toList).mapM Move.ofPiece? with
  | none => exact absurd ((mapM_ofPiece?_eq_none_iff _).1 hms) hnul
  | some ms => exact ⟨ms, rfl⟩

theorem parseFrom_of_nul (hnul : '\x00' ∈ raw.toList) (base : Path) : parseFrom base raw = .error (.nul raw) := by
  rw [parseFrom, (mapM_ofPiece?_eq_none_iff _).2 hnul]

/-- Reading from a base succeeds with what is left of the base's names and the steps behind them. -/
theorem parseFrom_eq_ok_iff {base p : Path} : parseFrom base raw = .ok p ↔
    '\x00' ∉ raw.toList ∧ Leaves (base.names.map Name.chars ++ steps raw) (p.names.map Name.chars) := by
  by_cases hnul : '\x00' ∈ raw.toList
  · simp [parseFrom_of_nul hnul, hnul]
  · obtain ⟨ms, hms⟩ := exists_moves hnul
    have hsteps : (ms.filter (· ≠ .stay)).map Move.piece = steps raw := map_piece_of_mapM hms
    -- The base is walked down to first.
    have hwalk : walk base.names.reverse ms = walk [] (base.names.map .down ++ ms.filter (· ≠ .stay)) := by
      rw [walk_append, walk_down, List.append_nil, Option.bind_some, walk_filter_stay]
    have hpiece : (base.names.map Move.down ++ ms.filter (· ≠ .stay)).map Move.piece =
        base.names.map Name.chars ++ steps raw := by
      rw [List.map_append, hsteps, List.map_map]
      rfl
    rw [(parseFrom_of_moves hms base).2, hwalk, walk_eq_some_iff (by simp), hpiece]
    simp [hnul]

theorem parseFrom_eq_error_iff {base : Path} {f : Fault} : parseFrom base raw = .error f ↔
    '\x00' ∈ raw.toList ∧ f = .nul raw ∨
    '\x00' ∉ raw.toList ∧ Climbs base.depth (steps raw) ∧ f = .escapes raw := by
  by_cases hnul : '\x00' ∈ raw.toList
  · simp [parseFrom_of_nul hnul, hnul, eq_comm]
  · obtain ⟨ms, hms⟩ := exists_moves hnul
    have hsteps : (ms.filter (· ≠ .stay)).map Move.piece = steps raw := map_piece_of_mapM hms
    have hclimbs : walk base.names.reverse ms = none ↔ Climbs base.depth (steps raw) := by
      rw [← walk_filter_stay, walk_eq_none_iff (by simp), hsteps, List.length_reverse, depth]
    obtain ⟨hescapes, hread⟩ := parseFrom_of_moves hms base
    simp only [hnul, false_and, not_false_eq_true, true_and, false_or]
    rw [← hclimbs]
    cases hw : walk base.names.reverse ms with
    | none => simp [hescapes.2 hw, eq_comm]
    | some pos => simp [(hread ⟨pos.reverse⟩).2 (by simpa using hw)]

/-- Two texts with a slash between them are read one after the other. -/
theorem parseFrom_append {base q : Path} {a b : String} :
    parseFrom base (a ++ "/" ++ b) = .ok q ↔ ∃ p, parseFrom base a = .ok p ∧ parseFrom p b = .ok q := by
  by_cases ha : '\x00' ∈ a.toList
  · rw [parseFrom_of_nul (by simp [ha]), parseFrom_of_nul ha]
    simp
  by_cases hb : '\x00' ∈ b.toList
  · rw [parseFrom_of_nul (by simp [hb])]
    simp [parseFrom_of_nul hb]
  obtain ⟨ms, hms⟩ := exists_moves ha
  obtain ⟨ms', hms'⟩ := exists_moves hb
  have hboth : (pieces (a ++ "/" ++ b).toList).mapM Move.ofPiece? = some (ms ++ ms') := by
    have htext : (a ++ "/" ++ b).toList = a.toList ++ '/' :: b.toList := by simp
    rw [htext, pieces_append, List.mapM_append, hms, hms']
    rfl
  rw [(parseFrom_of_moves hboth base).2, walk_append, Option.bind_eq_some_iff]
  constructor
  · rintro ⟨pos, hpos, hq⟩
    exact ⟨⟨pos.reverse⟩, ((parseFrom_of_moves hms base).2 _).2 (by simpa using hpos),
      ((parseFrom_of_moves hms' _).2 q).2 (by simpa using hq)⟩
  · rintro ⟨p, hp, hq⟩
    exact ⟨p.names.reverse, ((parseFrom_of_moves hms base).2 p).1 hp, ((parseFrom_of_moves hms' p).2 q).1 hq⟩

theorem parse_display (p : Path) : parse p.display = .ok p := by
  have hempty : parse "" = .ok root := rfl
  exact parseFrom_append (a := "").2 ⟨root, hempty, p.parse_str⟩

/-- A text behind the text of a base is read from the base. -/
theorem parse_str_append {base q : Path} : parse (base.str ++ "/" ++ raw) = .ok q ↔ parseFrom base raw = .ok q := by
  rw [parse, parseFrom_append]
  constructor
  · rintro ⟨p, hp, hq⟩
    have hbase := base.parse_str
    rw [parse, hp] at hbase
    rwa [← Except.ok.inj hbase]
  · intro h
    exact ⟨base, base.parse_str, h⟩

/-- What a text leads to from the root it leads to from any base, below it. -/
theorem parseFrom_of_parse {q : Path} (h : parse raw = .ok q) (base : Path) : parseFrom base raw = .ok (base.join q) := by
  rw [parse, parseFrom_eq_ok_iff] at h
  obtain ⟨hnul, hcancels, hdots⟩ := h
  rw [parseFrom_eq_ok_iff, names_join, List.map_append]
  refine ⟨hnul, hcancels.lift (base.names.map Name.chars ++ ·) fun l l' h => ?_, ?_⟩
  · cases h with
    | intro front back hs => simpa using Cancels.intro (base.names.map Name.chars ++ front) back hs
  · rw [List.mem_append, List.mem_map]
    rintro (⟨n, -, hn⟩ | hq)
    · exact chars_ne_dots n hn
    · exact hdots hq

theorem segments_toList (p : Path) : p.segments.map String.toList = p.names.map Name.chars := by
  rw [segments, List.map_map]
  rfl

/-- A reading fails with one of its two faults, and otherwise succeeds. -/
theorem exists_parseFrom_eq_ok_iff {base : Path} : (∃ p, parseFrom base raw = .ok p) ↔
    '\x00' ∉ raw.toList ∧ ¬ Climbs base.depth (steps raw) := by
  cases h : parseFrom base raw with
  | ok p =>
    have hfails : ∀ f, parseFrom base raw ≠ .error f := fun f => by simp [h]
    simp only [ne_eq, parseFrom_eq_error_iff, not_or, not_and] at hfails
    have hnul : '\x00' ∉ raw.toList := fun hnul => (hfails _).1 hnul rfl
    simpa [hnul] using fun hclimbs => (hfails _).2 hnul hclimbs rfl
  | error f =>
    rcases parseFrom_eq_error_iff.1 h with ⟨hnul, -⟩ | ⟨-, hclimbs, -⟩
    · simp [hnul]
    · simp [hclimbs]

end Path

namespace Resolver

theorem relative_of_absolute (h : isAbsolute raw = true) (r : Resolver) (base : Option Path) :
    r.relative base raw = parse raw := by
  rw [relative, if_pos h]

/-- A relative text is read on from the base. -/
theorem relative_eq_ok_iff (h : isAbsolute raw = false) {r : Resolver} {base p : Path} :
    r.relative (some base) raw = .ok p ↔ parseFrom base raw = .ok p := by
  rw [relative, if_neg (by simp [h]), Option.getD_some, parse_str_append]

end Resolver

/-- A text is read as a path by dropping its empty pieces and dots and letting each double dot cancel the nearest segment
in front of it. That fails on a NUL and where a double dot has no segment left to cancel, and on nothing else. The text of
a path and the path as shown are read back as the path. An absolute text is read the same from every base. A relative one
is read on behind the segments of the base: what it leads to from the root lies below the base at the same place, and a
double dot may cancel segments of the base but none above it. -/
theorem reading_cancels_double_dots :
    (∀ raw : String, (∃ p, parse raw = .ok p) ↔ '\x00' ∉ raw.toList ∧ ¬ Climbs 0 (steps raw)) ∧
    (∀ (raw : String) (p : Path), parse raw = .ok p ↔
      '\x00' ∉ raw.toList ∧ Leaves (steps raw) (p.segments.map String.toList)) ∧
    (∀ p : Path, parse p.str = .ok p ∧ parse p.display = .ok p) ∧
    (∀ (r : Resolver) (base : Option Path) (sub : String), Resolver.isAbsolute sub = true →
      r.relative base sub = parse sub) ∧
    (∀ (r : Resolver) (base : Path) (sub : String), Resolver.isAbsolute sub = false →
      (∀ p : Path, r.relative (some base) sub = .ok p ↔ '\x00' ∉ sub.toList ∧
        Leaves (base.segments.map String.toList ++ steps sub) (p.segments.map String.toList)) ∧
      (∀ q : Path, parse sub = .ok q → r.relative (some base) sub = .ok (base.join q)) ∧
      ((∃ f, r.relative (some base) sub = .error f) ↔
        '\x00' ∈ sub.toList ∨ Climbs base.depth (steps sub))) ∧
    (∀ (r : Resolver) (sub : String), r.relative none sub = r.relative (some r.workingDirectory) sub) := by
  refine ⟨fun raw => exists_parseFrom_eq_ok_iff, fun raw p => ?_, fun p => ⟨p.parse_str, p.parse_display⟩,
    fun r base sub h => Resolver.relative_of_absolute h r base, fun r base sub h => ⟨fun p => ?_, fun q hq => ?_, ?_⟩,
    fun r sub => rfl⟩
  · rw [parse, parseFrom_eq_ok_iff, segments_toList]
    simp
  · rw [Resolver.relative_eq_ok_iff h, parseFrom_eq_ok_iff, segments_toList, segments_toList]
  · exact (Resolver.relative_eq_ok_iff h).2 (parseFrom_of_parse hq base)
  · have hok : (∃ p, r.relative (some base) sub = .ok p) ↔
        '\x00' ∉ sub.toList ∧ ¬ Climbs base.depth (steps sub) := by
      simp only [Resolver.relative_eq_ok_iff h, exists_parseFrom_eq_ok_iff]
    rw [← not_iff_not, not_or, ← hok]
    cases r.relative (some base) sub <;> simp

/-- Of two double dots behind a base the first cancels a segment of the text, the second one of the base. -/
theorem reading_cancels_double_dots_behind_base : Resolver.isAbsolute "./oak/../..//elm" = false ∧
    ({} : Resolver).relative (some ⟨[⟨"fir", by decide⟩, ⟨"yew", by decide⟩]⟩) "./oak/../..//elm" =
      .ok ⟨[⟨"fir", by decide⟩, ⟨"elm", by decide⟩]⟩ := by
  have hsteps : steps "./oak/../..//elm" = ["oak".toList, dots, dots, "elm".toList] := by decide
  refine ⟨by decide, ((reading_cancels_double_dots.2.2.2.2.1 _ _ _ (by decide)).1 _).2 ⟨by decide, ?_, by decide⟩⟩
  rw [hsteps]
  exact .head (.intro ["fir".toList, "yew".toList] [dots, "elm".toList] (by decide))
    (.single (.intro ["fir".toList] ["elm".toList] (by decide)))

end Filespace
