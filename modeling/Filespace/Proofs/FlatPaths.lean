import Filespace.Proofs.Paths
import Mathlib.Data.List.DropRight

/-!
# Paths as flat text

A path is a list of names, and it has a text: its names with slashes between them. Everything that is done to a path
can be done to the text alone (`Flat`): the parent is what stands in front of the last slash, one path lies below another
if its text starts with the other's and goes on with a slash or not at all, and so on. This module shows that the two
agree, so a path is exactly the list of its names.

* `pieces_append`: cutting a text at one of its slashes cuts the list of its pieces. Every fact about two texts, one of
  which starts with the other, comes from this one. It is what keeps `ab/c` from lying below `a`.
* `Flat.clean_iff`: the texts of paths are those without a slash at either end, without a NUL and without an empty, dot
  or double dot segment.
* `Flat.made_iff`: operations on texts lead from texts of paths to texts of paths, and to all of them.
-/

namespace Filespace

open Path

/-! ### Operations on texts -/

namespace Flat

/-- The segments of a text: what stands between its slashes, unless it is empty. -/
def segments (t : List Char) : List (List Char) := (pieces t).filter (· ≠ [])

/-- What stands in front of the last slash, which is nothing if there is no slash. The root has no parent. -/
def parent? (t : List Char) : Option (List Char) :=
  if t.isEmpty then none else some (t.rdropWhile (· ≠ '/')).dropLast

/-- What stands behind the last slash. The root has no name. -/
def name? (t : List Char) : Option (List Char) :=
  if t.isEmpty then none else some (t.rtakeWhile (· ≠ '/'))

/-- Two texts with a slash between them, unless one is that of the root. -/
def join (t u : List Char) : List Char :=
  if t.isEmpty then u else if u.isEmpty then t else t ++ '/' :: u

/-- A text with one more segment, which has to be plain. -/
def child? (t n : List Char) : Option (List Char) :=
  if isPlain n then some (if t.isEmpty then n else t ++ '/' :: n) else none

/-- Does a text start with another one and then end or go on with a slash? -/
def startsWith (t u : List Char) : Bool :=
  u.isEmpty || (u.isPrefixOf t && ((t.drop u.length).isEmpty || (t.drop u.length).head? = some '/'))

/-- A text without another one that it starts with, and without the slashes in front of the rest. -/
def relativeTo? (t u : List Char) : Option (List Char) :=
  if startsWith t u then some (if u.isEmpty then t else (t.drop u.length).dropWhile (· = '/')) else none

/-- The texts that operations on texts lead to. -/
inductive Made : List Char → Prop
  | root : Made []
  | parse {raw : String} {p : Path} (h : parse raw = .ok p) : Made p.chars
  | child {t n u : List Char} (ht : Made t) (h : child? t n = some u) : Made u
  | parent {t u : List Char} (ht : Made t) (h : parent? t = some u) : Made u
  | join {t u : List Char} (ht : Made t) (hu : Made u) : Made (join t u)
  | relativeTo {t u r : List Char} (ht : Made t) (hu : Made u) (h : relativeTo? t u = some r) : Made r

/-- A text with nothing in it that a path's text does not have. -/
structure Clean (t : List Char) : Prop where
  /-- There is no slash in front. -/
  front : t.head? ≠ some '/'
  /-- There is no slash at the end. -/
  back : t.getLast? ≠ some '/'
  /-- There is no NUL. -/
  nul : '\x00' ∉ t
  /-- Between two slashes there is something other than a dot or a double dot. -/
  segment : t ≠ [] → ∀ s ∈ pieces t, s ≠ [] ∧ s ≠ ['.'] ∧ s ≠ ['.', '.']

end Flat

/-! ### Plain segments -/

theorem isPlain_iff {cs : List Char} :
    isPlain cs = true ↔ cs ≠ [] ∧ cs ≠ ['.'] ∧ cs ≠ ['.', '.'] ∧ '/' ∉ cs ∧ '\x00' ∉ cs := by
  simp [isPlain, and_assoc]

theorem Name.nul_notMem (n : Name) : '\x00' ∉ n.chars := (isPlain_iff.1 n.plain).2.2.2.2

/-- Plain texts are those of names. -/
theorem exists_names {l : List (List Char)} (h : ∀ s ∈ l, isPlain s = true) :
    ∃ ns : List Name, ns.map Name.chars = l := by
  induction l with
  | nil => exact ⟨[], rfl⟩
  | cons s l ih =>
    obtain ⟨ns, hns⟩ := ih fun r hr => h r (by simp [hr])
    exact ⟨⟨String.ofList s, by simpa using h s (by simp)⟩ :: ns, by simp [Name.chars, hns]⟩

/-! ### Pieces of a text -/

/-- A slash cuts the pieces of a text in two. -/
theorem pieces_append (t u : List Char) : pieces (t ++ '/' :: u) = pieces t ++ pieces u := by
  induction t with
  | nil => simp [pieces]
  | cons c t ih =>
    by_cases hc : c = '/'
    · simp [pieces, hc, ih]
    · -- The first piece of `t` is there, so `c` is put in front of it on both sides.
      obtain ⟨p, ps, hp⟩ := List.exists_cons_of_ne_nil (pieces_ne_nil t)
      simp [pieces, hc, ih, hp]

theorem slash_notMem_of_mem_pieces {t s : List Char} (h : s ∈ pieces t) : '/' ∉ s := by
  induction t generalizing s with
  | nil => simp_all [pieces]
  | cons c t ih =>
    by_cases hc : c = '/'
    · simp only [pieces, hc, if_true, List.mem_cons] at h
      cases h with
      | inl h => simp [h]
      | inr h => exact ih h
    · obtain ⟨p, ps, hp⟩ := List.exists_cons_of_ne_nil (pieces_ne_nil t)
      simp only [pieces, hc, if_false, hp, List.mem_cons] at h
      cases h with
      | inl h =>
        have hp' : '/' ∉ p := ih (by simp [hp])
        simp [h, hp', Ne.symm hc]
      | inr h => exact ih (by simp [hp, h])

/-- A text is its pieces with slashes between them. -/
theorem joined_pieces (t : List Char) : joined (pieces t) = t := by
  induction t with
  | nil => rfl
  | cons c t ih =>
    obtain ⟨p, ps, hp⟩ := List.exists_cons_of_ne_nil (pieces_ne_nil t)
    rw [hp] at ih
    by_cases hc : c = '/'
    · simp [pieces, hc, hp, joined, ih]
    · cases ps with
      | nil => simp_all [pieces, joined]
      | cons q qs => simp_all [pieces, joined]

/-- Joining texts adds slashes and nothing else. -/
theorem mem_joined_iff {c : Char} (hc : c ≠ '/') {l : List (List Char)} : c ∈ joined l ↔ ∃ s ∈ l, c ∈ s := by
  induction l with
  | nil => simp [joined]
  | cons p ps ih =>
    cases ps with
    | nil => simp [joined]
    | cons q qs => simp [joined, ih, hc]

/-- A slash in front stands behind an empty piece. -/
theorem nil_mem_pieces_of_head? {t : List Char} (h : t.head? = some '/') : [] ∈ pieces t := by
  obtain ⟨u, rfl⟩ := List.head?_eq_some_iff.1 h
  simp [pieces]

theorem nil_mem_pieces_of_getLast? {t : List Char} (h : t.getLast? = some '/') : [] ∈ pieces t := by
  obtain ⟨u, rfl⟩ := List.getLast?_eq_some_iff.1 h
  simp [pieces_append, pieces]

/-! ### The text of a path -/

namespace Path

variable {p q : Path}

@[simp] theorem chars_root : root.chars = [] := rfl

theorem joined_append {l m : List (List Char)} (hl : l ≠ []) (hm : m ≠ []) :
    joined (l ++ m) = joined l ++ '/' :: joined m := by
  induction l with
  | nil => exact absurd rfl hl
  | cons a l ih =>
    cases l with
    | nil =>
      obtain ⟨b, bs, rfl⟩ := List.exists_cons_of_ne_nil hm
      simp [joined]
    | cons b l => simp [joined, ← ih]

/-- The pieces of a path's text are its names. -/
theorem pieces_chars (hp : p ≠ root) : pieces p.chars = p.names.map Name.chars := by
  have hne : p.names ≠ [] := fun h => hp (ext h)
  have hslash : ∀ s ∈ p.names.map Name.chars, '/' ∉ s := by
    intro s hs
    obtain ⟨n, -, rfl⟩ := List.mem_map.1 hs
    exact n.slash_notMem
  exact pieces_joined (by simpa using hne) hslash

theorem chars_eq_nil_iff : p.chars = [] ↔ p = root := by
  constructor
  · intro h
    exact chars_inj (h.trans chars_root.symm)
  · rintro rfl
    rfl

theorem isEmpty_chars (p : Path) : p.chars.isEmpty = decide (p = root) := by
  rw [Bool.eq_iff_iff, List.isEmpty_iff, decide_eq_true_iff, chars_eq_nil_iff]

theorem chars_join (hp : p ≠ root) (hq : q ≠ root) : (p.join q).chars = p.chars ++ '/' :: q.chars := by
  have hp' : p.names ≠ [] := fun h => hp (ext h)
  have hq' : q.names ≠ [] := fun h => hq (ext h)
  rw [chars, names_join, List.map_append, joined_append (by simpa using hp') (by simpa using hq')]
  rfl

/-- A name behind a path is the path of that name alone, below the path. -/
theorem child_eq_join (p : Path) (n : Name) : p.child n = p.join (root.child n) := ext (by simp)

@[simp] theorem chars_root_child (n : Name) : (root.child n).chars = n.chars := rfl

theorem chars_child (hp : p ≠ root) (n : Name) : (p.child n).chars = p.chars ++ '/' :: n.chars := by
  rw [child_eq_join, chars_join hp child_ne_root, chars_root_child]

theorem isPlain_of_mem_pieces (hp : p ≠ root) {s : List Char} (hs : s ∈ pieces p.chars) : isPlain s = true := by
  rw [pieces_chars hp] at hs
  obtain ⟨n, -, rfl⟩ := List.mem_map.1 hs
  exact n.plain

theorem nul_notMem_chars (p : Path) : '\x00' ∉ p.chars := by
  rw [chars, mem_joined_iff (by decide)]
  rintro ⟨s, hs, hnul⟩
  obtain ⟨n, -, rfl⟩ := List.mem_map.1 hs
  exact n.nul_notMem hnul

/-- Names are plain, so a path's text is clean. -/
theorem clean_chars (p : Path) : Flat.Clean p.chars := by
  by_cases hp : p = root
  · subst hp
    exact ⟨by simp, by simp, by simp, fun h => absurd rfl h⟩
  · have hempty : [] ∉ pieces p.chars := fun h => by simpa [isPlain] using isPlain_of_mem_pieces hp h
    constructor
    case front => exact fun h => hempty (nil_mem_pieces_of_head? h)
    case back => exact fun h => hempty (nil_mem_pieces_of_getLast? h)
    case nul => exact p.nul_notMem_chars
    case segment =>
      intro _ s hs
      obtain ⟨hne, hdot, hdots, -⟩ := isPlain_iff.1 (isPlain_of_mem_pieces hp hs)
      exact ⟨hne, hdot, hdots⟩

end Path

/-! ### Operations on the text of a path -/

namespace Flat

variable {p q : Path}

/-- The clean texts are those of paths. -/
theorem clean_iff {t : List Char} : Clean t ↔ ∃ p : Path, p.chars = t := by
  constructor
  · intro h
    by_cases ht : t = []
    · exact ⟨.root, by simp [ht]⟩
    · have hplain : ∀ s ∈ pieces t, isPlain s = true := by
        intro s hs
        obtain ⟨hne, hdot, hdots⟩ := h.segment ht s hs
        have hnul : '\x00' ∉ s := by
          intro hc
          apply h.nul
          rw [← joined_pieces t, mem_joined_iff (by decide)]
          exact ⟨s, hs, hc⟩
        exact isPlain_iff.2 ⟨hne, hdot, hdots, slash_notMem_of_mem_pieces hs, hnul⟩
      obtain ⟨ns, hns⟩ := exists_names hplain
      exact ⟨⟨ns⟩, by rw [chars, hns, joined_pieces]⟩
  · rintro ⟨p, rfl⟩
    exact p.clean_chars

theorem segments_chars (p : Path) : segments p.chars = p.segments.map String.toList := by
  have hmap : p.segments.map String.toList = p.names.map Name.chars := by simp [Path.segments, Name.chars]
  rw [hmap, segments]
  by_cases hp : p = .root
  · simp [hp, pieces]
  · rw [pieces_chars hp, List.filter_eq_self]
    intro s hs
    obtain ⟨n, -, rfl⟩ := List.mem_map.1 hs
    simpa using n.chars_ne_nil

theorem join_chars (p q : Path) : join p.chars q.chars = (p.join q).chars := by
  simp only [join, isEmpty_chars, decide_eq_true_iff]
  by_cases hp : p = .root
  · simp [hp]
  · by_cases hq : q = .root
    · simp [hp, hq]
    · simp [hp, hq, chars_join]

theorem child?_chars (p : Path) (s : String) : child? p.chars s.toList = (p.child? s).toOption.map Path.chars := by
  simp only [child?, Path.child?, Name.ofText?, Path.isEmpty_chars, decide_eq_true_iff]
  by_cases hs : isPlain s.toList = true
  · by_cases hp : p = .root
    · simp [hs, hp, Except.toOption, Name.chars]
    · simp [hs, hp, Except.toOption, Path.chars_child, Name.chars]
  · simp [hs, Except.toOption]

/-- The last slash of a text is in front of its last piece. -/
theorem rdropWhile_slash {n : List Char} (hn : '/' ∉ n) (t : List Char) :
    (t ++ '/' :: n).rdropWhile (· ≠ '/') = t ++ ['/'] := by
  induction n using List.reverseRecOn with
  | nil => simp [List.rdropWhile_concat_neg]
  | append_singleton n c ih =>
    have hc : c ≠ '/' := fun e => hn (by simp [e])
    rw [← List.cons_append, ← List.append_assoc, List.rdropWhile_concat_pos _ _ _ (by simpa using hc)]
    exact ih fun e => hn (by simp [e])

theorem rtakeWhile_slash {n : List Char} (hn : '/' ∉ n) (t : List Char) :
    (t ++ '/' :: n).rtakeWhile (· ≠ '/') = n := by
  induction n using List.reverseRecOn with
  | nil => simp [List.rtakeWhile_concat_neg]
  | append_singleton n c ih =>
    have hc : c ≠ '/' := fun e => hn (by simp [e])
    rw [← List.cons_append, ← List.append_assoc, List.rtakeWhile_concat_pos _ _ _ (by simpa using hc)]
    rw [ih fun e => hn (by simp [e])]

theorem parent?_chars (p : Path) : parent? p.chars = p.parent?.map chars := by
  rcases p.eq_root_or_child with rfl | ⟨q, n, rfl⟩
  · rfl
  · have hne : (q.child n).chars ≠ [] := fun h => child_ne_root (chars_eq_nil_iff.1 h)
    simp only [parent?, List.isEmpty_iff, hne, if_false, parent?_child, Option.map_some]
    by_cases hq : q = .root
    · have hnone : n.chars.rdropWhile (· ≠ '/') = [] := by
        rw [List.rdropWhile_eq_nil_iff]
        intro c hc
        simp only [ne_eq, decide_not, Bool.not_eq_true', decide_eq_false_iff_not]
        exact fun e => n.slash_notMem (e ▸ hc)
      rw [hq, chars_root_child, hnone]
      rfl
    · rw [chars_child hq, rdropWhile_slash n.slash_notMem, List.dropLast_concat]

theorem name?_chars (p : Path) : name? p.chars = p.name?.map Name.chars := by
  rcases p.eq_root_or_child with rfl | ⟨q, n, rfl⟩
  · rfl
  · have hne : (q.child n).chars ≠ [] := fun h => child_ne_root (chars_eq_nil_iff.1 h)
    simp only [name?, List.isEmpty_iff, hne, if_false, name?_child, Option.map_some]
    by_cases hq : q = .root
    · have hall : n.chars.rtakeWhile (· ≠ '/') = n.chars := by
        rw [List.rtakeWhile_eq_self_iff]
        intro c hc
        simp only [ne_eq, decide_not, Bool.not_eq_true', decide_eq_false_iff_not]
        exact fun e => n.slash_notMem (e ▸ hc)
      rw [hq, chars_root_child, hall]
    · rw [chars_child hq, rtakeWhile_slash n.slash_notMem]

/-- A text goes on with a slash behind a path's text only if its pieces go on behind the path's names. -/
theorem under_of_chars (hp : p ≠ .root) (hq : q ≠ .root) {rest : List Char} (h : p.chars = q.chars ++ '/' :: rest) :
    p.under q = true := by
  have hpieces := congrArg pieces h
  rw [pieces_append, pieces_chars hp, pieces_chars hq] at hpieces
  -- The names of `q` are as many of the names of `p`.
  have htake := congrArg (List.take q.names.length) hpieces
  rw [← List.map_take, List.take_left' (by simp)] at htake
  have hnames : p.names.take q.names.length = q.names :=
    List.map_inj_right (fun _ _ => Name.chars_inj) |>.1 htake
  rw [under_iff_prefix_names, ← hnames]
  exact List.take_prefix _ _

theorem startsWith_chars (p q : Path) : startsWith p.chars q.chars = p.under q := by
  rw [Bool.eq_iff_iff]
  simp only [startsWith, isEmpty_chars, Bool.or_eq_true, Bool.and_eq_true, decide_eq_true_iff,
    List.isPrefixOf_iff_prefix, List.isEmpty_iff]
  constructor
  · rintro (rfl | ⟨⟨rest, hrest⟩, hend⟩)
    · exact under_root p
    · rw [← hrest, List.drop_left] at hend
      rcases hend with rfl | hend
      · rw [List.append_nil] at hrest
        rw [chars_inj hrest]
        exact under_refl p
      · obtain ⟨rest, rfl⟩ := List.head?_eq_some_iff.1 hend
        by_cases hq : q = .root
        · rw [hq]
          exact under_root p
        · have hp : p ≠ .root := fun e => by simp [e] at hrest
          exact under_of_chars hp hq hrest.symm
  · intro h
    obtain ⟨r, rfl⟩ := under_iff_exists_join.1 h
    by_cases hq : q = .root
    · exact Or.inl hq
    · by_cases hr : r = .root
      · simp [hr]
      · simp [chars_join hq hr]

theorem relativeTo?_chars (p q : Path) : relativeTo? p.chars q.chars = (p.relativeTo? q).map chars := by
  rw [relativeTo?, startsWith_chars]
  by_cases h : p.under q = true
  · obtain ⟨r, rfl⟩ := under_iff_exists_join.1 h
    rw [relativeTo?_join, isEmpty_chars]
    by_cases hq : q = .root
    · simp [hq]
    · by_cases hr : r = .root
      · simp [hq, hr]
      · -- Only the slash between the two is cut off: the rest does not start with one.
        have hfront : r.chars.dropWhile (· = '/') = r.chars := by
          obtain ⟨c, cs, hcs⟩ := List.exists_cons_of_ne_nil fun e => hr (chars_eq_nil_iff.1 e)
          have hc : c ≠ '/' := fun e => r.clean_chars.front (by simp [hcs, e])
          simp [hcs, hc]
        simp [hq, chars_join hq hr, hfront]
  · rw [if_neg h, relativeTo?_eq_none_iff.2 (by simpa using h), Option.map_none]

/-- A name that another one starts with does not count as the path's. -/
example : relativeTo? "ab/c".toList "ab".toList = some "c".toList ∧ relativeTo? "ab/c".toList "a".toList = none := by
  decide

/-- Operations on texts lead from texts of paths to texts of paths, and to all of them. -/
theorem made_iff {t : List Char} : Made t ↔ ∃ p : Path, p.chars = t := by
  constructor
  · intro h
    induction h with
    | root => exact ⟨.root, rfl⟩
    | parse _ => exact ⟨_, rfl⟩
    | @child t n u _ h ih =>
      obtain ⟨p, rfl⟩ := ih
      rw [← String.toList_ofList (l := n), child?_chars, Option.map_eq_some_iff] at h
      obtain ⟨c, -, hc⟩ := h
      exact ⟨c, hc⟩
    | parent _ h ih =>
      obtain ⟨p, rfl⟩ := ih
      rw [parent?_chars, Option.map_eq_some_iff] at h
      obtain ⟨q, -, hq⟩ := h
      exact ⟨q, hq⟩
    | join _ _ iht ihu =>
      obtain ⟨p, rfl⟩ := iht
      obtain ⟨q, rfl⟩ := ihu
      exact ⟨p.join q, (join_chars p q).symm⟩
    | relativeTo _ _ h iht ihu =>
      obtain ⟨p, rfl⟩ := iht
      obtain ⟨q, rfl⟩ := ihu
      rw [relativeTo?_chars, Option.map_eq_some_iff] at h
      obtain ⟨r, -, hr⟩ := h
      exact ⟨r, hr⟩
  · rintro ⟨p, rfl⟩
    exact .parse p.parse_str

end Flat

/-! ### Segments of a path -/

namespace Path

variable {p q : Path}

theorem text_injective : Function.Injective Name.text := by
  intro m n h
  exact Name.chars_inj (congrArg String.toList h)

theorem segments_inj : p.segments = q.segments ↔ p = q := by
  constructor
  · intro h
    exact ext (List.map_inj_right (fun _ _ hn => text_injective hn) |>.1 h)
  · exact congrArg segments

theorem child?_eq_ok_iff {s : String} {c : Path} : p.child? s = .ok c ↔
    (s ≠ "" ∧ s ≠ "." ∧ s ≠ ".." ∧ '/' ∉ s.toList ∧ '\x00' ∉ s.toList) ∧ c.segments = p.segments ++ [s] := by
  have hplain : isPlain s.toList = true ↔ s ≠ "" ∧ s ≠ "." ∧ s ≠ ".." ∧ '/' ∉ s.toList ∧ '\x00' ∉ s.toList := by
    simp only [isPlain_iff, Ne, ← String.toList_inj]
    rfl
  rw [← hplain, child?, Name.ofText?]
  by_cases hs : isPlain s.toList = true
  · have hsegments : (p.child ⟨s, hs⟩).segments = p.segments ++ [s] := by simp [segments]
    simp only [hs, dite_true, Except.ok.injEq, true_and]
    rw [← hsegments, segments_inj, eq_comm]
  · simp [hs]

theorem under_iff_prefix_segments : p.under q = true ↔ q.segments <+: p.segments := by
  rw [under_iff_prefix_names, segments, segments, List.prefix_map_iff_of_injective text_injective]

end Path

/-- A path is exactly the list of its segments, and its text says no less. Each text that operations on texts lead to is
that of one path. It is clean, its pieces are the path's segments, and each operation on texts, however names run into one
another in it, gives the text of what the operation on segments gives. -/
theorem path_is_its_segments :
    (∀ t : List Char, Flat.Made t ↔ ∃! p : Path, p.chars = t) ∧
    (∀ p : Path, Flat.Clean p.chars ∧ Flat.segments p.chars = p.segments.map String.toList) ∧
    (∀ p q : Path, (p = q ↔ p.segments = q.segments) ∧ (p = q ↔ p.chars = q.chars)) ∧
    (∀ p q : Path, (p.join q).segments = p.segments ++ q.segments ∧
      (p.join q).chars = Flat.join p.chars q.chars) ∧
    (∀ (p : Path) (s : String),
      (∀ c, p.child? s = .ok c ↔
        (s ≠ "" ∧ s ≠ "." ∧ s ≠ ".." ∧ '/' ∉ s.toList ∧ '\x00' ∉ s.toList) ∧ c.segments = p.segments ++ [s]) ∧
      (p.child? s).toOption.map chars = Flat.child? p.chars s.toList) ∧
    (∀ p : Path, p.parent?.map segments = (if p.segments = [] then none else some p.segments.dropLast) ∧
      p.parent?.map chars = Flat.parent? p.chars) ∧
    (∀ p : Path, p.name?.map Name.text = p.segments.getLast? ∧ p.name?.map Name.chars = Flat.name? p.chars) ∧
    (∀ p q : Path, (p.under q = true ↔ q.segments <+: p.segments) ∧ p.under q = Flat.startsWith p.chars q.chars) ∧
    (∀ p q : Path, (∀ r, p.relativeTo? q = some r ↔ p = q.join r) ∧
      (p.relativeTo? q).map chars = Flat.relativeTo? p.chars q.chars) := by
  refine ⟨fun t => ?_, fun p => ⟨p.clean_chars, Flat.segments_chars p⟩, fun p q => ?_, fun p q => ?_, fun p s => ?_,
    fun p => ?_, fun p => ?_, fun p q => ?_, fun p q => ?_⟩
  · rw [Flat.made_iff]
    constructor
    · rintro ⟨p, rfl⟩
      exact ⟨p, rfl, fun q hq => chars_inj hq⟩
    · exact ExistsUnique.exists
  · exact ⟨segments_inj.symm, congrArg chars, chars_inj⟩
  · exact ⟨by simp [segments], (Flat.join_chars p q).symm⟩
  · exact ⟨fun c => child?_eq_ok_iff, (Flat.child?_chars p s).symm⟩
  · refine ⟨?_, (Flat.parent?_chars p).symm⟩
    rcases p.eq_root_or_child with rfl | ⟨q, n, rfl⟩
    · rfl
    · simp [segments]
  · exact ⟨by simp [name?, segments], (Flat.name?_chars p).symm⟩
  · exact ⟨under_iff_prefix_segments, (Flat.startsWith_chars p q).symm⟩
  · exact ⟨fun r => relativeTo?_eq_some_iff, (Flat.relativeTo?_chars p q).symm⟩

end Filespace
