import Filespace.Path
import Mathlib.Data.List.Infix

/-!
# Paths by depth and by text

Facts about one path lying at or below another (`Path.under`), about the paths that lead to a path
(`Path.trail`), and about moving a path from below one directory to below another (`Path.join`,
`Path.relativeTo?`). A path is the root or a child (`eq_root_or_child`); inductions on paths go that way. A path is read
back from its text (`parse_str`).
-/

namespace Filespace.Path

variable {p q r a b : Path} {n : Name}

/-! ### Children and parents -/

theorem eq_root_or_child (p : Path) : p = root ∨ ∃ q n, p = child q n := by
  rcases List.eq_nil_or_concat p.names with h | ⟨l, n, h⟩
  · exact Or.inl (ext h)
  · exact Or.inr ⟨⟨l⟩, n, ext (by simpa using h)⟩

/-- Every path is reached from the root by going to children. -/
theorem induction_child {motive : Path → Prop} (p : Path) (base : motive root)
    (step : ∀ q n, motive q → motive (child q n)) : motive p := by
  obtain ⟨l⟩ := p
  induction l using List.reverseRecOn with
  | nil => exact base
  | append_singleton l n ih => exact step ⟨l⟩ n ih

theorem parent?_eq_some_iff : p.parent? = some q ↔ ∃ n, p = q.child n := by
  constructor
  · intro h
    rcases eq_root_or_child p with rfl | ⟨q', n, rfl⟩
    · simp [parent?, isRoot, root] at h
    · rw [parent?_child] at h
      exact ⟨n, by rw [Option.some.inj h]⟩
  · rintro ⟨n, rfl⟩
    exact parent?_child q n

@[simp] theorem parent?_root : root.parent? = none := rfl

theorem isRoot_iff : p.isRoot = true ↔ p = root := by
  constructor
  · intro h
    exact ext (by simpa [isRoot] using h)
  · rintro rfl
    rfl

theorem isRoot_eq_false_iff : p.isRoot = false ↔ p ≠ root := by
  rw [Ne, ← isRoot_iff, Bool.not_eq_true]

@[simp] theorem isRoot_child : (q.child n).isRoot = false := by
  simp [isRoot, child]

@[simp] theorem child_ne_root : q.child n ≠ root := by
  intro h
  have := congrArg names h
  simp [child] at this

theorem child_inj {m : Name} : p.child n = q.child m ↔ p = q ∧ n = m := by
  constructor
  · intro h
    have h := congrArg names h
    obtain ⟨h1, h2⟩ := List.append_inj' h rfl
    exact ⟨ext h1, by simpa using h2⟩
  · rintro ⟨rfl, rfl⟩
    rfl

/-! ### Lying below -/

theorem under_iff_prefix_names : p.under q = true ↔ q.names <+: p.names := by
  simp [under]

theorem under_trans (h : p.under q = true) (k : q.under r = true) : p.under r = true := by
  rw [under_iff_prefix_names] at *
  exact k.trans h

theorem under_antisymm (h : p.under q = true) (k : q.under p = true) : p = q := by
  rw [under_iff_prefix_names] at *
  exact ext (k.eq_of_length (Nat.le_antisymm k.length_le h.length_le))

@[simp] theorem under_child (p : Path) (n : Name) : (p.child n).under p = true := by
  rw [under_iff_prefix_names]
  exact ⟨[n], rfl⟩

@[simp] theorem under_join (p r : Path) : (p.join r).under p = true :=
  under_iff_exists_join.2 ⟨r, rfl⟩

theorem not_child_under (p : Path) (n : Name) : p.under (p.child n) = false := by
  rw [Bool.eq_false_iff]
  intro h
  have := (under_iff_prefix_names.1 h).length_le
  rw [names_child, List.length_append, List.length_singleton] at this
  omega

/-- A child lies below a path if it is that path or its directory lies below it. -/
theorem child_under_iff : (q.child n).under p = true ↔ q.child n = p ∨ q.under p = true := by
  constructor
  · intro h
    obtain ⟨t, ht⟩ := under_iff_exists_join.1 h
    rcases eq_root_or_child t with rfl | ⟨t', m, rfl⟩
    · exact Or.inl (by rw [ht, join_root])
    · refine Or.inr (under_iff_exists_join.2 ⟨t', ?_⟩)
      have : q.child n = (p.join t').child m := by
        rw [ht]
        exact ext (by simp)
      exact (child_inj.1 this).1
  · rintro (h | h)
    · rw [h]
      exact under_refl p
    · exact under_trans (under_child q n) h

/-- Of two paths above a third one lies below the other. -/
theorem under_total (ha : p.under a = true) (hb : p.under b = true) :
    a.under b = true ∨ b.under a = true := by
  rw [under_iff_prefix_names] at *
  rcases List.prefix_or_prefix_of_prefix ha hb with h | h
  · exact Or.inr (under_iff_prefix_names.2 h)
  · exact Or.inl h

/-- Neither of two paths lies at or below the other. -/
abbrev Beside (a b : Path) : Prop := a.under b = false ∧ b.under a = false

/-- Nothing lies below two paths that lie beside each other. -/
theorem not_under_of_beside (h : a.Beside b) (hp : p.under a = true) : p.under b = false := by
  rw [Bool.eq_false_iff]
  intro hu
  rcases under_total hp hu with k | k
  · rw [h.1] at k
    cases k
  · rw [h.2] at k
    cases k

/-- What is not below a path is not below its children. -/
theorem not_under_child (h : p.under q = false) (n : Name) : p.under (q.child n) = false := by
  rw [Bool.eq_false_iff]
  intro hu
  simp [under_trans hu (under_child q n)] at h

/-- Below two paths that lie beside each other all children do. -/
theorem beside_children (h : a.Beside b) (n : Name) : (a.child n).Beside (b.child n) :=
  ⟨not_under_child (not_under_of_beside h (under_child a n)) n,
    not_under_child (not_under_of_beside h.symm (under_child b n)) n⟩

theorem root_under_iff : root.under p = true ↔ p = root := by
  constructor
  · intro h
    rw [under_iff_prefix_names] at h
    exact ext (List.prefix_nil.1 h)
  · rintro rfl
    rfl

/-- Nothing lies below two children of one directory. -/
theorem not_under_child_of_ne {m : Name} (hne : n ≠ m) (h : p.under (q.child n) = true) :
    p.under (q.child m) = false := by
  rw [Bool.eq_false_iff]
  intro k
  rcases under_total h k with h | h
  · rcases child_under_iff.1 h with e | e
    · exact hne (child_inj.1 e).2
    · rw [not_child_under] at e
      exact absurd e (by simp)
  · rcases child_under_iff.1 h with e | e
    · exact hne (child_inj.1 e).2.symm
    · rw [not_child_under] at e
      exact absurd e (by simp)

/-! ### Moving paths -/

@[simp] theorem join_child (p r : Path) (n : Name) : p.join (r.child n) = (p.join r).child n :=
  ext (by simp)

@[simp] theorem join_eq_self_iff : p.join r = p ↔ r = root := by
  constructor
  · intro h
    have := congrArg names h
    exact ext (by simpa using this)
  · rintro rfl
    exact join_root p

theorem join_inj : p.join a = p.join b ↔ a = b := by
  constructor
  · intro h
    have := congrArg names h
    exact ext (by simpa using this)
  · rintro rfl
    rfl

theorem child_join (p r : Path) (n : Name) : (p.child n).join r = p.join ⟨n :: r.names⟩ :=
  ext (by simp)

theorem relativeTo?_eq_some_iff : p.relativeTo? q = some r ↔ p = q.join r := by
  unfold relativeTo?
  split
  · rename_i h
    obtain ⟨t, rfl⟩ := under_iff_exists_join.1 h
    have drop : (⟨(q.join t).names.drop q.names.length⟩) = t := ext (by simp)
    rw [drop, Option.some.injEq, join_inj]
  · rename_i h
    constructor
    · intro k
      cases k
    · rintro rfl
      exact absurd (under_join q r) h

@[simp] theorem relativeTo?_join (q r : Path) : (q.join r).relativeTo? q = some r :=
  relativeTo?_eq_some_iff.2 rfl

theorem relativeTo?_eq_none_iff : p.relativeTo? q = none ↔ p.under q = false := by
  unfold relativeTo?
  cases p.under q <;> simp

/-- Moving a path takes what is below it along. -/
theorem join_under_join (p a b : Path) : (p.join a).under (p.join b) = a.under b := by
  rw [Bool.eq_iff_iff, under_iff_prefix_names, under_iff_prefix_names, names_join, names_join,
    List.prefix_append_right_inj]

/-! ### The way to a path -/

@[simp] theorem trail_root : root.trail = [] := rfl

@[simp] theorem trail_child (p : Path) (n : Name) : (p.child n).trail = p.trail ++ [p.child n] := by
  unfold trail
  rw [names_child, List.length_append, List.length_singleton, List.range_succ, List.map_append]
  congr 1
  · refine List.map_congr_left fun i hi => ext ?_
    have hi : i + 1 ≤ p.names.length := List.mem_range.1 hi
    rw [List.take_append_of_le_length hi]
  · simp only [List.map_cons, List.map_nil, List.cons.injEq, and_true]
    exact ext (by simp [List.take_of_length_le])

theorem mem_trail_iff : q ∈ p.trail ↔ p.under q = true ∧ q ≠ root := by
  induction p using induction_child with
  | base =>
    rw [root_under_iff]
    simp
  | step p n ih =>
    rw [trail_child, List.mem_append, ih, List.mem_singleton, child_under_iff]
    constructor
    · rintro (⟨h, hr⟩ | rfl)
      · exact ⟨Or.inr h, hr⟩
      · exact ⟨Or.inl rfl, child_ne_root⟩
    · rintro ⟨h | h, hr⟩
      · exact Or.inr h.symm
      · exact Or.inl ⟨h, hr⟩

@[simp] theorem length_trail (p : Path) : p.trail.length = p.names.length := by
  simp [trail]

theorem nodup_trail (p : Path) : p.trail.Nodup := by
  induction p using induction_child with
  | base => simp
  | step p n ih =>
    rw [trail_child, List.nodup_append]
    refine ⟨ih, by simp, ?_⟩
    rintro q hq _ hn rfl
    rw [List.mem_singleton.1 hn, mem_trail_iff, not_child_under] at hq
    cases hq.1

/-! ### Texts -/

theorem Move.ofPiece?_chars (n : Name) : Move.ofPiece? n.chars = some (.down n) := by
  have hplain : isPlain n.chars = true := n.plain
  have hdot : n.chars ≠ ['.'] := fun hn => by simp [isPlain, hn] at hplain
  have hdots : n.chars ≠ ['.', '.'] := fun hn => by simp [isPlain, hn] at hplain
  simp [Move.ofPiece?, n.chars_ne_nil, hdot, hdots]

/-- Names lead down. -/
theorem walk_down (pos ns : List Name) : walk pos (ns.map .down) = some (ns.reverse ++ pos) := by
  induction ns generalizing pos with
  | nil => rfl
  | cons n ns ih => simp [walk, ih]

/-- Reading the text of a path gives the path back. -/
theorem parse_str (p : Path) : parse p.str = .ok p := by
  have hmoves : (p.names.map Name.chars).mapM Move.ofPiece? = some (p.names.map .down) := by
    induction p.names with
    | nil => rfl
    | cons n ns ih => simp [List.mapM_cons, Move.ofPiece?_chars, ih]
  have hslash : ∀ cs ∈ p.names.map Name.chars, '/' ∉ cs := by
    intro cs hcs
    obtain ⟨n, -, rfl⟩ := List.mem_map.1 hcs
    exact n.slash_notMem
  unfold parse parseFrom
  rw [str, String.toList_ofList, chars]
  by_cases hroot : p.names = []
  · rw [hroot]
    exact congrArg Except.ok (Path.ext hroot.symm)
  · rw [pieces_joined (by simpa using hroot) hslash, hmoves]
    simp only [root, List.reverse_nil, walk_down, List.append_nil, List.reverse_reverse]

theorem str_inj : p.str = q.str ↔ p = q := by
  constructor
  · intro h
    have hq := parse_str q
    rw [← h, parse_str p] at hq
    exact Except.ok.inj hq
  · exact congrArg str

end Filespace.Path
