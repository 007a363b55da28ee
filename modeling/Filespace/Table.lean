/-!
# Tables in key order

A `Table` maps keys to values and keeps its rows in the order of the keys' text. Listings, the order in
which a subtree is visited and the first conflict that a removal meets all show that order, so it belongs
to the type and is not recomputed at each use.

Design points:

* a key is compared by its text, a list of characters, and a text belongs to one key only (`Key`);
* the rows are strictly increasing, hence no key occurs twice and two tables with the same look-ups are
  equal (`Table.ext_get?`);
* every operation is described by what it does to look-ups (`get?_insert`, `get?_erase`, `get?_filter`).
-/

namespace Filespace

/-- A type whose values are told apart, and ordered, by a text. -/
class Key (κ : Type) where
  decEq : DecidableEq κ
  text : κ → List Char
  /-- No two keys have the same text. -/
  text_inj : ∀ {a b : κ}, text a = text b → a = b

namespace Key

variable {κ : Type} [Key κ]

instance (priority := low) : DecidableEq κ := decEq

instance : Key String where
  decEq := inferInstance
  text := String.toList
  text_inj := String.toList_inj.1

/-- Of two different texts one comes first. -/
theorem lt_or_gt_of_ne {a b : κ} (h : a ≠ b) : text a < text b ∨ text b < text a := by
  by_cases hab : text a < text b
  · exact .inl hab
  · by_cases hba : text b < text a
    · exact .inr hba
    · exact absurd (text_inj (List.le_antisymm hba hab)) h

end Key

/-- Rows in strictly increasing order of their keys. -/
structure Table (κ α : Type) [Key κ] where
  /-- The rows, first key first. -/
  rows : List (κ × α)
  sorted : rows.Pairwise fun a b => Key.text a.1 < Key.text b.1

namespace Table

variable {κ α β : Type} [Key κ] {l : List (κ × α)} {t : Table κ α} {k : κ}

def empty : Table κ α := ⟨[], .nil⟩

instance : EmptyCollection (Table κ α) := ⟨empty⟩
instance : Inhabited (Table κ α) := ⟨empty⟩

/-! ### Rows -/

def lookup (k : κ) : List (κ × α) → Option α
  | [] => none
  | (k', v) :: r => if k = k' then some v else lookup k r

/-- Puts a row at its place, over the one its key had. -/
def place (k : κ) (v : α) : List (κ × α) → List (κ × α)
  | [] => [(k, v)]
  | (k', v') :: r =>
    if Key.text k < Key.text k' then (k, v) :: (k', v') :: r
    else if Key.text k' < Key.text k then (k', v') :: place k v r
    else (k, v) :: r

theorem mem_place {v : α} {x : κ × α} (h : x ∈ place k v l) : x = (k, v) ∨ x ∈ l := by
  induction l with
  | nil => exact .inl (by simpa [place] using h)
  | cons y r ih =>
    rw [place] at h
    split at h
    · simpa using h
    · split at h
      · rcases List.mem_cons.1 h with h | h
        · exact .inr (by simp [h])
        · rcases ih h with h | h
          · exact .inl h
          · exact .inr (by simp [h])
      · rcases List.mem_cons.1 h with h | h
        · exact .inl h
        · exact .inr (by simp [h])

theorem sorted_place (k : κ) (v : α) (h : l.Pairwise fun a b => Key.text a.1 < Key.text b.1) :
    (place k v l).Pairwise fun a b => Key.text a.1 < Key.text b.1 := by
  induction l with
  | nil => exact List.pairwise_singleton _ _
  | cons y r ih =>
    obtain ⟨hy, hr⟩ := List.pairwise_cons.1 h
    rw [place]
    split
    · rename_i hk
      refine List.pairwise_cons.2 ⟨fun z hz => ?_, h⟩
      rcases List.mem_cons.1 hz with rfl | hz
      · exact hk
      · exact List.lt_trans hk (hy z hz)
    · split
      · rename_i hk
        refine List.pairwise_cons.2 ⟨fun z hz => ?_, ih hr⟩
        rcases mem_place hz with rfl | hz
        · exact hk
        · exact hy z hz
      · rename_i h₁ h₂
        have hk : k = y.1 := Key.text_inj (List.le_antisymm h₂ h₁)
        exact List.pairwise_cons.2 ⟨fun z hz => by simpa [hk] using hy z hz, hr⟩

theorem lookup_place (k k' : κ) (v : α) (l : List (κ × α)) :
    lookup k' (place k v l) = if k' = k then some v else lookup k' l := by
  induction l with
  | nil => simp [place, lookup]
  | cons y r ih =>
    rw [place]
    split
    · simp [lookup]
    · split
      · rename_i _ hk
        have hne : y.1 ≠ k := fun e => List.lt_irrefl _ (e ▸ hk)
        by_cases hy : k' = y.1
        · simp [lookup, hy, hne]
        · simp [lookup, hy, ih]
      · rename_i h₁ h₂
        have hk : k = y.1 := Key.text_inj (List.le_antisymm h₂ h₁)
        by_cases hy : k' = y.1 <;> simp [lookup, hk, hy]

/-- A row of a sorted list is what its key looks up. -/
theorem lookup_eq_some_iff {v : α}
    (h : l.Pairwise fun a b => Key.text a.1 < Key.text b.1) : lookup k l = some v ↔ (k, v) ∈ l := by
  induction l with
  | nil => simp [lookup]
  | cons y r ih =>
    obtain ⟨hy, hr⟩ := List.pairwise_cons.1 h
    rw [lookup]
    split
    · rename_i hk
      constructor
      · intro hv
        exact List.mem_cons.2 (.inl (Prod.ext hk (Option.some.inj hv).symm))
      · intro hm
        rcases List.mem_cons.1 hm with hm | hm
        · rw [← hm]
        · exact absurd (hy _ hm) (hk ▸ List.lt_irrefl _)
    · rename_i e
      rw [ih hr]
      constructor
      · exact List.mem_cons_of_mem _
      · intro hm
        rcases List.mem_cons.1 hm with hm | hm
        · exact absurd (hm ▸ rfl) e
        · exact hm

/-! ### Look-ups and updates -/

def get? (t : Table κ α) (k : κ) : Option α := lookup k t.rows

def contains (t : Table κ α) (k : κ) : Bool := (t.get? k).isSome

/-- Gives a key a value, in place of the one it had. -/
def insert (t : Table κ α) (k : κ) (v : α) : Table κ α := ⟨place k v t.rows, sorted_place k v t.sorted⟩

def filter (t : Table κ α) (p : κ → α → Bool) : Table κ α :=
  ⟨t.rows.filter fun x => p x.1 x.2, t.sorted.filter _⟩

def erase (t : Table κ α) (k : κ) : Table κ α := t.filter fun k' _ => k' ≠ k

/-- Changes each value, knowing its key. -/
def map (t : Table κ α) (f : κ → α → β) : Table κ β :=
  ⟨t.rows.map fun x => (x.1, f x.1 x.2), List.pairwise_map.2 t.sorted⟩

def keys (t : Table κ α) : List κ := t.rows.map Prod.fst

def size (t : Table κ α) : Nat := t.rows.length

def isEmpty (t : Table κ α) : Bool := t.rows.isEmpty

/-- A table from rows in any order; of two rows with one key the later counts. -/
def ofList (l : List (κ × α)) : Table κ α := l.foldl (fun t x => t.insert x.1 x.2) empty

def insertMany (t : Table κ α) (l : List (κ × α)) : Table κ α := l.foldl (fun t x => t.insert x.1 x.2) t

@[simp] theorem get?_empty (k : κ) : (empty : Table κ α).get? k = none := rfl

theorem get?_eq_some_iff {v : α} : t.get? k = some v ↔ (k, v) ∈ t.rows :=
  lookup_eq_some_iff t.sorted

theorem get?_insert (t : Table κ α) (k k' : κ) (v : α) :
    (t.insert k v).get? k' = if k' = k then some v else t.get? k' :=
  lookup_place k k' v t.rows

@[simp] theorem get?_insert_self (t : Table κ α) (k : κ) (v : α) : (t.insert k v).get? k = some v := by
  simp [get?_insert]

theorem get?_insert_of_ne (t : Table κ α) {k' : κ} (v : α) (h : k' ≠ k) : (t.insert k v).get? k' = t.get? k' := by
  simp [get?_insert, h]

theorem get?_filter (t : Table κ α) (p : κ → α → Bool) (k : κ) :
    (t.filter p).get? k = (t.get? k).filter (p k) := by
  apply Option.ext
  intro v
  simp [get?_eq_some_iff, filter, Option.filter_eq_some_iff]

theorem get?_erase (t : Table κ α) (k k' : κ) :
    (t.erase k).get? k' = if k' = k then none else t.get? k' := by
  rw [erase, get?_filter]
  by_cases h : k' = k
  · simp [h]
  · cases t.get? k' <;> simp [h]

theorem get?_map (t : Table κ α) (f : κ → α → β) (k : κ) :
    (t.map f).get? k = (t.get? k).map (f k) := by
  apply Option.ext
  intro v
  simp only [get?_eq_some_iff, map, List.mem_map, Prod.mk.injEq, Option.map_eq_some_iff]
  constructor
  · rintro ⟨⟨k', v'⟩, hm, rfl, rfl⟩
    exact ⟨v', hm, rfl⟩
  · rintro ⟨v', hm, rfl⟩
    exact ⟨(k, v'), hm, rfl, rfl⟩

theorem contains_eq_true_iff : t.contains k = true ↔ ∃ v, t.get? k = some v :=
  Option.isSome_iff_exists

theorem mem_keys : k ∈ t.keys ↔ ∃ v, t.get? k = some v := by
  simp [keys, get?_eq_some_iff]

/-- Two sorted lists of rows with the same members are the same list. -/
theorem rows_eq_of_mem_iff : ∀ {l m : List (κ × α)},
    (l.Pairwise fun a b => Key.text a.1 < Key.text b.1) →
    (m.Pairwise fun a b => Key.text a.1 < Key.text b.1) → (∀ x, x ∈ l ↔ x ∈ m) → l = m
  | [], [], _, _, _ => rfl
  | [], y :: _, _, _, h => absurd ((h y).2 (by simp)) (by simp)
  | x :: _, [], _, _, h => absurd ((h x).1 (by simp)) (by simp)
  | x :: l, y :: m, hl, hm, h => by
    obtain ⟨hx, hl'⟩ := List.pairwise_cons.1 hl
    obtain ⟨hy, hm'⟩ := List.pairwise_cons.1 hm
    have hxy : x = y := by
      rcases List.mem_cons.1 ((h x).1 (by simp)) with e | e
      · exact e
      · rcases List.mem_cons.1 ((h y).2 (by simp)) with e' | e'
        · exact e'.symm
        · exact absurd (hx y e') (List.lt_asymm (hy x e))
    subst hxy
    have hrest : ∀ z, z ∈ l ↔ z ∈ m := by
      intro z
      constructor
      · intro hz
        rcases List.mem_cons.1 ((h z).1 (by simp [hz])) with e | e
        · exact absurd (hx z hz) (e ▸ List.lt_irrefl _)
        · exact e
      · intro hz
        rcases List.mem_cons.1 ((h z).2 (by simp [hz])) with e | e
        · exact absurd (hy z hz) (e ▸ List.lt_irrefl _)
        · exact e
    rw [rows_eq_of_mem_iff hl' hm' hrest]

/-- A table is what its look-ups say. -/
theorem ext_get? {u : Table κ α} (h : ∀ k, t.get? k = u.get? k) : t = u := by
  have : t.rows = u.rows := rows_eq_of_mem_iff t.sorted u.sorted fun (k, v) => by
    rw [← get?_eq_some_iff, ← get?_eq_some_iff, h]
  cases t; cases u; cases this; rfl

instance [DecidableEq α] : DecidableEq (Table κ α) := fun t u =>
  if h : t.rows = u.rows then .isTrue (by cases t; cases u; cases h; rfl)
  else .isFalse fun e => h (e ▸ rfl)

end Table

end Filespace
