import Filespace.Table
import Mathlib.Data.List.Basic

/-!
# More on tables

What a table looks up after many rows were added (`get?_insertMany_of_mem`, `get?_insertMany_of_not_mem`), updates that
change nothing or undo one another, and what becomes of updates when every value is mapped.
-/

namespace Filespace.Table

variable {κ α : Type} [Key κ] {t : Table κ α} {k : κ}

/-! ### Updates at one key -/

/-- Only the last value given to a key counts. -/
@[simp] theorem insert_insert (t : Table κ α) (k : κ) (v w : α) : (t.insert k v).insert k w = t.insert k w := by
  apply ext_get?
  intro k'
  rw [get?_insert, get?_insert, get?_insert]
  split <;> rfl

/-- Giving a key the value that it has changes nothing. -/
theorem insert_eq_self {v : α} (h : t.get? k = some v) : t.insert k v = t := by
  apply ext_get?
  intro k'
  rw [get?_insert]
  split
  · rename_i e
    rw [e, h]
  · rfl

theorem get?_filter_of_true {p : κ → α → Bool} (h : ∀ v, p k v = true) : (t.filter p).get? k = t.get? k := by
  rw [get?_filter]
  cases t.get? k with
  | none => rfl
  | some v => simp [h v]

theorem get?_filter_of_false {p : κ → α → Bool} (h : ∀ v, p k v = false) : (t.filter p).get? k = none := by
  rw [get?_filter]
  cases t.get? k with
  | none => rfl
  | some v => simp [h v]

theorem contains_eq_false_iff : t.contains k = false ↔ t.get? k = none := by
  simp [contains]

/-! ### Rows -/

theorem nodup_keys (t : Table κ α) : t.keys.Nodup := by
  rw [keys, List.Nodup, List.pairwise_map]
  refine t.sorted.imp ?_
  intro a b h e
  rw [e] at h
  exact List.lt_irrefl _ h

/-! ### Many rows -/

@[simp] theorem insertMany_cons (t : Table κ α) (x : κ × α) (l : List (κ × α)) :
    t.insertMany (x :: l) = (t.insert x.1 x.2).insertMany l := rfl

/-- Rows for other keys do not count. -/
theorem get?_insertMany_of_not_mem {l : List (κ × α)} (t : Table κ α) (h : ∀ v, (k, v) ∉ l) :
    (t.insertMany l).get? k = t.get? k := by
  induction l generalizing t with
  | nil => rfl
  | cons x l ih =>
    have hne : k ≠ x.1 := fun e => h x.2 (by rw [e]; exact List.mem_cons_self)
    rw [insertMany_cons, ih _ fun v hv => h v (List.mem_cons_of_mem _ hv), get?_insert_of_ne _ _ hne]

/-- A key whose rows all have one value gets that value. -/
theorem get?_insertMany_of_mem {l : List (κ × α)} {v : α} (t : Table κ α) (h : (k, v) ∈ l)
    (only : ∀ w, (k, w) ∈ l → w = v) : (t.insertMany l).get? k = some v := by
  induction l generalizing t with
  | nil => exact absurd h List.not_mem_nil
  | cons x l ih =>
    rw [insertMany_cons]
    by_cases hl : ∃ w, (k, w) ∈ l
    · obtain ⟨w, hw⟩ := hl
      have e : w = v := only w (List.mem_cons_of_mem _ hw)
      exact ih _ (e ▸ hw) fun w hw => only w (List.mem_cons_of_mem _ hw)
    · rw [get?_insertMany_of_not_mem _ fun w hw => hl ⟨w, hw⟩]
      rcases List.mem_cons.1 h with e | hm
      · rw [← e, get?_insert_self]
      · exact absurd ⟨v, hm⟩ hl

/-- What is left when keys are taken out one after the other. -/
theorem get?_foldl_erase (l : List κ) (t : Table κ α) (k : κ) :
    (l.foldl erase t).get? k = if k ∈ l then none else t.get? k := by
  induction l generalizing t with
  | nil => rfl
  | cons k' l ih =>
    rw [List.foldl_cons, ih, get?_erase]
    by_cases hk : k = k'
    · simp [hk]
    · simp [hk]

/-! ### Mapped values -/

section Map

variable {β : Type} (f : α → β)

theorem map_insert (t : Table κ α) (k : κ) (v : α) :
    (t.insert k v).map (fun _ => f) = (t.map fun _ => f).insert k (f v) := by
  apply ext_get?
  intro k'
  rw [get?_map, get?_insert, get?_insert, get?_map]
  split <;> rfl

theorem map_filter (t : Table κ α) (p : κ → Bool) :
    (t.filter fun k _ => p k).map (fun _ => f) = (t.map fun _ => f).filter fun k _ => p k := by
  apply ext_get?
  intro k
  cases hp : p k with
  | true => rw [get?_map, get?_filter_of_true fun _ => hp, get?_filter_of_true fun _ => hp, get?_map]
  | false => rw [get?_map, get?_filter_of_false fun _ => hp, get?_filter_of_false fun _ => hp, Option.map_none]

theorem map_insertMany (t : Table κ α) (l : List (κ × α)) :
    (t.insertMany l).map (fun _ => f) = (t.map fun _ => f).insertMany (l.map fun x => (x.1, f x.2)) := by
  induction l generalizing t with
  | nil => rfl
  | cons x l ih => rw [insertMany_cons, ih, map_insert, List.map_cons, insertMany_cons]

/-- Rows that are picked and get other keys. -/
theorem map_picked {γ δ : Type} (t : Table κ α) (pick : κ → Option γ) (key : γ → δ) :
    (t.rows.filterMap fun (k, v) => (pick k).map fun r => (key r, v)).map (fun x => (x.1, f x.2)) =
      (t.map fun _ => f).rows.filterMap fun (k, v) => (pick k).map fun r => (key r, v) := by
  show _ = (t.rows.map fun x => (x.1, f x.2)).filterMap _
  rw [List.map_filterMap, List.filterMap_map]
  congr 1
  funext ⟨k, v⟩
  simp only [Function.comp_apply, Option.map_map]
  rfl

theorem keys_map (t : Table κ α) : (t.map fun _ => f).keys = t.keys := by
  simp [keys, map]

end Map

end Filespace.Table
