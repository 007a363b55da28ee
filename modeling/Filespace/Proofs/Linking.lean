import Filespace.Proofs.Paths
import Filespace.Proofs.Tables
import Filespace.Resolver

/-!
# What is known of links

Where the links are after each change of them (`get?_insert` to `get?_renameUnder`), and that a resolved path has no
link on the way to it (`chase_cases`, `get?_trail_of_firstLink?`).
-/

namespace Filespace

open Storage Path

/-! ### Changes of links -/

namespace Links

variable {l : Links} {p q source target : Path}

theorem get?_insert (l : Links) (p : Path) (t : String) (q : Path) :
    (l.insert p t).1.get? q = if q = p then some t else l.get? q :=
  Table.get?_insert l.table p q t

theorem get?_remove (l : Links) (p q : Path) :
    (l.remove p).2.1.get? q = if q = p then none else l.get? q := by
  unfold remove
  cases hp : l.get? p with
  | some t => exact Table.get?_erase l.table p q
  | none =>
    simp only
    split
    · rename_i e
      rw [e, hp]
    · rfl

theorem mem_pathsUnder : q ∈ l.pathsUnder p ↔ l.get? q ≠ none ∧ q.under p = true := by
  unfold pathsUnder
  rw [List.mem_filter, Table.mem_keys, ← Option.isSome_iff_exists, Option.isSome_iff_ne_none]
  exact Iff.rfl

theorem get?_removeUnder (l : Links) (p q : Path) :
    (l.removeUnder p).2.1.get? q = if q.under p = true then none else l.get? q := by
  unfold removeUnder get?
  cases hu : q.under p with
  | true => rw [if_pos rfl, Table.get?_filter_of_false (by simp [hu])]
  | false => rw [if_neg (by simp), Table.get?_filter_of_true (by simp [hu])]

theorem get?_rename {t : String} (hp : l.get? source = some t) (target q : Path) :
    (l.rename source target).2.1.get? q =
      if q = target then some t else if q = source then none else l.get? q := by
  unfold rename
  rw [hp]
  show ((l.table.erase source).insert target t).get? q = _
  rw [Table.get?_insert, Table.get?_erase]
  rfl

/-- One link after the other is moved from below one path to below another. -/
def renameStep (source target : Path) (state : Links × List LinkJob) (p : Path) : Links × List LinkJob :=
  match p.relativeTo? source with
  | none => state
  | some r => ((state.1.rename p (target.join r)).2.1, state.2 ++ (state.1.rename p (target.join r)).2.2)

theorem renameUnder_eq (l : Links) (source target : Path) :
    (l.renameUnder source target).2 = (l.pathsUnder source).foldl (renameStep source target) (l, []) := rfl

theorem get?_foldl_renameStep {ps : List Path} {state : Links × List LinkJob} (hst : source.under target = false)
    (hts : target.under source = false) (hnodup : ps.Nodup)
    (hps : ∀ p ∈ ps, p.under source = true ∧ state.1.get? p ≠ none) (q : Path) :
    (ps.foldl (renameStep source target) state).1.get? q =
      match q.relativeTo? target with
      | some r => if source.join r ∈ ps then state.1.get? (source.join r) else state.1.get? q
      | none => if q ∈ ps then none else state.1.get? q := by
  induction ps generalizing state with
  | nil => cases q.relativeTo? target <;> rfl
  | cons p ps ih =>
    obtain ⟨⟨hu, hp⟩, hothers⟩ := List.forall_mem_cons.1 hps
    obtain ⟨hnot, hrest⟩ := List.nodup_cons.1 hnodup
    obtain ⟨r₀, rfl⟩ := under_iff_exists_join.1 hu
    obtain ⟨t, ht⟩ := Option.ne_none_iff_exists'.1 hp
    -- A path below the source is not below the target.
    have hapart : ∀ {k : Path}, k.under source = true → k.under target = false := not_under_of_beside ⟨hst, hts⟩
    have hstep : ∀ k, (renameStep source target state (source.join r₀)).1.get? k =
        if k = target.join r₀ then some t else if k = source.join r₀ then none else state.1.get? k := by
      intro k
      unfold renameStep
      rw [relativeTo?_join]
      exact get?_rename ht (target.join r₀) k
    have hother : ∀ k, k.under source = true → k ≠ source.join r₀ →
        (renameStep source target state (source.join r₀)).1.get? k = state.1.get? k := by
      intro k hk hne
      rw [hstep, if_neg, if_neg hne]
      rintro rfl
      have := hapart hk
      rw [under_join] at this
      cases this
    rw [List.foldl_cons, ih hrest]
    · cases hr : q.relativeTo? target with
      | some r =>
        rw [relativeTo?_eq_some_iff] at hr
        subst hr
        simp only [List.mem_cons, join_inj]
        by_cases e : r = r₀
        · rw [e, if_neg hnot, if_pos (Or.inl rfl), hstep, if_pos rfl, ht]
        · by_cases hm : source.join r ∈ ps
          · rw [if_pos hm, if_pos (Or.inr hm), hother _ (under_join _ _) fun k => e (join_inj.1 k)]
          · rw [if_neg hm, if_neg (by simp [e, hm]), hstep, if_neg fun k => e (join_inj.1 k), if_neg]
            intro k
            have := hapart (k ▸ under_join source r₀)
            rw [under_join] at this
            cases this
      | none =>
        have hq : q ≠ target.join r₀ := by
          rintro rfl
          rw [relativeTo?_join] at hr
          cases hr
        simp only [List.mem_cons]
        by_cases e : q = source.join r₀
        · rw [if_pos (Or.inl e), hstep, if_neg hq, if_pos e]
          simp
        · rw [hstep, if_neg hq]
          simp [e]
    · intro k hk
      refine ⟨(hothers k hk).1, ?_⟩
      rw [hother k (hothers k hk).1 fun e => hnot (e ▸ hk)]
      exact (hothers k hk).2

/-- After links were moved, each is found at the same place below the target. -/
theorem get?_renameUnder (l : Links) (hst : source.under target = false) (hts : target.under source = false)
    (q : Path) :
    (l.renameUnder source target).2.1.get? q =
      match q.relativeTo? target with
      | some r => (l.get? (source.join r)).or (l.get? q)
      | none => if q.under source = true then none else l.get? q := by
  rw [renameUnder_eq, get?_foldl_renameStep hst hts]
  · cases q.relativeTo? target with
    | some r =>
      simp only [mem_pathsUnder, under_join, and_true]
      cases hg : l.get? (source.join r) with
      | none | some => simp
    | none =>
      simp only [mem_pathsUnder]
      by_cases hu : q.under source = true
      · by_cases hq : l.get? q = none
        · simp [hu, hq]
        · simp [hu, hq]
      · simp [hu]
  · exact l.table.nodup_keys.filter _
  · intro p hp
    exact (mem_pathsUnder.1 hp).symm

end Links

/-! ### Resolved paths -/

namespace Resolver

variable {links : Links} {follow : Bool}

theorem firstLink?_eq_none {before rest : List Name} (h : firstLink? links follow before rest = none)
    {l : List Name} (hl : l <+: rest) (hne : l ≠ []) (hlast : l = rest → follow = true) :
    links.get? ⟨before ++ l⟩ = none := by
  induction rest generalizing before l with
  | nil => exact absurd (List.prefix_nil.1 hl) hne
  | cons n rest ih =>
    unfold firstLink? at h
    obtain ⟨k, l, rfl⟩ := List.exists_cons_of_ne_nil hne
    obtain ⟨rfl, htail⟩ := List.cons_prefix_cons.1 hl
    split at h
    · -- The last name is not followed, so it is not asked for.
      rename_i hend
      obtain rfl := List.isEmpty_iff.1 hend.1
      rw [List.prefix_nil.1 htail] at hlast
      exact absurd (hlast rfl) hend.2
    · split at h
      · cases h
      · rename_i hk
        by_cases hnil : l = []
        · rw [hnil]
          exact hk
        · have := ih h htail hnil fun e => hlast (by rw [e])
          rwa [List.append_assoc] at this

/-- There is no link on the way to a path on which the first link was looked for in vain. -/
theorem get?_trail_of_firstLink? {p q : Path} (h : firstLink? links follow [] p.names = none) (hq : q ∈ p.trail)
    (hlast : q = p → follow = true) : links.get? q = none := by
  obtain ⟨hu, hroot⟩ := mem_trail_iff.1 hq
  have := firstLink?_eq_none h (under_iff_prefix_names.1 hu) (fun e => hroot (ext e))
    fun e => hlast (ext e)
  exact this

theorem substitute_eq_none {p : Path} (h : substitute links follow p = .ok none) :
    firstLink? links follow [] p.names = none := by
  unfold substitute at h
  cases hf : firstLink? links follow [] p.names with
  | none => rfl
  | some x =>
    rw [hf] at h
    cases hp : parse (replaced x.1 x.2.1 x.2.2) <;> simp [hp, Except.map] at h

/-- Replacing links ends at a path with no link on the way, or with one of two failures. -/
theorem chase_cases (links : Links) (follow : Bool) (origin : Path) (limit left : Nat) (p : Path) :
    (∃ q, chase links follow origin limit left p = .ok q ∧ firstLink? links follow [] q.names = none) ∨
      (∃ f, chase links follow origin limit left p = .error (.path f)) ∨
      chase links follow origin limit left p = .error (.tooManyLinks origin limit) := by
  induction left generalizing p with
  | zero =>
    unfold chase
    rcases hs : substitute links follow p with f | (_ | q)
    · exact Or.inr (Or.inl ⟨f, rfl⟩)
    · exact Or.inl ⟨p, rfl, substitute_eq_none hs⟩
    · exact Or.inr (Or.inr rfl)
  | succ left ih =>
    unfold chase
    rcases hs : substitute links follow p with f | (_ | q)
    · exact Or.inr (Or.inl ⟨f, rfl⟩)
    · exact Or.inl ⟨p, rfl, substitute_eq_none hs⟩
    · exact ih q

end Resolver

end Filespace
