import Filespace.Proofs.Linking
import Filespace.Proofs.Outcome

/-!
# Links and their records

Links are kept as records from texts to texts. A path is read back from its text (`Path.parse_str`), so links are loaded
from records as they were written there (`Links.Recorded.ofRecords_eq`). Every change of the links comes with jobs, and
these do to the records what the change does to the links (`Links.Recorded.insert` to `Links.Recorded.renameUnder`).

A map keeps what is written to it if loading it gives the records that were loaded before, with all changes that were
written since (`LinkMap.Keeps`).
-/

namespace Filespace

open Storage (StoreM)

/-! ### Links of records -/

/-- Every key is the text of a path other than the root. -/
def LinkRecords.OfPaths (r : LinkRecords) : Prop :=
  ∀ key target, r.get? key = some target → ∃ p : Path, p ≠ .root ∧ p.str = key

namespace Links

/-- The link that a record stands for. -/
def ofRecord? (x : String × String) : Option (Path × String) :=
  match Path.parse x.1 with
  | .ok p => if p.isRoot then none else some (p, x.2)
  | .error _ => none

theorem ofRecord?_eq_some_iff {x : String × String} {p : Path} {target : String} :
    ofRecord? x = some (p, target) ↔ Path.parse x.1 = .ok p ∧ p ≠ .root ∧ x.2 = target := by
  unfold ofRecord?
  cases Path.parse x.1 with
  | error f => simp
  | ok q =>
    simp only [← Path.isRoot_eq_false_iff]
    cases hq : q.isRoot with
    | true =>
      simp only [if_true, reduceCtorEq, Except.ok.injEq, false_iff]
      rintro ⟨rfl, hroot, -⟩
      rw [hq] at hroot
      cases hroot
    | false =>
      simp only [Bool.false_eq_true, if_false, Option.some.injEq, Prod.mk.injEq, Except.ok.injEq]
      constructor
      · rintro ⟨rfl, rfl⟩
        exact ⟨rfl, hq, rfl⟩
      · rintro ⟨rfl, -, rfl⟩
        exact ⟨rfl, rfl⟩

theorem table_ofRecords (r : LinkRecords) : (ofRecords r).table = Table.insertMany ∅ (r.rows.filterMap ofRecord?) := by
  unfold Table.insertMany
  rw [List.foldl_filterMap]
  refine congrArg (List.foldl · ∅ r.rows) ?_
  funext t x
  obtain ⟨key, target⟩ := x
  unfold ofRecord?
  simp only
  cases Path.parse key with
  | error f => rfl
  | ok p =>
    simp only
    cases p.isRoot <;> rfl

/-- Records of paths are loaded as they are. -/
theorem get?_ofRecords {r : LinkRecords} (h : r.OfPaths) (p : Path) : (ofRecords r).get? p = r.get? p.str := by
  -- Two keys could be read as one path; but here each key is the text of its path, and so there is one.
  have hmem : ∀ target, (p, target) ∈ r.rows.filterMap ofRecord? → r.get? p.str = some target := by
    intro target ht
    obtain ⟨⟨key, target'⟩, hx, hrecord⟩ := List.mem_filterMap.1 ht
    obtain ⟨hparse, -, rfl⟩ := ofRecord?_eq_some_iff.1 hrecord
    have hkey : r.get? key = some target' := Table.get?_eq_some_iff.2 hx
    obtain ⟨q, -, rfl⟩ := h key target' hkey
    rw [Path.parse_str] at hparse
    cases hparse
    exact hkey
  unfold get?
  rw [table_ofRecords]
  cases hp : r.get? p.str with
  | none =>
    rw [Table.get?_insertMany_of_not_mem]
    · exact Table.get?_empty p
    · intro target ht
      rw [hmem target ht] at hp
      cases hp
  | some target =>
    obtain ⟨q, hq, hstr⟩ := h _ target hp
    rw [Path.str_inj] at hstr
    rw [hstr] at hq
    refine Table.get?_insertMany_of_mem _ (List.mem_filterMap.2 ⟨(p.str, target), Table.get?_eq_some_iff.1 hp, ?_⟩) ?_
    · exact ofRecord?_eq_some_iff.2 ⟨Path.parse_str p, hq, rfl⟩
    · intro target' ht
      have hsame := hmem target' ht
      rw [hp] at hsame
      exact (Option.some.inj hsame).symm

/-- The records are those of the links. -/
structure Recorded (l : Links) (r : LinkRecords) : Prop where
  found : ∀ p, r.get? p.str = l.get? p
  paths : r.OfPaths

theorem recorded_ofRecords {r : LinkRecords} (h : r.OfPaths) : (ofRecords r).Recorded r :=
  ⟨fun p => (get?_ofRecords h p).symm, h⟩

/-- What is on record is what is loaded. -/
theorem Recorded.ofRecords_eq {l : Links} {r : LinkRecords} (h : l.Recorded r) : ofRecords r = l := by
  have htable : (ofRecords r).table = l.table :=
    Table.ext_get? fun p => (get?_ofRecords h.paths p).trans (h.found p)
  exact congrArg Links.mk htable

end Links

/-! ### Jobs -/

namespace LinkJob

/-- What a job does to the records. -/
def apply : LinkJob → LinkRecords → LinkRecords
  | put p target, r => r.insert p.str target
  | delete p, r => r.erase p.str

/-- What jobs do to the records. -/
def replay (jobs : List LinkJob) (r : LinkRecords) : LinkRecords := jobs.foldl (fun r j => j.apply r) r

@[simp] theorem replay_append (jobs jobs' : List LinkJob) (r : LinkRecords) :
    replay (jobs ++ jobs') r = replay jobs' (replay jobs r) := List.foldl_append

end LinkJob

namespace Links

open LinkJob

variable {l : Links} {r : LinkRecords} {p source target : Path}

variable (h : l.Recorded r)

include h

/-- A link is put on record. -/
theorem Recorded.put (hp : p ≠ .root) (t : String) : Recorded ⟨l.table.insert p t⟩ ((LinkJob.put p t).apply r) where
  found q := by
    show (r.insert p.str t).get? q.str = (l.table.insert p t).get? q
    rw [Table.get?_insert, Table.get?_insert]
    simp only [Path.str_inj]
    split
    · rfl
    · exact h.found q
  paths key t' hkey := by
    have hget : (r.insert p.str t).get? key = some t' := hkey
    rw [Table.get?_insert] at hget
    split at hget
    · rename_i e
      exact ⟨p, hp, e.symm⟩
    · exact h.paths key t' hget

/-- A link is taken off the records. -/
theorem Recorded.delete (p : Path) : Recorded ⟨l.table.erase p⟩ ((LinkJob.delete p).apply r) where
  found q := by
    show (r.erase p.str).get? q.str = (l.table.erase p).get? q
    rw [Table.get?_erase, Table.get?_erase]
    simp only [Path.str_inj]
    split
    · rfl
    · exact h.found q
  paths key t hkey := by
    have hget : (r.erase p.str).get? key = some t := hkey
    rw [Table.get?_erase] at hget
    split at hget
    · cases hget
    · exact h.paths key t hget

theorem Recorded.insert (hp : p ≠ .root) (t : String) : (l.insert p t).1.Recorded (replay (l.insert p t).2 r) := h.put hp t

theorem Recorded.remove (p : Path) : (l.remove p).2.1.Recorded (replay (l.remove p).2.2 r) := by
  unfold Links.remove
  cases l.get? p with
  | none => exact h
  | some t => exact h.delete p

theorem Recorded.rename (htarget : target ≠ .root) (source : Path) :
    (l.rename source target).2.1.Recorded (replay (l.rename source target).2.2 r) := by
  unfold Links.rename
  cases l.get? source with
  | none => exact h
  | some t => exact (h.delete source).put htarget t

/-- Links are taken off the records one after the other. -/
theorem Recorded.deletes (ps : List Path) : Recorded ⟨ps.foldl Table.erase l.table⟩ (replay (ps.map .delete) r) := by
  induction ps generalizing l r with
  | nil => exact h
  | cons p ps ih => exact ih (h.delete p)

theorem Recorded.removeUnder (p : Path) : (l.removeUnder p).2.1.Recorded (replay (l.removeUnder p).2.2 r) := by
  have htable : (l.pathsUnder p).foldl Table.erase l.table = (l.removeUnder p).2.1.table := by
    refine Table.ext_get? fun q => (Table.get?_foldl_erase _ _ q).trans (Eq.trans ?_ (l.get?_removeUnder p q).symm)
    simp only [mem_pathsUnder]
    show (if _ then none else l.get? q) = _
    by_cases hq : l.get? q = none
    · simp [hq]
    · simp [hq]
  have hdeleted := h.deletes (l.pathsUnder p)
  rw [htable] at hdeleted
  exact hdeleted

omit h in
/-- Links are moved one after the other. -/
theorem Recorded.foldl_renameStep {ps : List Path} {state : Links × List LinkJob} (htarget : target ≠ .root)
    (h : state.1.Recorded (replay state.2 r)) :
    (ps.foldl (renameStep source target) state).1.Recorded (replay (ps.foldl (renameStep source target) state).2 r) := by
  induction ps generalizing state with
  | nil => exact h
  | cons p ps ih =>
    refine ih ?_
    unfold renameStep
    cases p.relativeTo? source with
    | none => exact h
    | some q =>
      rw [replay_append]
      refine h.rename (fun e => htarget ?_) p
      exact Path.root_under_iff.1 (e ▸ Path.under_join target q)

theorem Recorded.renameUnder (htarget : target ≠ .root) (source : Path) :
    (l.renameUnder source target).2.1.Recorded (replay (l.renameUnder source target).2.2 r) := by
  exact Recorded.foldl_renameStep htarget h

end Links

/-! ### Maps -/

/-- Whatever is written to a map from a state on, loading gives the records of that state with all that was written, if
no write has failed. -/
def LinkMap.Keeps {μ : Type} [LinkMap μ] (s : Host × μ) (r : LinkRecords) : Prop :=
  ∀ (jobs : List LinkJob) (s' : Host × μ), jobs.forM LinkJob.run s = (.ok ⟨⟩, s') →
    (LinkMap.load s').1 = .ok (LinkJob.replay jobs r)

/-- Jobs are done one after the other, as long as they succeed. -/
theorem LinkJob.forM_cons_run {μ : Type} [LinkMap μ] {job : LinkJob} {jobs : List LinkJob} {s s' : Host × μ} :
    (job :: jobs).forM LinkJob.run s = (.ok ⟨⟩, s') ↔
      ∃ t, job.run s = (.ok ⟨⟩, t) ∧ jobs.forM LinkJob.run t = (.ok ⟨⟩, s') := by
  have hcons : (job :: jobs).forM LinkJob.run s = (job.run >>= fun _ => jobs.forM LinkJob.run) s := rfl
  rw [hcons, bind_run]
  rcases job.run s with ⟨_ | _, t⟩
  · constructor
    · intro h
      cases h
    · rintro ⟨t', ht, -⟩
      cases ht
  · constructor
    · exact fun h => ⟨t, rfl, h⟩
    · rintro ⟨t', ht, h⟩
      cases ht
      exact h

theorem LinkJob.forM_append_run {μ : Type} [LinkMap μ] {jobs jobs' : List LinkJob} {s s' : Host × μ} :
    (jobs ++ jobs').forM LinkJob.run s = (.ok ⟨⟩, s') ↔
      ∃ t, jobs.forM LinkJob.run s = (.ok ⟨⟩, t) ∧ jobs'.forM LinkJob.run t = (.ok ⟨⟩, s') := by
  induction jobs generalizing s with
  | nil =>
    constructor
    · exact fun h => ⟨s, rfl, h⟩
    · rintro ⟨t, ht, h⟩
      cases ht
      exact h
  | cons job jobs ih =>
    rw [List.cons_append]
    simp only [ih, forM_cons_run]
    constructor
    · rintro ⟨t, ht, u, hu, h⟩
      exact ⟨u, ⟨t, ht, hu⟩, h⟩
    · rintro ⟨u, ⟨t, ht, hu⟩, h⟩
      exact ⟨t, ht, u, hu, h⟩

namespace Records

/-- A job changes the records, unless changes are refused. -/
theorem job_run (job : LinkJob) (h : Host) (m : Records) :
    job.run (h, m) = if m.failing then (.error .mapUnavailable, (h, m))
      else (.ok ⟨⟩, (h, { m with records := job.apply m.records })) := by
  obtain ⟨records, failing⟩ := m
  cases job <;> cases failing <;> rfl

/-- Unless changes are refused, all jobs succeed. -/
theorem forM_run (h : Host) {m : Records} (hm : m.failing = false) (jobs : List LinkJob) :
    ∃ s, jobs.forM LinkJob.run (h, m) = (.ok ⟨⟩, s) := by
  induction jobs generalizing m with
  | nil => exact ⟨_, rfl⟩
  | cons job jobs ih =>
    have hjob := job_run job h m
    rw [if_neg (by simp [hm])] at hjob
    obtain ⟨s, hs⟩ := ih (m := { m with records := job.apply m.records }) hm
    exact ⟨s, LinkJob.forM_cons_run.2 ⟨_, hjob, hs⟩⟩

/-- Records in memory are kept. -/
theorem keeps (h : Host) (m : Records) : LinkMap.Keeps (h, m) m.records := by
  intro jobs
  induction jobs generalizing m with
  | nil =>
    rintro _ ⟨⟩
    rfl
  | cons job jobs ih =>
    intro s' hrun
    obtain ⟨t, ht, hrun⟩ := LinkJob.forM_cons_run.1 hrun
    rw [job_run] at ht
    split at ht
    · cases ht
    · cases ht
      exact ih _ s' hrun

end Records

end Filespace
