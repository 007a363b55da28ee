import Filespace.Proofs.SparedFiles

/-!
# Requests give back the handles that they open

A request opens handles of its own to read, to cut and to copy, and has many ways to fail while one of them is open.
Whichever of its calls are refused, the locked files afterwards are those that were locked before; only a request for a
handle that is granted locks one file more (`requests_release_their_handles`). Besides, no request touches a locked file
(`Request.careful_execute`).
-/

namespace Filespace

open Storage Memory Backed Request

namespace Request

variable {φ : Type} [FileStore φ] [Backed φ] {m : Memory} {p : Path}

/-- A new length through a handle of its own. It can be there though the request has failed. -/
theorem careful_truncate (p : Path) (length : Nat) :
    Stays (CarefulBehind φ) (execute (.truncate p length)) := by
  refine careful_of_treeWp fun m hm => ?_
  have hcut : ∀ d, m.node? p = some (.file d) → d.locked = false → length ≤ maxLength →
      (m.revised p d (d.bytes.resize length)).Orderly ∧ m.Spares (m.revised p d (d.bytes.resize length)) := by
    intro d hd hl hfits
    exact ⟨hm.revised hd fun _ => by rwa [Bytes.length_resize], spares_revised hd hl _⟩
  refine (treeWp_truncate p length m).mono ?_ ?_
  · rintro _ _ ⟨-, d, hd, hl, rfl, hfits⟩
    exact hcut d hd hl hfits
  · rintro _ _ ⟨-, rfl | ⟨-, d, hd, hl, rfl, hfits⟩⟩
    · exact ⟨hm, .refl _⟩
    · exact hcut d hd hl hfits

theorem careful_readAt (p : Path) (offset length : Nat) :
    Stays (CarefulBehind φ) (execute (.readAt p offset length)) := by
  refine careful_of_treeWp fun m hm => (treeWp_readAt p offset length m).mono ?_ ?_
  · rintro _ _ ⟨rfl, -⟩
    exact ⟨hm, .refl _⟩
  · rintro _ _ ⟨rfl, -⟩
    exact ⟨hm, .refl _⟩

theorem careful_createDirectory (p : Path) (parents : Bool) :
    Stays (CarefulBehind φ) (execute (.createDirectory p parents)) := by
  have hmake : Stays (CarefulBehind φ) (FileStore.directory p true) :=
    (Backed.directory p true).careful (tidy_directory p true).careful
  have hentry : Stays (CarefulBehind φ) (FileStore.entry p) :=
    (Backed.entry p).careful (tidy_entry p).careful
  refine .ite (fun _ => ?_) fun _ => hmake.bind fun _ => .pure
  have hrest := hentry.bind (f := fun found => do
      if found.isSome then throw (.alreadyExists p)
      FileStore.directory p true
      return (.done : Reply (FileStore.Handle φ))) fun found => .guard (hmake.bind fun _ => .pure)
  cases p.parent? with
  | none => exact hrest
  | some parent =>
    exact ((Backed.directory parent false).careful (tidy_directory parent false).careful).bind fun _ => hrest

/-- No request but one for a handle changes which files are locked, or touches one that is. -/
theorem careful_execute (r : Request) (hr : ∀ p, r ≠ .openHandle p) : Stays (CarefulBehind φ) (r.execute) := by
  cases r with
  | entry p => exact ((Backed.entry p).careful (tidy_entry p).careful).bind fun _ => .pure
  | list p =>
    refine ((Backed.directory p false).careful (tidy_directory p false).careful).bind fun _ => ?_
    exact ((Backed.list p).careful (tidy_list p).careful).bind fun _ => .pure
  | createDirectory p parents => exact careful_createDirectory p parents
  | createFile p => exact ((Backed.file p true).careful (tidy_file p true).careful).bind fun _ => .pure
  | openHandle p => exact absurd rfl (hr p)
  | readAt p offset length => exact careful_readAt p offset length
  | writeAt p offset data =>
    refine ((Backed.file p false).careful (tidy_file p false).careful).bind fun _ => ?_
    exact ((Backed.writeAt p offset data).careful (tidy_writeAt p offset data).careful).bind fun _ => .pure
  | truncate p length => exact careful_truncate p length
  | remove p recursive =>
    exact ((Backed.remove p recursive).careful (tidy_remove p recursive).careful).bind fun _ => .pure
  | move source target =>
    exact ((Backed.move source target).careful (tidy_move source target).careful).bind fun _ => .pure
  | copy source target => exact (careful_copy source target).bind fun _ => .pure

/-- Opening a handle locks its file and no other one. -/
theorem isLocked_openHandle (p : Path) (s : Host × φ) :
    wp (execute (.openHandle p))
      (fun _ t => (tree s.2).isLocked p = false ∧
        ∀ q, (tree t.2).isLocked q = ((tree s.2).isLocked q || decide (q = p)))
      (fun _ t => tree t.2 = tree s.2) s := by
  refine (treeWp_openHandle p (tree s.2) s.1 s.2 rfl).mono ?_ fun _ _ h => h.2.1
  rintro _ t ⟨-, h, d, -, hd, hl, -, ht⟩
  have hfree : (tree s.2).isLocked p = false := by
    rw [isLocked_eq_false_iff]
    intro d' hd'
    rw [hd] at hd'
    cases hd'
    exact hl
  refine ⟨hfree, fun q => ?_⟩
  rw [ht]
  by_cases hq : q = p
  · simp [hq, isLocked, node?_put_self, Node.isLocked]
  · simp [hq, isLocked, node?_put_of_ne _ _ hq]

end Request

/-- Whichever calls of a request are refused, by whatever plan, and whether or not it ends well: the locked files are those
that were locked before, and besides them the one that a granted request for a handle is about, which was free. -/
theorem requests_release_their_handles (r : Request) (s : Host × Faulty Memory) (hs : s.2.inner.Reachable) :
    (∀ q, (r.execute s).2.2.inner.isLocked q =
      (s.2.inner.isLocked q || decide (r = .openHandle q ∧ (r.execute s).1.isOk = true))) ∧
    ∀ p, r = .openHandle p → (r.execute s).1.isOk = true → s.2.inner.isLocked p = false := by
  by_cases hopen : ∃ p, r = .openHandle p
  · obtain ⟨p, rfl⟩ := hopen
    have hwp := isLocked_openHandle (φ := Faulty Memory) p s
    rcases hrun : (Request.openHandle p).execute s with ⟨e | a, t⟩
    · rw [wp_of_error hrun] at hwp
      have hsame : t.2.inner = s.2.inner := hwp
      simp [hsame, Except.isOk, Except.toBool]
    · rw [wp_of_ok hrun] at hwp
      obtain ⟨hfree, hlocks⟩ := hwp
      constructor
      · intro q
        have hq : t.2.inner.isLocked q = (s.2.inner.isLocked q || decide (q = p)) := hlocks q
        simp [hq, Except.isOk, Except.toBool, eq_comm]
      · intro q hq _
        cases hq
        exact hfree
  · have hother : ∀ p, r ≠ .openHandle p := fun p hp => hopen ⟨p, hp⟩
    have horder : s.2.inner.Orderly := ⟨hs.closed, hs.short⟩
    have hspares := (stays_iff.1 (r.careful_execute (φ := Faulty Memory) hother) s horder).2
    constructor
    · intro q
      have hq : (r.execute s).2.2.inner.isLocked q = s.2.inner.isLocked q := hspares.isLocked q
      simp [hq, hother q]
    · exact fun p hp => absurd hp (hother p)

/-- A directory. -/
def pantry : Path := Path.root.child ⟨"pantry", by decide⟩

/-- A file in it. -/
def jam : Path := pantry.child ⟨"jam", by decide⟩

/-- Another file in it. -/
def tea : Path := pantry.child ⟨"tea", by decide⟩

/-- A file that is open. -/
def mug : Path := Path.root.child ⟨"mug", by decide⟩

/-- The place of a copy. -/
def larder : Path := Path.root.child ⟨"larder", by decide⟩

/-- Two files in a directory and an open one beside it. -/
def aLaidPantry : Session Memory :=
  [Step.file jam true, .writeAt jam 0 [7], .file tea true, .file mug true, .openHandle mug "h"].foldl
    (fun s step => (step.run s).2) ⟨({}, {}), ∅⟩

/-- A plan by which handles of one file are released and then refused to be closed. -/
def aPantryBehindAPlan : Host × Faulty Memory :=
  ({}, { inner := aLaidPantry.world.2, plan := Faulty.always [(.close, tea, .refuse .closed)] })

/-- The copy stops at its second file, after it has closed the handle of the first. -/
theorem requests_release_their_handles_in_pantry :
    (((copy pantry larder).execute aPantryBehindAPlan).1.isOk = false ∧
      ((copy pantry larder).execute aPantryBehindAPlan).2.2.inner.content? (larder.child ⟨"jam", by decide⟩) =
        some (.file [7]) ∧
      aLaidPantry.world.2.isLocked mug = true ∧
      ((Request.openHandle jam).execute aPantryBehindAPlan).1.isOk = true) ∧
    (∀ q, ((copy pantry larder).execute aPantryBehindAPlan).2.2.inner.isLocked q =
      aLaidPantry.world.2.isLocked q) ∧
    ∀ q, ((Request.openHandle jam).execute aPantryBehindAPlan).2.2.inner.isLocked q =
      (aLaidPantry.world.2.isLocked q || decide (q = jam)) := by
  have hreach : aPantryBehindAPlan.2.inner.Reachable :=
    ⟨aLaidPantry, .step _ (.step _ (.step _ (.step _ (.step _ (.fresh {} false 0))))), rfl⟩
  have hruns : ((copy pantry larder).execute aPantryBehindAPlan).1.isOk = false ∧
      ((copy pantry larder).execute aPantryBehindAPlan).2.2.inner.content? (larder.child ⟨"jam", by decide⟩) =
        some (.file [7]) ∧
      aLaidPantry.world.2.isLocked mug = true ∧
      ((Request.openHandle jam).execute aPantryBehindAPlan).1.isOk = true := by
    decide +kernel
  have hcopy := (requests_release_their_handles (.copy pantry larder) aPantryBehindAPlan hreach).1
  have hopen := (requests_release_their_handles (.openHandle jam) aPantryBehindAPlan hreach).1
  refine ⟨hruns, fun q => ?_, fun q => ?_⟩
  · rw [hcopy q]
    simp [aPantryBehindAPlan]
  · simp only [hopen q, hruns.2.2.2, openHandle.injEq, and_true, @eq_comm _ jam q]
    rfl

end Filespace
