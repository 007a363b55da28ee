import Filespace.Proofs.OpenHandles

/-!
# Failed calls on a store in memory

A call on a store in memory, or on one of its handles, is made as a whole or not at all (`Step.run_error`). A call that
makes the missing directories above its path finds out whether the way is clear as it goes; in a closed tree nothing can
be in the way once it has made a directory. A call on a whole subtree looks for open handles before it touches anything.
-/

namespace Filespace.Storage

open Memory Session

theorem Memory.atomic_openHandle (p : Path) : Atomic (FileStore.openHandle p) :=
  atomic_of_noEffect fun m _ => (Backed.openHandle p).treeWp (wp_openHandle p m)

/-- Is a step one call? Copying takes many, and what was made before one of them failed stays. -/
def Step.isSingle : Step → Bool
  | copy _ _ => false
  | _ => true

section Sessions

variable {α : Type} {s t : Session Memory} {x : StoreM (Host × Memory) α} {r : Refusal}

theorem Session.call_error (hx : Atomic x) (hs : s.world.2.Orderly) (h : s.call x = (.error r, t)) : t = s := by
  have hwp := hx s.world hs
  simp only [call] at h
  rcases hrun : x s.world with ⟨e | a, w⟩
  · rw [wp_of_error hrun] at hwp
    rw [hrun, hwp] at h
    exact (congrArg Prod.snd h).symm
  · rw [hrun] at h
    simp [Except.mapError] at h

/-- A call that cannot succeed. -/
theorem Session.call_refused (hx : Atomic x) (hs : s.world.2.Orderly)
    (hno : wp x (fun _ _ => False) (fun _ _ => True) s.world) : ∃ r, s.call x = (.error r, s) := by
  rcases hrun : x s.world with ⟨e | a, w⟩
  · have hcall : s.call x = (.error (.failed e), { s with world := w }) := by
      simp only [call, hrun]
      rfl
    have hsame := call_error hx hs hcall
    exact ⟨.failed e, by rw [hcall, hsame]⟩
  · rw [wp_of_ok hrun] at hno
    exact hno.elim

theorem Step.openHandle_error {p : Path} {name : String} (hs : s.world.2.Orderly)
    (h : (Step.openHandle p name).run s = (.error r, t)) : t = s := by
  simp only [run] at h
  rcases hcall : s.call (FileStore.openHandle p) with ⟨e | k, t'⟩
  · rw [hcall] at h
    have hsame := call_error (atomic_openHandle p) hs hcall
    exact (congrArg Prod.snd h).symm.trans hsame
  · rw [hcall] at h
    simp at h

theorem Step.onHandle_error {name : String} {step : HandleStep} (h : (Step.onHandle name step).run s = (.error r, t)) :
    t = s := by
  simp only [run] at h
  cases hk : s.handles.get? name with
  | none =>
    rw [hk] at h
    exact (congrArg Prod.snd h).symm
  | some k =>
    simp only [hk, call] at h
    have hworld : (if step.ends then s.forget name else s).world = s.world := by split <;> rfl
    have hwp := step.wp_run k s.world
    rw [hworld] at h
    rcases hrun : step.run k s.world with ⟨e | a, w⟩
    · -- A call that fails did not end the life of the handle, so the name is still there.
      rw [wp_of_error hrun] at hwp
      rw [hrun, if_neg (by simp [hwp.2]), hwp.1] at h
      exact (congrArg Prod.snd h).symm
    · rw [hrun] at h
      simp [Except.mapError] at h

/-- A single call that fails leaves the store and the handles as they were. -/
theorem Step.run_error (step : Step) (hsingle : step.isSingle = true) (hs : s.world.2.Orderly)
    (h : step.run s = (.error r, t)) : t = s := by
  cases step with
  | directory p create => exact call_error ((tidy_directory p create).atomic.answer _) hs h
  | file p create => exact call_error ((tidy_file p create).atomic.answer _) hs h
  | openHandle p name => exact openHandle_error hs h
  | remove p recursive => exact call_error ((tidy_remove p recursive).atomic.answer _) hs h
  | move source target => exact call_error ((tidy_move source target).atomic.answer _) hs h
  | copy source target => simp [isSingle] at hsingle
  | list p => exact call_error ((tidy_list p).atomic.answer _) hs h
  | entry p => exact call_error ((tidy_entry p).atomic.answer _) hs h
  | writeAt p offset data => exact call_error ((tidy_writeAt p offset data).atomic.answer _) hs h
  | onHandle name step => exact onHandle_error h

/-! ### Subtrees with an open handle -/

variable {p q : Path}

/-- A call that needs a subtree without open handles. -/
theorem Session.call_refused_below {E : StorageError → Memory → Prop} {Q : α → Memory → Prop} (hx : Atomic x)
    (hs : s.world.2.Orderly) (hwp : treeWp x Q E s.world.2)
    (hfree : ∀ a m, Q a m → ∀ q, q.under p = true → s.world.2.isLocked q = false) (hq : q.under p = true)
    (hl : s.world.2.isLocked q = true) : ∃ r, s.call (x >>= fun _ => pure Answer.done) = (.error r, s) := by
  refine call_refused (hx.answer _) hs (wp_bind.2 ?_)
  refine (hwp s.world.1 s.world.2 rfl).mono ?_ fun _ _ _ => trivial
  intro a t ht
  simp [hfree a t.2 ht.2 q hq] at hl

theorem Step.remove_refused (recursive : Bool) (hs : s.world.2.Orderly) (hq : q.under p = true)
    (hl : s.world.2.isLocked q = true) : ∃ r, (Step.remove p recursive).run s = (.error r, s) :=
  call_refused_below (tidy_remove p recursive).atomic hs
    ((Backed.remove p recursive).treeWp (hs.closed.wp_remove p recursive)) (fun _ _ h => h.2.2.1) hq hl

theorem Step.move_refused (target : Path) (hs : s.world.2.Orderly) (hq : q.under p = true)
    (hl : s.world.2.isLocked q = true) : ∃ r, (Step.move p target).run s = (.error r, s) :=
  call_refused_below (tidy_move p target).atomic hs
    ((Backed.move p target).treeWp (hs.closed.wp_move p target)) (fun _ _ h => h.2.2.2.2.2.1) hq hl

end Sessions

/-- Whoever uses a store in memory, a call that fails has changed nothing at all: no entry is made or gone, and all bytes,
locks and handles are as before. To remove or to move a subtree with an open handle in it is such a call. -/
theorem failed_store_call_changes_nothing {s : Session Memory} (hs : Used s) :
    (∀ (step : Step) (r : Refusal) (t : Session Memory), step.isSingle = true → step.run s = (.error r, t) → t = s) ∧
    ∀ (name : String) (k : Handle) (p : Path), s.handles.get? name = some k → k.path.under p = true →
      (∀ recursive, ∃ r, (Step.remove p recursive).run s = (.error r, s)) ∧
      ∀ target, ∃ r, (Step.move p target).run s = (.error r, s) := by
  refine ⟨fun step r t hsingle h => step.run_error hsingle hs.orderly h, ?_⟩
  intro name k p hk hunder
  have hl := hs.fits.locked hk
  exact ⟨fun recursive => Step.remove_refused recursive hs.orderly hunder hl,
    fun target => Step.move_refused target hs.orderly hunder hl⟩

/-- A directory. -/
def shelf : Path := Path.root.child ⟨"shelf", by decide⟩

/-- A file in it. -/
def book : Path := shelf.child ⟨"book", by decide⟩

/-- The file is open. -/
def anOpenBook : Session Memory :=
  [Step.directory shelf true, .file book true, .openHandle book "h"].foldl (fun s step => (step.run s).2) ⟨({}, {}), ∅⟩

theorem failed_store_call_changes_nothing_below :
    (∃ r, (Step.remove shelf true).run anOpenBook = (.error r, anOpenBook)) ∧
      ∃ r, (Step.directory (book.child ⟨"page", by decide⟩) true).run anOpenBook = (.error r, anOpenBook) := by
  have hused : Used anOpenBook := .step _ (.step _ (.step _ (.fresh {} false 0)))
  have hopen : anOpenBook.handles.get? "h" = some ⟨book, 0⟩ := rfl
  obtain ⟨hsame, hrefused⟩ := failed_store_call_changes_nothing hused
  obtain ⟨hremove, -⟩ := hrefused "h" ⟨book, 0⟩ shelf hopen (Path.under_child shelf _)
  have hfails : ((Step.directory (book.child ⟨"page", by decide⟩) true).run anOpenBook).1.isOk = false := by
    decide +kernel
  rcases hrun : (Step.directory (book.child ⟨"page", by decide⟩) true).run anOpenBook with ⟨r | a, t⟩
  · exact ⟨hremove true, r, by rw [hsame _ r t rfl hrun]⟩
  · rw [hrun] at hfails
    simp [Except.isOk, Except.toBool] at hfails

end Filespace.Storage
