import Filespace.Proofs.AlikeTrees
import Filespace.Proofs.SparedFiles

/-!
# Open handles on a store in memory

Whoever uses a store in memory, the tree and the handles that are open on it fit together (`Session.Guarded`): a file is
locked exactly while one handle is open on it, no two handles share a file, and the file of a handle stays where it was
opened. While a handle is open, the bytes of its file change through that handle only.

A step of a session does one of four things (`Step.Does`): it spares the locked files, or it opens a handle, or it puts new
bytes into the file of a handle, or it releases a handle. Each of them keeps the fit (`Memory.Fits`), and only the third
one, at its own handle, touches the bytes of an open file.
-/

namespace Filespace.Storage

open Memory Table

namespace Memory

variable {m m' : Memory} {p : Path} {d : FileData} {handles : Table String Handle} {name : String} {k : Handle}

/-! ### Handles and the tree -/

/-- The handles that are open, by name, and the tree that they are open on. -/
structure Fits (handles : Table String Handle) (m : Memory) : Prop where
  orderly : m.Orderly
  numbered : m.Numbered
  /-- The file of a handle is where it was opened, and it is locked. -/
  held : ∀ name k, handles.get? name = some k → ∃ d, m.fileOf? k = some d ∧ d.locked = true
  /-- A locked file has a handle. -/
  known : ∀ p, m.isLocked p = true → ∃ name k, handles.get? name = some k ∧ k.path = p
  /-- No two handles are open at one path. -/
  apart : ∀ name name' k k', handles.get? name = some k → handles.get? name' = some k' → k.path = k'.path → name = name'

theorem Fits.locked (h : Fits handles m) (hk : handles.get? name = some k) : m.isLocked k.path = true := by
  obtain ⟨d, hd, hl⟩ := h.held name k hk
  exact isLocked_eq_true_iff.2 ⟨d, (fileOf?_eq_some_iff.1 hd).1, hl⟩

/-- A path that is not locked is not that of a handle. -/
theorem Fits.path_ne (h : Fits handles m) (hk : handles.get? name = some k) (hp : m.isLocked p = false) :
    k.path ≠ p := by
  intro e
  simp [← e, h.locked hk] at hp

theorem Fits.spared (h : Fits handles m) (horder : m'.Orderly) (hs : m.Spares m') : Fits handles m' where
  orderly := horder
  numbered := hs.numbered h.numbered
  held name k hk := by
    obtain ⟨d, hd, hl⟩ := h.held name k hk
    obtain ⟨hnode, hserial⟩ := fileOf?_eq_some_iff.1 hd
    exact ⟨d, fileOf?_eq_some_iff.2 ⟨hs.kept _ d hnode hl, hserial⟩, hl⟩
  known p hp := by
    obtain ⟨d, hd, hl⟩ := isLocked_eq_true_iff.1 hp
    exact h.known p (isLocked_eq_true_iff.2 ⟨d, hs.old p d hd hl, hl⟩)
  apart := h.apart

/-- New bytes change nothing about who holds what. -/
theorem Fits.revised (h : Fits handles m) (hd : m.node? p = some (.file d)) {bytes : Bytes}
    (horder : (m.revised p d bytes).Orderly) : Fits handles (m.revised p d bytes) where
  orderly := horder
  numbered := h.numbered.put_file hd rfl
  held name k hk := by
    obtain ⟨e, he, hl⟩ := h.held name k hk
    obtain ⟨hnode, hserial⟩ := fileOf?_eq_some_iff.1 he
    by_cases heq : k.path = p
    · rw [heq, hd, Option.some.injEq, Node.file.injEq] at hnode
      subst hnode
      exact ⟨{ d with bytes, modified := m.clock },
        fileOf?_eq_some_iff.2 ⟨by rw [heq, Memory.revised, node?_put_self], hserial⟩, hl⟩
    · exact ⟨e, fileOf?_eq_some_iff.2 ⟨by rw [node?_revised_of_ne heq, hnode], hserial⟩, hl⟩
  known q hq := by
    rw [isLocked_of_outline? (outline?_revised hd bytes q)] at hq
    exact h.known q hq
  apart := h.apart

/-- A handle that is opened under a new name. -/
theorem Fits.opened (h : Fits handles m) (hname : handles.get? name = none) (hd : m.node? p = some (.file d))
    (hl : d.locked = false) :
    Fits (handles.insert name ⟨p, d.serial⟩) (m.put p (.file { d with locked := true })) := by
  have hfree : m.isLocked p = false := by
    rw [isLocked_eq_false_iff]
    simp_all
  have hother : ∀ q, q ≠ p → (m.put p (.file { d with locked := true })).node? q = m.node? q := fun q hq =>
    node?_put_of_ne m _ hq
  constructor
  case orderly => exact h.orderly.put_file hd id
  case numbered => exact h.numbered.put_file hd rfl
  case held =>
    intro name' k hk
    rw [get?_insert] at hk
    split at hk
    · simp only [Option.some.injEq] at hk
      subst hk
      exact ⟨_, fileOf?_eq_some_iff.2 ⟨node?_put_self m p _, rfl⟩, rfl⟩
    · obtain ⟨e, he, hle⟩ := h.held name' k hk
      obtain ⟨hnode, hserial⟩ := fileOf?_eq_some_iff.1 he
      exact ⟨e, fileOf?_eq_some_iff.2 ⟨by rw [hother _ (h.path_ne hk hfree), hnode], hserial⟩, hle⟩
  case known =>
    intro q hq
    by_cases heq : q = p
    · exact ⟨name, ⟨p, d.serial⟩, get?_insert_self _ _ _, heq.symm⟩
    · obtain ⟨name', k, hk, hkp⟩ := h.known q (by rwa [isLocked, hother q heq] at hq)
      have hne : name' ≠ name := fun e => by simp [e, hname] at hk
      exact ⟨name', k, by rw [get?_insert_of_ne _ _ hne, hk], hkp⟩
  case apart =>
    intro a b k k' hk hk' hpath
    rw [get?_insert] at hk hk'
    split at hk <;> split at hk'
    · simp_all
    · simp only [Option.some.injEq] at hk
      exact absurd (hpath.symm.trans (by rw [← hk])) (h.path_ne hk' hfree)
    · simp only [Option.some.injEq] at hk'
      exact absurd (hpath.trans (by rw [← hk'])) (h.path_ne hk hfree)
    · exact h.apart a b k k' hk hk' hpath

theorem node?_release_of_ne {q : Path} (hq : q ≠ k.path) : (m.release k).node? q = m.node? q := by
  rw [node?_release, if_neg hq]

/-- A handle that is released loses its name. -/
theorem Fits.released (h : Fits handles m) (hk : handles.get? name = some k) :
    Fits (handles.erase name) (m.release k) := by
  obtain ⟨d, hd, -⟩ := h.held name k hk
  have hself : (m.release k).node? k.path = some (.file { d with locked := false }) := by
    rw [node?_release, if_pos rfl, hd]
  constructor
  case orderly => exact h.orderly.release k
  case numbered =>
    rw [release, hd]
    exact h.numbered.put_file (fileOf?_eq_some_iff.1 hd).1 rfl
  case held =>
    intro name' k' hk'
    rw [get?_erase] at hk'
    split at hk'
    · simp at hk'
    · rename_i hne
      obtain ⟨e, he, hle⟩ := h.held name' k' hk'
      obtain ⟨hnode, hserial⟩ := fileOf?_eq_some_iff.1 he
      have hpath : k'.path ≠ k.path := fun e => hne (h.apart name' name k' k hk' hk e)
      exact ⟨e, fileOf?_eq_some_iff.2 ⟨by rw [node?_release_of_ne hpath, hnode], hserial⟩, hle⟩
  case known =>
    intro q hq
    by_cases heq : q = k.path
    · simp [isLocked, heq, hself, Node.isLocked] at hq
    · obtain ⟨name', k', hk', hkq⟩ := h.known q (by rwa [isLocked, node?_release_of_ne heq] at hq)
      have hne : name' ≠ name := by
        intro e
        rw [e, hk, Option.some.injEq] at hk'
        exact heq (by rw [← hkq, hk'])
      exact ⟨name', k', by rw [get?_erase, if_neg hne, hk'], hkq⟩
  case apart =>
    intro a b x y hx hy hpath
    rw [get?_erase] at hx hy
    split at hx <;> split at hy
    · simp_all
    · simp at hx
    · simp at hy
    · exact h.apart a b x y hx hy hpath

/-- Releasing a handle and putting a file elsewhere can be done in either order. -/
theorem release_put_of_ne (hp : k.path ≠ p) (n : Node) : (m.put p n).release k = (m.release k).put p n := by
  have hfile : (m.put p n).fileOf? k = m.fileOf? k := by
    unfold fileOf?
    rw [node?_put_of_ne m n hp]
  unfold release
  rw [hfile]
  cases m.fileOf? k with
  | none => rfl
  | some e =>
    have hnodes : ((m.put p n).put k.path (.file { e with locked := false })).nodes =
        ((m.put k.path (.file { e with locked := false })).put p n).nodes := by
      apply ext_get?
      intro q
      show (node? _ q) = node? _ q
      simp only [node?_put]
      by_cases hq : q = p
      · simp [hq, Ne.symm hp]
      · simp [hq]
    exact congrArg (fun t => ({ m with nodes := t })) hnodes

end Memory

/-! ### What a step does -/

/-- Does a call put bytes into the file of its handle? -/
def HandleStep.writes : HandleStep → Bool
  | write _ _ | truncate _ | writeAllAt _ _ => true
  | _ => false

/-- Is a step a write through a handle? -/
def Step.writesThrough (name : String) : Step → Bool
  | onHandle n step => n == name && step.writes
  | _ => false

/-- What a call on a handle does to the tree. -/
inductive HandleStep.Does (k : Handle) (m : Memory) : HandleStep → Memory → Prop
  | looks {step : HandleStep} (h : step.ends = false) : Does k m step m
  | revises {step : HandleStep} {d : FileData} (h : step.writes = true) (hends : step.ends = false)
      (hd : m.fileOf? k = some d) (bytes : Bytes) : Does k m step (m.revised k.path d bytes)
  | releases {step : HandleStep} (h : step.ends = true) : Does k m step (m.release k)

theorem HandleStep.treeWp_run (k : Handle) (step : HandleStep) (m : Memory) :
    treeWp (φ := Memory) (step.run k) (fun _ => Does k m step) (fun _ m' => m' = m ∧ step.ends = false) m := by
  -- A call, and the form that its result is given in. To end the life of a handle never fails.
  have hanswer : ∀ {α : Type} {x : StoreM (Host × Memory) α} {f : α → Answer} {Q : α → Memory → Prop},
      step.ends = false → treeWp x Q (NoEffect Memory m False) m → (∀ a m', Q a m' → Does k m step m') →
      treeWp (x >>= fun a => pure (f a)) (fun _ => Does k m step)
        (fun _ m' => m' = m ∧ step.ends = false) m := by
    intro α x f Q hends hx hQ
    exact treeWp_bind (hx.mono (fun a m' h => treeWp_pure (hQ a m' h)) fun _ _ h => ⟨h.1, hends⟩)
  have hlook : ∀ {α : Type} {T : α → Prop}, step.ends = false → ∀ a m', m' = m ∧ T a → Does k m step m' := by
    intro α T hends a m' h
    rw [h.1]
    exact .looks hends
  have hrelease : step.ends = true → treeWp (φ := Memory) (modify (FileStore.release k) >>= fun _ => pure Answer.done)
      (fun _ => Does k m step) (fun _ m' => m' = m ∧ step.ends = false) m := by
    intro hends host t ht
    subst ht
    exact ⟨rfl, .releases hends⟩
  cases step with
  | read pos length =>
    exact hanswer rfl ((Backed.read (φ := Memory) k pos length).treeWp (wp_read k pos length m _)) (hlook rfl)
  | write pos data =>
    refine hanswer rfl ((Backed.write (φ := Memory) k pos data).treeWp (wp_write k pos data m)) ?_
    intro n m' h
    obtain ⟨-, ⟨-, rfl⟩ | ⟨d, hd, rfl, -⟩⟩ := h
    · exact .looks rfl
    · exact .revises rfl rfl hd _
  | truncate length =>
    refine hanswer rfl ((Backed.truncate (φ := Memory) k length).treeWp (wp_truncate k length m)) ?_
    intro _ m' h
    obtain ⟨-, rfl⟩ | ⟨d, hd, rfl, -⟩ := h
    · exact .looks rfl
    · exact .revises rfl rfl hd _
  | flush =>
    have hflush : treeWp (φ := Memory) (FileStore.flush k) (fun _ m' => m' = m ∧ True)
        (NoEffect Memory m False) m := treeWp_pure ⟨rfl, trivial⟩
    exact hanswer rfl hflush (hlook rfl)
  | size => exact hanswer rfl (treeWp_size (φ := Memory) k m) (hlook rfl)
  | readAll => exact hanswer rfl (treeWp_readAll (φ := Memory) k m) (hlook rfl)
  | readExactAt length offset => exact hanswer rfl (treeWp_readExactAt (φ := Memory) k m length offset) (hlook rfl)
  | writeAllAt data offset =>
    refine hanswer rfl (treeWp_writeAllAt (φ := Memory) k m data offset) ?_
    intro n m' h
    rw [h.2.1, written]
    split
    · exact .looks rfl
    · split
      · rename_i d hd
        exact .revises rfl rfl hd _
      · exact .looks rfl
  | close | release => exact hrelease rfl

/-- A call on a handle that fails leaves everything as it was, and the handle open. -/
theorem HandleStep.wp_run (k : Handle) (step : HandleStep) (s : Host × Memory) :
    wp (step.run k) (fun _ t => Does k s.2 step t.2) (fun _ t => t = s ∧ step.ends = false) s :=
  (step.treeWp_run k s.2 s.1 s.2 rfl).mono (fun _ _ h => h.2) fun _ _ h => ⟨Prod.ext h.1 h.2.1, h.2.2⟩

/-- What a step does to a session. -/
inductive Step.Does (s : Session Memory) : Step → Session Memory → Prop
  | spares {step : Step} (w : Host × Memory) (horder : w.2.Orderly) (h : s.world.2.Spares w.2) :
      Does s step { s with world := w }
  | opens {step : Step} (host : Host) (name : String) {p : Path} {d : FileData}
      (hd : s.world.2.node? p = some (.file d)) (hl : d.locked = false) :
      Does s step
        (Session.keep { s with world := (host, s.world.2.put p (.file { d with locked := true })) } name ⟨p, d.serial⟩)
  | revises {step : Step} (host : Host) {name : String} {k : Handle} {d : FileData} {bytes : Bytes}
      (hw : step.writesThrough name = true) (hk : s.handles.get? name = some k) (hd : s.world.2.fileOf? k = some d)
      (horder : (s.world.2.revised k.path d bytes).Orderly) :
      Does s step { s with world := (host, s.world.2.revised k.path d bytes) }
  | releases {step : Step} (host : Host) {name : String} {k : Handle} (hk : s.handles.get? name = some k) :
      Does s step { world := (host, s.world.2.release k), handles := s.handles.erase name }

section Steps

variable {s : Session Memory} {step : Step}

theorem Step.does_call {α : Type} {x : StoreM (Host × Memory) α} (hx : Stays Careful x)
    (hs : s.world.2.Orderly) : Does s step (s.call x).2 :=
  have h := stays_iff.1 hx s.world hs
  .spares _ h.1 h.2

theorem Step.does_openHandle (p : Path) (name : String) (hs : s.world.2.Orderly) :
    Does s (.openHandle p name) ((Step.openHandle p name).run s).2 := by
  have hwp := (Backed.openHandle p).treeWp (wp_openHandle p s.world.2) s.world.1 s.world.2 rfl
  simp only [run, Session.call]
  rcases hrun : FileStore.openHandle p s.world with ⟨e | k, host, m⟩
  · rw [wp_of_error hrun] at hwp
    obtain ⟨-, rfl, -⟩ := hwp
    exact .spares (host, s.world.2) hs (.refl _)
  · rw [wp_of_ok hrun] at hwp
    obtain ⟨-, d, hd, hl, rfl, rfl⟩ := hwp
    exact .opens host name hd hl

theorem Step.does_onHandle (name : String) (step : HandleStep) (hs : s.world.2.Orderly) :
    Does s (.onHandle name step) ((Step.onHandle name step).run s).2 := by
  simp only [run]
  cases hk : s.handles.get? name with
  | none => exact .spares s.world hs (.refl _)
  | some k =>
    have hdoes : HandleStep.Does k s.world.2 step (step.run k s.world).2.2 :=
      wp.state
        ((step.wp_run k s.world).mono (fun _ _ h => h) fun _ t h => by rw [h.1]; exact .looks h.2)
    have horder : (step.run k s.world).2.2.Orderly := Session.orderly_call (step.keepsOrder_run k) hs
    have hcall : ∀ t : Session Memory, t.world = s.world →
        (t.call (step.run k)).2 = { t with world := ((step.run k s.world).2.1, (step.run k s.world).2.2) } := by
      intro t ht
      rw [← ht]
      rfl
    generalize (step.run k s.world).2.2 = m at hdoes horder hcall
    cases hdoes with
    | looks hends =>
      rw [hcall _ (by split <;> rfl), if_neg (by simp [hends])]
      exact .spares _ hs (.refl _)
    | revises hw hends hd bytes =>
      rw [hcall _ (by split <;> rfl), if_neg (by simp [hends])]
      exact .revises _ (by simp [writesThrough, hw]) hk hd horder
    | releases hends =>
      rw [hcall _ (by split <;> rfl), if_pos hends]
      exact .releases _ hk

/-- A step from a tree in order. -/
theorem Step.does (step : Step) (hs : s.world.2.Orderly) : Does s step (step.run s).2 := by
  cases step with
  | directory p create => exact does_call ((tidy_directory p create).careful.bind fun _ => .pure) hs
  | file p create => exact does_call ((tidy_file p create).careful.bind fun _ => .pure) hs
  | openHandle p name => exact does_openHandle p name hs
  | remove p recursive => exact does_call ((tidy_remove p recursive).careful.bind fun _ => .pure) hs
  | move source target => exact does_call ((tidy_move source target).careful.bind fun _ => .pure) hs
  | copy source target => exact does_call ((careful_copy source target).bind fun _ => .pure) hs
  | list p => exact does_call ((tidy_list p).careful.bind fun _ => .pure) hs
  | entry p => exact does_call ((tidy_entry p).careful.bind fun _ => .pure) hs
  | writeAt p offset data => exact does_call ((tidy_writeAt p offset data).careful.bind fun _ => .pure) hs
  | onHandle name step => exact does_onHandle name step hs

/-- A handle that takes the name of another one. The other one is released. -/
theorem Memory.Fits.kept (h : Fits s.handles s.world.2) (host : Host) (name : String) {p : Path} {d : FileData}
    (hd : s.world.2.node? p = some (.file d)) (hl : d.locked = false) :
    let t := Session.keep { s with world := (host, s.world.2.put p (.file { d with locked := true })) } name ⟨p, d.serial⟩
    Fits t.handles t.world.2 := by
  simp only [Session.keep]
  cases hold : s.handles.get? name with
  | none => exact h.opened hold hd hl
  | some old =>
    have hne : old.path ≠ p := by
      refine h.path_ne hold (isLocked_eq_false_iff.2 ?_)
      simp_all
    have hreplace : s.handles.insert name ⟨p, d.serial⟩ = (s.handles.erase name).insert name ⟨p, d.serial⟩ := by
      apply ext_get?
      intro q
      simp only [get?_insert, get?_erase]
      split <;> rfl
    show Fits (s.handles.insert name _) ((s.world.2.put p _).release old)
    rw [release_put_of_ne hne, hreplace]
    refine (h.released hold).opened ?_ ?_ hl
    · rw [get?_erase, if_pos rfl]
    · rw [node?_release_of_ne (Ne.symm hne), hd]

/-- The fit is kept, whatever a step does. -/
theorem Step.Does.fits {t : Session Memory} (hstep : step.Does s t) (h : Fits s.handles s.world.2) :
    Fits t.handles t.world.2 := by
  cases hstep with
  | spares w horder hs => exact h.spared horder hs
  | opens host name hd hl => exact h.kept host name hd hl
  | revises host hw hk hd horder => exact h.revised (fileOf?_eq_some_iff.1 hd).1 horder
  | releases host hk => exact h.released hk

/-- Only a write through a handle changes the file of the handle. -/
theorem Step.Does.atRest?_eq {t : Session Memory} (hstep : step.Does s t)
    (h : Fits s.handles s.world.2) {name : String} {k : Handle} (hk : s.handles.get? name = some k)
    (hw : step.writesThrough name = false) : t.world.2.atRest? k.path = s.world.2.atRest? k.path := by
  cases hstep with
  | spares w horder hs =>
    obtain ⟨d, hd, hl⟩ := h.held name k hk
    have hnode := (fileOf?_eq_some_iff.1 hd).1
    simp only [atRest?, hnode, hs.kept k.path d hnode hl]
  | opens host name' hd hl =>
    simp only [Session.keep]
    cases s.handles.get? name' with
    | none => exact atRest?_put_locked hd true k.path
    | some old =>
      show ((put _ _ _).release old).atRest? k.path = _
      rw [atRest?_release, atRest?_put_locked hd true k.path]
  | @revises host name' k' d bytes hw' hk' hd horder =>
    -- The write goes through another handle, and so to another path.
    have hpath : k.path ≠ k'.path := by
      intro e
      rw [h.apart name name' k k' hk hk' e, hw'] at hw
      simp at hw
    simp only [atRest?, node?_revised_of_ne hpath]
  | @releases host name' k' hk' => exact atRest?_release _ k' k.path

/-- Along every use of a store the handles and the tree fit. -/
theorem Memory.Used.fits (hs : Used s) : Fits s.handles s.world.2 := by
  induction hs with
  | fresh host crossMoves clock =>
    have hnone : ∀ name k, (∅ : Table String Handle).get? name ≠ some k := by
      intro name k hk
      rw [show (∅ : Table String Handle).get? name = none from get?_empty name] at hk
      simp at hk
    have hfree : ∀ p, isLocked { crossMoves := crossMoves, clock := clock } p = false := isLocked_of_nodes rfl
    refine ⟨⟨closed_of_nodes rfl, short_of_nodes rfl⟩, numbered_of_nodes rfl, ?_, ?_, ?_⟩
    · exact fun name k hk => absurd hk (hnone name k)
    · intro p hp
      simp [hfree] at hp
    · exact fun name _ k _ hk => absurd hk (hnone name k)
  | step step hs ih => exact (step.does hs.orderly).fits ih
  | tick host clock hs ih =>
    exact ⟨(hs.tick host clock).orderly, ⟨ih.numbered.single, ih.numbered.used⟩, ih.held, ih.known, ih.apart⟩

end Steps

/-! ### Sessions under guard -/

namespace Session

/-- Does the handle of a name refer to a file? A file is known by its number, wherever it is. -/
def Holds (s : Session Memory) (name : String) (d : FileData) : Prop :=
  ∃ k : Handle, s.handles.get? name = some k ∧ k.serial = d.serial

/-- The tree is well formed, and its locks are those of the open handles. -/
structure Guarded (s : Session Memory) : Prop where
  root : s.world.2.node? .root = some .directory
  parent : ∀ p n, s.world.2.node? p = some n → p ≠ .root →
    ∃ dir, p.parent? = some dir ∧ s.world.2.node? dir = some .directory
  /-- A file is locked exactly while one handle refers to it. -/
  locked : ∀ p d, s.world.2.node? p = some (.file d) → (d.locked = true ↔ ∃! name, s.Holds name d)
  /-- No two handles refer to one file. -/
  distinct : ∀ name name' k k', s.handles.get? name = some k → s.handles.get? name' = some k' →
    Handle.serial k = Handle.serial k' → name = name'
  /-- The file of a handle is where the handle was opened, and nowhere else. -/
  there : ∀ name (k : Handle), s.handles.get? name = some k →
    ∀ p, (∃ d, s.world.2.node? p = some (.file d) ∧ d.serial = k.serial) ↔ p = k.path
  /-- No file has more than `2 ^ 32` bytes. -/
  short : ∀ p d, s.world.2.node? p = some (.file d) → d.bytes.length ≤ 4294967296

variable {s : Session Memory}

theorem guarded_of_fits (h : Fits s.handles s.world.2) : s.Guarded := by
  -- The file that a handle refers to, by number, is the one at its path.
  have hfile : ∀ name k p d, s.handles.get? name = some k → s.world.2.node? p = some (.file d) →
      d.serial = k.serial → p = k.path ∧ d.locked = true := by
    intro name k p d hk hd hserial
    obtain ⟨e, he, hl⟩ := h.held name k hk
    obtain ⟨hnode, hes⟩ := fileOf?_eq_some_iff.1 he
    have hp : p = k.path := h.numbered.single p k.path d e hd hnode (by rw [hserial, hes])
    rw [hp, hnode, Option.some.injEq, Node.file.injEq] at hd
    exact ⟨hp, by rw [← hd, hl]⟩
  constructor
  case root => exact kind?_eq_directory_iff.1 h.orderly.closed.root
  case parent =>
    intro p n hp hroot
    obtain ⟨dir, x, rfl⟩ := (Path.eq_root_or_child p).resolve_left hroot
    have hkind : s.world.2.kind? (dir.child x) ≠ none := by simp [kind?, hp]
    exact ⟨dir, Path.parent?_child dir x, kind?_eq_directory_iff.1 (h.orderly.closed.parent dir x hkind)⟩
  case locked =>
    intro p d hd
    constructor
    · intro hl
      obtain ⟨name, k, hk, rfl⟩ := h.known p (isLocked_eq_true_iff.2 ⟨d, hd, hl⟩)
      obtain ⟨e, he, -⟩ := h.held name k hk
      obtain ⟨hnode, hserial⟩ := fileOf?_eq_some_iff.1 he
      rw [hd, Option.some.injEq, Node.file.injEq] at hnode
      refine ⟨name, ⟨k, hk, by rw [hnode, hserial]⟩, ?_⟩
      intro name' hname'
      obtain ⟨k', hk', hs'⟩ := hname'
      exact h.apart name' name k' k hk' hk (hfile name' k' k.path d hk' hd hs'.symm).1.symm
    · intro hname
      obtain ⟨name, ⟨k, hk, hs⟩, -⟩ := hname
      exact (hfile name k p d hk hd hs.symm).2
  case distinct =>
    intro name name' k k' hk hk' hserial
    obtain ⟨d, hd, -⟩ := h.held name k hk
    obtain ⟨hnode, hds⟩ := fileOf?_eq_some_iff.1 hd
    exact h.apart name name' k k' hk hk' (hfile name' k' k.path d hk' hnode (by rw [hds, hserial])).1
  case there =>
    intro name k hk p
    constructor
    · intro hp
      obtain ⟨d, hd, hs⟩ := hp
      exact (hfile name k p d hk hd hs).1
    · intro hp
      obtain ⟨d, hd, -⟩ := h.held name k hk
      exact ⟨d, by rw [hp, (fileOf?_eq_some_iff.1 hd).1], (fileOf?_eq_some_iff.1 hd).2⟩
  case short =>
    intro p d hd
    exact h.orderly.short.bytes hd

end Session

/-- Whoever uses a store in memory, its tree is well formed, and a file is locked exactly while one handle is open on it.
The file stays where it is as long as the handle is open, and its bytes change only by a write through that handle. -/
theorem used_store_is_guarded {s : Session Memory} (hs : Used s) :
    s.Guarded ∧ ∀ (step : Step) (name : String) (k : Handle), s.handles.get? name = some k →
      step.writesThrough name = false → (step.run s).2.world.2.atRest? k.path = s.world.2.atRest? k.path :=
  ⟨Session.guarded_of_fits hs.fits, fun step _ _ hk hw => (step.does hs.orderly).atRest?_eq hs.fits hk hw⟩

/-- The place of a file. -/
def heldPath : Path := Path.root.child ⟨"held", by decide⟩

/-- A handle is open on the file, and a byte was written through it. -/
def aGuardedFile : Session Memory :=
  [Step.file heldPath true, .openHandle heldPath "h", .onHandle "h" (.write 0 [7])].foldl (fun s step => (step.run s).2)
    ⟨({}, {}), ∅⟩

theorem used_store_is_guarded_open :
    aGuardedFile.Guarded ∧ aGuardedFile.world.2.fileOf? ⟨heldPath, 0⟩ = some ⟨0, [7], true, 0⟩ ∧
      ((Step.writeAt heldPath 0 [9]).run aGuardedFile).2.world.2.atRest? heldPath = some (.file ⟨0, [7], false, 0⟩) := by
  have hused : Used aGuardedFile := .step _ (.step _ (.step _ (.fresh {} false 0)))
  have hopen : aGuardedFile.handles.get? "h" = some ⟨heldPath, 0⟩ := rfl
  obtain ⟨hguarded, hkept⟩ := used_store_is_guarded hused
  refine ⟨hguarded, rfl, ?_⟩
  rw [hkept (.writeAt heldPath 0 [9]) "h" _ hopen rfl]
  rfl

end Filespace.Storage
