import Filespace.Proofs.Copying
import Filespace.Proofs.Linking
import Filespace.Vfs.Namespace
import Mathlib.Logic.Relation

/-!
# The steps of a namespace

Every operation on a namespace is a chain of a few kinds of steps: a job of the queue is done, something is
noted in a cache, a file is locked by a handle or released, a tree grows, entries or links are moved, and so on.
`Step a v w` says what each kind `a` of step does and what is known when it is taken; `Reaches P v w` is a chain of
steps of the kinds in `P`.

An invariant is proved once for each kind of step (`Step.closed` here is the first); that operations are chains of
steps is shown in `Filespace.Proofs.Operations`. A step is as large as it has to be for this: the store's
part and the links' part of a removal or a move are one step, since in between links dangle.
-/

namespace Filespace

open Storage Memory Backed

/-! ### Jobs of the queue -/

namespace Background

variable {ω σ : Type} {exec : ω → σ → Except StorageError Unit × σ}

/-- The queue does not matter to the jobs that were taken out of it. -/
theorem finish_queue (b : Background ω) (j : Job ω) (r : Except StorageError Unit) (q : List (Job ω)) :
    { b.finish j r with queue := q } = { b with queue := q }.finish j r := by
  unfold finish
  split <;> rfl

theorem run_zero (b : Background ω) (s : σ) : b.run (fun _ => true) exec 0 s = (b, s) := by
  simp [run, runJobs]

theorem run_nil (b : Background ω) (s : σ) (n : Nat) (h : b.queue = []) :
    b.run (fun _ => true) exec n s = (b, s) := by
  obtain ⟨nextId, hook, queue, reports⟩ := b
  cases h
  simp [run, runJobs]

/-- Doing several jobs is doing the first and then the others. -/
theorem run_succ {b : Background ω} {j : Job ω} {rest : List (Job ω)} (n : Nat) (s : σ) (h : b.queue = j :: rest) :
    b.run (fun _ => true) exec (n + 1) s =
      { b.finish j (exec j.work s).1 with queue := rest }.run (fun _ => true) exec n (exec j.work s).2 := by
  unfold run
  rw [h]
  simp only [List.take_succ_cons, List.drop_succ_cons, runJobs, if_true]
  rw [← finish_queue]

end Background

/-! ### Queued writes -/

namespace Detached

variable {d : Detached} {p q : Path}

theorem hasPending_eq_false_iff : d.hasPending p = false ↔ d.paths.get? p = none :=
  Table.contains_eq_false_iff

theorem get?_enter (d : Detached) (p q : Path) :
    (d.enter p).2.paths.get? q =
      if q = p then some ⟨(d.enter p).1, ((d.paths.get? p).map PathWrites.pending).getD 0 + 1⟩ else d.paths.get? q := by
  unfold enter
  rw [Table.get?_insert]
  split
  · cases d.paths.get? p <;> rfl
  · rfl

theorem get?_finish (d : Detached) (p q : Path) :
    (d.finish p).paths.get? q =
      if q = p then (d.paths.get? p).bind fun w =>
        if w.pending ≤ 1 then none else some { w with pending := w.pending - 1 }
      else d.paths.get? q := by
  unfold finish
  cases hp : d.paths.get? p with
  | none =>
    simp only [Option.bind_none]
    split
    · rename_i e
      rw [e, hp]
    · rfl
  | some w =>
    simp only [Option.bind_some]
    split
    · rw [Table.get?_erase]
    · rw [Table.get?_insert]

theorem get?_invalidateUnder (d : Detached) (p q : Path) :
    (d.invalidateUnder p).paths.get? q =
      (d.paths.get? q).map fun w => if q.under p then { w with generation := w.generation + 1 } else w :=
  Table.get?_map d.paths _ q

/-- Where no write was queued, none is after another has left the queue. -/
theorem hasPending_finish (h : d.hasPending q = false) : (d.finish p).hasPending q = false := by
  rw [hasPending_eq_false_iff] at h ⊢
  rw [get?_finish]
  split
  · rename_i e
    rw [← e, h]
    rfl
  · exact h

end Detached

namespace Vfs

variable {φ μ : Type} [FileStore φ]

/-- The store behind the namespace, on its host. -/
def behind (v : Vfs φ μ) : Host × φ := (v.world.host, v.world.files)

/-- The namespace with another store behind it. -/
def withFiles (v : Vfs φ μ) (f : φ) : Vfs φ μ := { v with world := { v.world with files := f } }

/-- The namespace with changed links, and the jobs of the change queued. -/
def relinked (v : Vfs φ μ) (l : Links) (jobs : List LinkJob) : Vfs φ μ :=
  { v with links := l, background := jobs.foldl (fun b j => (b.submit j.label (.link j)).2) v.background }

/-- The namespace with one more write in the queue. -/
def queued (v : Vfs φ μ) (p : Path) (offset : Nat) (data : Bytes) : Vfs φ μ :=
  { v with
    detached := (v.detached.enter p).2
    background :=
      (v.background.submit ("detached write " ++ p.display) (.write p (v.detached.enter p).1 offset data)).2 }

/-- What waits in the queue. -/
def works (v : Vfs φ μ) : List Work := v.background.queue.map Job.work

theorem works_relinked (v : Vfs φ μ) (l : Links) (jobs : List LinkJob) :
    (v.relinked l jobs).works = v.works ++ jobs.map .link := by
  have hsubmit : ∀ (jobs : List LinkJob) (b : Background Work),
      (jobs.foldl (fun b j => (b.submit j.label (.link j)).2) b).queue.map Job.work =
        b.queue.map Job.work ++ jobs.map .link := by
    intro jobs
    induction jobs with
    | nil => simp
    | cons job jobs ih =>
      intro b
      rw [List.foldl_cons, ih]
      simp [Background.submit]
  exact hsubmit jobs v.background

theorem works_queued (v : Vfs φ μ) (p : Path) (offset : Nat) (data : Bytes) :
    (v.queued p offset data).works = v.works ++ [.write p (v.detached.enter p).1 offset data] := by
  unfold works queued Background.submit
  rw [List.map_append]
  rfl

section Jobs

variable [LinkMap μ]

/-- The namespace after one job. -/
def finished (v : Vfs φ μ) (j : Job Work) (rest : List (Job Work)) : Vfs φ μ :=
  { v with
    background := { v.background.finish j (perform j.work (v.world, v.detached)).1 with queue := rest }
    world := (perform j.work (v.world, v.detached)).2.1
    detached := (perform j.work (v.world, v.detached)).2.2 }

theorem runJobs_zero (v : Vfs φ μ) : v.runJobs 0 = v := by
  simp [runJobs, Background.run_zero]

theorem runJobs_nil {v : Vfs φ μ} (n : Nat) (h : v.background.queue = []) : v.runJobs n = v := by
  simp [runJobs, Background.run_nil _ _ n h]

theorem runJobs_succ {v : Vfs φ μ} {j : Job Work} {rest : List (Job Work)} (n : Nat)
    (h : v.background.queue = j :: rest) : v.runJobs (n + 1) = (v.finished j rest).runJobs n := by
  simp [runJobs, Background.run_succ n _ h, finished]

end Jobs

variable [Backed φ]

/-- The tree behind the namespace. -/
def memory (v : Vfs φ μ) : Memory := tree v.world.files

@[simp] theorem memory_withFiles (v : Vfs φ μ) (f : φ) : (v.withFiles f).memory = tree f := rfl

end Vfs

/-! ### Changes of the tree -/

namespace Storage.Memory

/-- A tree that has grown towards a path: what was there is there, and what is new lies on the way and is not
locked. -/
structure Grown (p : Path) (m m' : Memory) : Prop where
  /-- The tree is closed. -/
  closed : m'.Closed
  /-- What was there has not changed. -/
  old : ∀ q, m.node? q ≠ none → m'.node? q = m.node? q
  /-- What is new lies on the way. -/
  onTrail : ∀ q, m.node? q = none → m'.node? q ≠ none → q ∈ p.trail
  /-- There are no handles on what is new. -/
  unlocked : ∀ q, m.node? q = none → m'.isLocked q = false
  /-- No file has become too long. -/
  short : m.Short → m'.Short

/-- A tree in which the entries at and below one path have gone to another. -/
structure Moved (source target : Path) (m m' : Memory) : Prop where
  /-- The tree is closed. -/
  closed : m'.Closed
  /-- There was something to move. -/
  present : m.node? source ≠ none
  /-- The paths lie beside each other. -/
  beside : source.under target = false ∧ target.under source = false
  /-- Nothing is left at the old place. -/
  gone : ∀ q, q.under source = true → m'.node? q = none
  /-- All is at the new place. -/
  there : ∀ r, m'.kind? (target.join r) = m.kind? (source.join r)
  /-- Everything else stays. -/
  same : ∀ q, q.under source = false → q.under target = false → m'.node? q = m.node? q
  /-- There were no handles on what was moved, or at the new place. -/
  unlocked : ∀ q, q.under source = true ∨ q.under target = true → m.isLocked q = false
  /-- There are none on what arrived. -/
  unlocked' : ∀ q, q.under target = true → m'.isLocked q = false
  /-- No file has become too long. -/
  short : m.Short → m'.Short

end Storage.Memory

/-! ### Steps -/

namespace Vfs

/-- The kinds of steps. -/
inductive Act where
  /-- Waiting: a job is done, or a call changes nothing. -/
  | wait
  /-- A cache, or the working directory. -/
  | note
  /-- A handle is opened and kept. -/
  | lock (p : Path)
  /-- A handle that was kept is closed. -/
  | unlock (p : Path)
  /-- The queued writes below a path lose their meaning. -/
  | stale (p : Path)
  /-- A write is queued. -/
  | queue (p : Path)
  /-- The content of a file changes. -/
  | edit (p : Path)
  /-- The tree grows. -/
  | make (p : Path)
  /-- A link is made. -/
  | link (p : Path)
  /-- A link is removed. -/
  | unlink (p : Path)
  /-- A link is moved. -/
  | relink (source target : Path)
  /-- An entry is removed with all below it. -/
  | drop (p : Path)
  /-- Entries are copied. -/
  | copy (source target : Path)
  /-- An entry is moved with all below it. -/
  | move (source target : Path)
  deriving DecidableEq

variable {φ μ : Type} [FileStore φ] [Backed φ] [LinkMap μ]

/-- The parent of a path is a directory of the store. -/
def HasParent (m : Memory) (p : Path) : Prop := ∃ dir, p.parent? = some dir ∧ m.node? dir = some .directory

/-- What a step of each kind does, and what is known when it is taken. -/
inductive Step : Act → Vfs φ μ → Vfs φ μ → Prop
  | job {v : Vfs φ μ} {j : Job Work} {rest : List (Job Work)} (queue : v.background.queue = j :: rest) :
      Step .wait v (v.finished j rest)
  | pass {v : Vfs φ μ} {f : φ} {l : List Nat} (tree : tree f = v.memory) :
      Step .wait v { v.withFiles f with pace := l }
  | note {v : Vfs φ μ} {sizes : Table Path FileMeta} {listings : Listings} {resolver : Resolver} :
      Step .note v { v with sizes := sizes, listings := listings, resolver := resolver }
  | lock {v : Vfs φ μ} {p : Path} {f : φ} {h : FileStore.Handle φ} {d : FileData}
      (cold : v.handles.get? p = none) (idle : v.detached.hasPending p = false ∨ v.background.queue = [])
      (file : v.memory.node? p = some (.file d)) (free : d.locked = false)
      (handle : memoryHandle h = ⟨p, d.serial⟩)
      (tree : tree f = v.memory.put p (.file { d with locked := true })) :
      Step (.lock p) v { v.withFiles f with handles := v.handles.insert p h }
  | unlock {v : Vfs φ μ} {p : Path} {f : φ} {h : FileStore.Handle φ} (warm : v.handles.get? p = some h)
      (tree : tree f = v.memory.release (memoryHandle h)) :
      Step (.unlock p) v { v.withFiles f with handles := v.handles.erase p }
  | stale {v : Vfs φ μ} {p : Path} : Step (.stale p) v { v with detached := v.detached.invalidateUnder p }
  | queue {v : Vfs φ μ} {p : Path} {offset : Nat} {data : Bytes} (cold : v.handles.get? p = none) :
      Step (.queue p) v (v.queued p offset data)
  | edit {v : Vfs φ μ} {p : Path} {f : φ} {d : FileData} {bytes : Bytes}
      (file : v.memory.node? p = some (.file d)) (tree : tree f = v.memory.revised p d bytes)
      (short : d.bytes.length ≤ maxLength → bytes.length ≤ maxLength) :
      Step (.edit p) v (v.withFiles f)
  | make {v : Vfs φ μ} {p : Path} {f : φ} (unlinked : ∀ q ∈ p.trail, v.links.get? q = none)
      (grown : Grown p v.memory (tree f)) : Step (.make p) v (v.withFiles f)
  | link {v : Vfs φ μ} {p : Path} {target : String} (free : v.memory.node? p = none)
      (parent : HasParent v.memory p) :
      Step (.link p) v (v.relinked (v.links.insert p target).1 (v.links.insert p target).2)
  | unlink {v : Vfs φ μ} {p : Path} :
      Step (.unlink p) v (v.relinked (v.links.remove p).2.1 (v.links.remove p).2.2)
  | relink {v : Vfs φ μ} {source target : Path} {t : String} (link : v.links.get? source = some t)
      (free : v.memory.node? target = none) (parent : HasParent v.memory target) :
      Step (.relink source target) v
        (v.relinked (v.links.rename source target).2.1 (v.links.rename source target).2.2)
  | dropFile {v : Vfs φ μ} {p : Path} {f : φ} {d : FileData} (file : v.memory.node? p = some (.file d))
      (root : p ≠ .root) (free : ∀ q, q.under p = true → v.memory.isLocked q = false)
      (tree : tree f = v.memory.prune p) : Step (.drop p) v (v.withFiles f)
  | dropTree {v : Vfs φ μ} {p : Path} {f : φ} (root : p ≠ .root)
      (free : ∀ q, q.under p = true → v.memory.isLocked q = false) (tree : tree f = v.memory.prune p) :
      Step (.drop p) v ((v.withFiles f).relinked (v.links.removeUnder p).2.1 (v.links.removeUnder p).2.2)
  | copy {v : Vfs φ μ} {source target : Path} {f : φ} (free : v.memory.node? target = none)
      (unlinked : v.links.get? target = none) (parent : HasParent v.memory target)
      (tree : ChangedUnder target v.memory (tree f)) : Step (.copy source target) v (v.withFiles f)
  | moveFile {v : Vfs φ μ} {source target : Path} {f : φ} {d : FileData} {sizes : Table Path FileMeta}
      (file : v.memory.node? source = some (.file d))
      (free : v.memory.node? target = none ∧ v.links.get? target = none ∨
        ∀ r, v.memory.kind? (target.join r) = v.memory.kind? (source.join r))
      (tree : Moved source target v.memory (tree f)) :
      Step (.move source target) v { v.withFiles f with sizes := sizes }
  | moveTree {v : Vfs φ μ} {source target : Path} {f : φ} {sizes : Table Path FileMeta}
      (free : v.memory.node? target = none ∧ v.links.get? target = none ∨
        ∀ r, v.memory.kind? (target.join r) = v.memory.kind? (source.join r))
      (tree : Moved source target v.memory (tree f)) :
      Step (.move source target) v ({ v.withFiles f with sizes := sizes }.relinked
        (v.links.renameUnder source target).2.1 (v.links.renameUnder source target).2.2)

/-- A chain of steps of given kinds. -/
def Reaches (P : Act → Prop) : Vfs φ μ → Vfs φ μ → Prop :=
  Relation.ReflTransGen fun v w => ∃ a, P a ∧ Step a v w

variable {P P' : Act → Prop} {u v w : Vfs φ μ} {a : Act}

theorem Reaches.refl : Reaches P v v := Relation.ReflTransGen.refl

theorem Reaches.trans (h : Reaches P u v) (k : Reaches P v w) : Reaches P u w := Relation.ReflTransGen.trans h k

theorem Reaches.single (ha : P a) (h : Step a v w) : Reaches P v w := Relation.ReflTransGen.single ⟨a, ha, h⟩

theorem Reaches.mono (h : Reaches P v w) (hP : ∀ a, P a → P' a) : Reaches P' v w := by
  induction h with
  | refl => exact .refl
  | tail _ hstep ih =>
    obtain ⟨a, ha, hs⟩ := hstep
    exact ih.trans (.single (hP a ha) hs)

theorem Reaches.of_only (h : Reaches (· = a) v w) (ha : P a) : Reaches P v w := h.mono fun _ hb => hb ▸ ha

/-- What every step keeps is kept along a chain. -/
theorem Reaches.keeps {I : Vfs φ μ → Prop} (h : Reaches P v w) (step : ∀ a u u', P a → Step a u u' → I u → I u')
    (hv : I v) : I w := by
  induction h with
  | refl => exact hv
  | tail _ hstep ih =>
    obtain ⟨a, ha, hs⟩ := hstep
    exact step a _ _ ha hs ih

/-! ### Waiting -/

omit [Backed φ] in
theorem perform_link (job : LinkJob) (s : World φ μ × Detached) :
    (perform (.link job) s).2.1.files = s.1.files ∧ (perform (.link job) s).2.2 = s.2 :=
  ⟨rfl, rfl⟩

/-- A queued write that is still meant. -/
theorem treeWp_writeNow (p : Path) (offset : Nat) (data : Bytes) (m : Memory) :
    treeWp (do
        FileStore.file p false
        let _ ← FileStore.writeAt p offset data : StoreM (Host × φ) Unit)
      (fun _ m' => ∃ d, m.node? p = some (.file d) ∧ d.locked = false ∧
        m' = m.revised p d (d.bytes.overwrite offset data) ∧ offset + data.length ≤ maxLength)
      (NoEffect φ m (m.isLocked p = true)) m := by
  refine treeWp_bind (((Backed.file p false).treeWp (wp_file_false p m)).mono ?_
    (fun _ _ he => he.mono False.elim))
  rintro - m ⟨rfl, -⟩
  refine treeWp_bind (((Backed.writeAt p offset data).treeWp (wp_writeAt p offset data m)).imp ?_)
  rintro n m' ⟨d, hd, hl, -, hm, hfits⟩
  exact treeWp_pure ⟨d, hd, hl, hm, hfits⟩

/-- A queued write leaves the queue. If it is still meant, it changes the bytes of its file or fails. -/
theorem perform_write (p : Path) (generation offset : Nat) (data : Bytes) (s : World φ μ × Detached) :
    (perform (.write p generation offset data) s).2.2 = s.2.finish p ∧
    (tree (perform (.write p generation offset data) s).2.1.files = tree s.1.files ∨
      ∃ d, (tree s.1.files).node? p = some (.file d) ∧ s.2.isCurrent p generation = true ∧
        tree (perform (.write p generation offset data) s).2.1.files =
          (tree s.1.files).revised p d (d.bytes.overwrite offset data) ∧
        offset + data.length ≤ maxLength) ∧
    ∀ e, (perform (.write p generation offset data) s).1 = .error e →
      BusyOnly φ ((tree s.1.files).isLocked p = true) e := by
  obtain ⟨world, detached⟩ := s
  unfold perform
  simp only
  split
  · rename_i hcurrent
    have hwrite := treeWp_writeNow p offset data _ world.host world.files rfl
    rw [wp_iff] at hwrite
    rcases hx : (do
        FileStore.file p false
        let _ ← FileStore.writeAt p offset data : StoreM (Host × φ) Unit) (world.host, world.files) with ⟨r, t⟩
    refine ⟨rfl, ?_⟩
    cases r with
    | ok a =>
      obtain ⟨-, d, hd, -, hm, hfits⟩ := hwrite.1 a t hx
      exact ⟨Or.inr ⟨d, hd, hcurrent, hm, hfits⟩, fun e he => nomatch he⟩
    | error e =>
      obtain ⟨-, hm, hb⟩ := hwrite.2 e t hx
      refine ⟨Or.inl hm, ?_⟩
      rintro e' ⟨⟩
      exact hb
  · exact ⟨rfl, Or.inl rfl, fun e he => nomatch he⟩

/-- The tree after a job: as before, or with other bytes in one file. -/
theorem memory_finished (v : Vfs φ μ) (j : Job Work) (rest : List (Job Work)) :
    (v.finished j rest).memory = v.memory ∨
      ∃ p d bytes, v.memory.node? p = some (.file d) ∧ (v.finished j rest).memory = v.memory.revised p d bytes ∧
        (d.bytes.length ≤ maxLength → bytes.length ≤ maxLength) := by
  unfold finished memory
  cases hj : j.work with
  | link job => exact Or.inl (congrArg tree (perform_link job (v.world, v.detached)).1)
  | write p generation offset data =>
    rcases (perform_write p generation offset data (v.world, v.detached)).2.1 with h | ⟨d, hd, -, h, hfits⟩
    · exact Or.inl h
    · exact Or.inr ⟨p, d, _, hd, h, length_overwrite_le hfits⟩

theorem outline?_finished (v : Vfs φ μ) (j : Job Work) (rest : List (Job Work)) (q : Path) :
    (v.finished j rest).memory.outline? q = v.memory.outline? q := by
  rcases memory_finished v j rest with h | ⟨p, d, bytes, hd, h, -⟩
  · rw [h]
  · rw [h, outline?_revised hd]

/-- What waiting leaves as it was. -/
structure Waited (v w : Vfs φ μ) : Prop where
  links : w.links = v.links
  handles : w.handles = v.handles
  resolver : w.resolver = v.resolver
  listings : w.listings = v.listings
  sizes : w.sizes = v.sizes
  coldPath : w.coldPath = v.coldPath
  /-- Jobs write to files and do nothing else to the tree. -/
  outline : ∀ p, w.memory.outline? p = v.memory.outline? p
  /-- No writes are queued. -/
  cold : ∀ p, v.detached.hasPending p = false → w.detached.hasPending p = false
  /-- Without jobs nothing happens. -/
  idle : v.background.queue = [] → w.background.queue = [] ∧ w.memory = v.memory ∧ w.world.map = v.world.map

omit [LinkMap μ] in
theorem Waited.refl (v : Vfs φ μ) : Waited v v where
  links := rfl
  handles := rfl
  resolver := rfl
  listings := rfl
  sizes := rfl
  coldPath := rfl
  outline _ := rfl
  cold _ h := h
  idle h := ⟨h, rfl, rfl⟩

omit [LinkMap μ] in
theorem Waited.trans (h : Waited u v) (k : Waited v w) : Waited u w where
  links := k.links.trans h.links
  handles := k.handles.trans h.handles
  resolver := k.resolver.trans h.resolver
  listings := k.listings.trans h.listings
  sizes := k.sizes.trans h.sizes
  coldPath := k.coldPath.trans h.coldPath
  outline p := (k.outline p).trans (h.outline p)
  cold p hp := k.cold p (h.cold p hp)
  idle hq := by
    obtain ⟨hv, hmemory, hmap⟩ := h.idle hq
    obtain ⟨hw, hmemory', hmap'⟩ := k.idle hv
    exact ⟨hw, hmemory'.trans hmemory, hmap'.trans hmap⟩

/-- No handle is kept at or below a path. -/
def ColdBelow (v : Vfs φ μ) (p : Path) : Prop := ∀ q, q.under p = true → v.handles.get? q = none

omit [LinkMap μ] in
theorem ColdBelow.waited {p : Path} (h : v.ColdBelow p) (k : Waited v w) : w.ColdBelow p :=
  fun q hq => by rw [k.handles, h q hq]

theorem Step.waited (h : Step .wait v w) : Waited v w := by
  cases h with
  | @job _ j rest hq =>
    refine ⟨rfl, rfl, rfl, rfl, rfl, rfl, outline?_finished v j rest, ?_, ?_⟩
    · intro p hp
      unfold finished
      cases j.work with
      | link job => exact hp
      | write q generation offset data =>
        rw [(perform_write q generation offset data (v.world, v.detached)).1]
        exact Detached.hasPending_finish hp
    · intro hnil
      rw [hnil] at hq
      cases hq
  | @pass _ f l htree =>
    refine ⟨rfl, rfl, rfl, rfl, rfl, rfl, ?_, fun _ hp => hp, fun hq => ⟨hq, htree, rfl⟩⟩
    intro p
    show (tree f).outline? p = _
    rw [htree]

theorem Reaches.waited (h : Reaches (· = .wait) v w) : Waited v w := by
  induction h with
  | refl => exact .refl v
  | tail _ hstep ih =>
    obtain ⟨a, rfl, hs⟩ := hstep
    exact ih.trans hs.waited

/-! ### Closed trees stay closed -/

/-- The tree behind a namespace stays closed whatever is done to the namespace. -/
theorem Step.closed (h : Step a v w) (hc : v.memory.Closed) : w.memory.Closed := by
  cases h with
  | job _ => exact hc.congr fun p => kind?_of_outline? (outline?_finished v _ _ p)
  | pass htree => exact hc.congr fun p => congrArg (kind? · p) htree
  | note => exact hc
  | @lock _ p f hd d _ _ hfile _ _ htree =>
    refine hc.congr fun q => ?_
    show (tree f).kind? q = _
    rw [htree, kind?_put_file hfile]
  | @unlock _ p f hd _ htree =>
    refine hc.congr fun q => ?_
    show (tree f).kind? q = _
    rw [htree, kind?_release]
  | stale | queue => exact hc
  | @edit _ p f d bytes hfile htree _ =>
    refine hc.congr fun q => ?_
    show (tree f).kind? q = _
    rw [htree, kind?_of_outline? (outline?_revised hfile bytes q)]
  | make _ hgrown => exact hgrown.closed
  | link | unlink | relink => exact hc
  | @dropFile _ p f d _ hroot _ htree =>
    show (tree f).Closed
    rw [htree]
    exact hc.prune hroot
  | @dropTree _ p f hroot _ htree =>
    show (tree f).Closed
    rw [htree]
    exact hc.prune hroot
  | copy _ _ _ htree | moveFile _ _ htree | moveTree _ htree => exact htree.closed

theorem Reaches.closed (h : Reaches P v w) (hc : v.memory.Closed) : w.memory.Closed :=
  h.keeps (fun _ _ _ _ hs => hs.closed) hc

/-! ### Short files stay short -/

/-- No file behind a namespace becomes longer than the store keeps. -/
theorem Step.short (h : Step a v w) (hs : v.memory.Short) : w.memory.Short := by
  cases h with
  | @job _ j rest _ =>
    rcases memory_finished v j rest with h | ⟨p, d, bytes, hd, h, hbytes⟩
    · rw [h]
      exact hs
    · rw [h]
      exact hs.revised (hbytes (hs.bytes hd))
  | @pass _ f l htree =>
    show (tree f).Short
    rw [htree]
    exact hs
  | note => exact hs
  | @lock _ p f k d _ _ hfile _ _ htree =>
    have hd := hs.bytes hfile
    show (tree f).Short
    rw [htree]
    exact hs.put hd
  | @unlock _ p f k _ htree =>
    show (tree f).Short
    rw [htree]
    exact hs.release _
  | stale | queue => exact hs
  | @edit _ p f d bytes hfile htree hbytes =>
    show (tree f).Short
    rw [htree]
    exact hs.revised (hbytes (hs.bytes hfile))
  | make _ hgrown => exact hgrown.short hs
  | link | unlink | relink => exact hs
  | @dropFile _ p f d _ _ _ htree =>
    show (tree f).Short
    rw [htree]
    exact hs.prune p
  | @dropTree _ p f _ _ htree =>
    show (tree f).Short
    rw [htree]
    exact hs.prune p
  | copy _ _ _ htree | moveFile _ _ htree | moveTree _ htree => exact htree.short hs

theorem Reaches.short (h : Reaches P v w) (hs : v.memory.Short) : w.memory.Short :=
  h.keeps (fun _ _ _ _ hstep => hstep.short) hs

end Vfs

end Filespace
