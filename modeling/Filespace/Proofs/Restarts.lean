import Filespace.Proofs.LinkRecords
import Filespace.Proofs.FailedCalls
import Filespace.Proofs.RememberedListings

/-!
# Restarts

A namespace holds its links in memory and writes them to a map later. What is written and what waits to be written always
add up to the links (`Mirrors`): every step that changes links queues the jobs for it, and no step does anything else to
the map than the job it takes off the queue. So when the queue is empty, the map holds the links, and a namespace that is
started there is the same.
-/

namespace Filespace

open Storage Memory Session

/-- The change of the link records that a piece of work is. -/
def Work.linkJob? : Work → Option LinkJob
  | link job => some job
  | write _ _ _ _ => none

namespace Vfs

variable {μ : Type} {u v w : Vfs Memory μ} {s : Session Memory μ} {a : Act} {r : LinkRecords}
  {s₀ : Host × μ} {j : Job Work}

/-! ### Jobs for the map -/

/-- The changes of the link records that wait in the queue. -/
def linkJobs (v : Vfs Memory μ) : List LinkJob := v.works.filterMap Work.linkJob?

theorem linkJobs_relinked (v : Vfs Memory μ) (l : Links) (jobs : List LinkJob) :
    (v.relinked l jobs).linkJobs = v.linkJobs ++ jobs := by
  have hjobs : (jobs.map Work.link).filterMap Work.linkJob? = jobs := by
    rw [List.filterMap_map]
    exact List.filterMap_some
  unfold linkJobs
  rw [works_relinked, List.filterMap_append, hjobs]

theorem linkJobs_queued (v : Vfs Memory μ) (p : Path) (offset : Nat) (data : Bytes) :
    (v.queued p offset data).linkJobs = v.linkJobs := by
  unfold linkJobs
  rw [works_queued, List.filterMap_append]
  exact List.append_nil _

theorem linkJobs_of_idle (h : v.background.queue = []) : v.linkJobs = [] := by
  unfold linkJobs works
  rw [h]
  rfl

variable [LinkMap μ]

/-- The changes that wait can be written. -/
def Writable (v : Vfs Memory μ) : Prop := ∃ s, v.linkJobs.forM LinkJob.run (v.world.host, v.world.map) = (.ok ⟨⟩, s)

/-- From the state `s₀` of the map, which had the records `r`, changes have been written to it. With those that wait they
lead to the links. -/
def Mirrors (s₀ : Host × μ) (r : LinkRecords) (v : Vfs Memory μ) : Prop :=
  ∃ written, written.forM LinkJob.run s₀ = (.ok ⟨⟩, (v.world.host, v.world.map)) ∧
    v.links.Recorded (LinkJob.replay (written ++ v.linkJobs) r)

/-- Steps that can change links. -/
def Act.Relinks : Act → Prop
  | .link _ | .unlink _ | .relink _ _ | .drop _ | .move _ _ => True
  | _ => False

section Steps

variable {s₀ : Host × μ} {r : LinkRecords}

/-- A write to a file leaves the map alone. -/
theorem perform_write_world (p : Path) (generation offset : Nat) (data : Bytes) (x : World Memory μ × Detached) :
    (perform (.write p generation offset data) x).2.1.host = x.1.host ∧
      (perform (.write p generation offset data) x).2.1.map = x.1.map := by
  obtain ⟨world, detached⟩ := x
  unfold perform
  simp only
  split
  · have hwrite := treeWp_writeNow p offset data _ world.host world.files rfl
    exact ⟨(hwrite.mono (fun _ _ h => h.1) fun _ _ h => h.1).state, rfl⟩
  · exact ⟨rfl, rfl⟩

theorem Mirrors.relinked (hv : v.Mirrors s₀ r) {l : Links} {jobs : List LinkJob}
    (h : ∀ r, v.links.Recorded r → l.Recorded (LinkJob.replay jobs r)) : (v.relinked l jobs).Mirrors s₀ r := by
  obtain ⟨written, hwritten, hlinks⟩ := hv
  refine ⟨written, hwritten, ?_⟩
  rw [linkJobs_relinked, ← List.append_assoc, LinkJob.replay_append]
  exact h _ hlinks

theorem Mirrors.congr (hv : v.Mirrors s₀ r) (hhost : w.world.host = v.world.host)
    (hmap : w.world.map = v.world.map) (hlinks : w.links = v.links) (hjobs : w.linkJobs = v.linkJobs) :
    w.Mirrors s₀ r := by
  unfold Mirrors
  rw [hhost, hmap, hlinks, hjobs]
  exact hv

theorem Writable.congr (hv : v.Writable) (hhost : w.world.host = v.world.host)
    (hmap : w.world.map = v.world.map) (hjobs : w.linkJobs = v.linkJobs) : w.Writable := by
  unfold Writable
  rw [hhost, hmap, hjobs]
  exact hv

theorem linkJobs_of_queue {rest : List (Job Work)} (hq : v.background.queue = j :: rest) :
    v.linkJobs = j.work.linkJob?.toList ++ (v.finished j rest).linkJobs := by
  unfold linkJobs works
  rw [hq, List.map_cons, List.filterMap_cons]
  cases j.work.linkJob? <;> rfl

/-- The job of a write to a file is no change of the map. -/
theorem world_finished_write {q : Path} {generation offset : Nat} {data : Bytes}
    (hwork : j.work = .write q generation offset data) (v : Vfs Memory μ) (rest : List (Job Work)) :
    (v.finished j rest).world.host = v.world.host ∧ (v.finished j rest).world.map = v.world.map := by
  unfold finished
  rw [hwork]
  exact perform_write_world q generation offset data (v.world, v.detached)

/-- A job that can be written is written. -/
theorem Mirrors.finished (hv : v.Mirrors s₀ r) (hw : v.Writable) {rest : List (Job Work)}
    (hq : v.background.queue = j :: rest) : (v.finished j rest).Mirrors s₀ r ∧ (v.finished j rest).Writable := by
  have hqueue := linkJobs_of_queue hq
  cases hwork : j.work with
  | write q generation offset data =>
    obtain ⟨hhost, hmap⟩ := world_finished_write hwork v rest
    rw [hwork] at hqueue
    exact ⟨hv.congr hhost hmap rfl hqueue.symm, hw.congr hhost hmap hqueue.symm⟩
  | link job =>
    have hjobs : v.linkJobs = job :: (v.finished j rest).linkJobs := by
      rw [hqueue, hwork]
      rfl
    obtain ⟨t, ht⟩ := hw
    rw [hjobs] at ht
    obtain ⟨t', hjob, hrest⟩ := LinkJob.forM_cons_run.1 ht
    have hbehind : ((v.finished j rest).world.host, (v.finished j rest).world.map) = t' := by
      unfold Vfs.finished perform
      rw [hwork]
      simp only
      rw [hjob]
    rw [← hbehind] at hjob hrest
    -- The job goes from what waits to what is written; their sum stays the same.
    obtain ⟨written, hwritten, hlinks⟩ := hv
    refine ⟨⟨written ++ [job], ?_, ?_⟩, t, hrest⟩
    · exact LinkJob.forM_append_run.2 ⟨_, hwritten, LinkJob.forM_cons_run.2 ⟨_, hjob, rfl⟩⟩
    · rw [hjobs] at hlinks
      rw [List.append_assoc]
      exact hlinks

/-- Steps that do not change links leave what can be written. -/
theorem Step.writable (h : Step a v w) (ha : ¬ a.Relinks) (hm : v.Mirrors s₀ r) (hv : v.Writable) : w.Writable := by
  cases h with
  | job hq => exact (hm.finished hv hq).2
  | queue => exact hv.congr rfl rfl (linkJobs_queued v _ _ _)
  | link | unlink | relink | dropFile | dropTree | moveFile | moveTree => exact absurd trivial ha
  | _ => exact hv

omit [LinkMap μ] in
theorem HasParent.ne_root {m : Memory} {p : Path} (h : HasParent m p) : p ≠ .root := by
  rintro rfl
  obtain ⟨dir, hdir, -⟩ := h
  cases hdir

/-- What is written and what waits add up to the links after every step. -/
theorem Step.mirrors (h : Step a v w) (hv : v.Mirrors s₀ r) (hw : a = .wait → v.Writable) : w.Mirrors s₀ r := by
  cases h with
  | job hq => exact (hv.finished (hw rfl) hq).1
  | queue => exact hv.congr rfl rfl rfl (linkJobs_queued v _ _ _)
  | link _ hparent => exact hv.relinked fun _ h => h.insert hparent.ne_root _
  | unlink => exact hv.relinked fun _ h => h.remove _
  | relink _ _ hparent => exact hv.relinked fun _ h => h.rename hparent.ne_root _
  | @dropTree _ p f => exact Mirrors.relinked hv fun _ h => h.removeUnder p
  | @moveTree _ source target f sizes _ htree =>
    have htarget : target ≠ .root := by
      rintro rfl
      exact absurd htree.beside.1 (by simp)
    exact Mirrors.relinked hv fun _ h => h.renameUnder htarget source
  | _ => exact hv

theorem Reaches.mirrors {P : Act → Prop} (h : Reaches P v w) (hP : ∀ a, P a → ¬ a.Relinks)
    (hv : v.Mirrors s₀ r ∧ v.Writable) : w.Mirrors s₀ r ∧ w.Writable :=
  h.keeps (I := fun x => x.Mirrors s₀ r ∧ x.Writable)
    (fun a _ _ ha hs hx => ⟨hs.mirrors hx.1 fun _ => hx.2, hs.writable (hP a ha) hx.1 hx.2⟩) hv

/-- Links change at most once in an operation, and after that only caches do. So what is queued for the map is still in the
queue when the operation ends. -/
theorem Operation.mirrors (op : Operation) (hs : s.space.Healthy) (hv : s.space.Mirrors s₀ r ∧ s.space.Writable) :
    (op.run s).2.space.Mirrors s₀ r := by
  rcases hrun : op.run s with ⟨e | x, t⟩
  · have htries := ((op.ended hs).error hrun).1
    refine (htries.mirrors (fun a ha => ?_) hv).1
    cases ha <;> exact id
  · rcases (op.ended hs).ok hrun with hprep | ⟨y, z, hy, ⟨a, ha, hstep⟩, hz⟩
    · refine (hprep.mirrors (fun a ha => ?_) hv).1
      cases ha <;> exact id
    · have hmid := hy.mirrors (fun a ha => by cases ha <;> exact id) hv
      have hdone : z.Mirrors s₀ r := hstep.mirrors hmid.1 fun _ => hmid.2
      refine hz.keeps (fun b _ _ hb hs hx => ?_) hdone
      exact hs.mirrors hx fun hwait => by rw [hb] at hwait; cases hwait

end Steps

/-! ### Runs -/

/-- No change of the links fails to be written in a run. A change is queued by the last step of an operation, so each is
seen to wait between two events. -/
def Session.AllWritten : Session Memory μ → List Event → Prop
  | s, [] => s.space.Writable
  | s, e :: run => s.space.Writable ∧ AllWritten (e.happen s) run

/-- A map in memory goes on refusing changes, or goes on taking them. -/
theorem Step.map_failing {v w : Vfs Memory Records} (h : Step a v w) : w.world.map.failing = v.world.map.failing := by
  cases h with
  | @job _ j rest _ =>
    unfold finished
    cases j.work with
    | write q generation offset data =>
      exact congrArg Records.failing (perform_write_world q generation offset data (v.world, v.detached)).2
    | link job =>
      show (job.run (v.world.host, v.world.map)).2.2.failing = _
      rw [Records.job_run]
      split
      · rfl
      · rfl
  | _ => rfl

/-- In memory all is written, unless changes are refused. -/
theorem Session.allWritten_of_records {s : Session Memory Records} (hs : s.space.Healthy)
    (hmap : s.space.world.map.failing = false) (run : List Event) : s.AllWritten run := by
  have hwritable : s.space.Writable := Records.forM_run s.space.world.host hmap s.space.linkJobs
  induction run generalizing s with
  | nil => exact hwritable
  | cons e run ih =>
    have hnext : (e.happen s).space.world.map.failing = false :=
      (reaches_after [e] hs.closed).keeps (fun _ _ _ _ hstep hx => hstep.map_failing.trans hx) hmap
    exact ⟨hwritable, ih (healthy_after [e] hs) hnext (Records.forM_run _ hnext _)⟩

theorem Session.mirrors_after {run : List Event} (hs : s.space.Healthy)
    (hv : s.space.Mirrors s₀ r) (hrun : s.AllWritten run) :
    (s.after run).space.Mirrors s₀ r ∧ (s.after run).space.Writable := by
  induction run generalizing s with
  | nil => exact ⟨hv, hrun⟩
  | cons e run ih =>
    have hnext := healthy_after [e] hs
    refine ih hnext ?_ hrun.2
    cases e with
    | use op => exact op.mirrors hs ⟨hv, hrun.1⟩
    | work n => exact ((reaches_runJobs n s.space).mirrors (fun a ha => by rw [ha]; exact id) ⟨hv, hrun.1⟩).1
    | pace l => exact hv

/-! ### Stopping and starting -/

/-- The steps in which a namespace stops. -/
def Stopping : Act → Prop
  | .wait | .unlock _ => True
  | _ => False

theorem Stopping.quiet (h : Stopping a) (S : Path → Prop) : Quiet S a := by
  cases a with
  | wait | unlock => trivial
  | _ => exact h.elim

theorem Stopping.not_relinks (h : Stopping a) : ¬ a.Relinks := by
  cases a with
  | wait | unlock => exact id
  | _ => exact h.elim

/-- A namespace stops by closing its handles and waiting. -/
theorem reaches_stop (v : Vfs Memory μ) : ∃ w, Reaches Stopping v w ∧ w.world = v.stop ∧ w.handles = ∅ := by
  obtain ⟨f, handles, hfold, hget, hreach⟩ := reaches_closed (v := v) (P := Stopping) (fun q => trivial) (fun q k hq => Table.get?_eq_some_iff.2 hq) (Table.nodup_keys _)
  obtain rfl : handles = ∅ := by
    refine Table.ext_get? fun q => ?_
    cases hq : handles.get? q with
    | none => rfl
    | some k =>
      obtain ⟨hk, hnot⟩ := (hget q k).1 hq
      exact absurd (Table.get?_eq_some_iff.1 hk) hnot
  have hrelease : v.handles.rows.foldl (fun s x => FileStore.release x.2 s) (v.world.host, v.world.files) =
      (v.world.host, f) := hfold
  have hstop : v.stop = (drain { v.withFiles f with handles := ∅ }).world := by
    unfold stop
    rw [hrelease]
    rfl
  have hdrain : Reaches (· = .wait) { v.withFiles f with handles := ∅ } (drain { v.withFiles f with handles := ∅ }) :=
    reaches_runJobs _ _
  have hwait : Reaches Stopping { v.withFiles f with handles := ∅ } (drain { v.withFiles f with handles := ∅ }) :=
    hdrain.of_only trivial
  exact ⟨_, hreach.trans hwait, hstop.symm, hdrain.waited.handles⟩

/-- Stopping leaves all files as they are, and none of them locked. -/
theorem Healthy.files_stop (hu : u.Healthy) (hidle : u.background.queue = []) :
    u.stop.files.Closed ∧ u.stop.files.Short ∧ (∀ p, u.stop.files.isLocked p = false) ∧
      ∀ p, u.stop.files.atRest? p = u.memory.atRest? p := by
  obtain ⟨x, hstop, hworld, hhandles⟩ := reaches_stop u
  have hx : x.Healthy := hstop.healthy hu
  have hkept : Kept (fun _ => True) u x := (hstop.mono fun a ha => ha.quiet _).kept
  rw [← hworld]
  refine ⟨hx.closed, hx.short, fun p => hx.sound.handles.unlocked ?_, fun p => (hkept.idle hidle).2.2 p trivial⟩
  rw [hhandles]
  exact Table.get?_empty p

/-- When nothing waits, the links are on the map, and stopping leaves them there. -/
theorem Mirrors.load_stop (hu : u.Mirrors s₀ r) (hidle : u.background.queue = []) (hkeeps : LinkMap.Keeps s₀ r) :
    ∃ r' t, LinkMap.load (u.stop.host, u.stop.map) = (.ok r', t) ∧ Links.ofRecords r' = u.links := by
  obtain ⟨x, hstop, hworld, -⟩ := reaches_stop u
  have hkept : Kept (fun _ => True) u x := (hstop.mono fun a ha => ha.quiet _).kept
  have hwritable : u.Writable := ⟨_, by rw [linkJobs_of_idle hidle]; rfl⟩
  obtain ⟨written, hwrites, hlinks⟩ := (hstop.mirrors (fun a ha => ha.not_relinks) ⟨hu, hwritable⟩).1
  rw [linkJobs_of_idle (hkept.idle hidle).1, List.append_nil, hkept.links] at hlinks
  have hloaded := hkeeps written _ hwrites
  rw [hworld] at hloaded
  exact ⟨_, _, Prod.ext hloaded rfl, hlinks.ofRecords_eq⟩

/-- A namespace that was just started has nothing to write. -/
theorem mirrors_of_start {o : Options} {w w' : World Memory μ}
    (hload : LinkMap.load (w.host, w.map) = (.ok r, s₀)) (hpaths : r.OfPaths) (hstart : start o w = (.ok v, w'))
    (hclosed : w.files.Closed) : v.Mirrors s₀ r := by
  have hrecorded := Links.recorded_ofRecords hpaths
  unfold start at hstart
  rw [hload] at hstart
  rcases enter_cases hstart rfl rfl hclosed with rfl | ⟨p, f, rfl, -⟩
  · exact ⟨[], rfl, hrecorded⟩
  · exact ⟨[], rfl, hrecorded⟩

/-- A namespace is started at the root if its links can be loaded. -/
theorem start_root {o : Options} {w : World Memory μ} {t : Host × μ}
    (hload : LinkMap.load (w.host, w.map) = (.ok r, t)) (hroot : Path.parse o.workingDirectory = .ok .root) :
    ∃ v w', start o w = (.ok v, w') ∧ v.links = .ofRecords r ∧ v.world.files = w.files ∧ v.background.queue = [] ∧
      v.listings.known = ∅ := by
  have hstart : start o w =
      (.ok (fresh o (.ofRecords r) { w with host := t.1, map := t.2 }), { w with host := t.1, map := t.2 }) := by
    unfold start enter
    rw [hload]
    simp only [hroot]
    rfl
  exact ⟨_, _, hstart, rfl, rfl, rfl, rfl⟩

/-- The map is not seen in listings of a store in memory. -/
theorem outline_hides : outline.Hides μ where
  load _ _ _ hfit := ⟨hfit, rfl⟩
  job _ _ _ _ hfit := ⟨hfit, rfl⟩

/-- What is remembered of directories is right after a run. -/
theorem Session.fresh_after (run : List Event) (hs : Fresh outline s.space) :
    Fresh outline (s.after run).space := by
  have hO := outline_lawful
  have hμ : outline.Hides μ := outline_hides
  induction run generalizing s with
  | nil => exact hs
  | cons e run ih =>
    refine ih ?_
    cases e with
    | use op => exact op.fresh_run hO hμ hs fun _ _ _ hlate => hlate.elim fun _ h => h.2
    | work n => exact hs.upToDate hO hμ (looked_runJobs hO hμ n s.space).upToDate
    | pace l => exact hs.upToDate hO hμ (Looked.of_eq rfl rfl rfl).upToDate

/-- A directory is listed alike by a namespace that remembers it, rightly, and by one that remembers nothing. -/
theorem Fresh.list_eq (hv : Fresh outline v) (hw : w.memory.Closed) (hnone : w.listings.known = ∅)
    (hlinks : w.links = v.links) (hkind : ∀ p, w.memory.kind? p = v.memory.kind? p) (dir : Path) :
    (Vfs.list dir w).1 = (Vfs.list dir v).1 := by
  have hshape : outline.shape w.behind = outline.shape v.behind := shape_outline hkind
  have hunknown : w.listings.get? dir = none := by
    unfold Listings.get?
    rw [hnone]
    exact Table.get?_empty dir
  cases hdir : v.listings.get? dir with
  | none => exact list_congr outline_lawful outline_hides hv.fit hw hshape hlinks hdir hunknown
  | some l =>
    rw [list_known hdir, ← hv.coherent dir l hdir]
    exact list_congr outline_lawful outline_hides hv.fit hw hshape
      hlinks rfl hunknown

/-- A restart loses nothing. A namespace is started on a store and a map whose records are of paths, and it is put to any
use in which no change of its links fails to be written. When all work is done and it is stopped, no file is locked; and
what is then started at the root has the same entry at each path, the same bytes in each file, and the same listing of each
directory. The links that it loads are those that the first one had. -/
theorem restart_loses_nothing {μ : Type} [LinkMap μ] {o o' : Options} {w w' : World Memory μ} {v : Vfs Memory μ}
    {r : LinkRecords} {s₀ : Host × μ} (hload : LinkMap.load (w.host, w.map) = (.ok r, s₀)) (hpaths : r.OfPaths)
    (hkeeps : LinkMap.Keeps s₀ r) (hstart : start o w = (.ok v, w')) (hstore : w.files.Reachable)
    (hfree : ∀ p, w.files.isLocked p = false) (descriptors : Table String Descriptor) (run : List Event)
    (hwritten : Session.AllWritten ⟨v, descriptors⟩ run) (hroot : Path.parse o'.workingDirectory = .ok .root) :
    let u := (Session.after ⟨v, descriptors⟩ run).space.drain
    (∀ p, u.stop.files.isLocked p = false) ∧
    (∃ r', (LinkMap.load (u.stop.host, u.stop.map)).1 = .ok r' ∧ Links.ofRecords r' = u.links) ∧
    ∃ v' w'', start o' u.stop = (.ok v', w'') ∧ v'.links = u.links ∧
      (∀ p, (lookup p v').1 = (lookup p u).1) ∧
      (∀ p, v'.world.files.content? p = u.world.files.content? p) ∧
      ∀ dir, (list dir v').1 = (list dir u).1 := by
  intro u
  have hv : v.Healthy := healthy_of_start hstart hstore hfree
  have hafter : (Session.after ⟨v, descriptors⟩ run).space.Healthy := Session.healthy_after run hv
  have hdrain := reaches_runJobs (Session.after ⟨v, descriptors⟩ run).space.background.pending
    (Session.after ⟨v, descriptors⟩ run).space
  have hu : u.Healthy := hdrain.healthy hafter
  have hidle : u.background.queue = [] := queue_drain _
  have hmirrors : u.Mirrors s₀ r ∧ u.Writable := by
    refine hdrain.mirrors (fun a ha => by rw [ha]; exact id) ?_
    exact Session.mirrors_after hv (mirrors_of_start hload hpaths hstart hstore.closed) hwritten
  have hfresh : Fresh outline u := by
    have hO := outline_lawful
    have hμ : outline.Hides μ := outline_hides
    have hrun : Fresh outline (Session.after ⟨v, descriptors⟩ run).space :=
      Session.fresh_after run (fresh_of_start hO hμ hstore.closed hstart)
    exact hrun.upToDate hO hμ (looked_runJobs hO hμ _ _).upToDate
  obtain ⟨hclosed, hshort, hunlocked, hrest⟩ := hu.files_stop hidle
  obtain ⟨r', t, hload', hlinks⟩ := hmirrors.1.load_stop hidle hkeeps
  refine ⟨hunlocked, ⟨r', congrArg Prod.fst hload', hlinks⟩, ?_⟩
  -- The new namespace is healthy and idle, so it shows what is there.
  obtain ⟨v', w'', hstart', hlinks', hfiles', hidle', hlistings'⟩ := start_root hload' hroot
  obtain ⟨hclosed', hsound'⟩ := sound_of_start hstart' hclosed hunlocked
  rw [hlinks] at hlinks'
  rw [← hfiles'] at hshort hrest
  have hv' : v'.Healthy := ⟨hclosed', hshort, hsound'⟩
  have hcontent : ∀ p, v'.world.files.content? p = u.world.files.content? p :=
    fun p => content?_of_atRest? (hrest p)
  refine ⟨v', w'', hstart', hlinks', fun p => ?_, hcontent, fun dir => ?_⟩
  · rw [hv'.lookup_idle hidle', hu.lookup_idle hidle]
    exact congrArg Except.ok (entryAt_congr (congrArg (Links.get? · p) hlinks') (hrest p))
  · exact hfresh.list_eq hclosed' hlistings' hlinks' (fun p => kind?_of_content? (hcontent p)) dir

/-- A link is made in a directory, the directory is moved, and the old path of the link is used again. -/
def aMovedLink : List Event :=
  [.use (.createDirectoryAt none "d"), .use (.symlinkAt none "f" "d/l"), .use (.renameAt none "d" none "e"),
    .use (.symlinkAt none "g" "d")]

/-- After a restart both links are there. -/
theorem restart_loses_nothing_inMemory :
    let u := (Session.after ⟨inMemory, ∅⟩ aMovedLink).space.drain
    ∃ v w, start {} u.stop = (.ok v, w) ∧
      (lookup ⟨[⟨"e", by decide⟩, ⟨"l", by decide⟩]⟩ v).1 = .ok (some (.link "f")) ∧
      (lookup ⟨[⟨"d", by decide⟩]⟩ v).1 = .ok (some (.link "g")) := by
  obtain ⟨hstart, hstore, hfree⟩ := inMemory_started
  have hpaths : LinkRecords.OfPaths ∅ := fun key target h => by cases h
  have hroot : Path.parse ({} : Options).workingDirectory = .ok .root := rfl
  have hwritten : Session.AllWritten ⟨inMemory, ∅⟩ aMovedLink :=
    Session.allWritten_of_records (healthy_of_start hstart hstore hfree) rfl aMovedLink
  obtain ⟨-, -, v, w, hrestart, -, hlookup, -⟩ := restart_loses_nothing rfl hpaths (Records.keeps {} {}) hstart hstore
    hfree ∅ aMovedLink hwritten hroot
  refine ⟨v, w, hrestart, ?_, ?_⟩
  · rw [hlookup]
    decide +kernel
  · rw [hlookup]
    decide +kernel

end Vfs

end Filespace
