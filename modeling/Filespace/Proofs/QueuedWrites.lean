import Filespace.Proofs.RemovedPaths

/-!
# Queued writes are done once

A write that nobody waits for is done at once or queued. Here the bytes of one file are followed along a run: they are
what they were at the start, with the writes of operations and those of jobs applied in some order (`Tracked`). In it the
writes of operations are in the order of the run, and those of jobs are in the order in which they were queued; none is
left out but those that wait still.
-/

namespace Filespace

open Storage Memory Session

/-! ### Writes that wait -/

/-- What a piece of work does to the file at a path. It does nothing if it is not meant any more or ends beyond the
longest file. -/
def Work.patch? (p : Path) (d : Detached) : Work → Option Vfs.Patch
  | link _ => none
  | write q generation offset data =>
    if q = p ∧ d.isCurrent p generation = true ∧ offset + data.length ≤ maxLength then some ⟨false, offset, data⟩
    else none

theorem Work.patch?_congr {p : Path} {d d' : Detached} (h : d'.paths.get? p = d.paths.get? p) (w : Work) :
    w.patch? p d' = w.patch? p d := by
  unfold Work.patch? Detached.isCurrent
  rw [h]

theorem Work.patch?_eq_none {p : Path} {w : Work} (h : w.writesTo p = false) (d : Detached) : w.patch? p d = none := by
  cases w with
  | link job => rfl
  | write q generation offset data => exact if_neg fun hq => of_decide_eq_false h hq.1

namespace Detached

variable {d : Detached} {p : Path}

/-- A write that leaves the queue leaves the others meant. -/
theorem isCurrent_finish (h : 1 < d.pending p) (generation : Nat) :
    (d.finish p).isCurrent p generation = d.isCurrent p generation := by
  unfold isCurrent
  unfold pending at h
  rw [get?_finish, if_pos rfl]
  cases hp : d.paths.get? p with
  | none => rfl
  | some x =>
    have hmore : 1 < x.pending := by rwa [hp] at h
    rw [Option.bind_some, if_neg (Nat.not_le.2 hmore)]

theorem isCurrent_enter (h : d.hasPending p = true) (generation : Nat) :
    (d.enter p).2.isCurrent p generation = d.isCurrent p generation := by
  obtain ⟨x, hx⟩ := Table.contains_eq_true_iff.1 h
  unfold isCurrent
  rw [get?_enter, if_pos rfl]
  unfold enter
  rw [hx]
  rfl

/-- A write is meant when it is queued. -/
theorem isCurrent_enter_self (d : Detached) (p : Path) : (d.enter p).2.isCurrent p (d.enter p).1 = true := by
  unfold isCurrent
  rw [get?_enter, if_pos rfl]
  exact decide_eq_true rfl

end Detached

namespace Vfs

variable {μ : Type} {u v w : Vfs Memory μ} {s t : Session Memory μ} {p : Path} {a : Act}
  {rest : List (Job Work)} {data : Bytes} {j : Job Work} {offset : Nat} {l : List Applied} {fd : String}

/-- The writes to a file that wait in the queue. -/
def waiting (v : Vfs Memory μ) (p : Path) : List Patch := v.works.filterMap (Work.patch? p v.detached)

theorem waiting_congr (hworks : w.works = v.works) (hd : w.detached.paths.get? p = v.detached.paths.get? p) :
    w.waiting p = v.waiting p := by
  unfold waiting
  rw [hworks, funext (Work.patch?_congr hd)]

/-- When the queue is empty, nothing waits. -/
theorem waiting_of_idle (h : v.background.queue = []) : v.waiting p = [] := by
  unfold waiting works
  rw [h]
  rfl

/-- Changes of the link records are no writes. -/
theorem waiting_relinked (v : Vfs Memory μ) (l : Links) (jobs : List LinkJob) (p : Path) :
    (v.relinked l jobs).waiting p = v.waiting p := by
  have hjobs : (jobs.map Work.link).filterMap (Work.patch? p v.detached) = [] := by
    rw [List.filterMap_eq_nil_iff]
    intro x hx
    obtain ⟨job, -, rfl⟩ := List.mem_map.1 hx
    rfl
  unfold waiting
  rw [works_relinked, List.filterMap_append]
  exact (congrArg (_ ++ ·) hjobs).trans (List.append_nil _)

/-! ### Writes that were done -/

/-- A write that was done, by an operation itself or by a job. -/
structure Applied where
  byJob : Bool
  patch : Patch
  deriving DecidableEq

namespace Applied

/-- The bytes after some writes. -/
def all (l : List Applied) (b : Bytes) : Bytes := l.foldl (fun b x => x.patch.apply b) b

/-- The writes of jobs. -/
def byJobs (l : List Applied) : List Patch := (l.filter fun x => x.byJob).map patch

/-- The writes of operations. -/
def byOperations (l : List Applied) : List Patch := (l.filter fun x => !x.byJob).map patch

@[simp] theorem all_append (l l' : List Applied) (b : Bytes) : all (l ++ l') b = all l' (all l b) := by
  unfold all
  rw [List.foldl_append]

@[simp] theorem byJobs_append (l l' : List Applied) : byJobs (l ++ l') = byJobs l ++ byJobs l' := by
  simp [byJobs]

@[simp] theorem byOperations_append (l l' : List Applied) :
    byOperations (l ++ l') = byOperations l ++ byOperations l' := by
  simp [byOperations]

/-- Where no job has written, the operations have. -/
theorem all_of_byJobs_eq_nil (h : byJobs l = []) (b : Bytes) :
    all l b = (byOperations l).foldl (fun b x => x.apply b) b := by
  induction l generalizing b with
  | nil => rfl
  | cons x l ih =>
    obtain ⟨byJob, patch⟩ := x
    cases byJob with
    | true => cases h
    | false => exact ih h _

/-- Where no operation has written, the jobs have. -/
theorem all_of_byOperations_eq_nil (h : byOperations l = []) (b : Bytes) :
    all l b = (byJobs l).foldl (fun b x => x.apply b) b := by
  induction l generalizing b with
  | nil => rfl
  | cons x l ih =>
    obtain ⟨byJob, patch⟩ := x
    cases byJob with
    | true => exact ih h _
    | false => cases h

/-- A write of a job can be found among all that were done. -/
theorem exists_split {xs ys : List Patch} {x : Patch} (h : byJobs l = xs ++ x :: ys) :
    ∃ l₁ l₂, l = l₁ ++ ⟨true, x⟩ :: l₂ ∧ byJobs l₁ = xs ∧ byJobs l₂ = ys := by
  induction l generalizing xs with
  | nil => exact absurd h (by simp [byJobs])
  | cons y l ih =>
    obtain ⟨byJob, patch⟩ := y
    cases byJob with
    | false =>
      obtain ⟨l₁, l₂, rfl, h₁, h₂⟩ := ih (show byJobs l = xs ++ x :: ys from h)
      exact ⟨⟨false, patch⟩ :: l₁, l₂, rfl, h₁, h₂⟩
    | true =>
      cases xs with
      | nil =>
        obtain ⟨rfl, h₂⟩ := List.cons.inj h
        exact ⟨[], l, rfl, rfl, h₂⟩
      | cons z zs =>
        obtain ⟨rfl, hrest⟩ := List.cons.inj h
        obtain ⟨l₁, l₂, rfl, h₁, h₂⟩ := ih hrest
        exact ⟨⟨true, patch⟩ :: l₁, l₂, rfl, congrArg (patch :: ·) h₁, h₂⟩

end Applied

/-! ### The bytes of a file -/

/-- The bytes of a file are followed from one state to another: `own` are the writes of operations in between and
`queued` those that were queued. -/
def Tracked (p : Path) (own queued : List Patch) (v w : Vfs Memory μ) : Prop :=
  ∃ b l, v.memory.content? p = some (.file b) ∧ w.memory.content? p = some (.file (Applied.all l b)) ∧
    Applied.byOperations l = own ∧ v.waiting p ++ queued = Applied.byJobs l ++ w.waiting p

section Tracked

variable {own own' queued queued' : List Patch}

theorem Tracked.trans (h : Tracked p own queued u v) (k : Tracked p own' queued' v w) :
    Tracked p (own ++ own') (queued ++ queued') u w := by
  obtain ⟨b, l, hb, hl, rfl, hqueue⟩ := h
  obtain ⟨b', l', hb', hl', rfl, hqueue'⟩ := k
  rw [hl] at hb'
  cases hb'
  refine ⟨b, l ++ l', hb, ?_, Applied.byOperations_append l l', ?_⟩
  · rw [Applied.all_append]
    exact hl'
  · rw [Applied.byJobs_append, ← List.append_assoc, hqueue, List.append_assoc, hqueue', List.append_assoc]

/-- Where neither the bytes nor what waits is changed. -/
theorem Tracked.of_same (hfile : v.memory.kind? p = some .file) (hsame : w.memory.content? p = v.memory.content? p)
    (hwaiting : w.waiting p = v.waiting p) : Tracked p [] [] v w := by
  obtain ⟨d, hd⟩ := kind?_eq_file_iff.1 hfile
  have hcontent : v.memory.content? p = some (.file d.bytes) := congrArg (Option.map Node.content) hd
  refine ⟨d.bytes, [], hcontent, hsame.trans hcontent, rfl, ?_⟩
  rw [List.append_nil, hwaiting]
  rfl

/-- The file is there to the end. -/
theorem Tracked.file (h : Tracked p own queued v w) : w.memory.kind? p = some .file := by
  obtain ⟨b, l, -, hl, -⟩ := h
  obtain ⟨d, hd, -⟩ := content?_eq_file_iff.1 hl
  exact kind?_eq_file_iff.2 ⟨d, hd⟩

end Tracked

/-! ### Jobs -/

/-- The other writes of a file wait on when the first one has left the queue. -/
theorem Sound.patch?_finish (hs : v.Sound)
    (hq : v.background.queue = j :: rest) (hj : j.work.writesTo p = true) {x : Work} (hx : x ∈ rest.map Job.work) :
    x.patch? p (v.detached.finish p) = x.patch? p v.detached := by
  cases hwrites : x.writesTo p with
  | false => rw [Work.patch?_eq_none hwrites, Work.patch?_eq_none hwrites]
  | true =>
    obtain ⟨k, hk, rfl⟩ := List.mem_map.1 hx
    -- Two writes of the file are in the queue, so the count does not fall to zero and the generation is kept.
    have hcount := hs.queue.counted p
    simp only [hq, List.countP_cons, hj, if_true] at hcount
    have hrest : 0 < rest.countP fun j => j.work.writesTo p := List.countP_pos_iff.2 ⟨k, hk, hwrites⟩
    have hpending : 1 < v.detached.pending p := by omega
    unfold Work.patch?
    cases k.work with
    | link job => rfl
    | write q generation offset data => simp only [Detached.isCurrent_finish hpending]

/-- Nothing waits for a file that has no writes in the queue. -/
theorem Sound.waiting_of_not_pending (hs : v.Sound) (hidle : v.detached.hasPending p = false) : v.waiting p = [] := by
  unfold waiting
  rw [List.filterMap_eq_nil_iff]
  intro x hx
  obtain ⟨j, hj, rfl⟩ := List.mem_map.1 hx
  refine Work.patch?_eq_none (Bool.eq_false_iff.2 fun hwrites => ?_) _
  rw [hs.queue.hasPending_iff.2 ⟨j, hj, hwrites⟩] at hidle
  cases hidle

/-- While a write of a file waits, no handle of the file is kept. -/
theorem Sound.cold_of_queued (hs : v.Sound) (hj : j ∈ v.background.queue)
    (hwrites : j.work.writesTo p = true) : v.handles.get? p = none := by
  cases hk : v.handles.get? p with
  | none => rfl
  | some k =>
    have hnone := hs.cold p k hk
    rw [hs.queue.hasPending_iff.2 ⟨j, hj, hwrites⟩] at hnone
    cases hnone

/-- So nothing waits for a file with a handle. -/
theorem Sound.waiting_of_warm (hs : v.Sound) (hwarm : v.isWarm p = true) : v.waiting p = [] := by
  obtain ⟨k, hk⟩ := Table.contains_eq_true_iff.1 hwarm
  exact hs.waiting_of_not_pending (hs.cold p k hk)

variable [LinkMap μ]

/-- A queued write is done if it is meant and fits and its file is there. -/
theorem Healthy.files_perform (hv : v.Healthy) {d : FileData} (hd : v.memory.node? p = some (.file d))
    (hcold : v.handles.get? p = none) {generation : Nat}
    (hcurrent : v.detached.isCurrent p generation = true) (hfits : offset + data.length ≤ maxLength) :
    (perform (.write p generation offset data) (v.world, v.detached)).2.1.files =
      v.memory.revised p d (d.bytes.overwrite offset data) := by
  have hlocked := hv.sound.unlocked_of_cold hcold hd
  have hsure : Sure (do
      FileStore.file p false
      let _ ← FileStore.writeAt p offset data) v.memory :=
    .run_bind (hv.closed.file_run hd) (.run_bind (writeAt_run hd hlocked hfits) (.pure _))
  -- The call cannot fail, so its specification says what it does.
  have hwrite := hsure.and (treeWp_writeNow p offset data v.memory) v.world.host v.world.files rfl
  unfold perform
  simp only
  rw [if_pos hcurrent]
  rcases hrun : (do
      FileStore.file p false
      let _ ← FileStore.writeAt p offset data : StoreM (Host × Memory) Unit) (v.world.host, v.world.files) with ⟨r, t⟩
  cases r with
  | ok x =>
    obtain ⟨-, d', hd', -, hm, -⟩ := hwrite.ok hrun
    rw [hd] at hd'
    cases hd'
    exact hm
  | error e => exact (hwrite.error hrun).2.elim

theorem works_eq_cons (hq : v.background.queue = j :: rest) : v.works = j.work :: (v.finished j rest).works := by
  unfold works
  rw [hq]
  rfl

/-- A job that is not for a file leaves it and the writes to it alone. -/
theorem tracked_job_of_other (hq : v.background.queue = j :: rest)
    (hj : j.work.writesTo p = false) (hfile : v.memory.kind? p = some .file) :
    Tracked p [] [] v (v.finished j rest) := by
  refine .of_same hfile (content?_of_atRest? (atRest?_finished v rest hj)) ?_
  have hother : (v.finished j rest).detached.paths.get? p = v.detached.paths.get? p := by
    unfold finished
    cases hwork : j.work with
    | link job => rfl
    | write q generation offset data =>
      rw [hwork] at hj
      have hne : p ≠ q := fun e => of_decide_eq_false hj e.symm
      rw [(perform_write q generation offset data (v.world, v.detached)).1, Detached.get?_finish, if_neg hne]
  unfold waiting
  rw [works_eq_cons hq, List.filterMap_cons_none (Work.patch?_eq_none hj _), funext (Work.patch?_congr hother)]

/-- What waits when the first job, a write to the file, has left the queue. -/
theorem Sound.waiting_write_job (hs : v.Sound) (hq : v.background.queue = j :: rest) {generation : Nat}
    (hwork : j.work = .write p generation offset data) :
    v.waiting p = (j.work.patch? p v.detached).toList ++ (v.finished j rest).waiting p := by
  have hj : j.work.writesTo p = true := by
    rw [hwork]
    exact decide_eq_true rfl
  have hdetached : (v.finished j rest).detached = v.detached.finish p := by
    unfold Vfs.finished
    rw [hwork]
    exact (perform_write p generation offset data (v.world, v.detached)).1
  have hrest : (v.finished j rest).waiting p = (v.finished j rest).works.filterMap (Work.patch? p v.detached) := by
    unfold waiting
    rw [hdetached]
    exact List.filterMap_congr fun x hx => hs.patch?_finish hq hj hx
  rw [hrest]
  unfold waiting
  rw [works_eq_cons hq, List.filterMap_cons]
  cases j.work.patch? p v.detached with
  | none => rfl
  | some x => rfl

/-- A job does the write it is for. -/
theorem Healthy.tracked_write_job (hv : v.Healthy) (hq : v.background.queue = j :: rest) {generation : Nat}
    (hwork : j.work = .write p generation offset data) (hfile : v.memory.kind? p = some .file) :
    Tracked p [] [] v (v.finished j rest) := by
  have hwaiting := hv.sound.waiting_write_job hq hwork
  have hmemory : (v.finished j rest).memory = (perform (.write p generation offset data) (v.world, v.detached)).2.1.files := by
    unfold finished
    rw [hwork]
    rfl
  -- A write that is stale or too long is not counted among those that wait, and it does nothing.
  by_cases hlive : v.detached.isCurrent p generation = true ∧ offset + data.length ≤ maxLength
  · have hpatch : j.work.patch? p v.detached = some ⟨false, offset, data⟩ := by
      rw [hwork]
      exact if_pos ⟨rfl, hlive⟩
    rw [hpatch] at hwaiting
    have hcold : v.handles.get? p = none := by
      refine hv.sound.cold_of_queued (by rw [hq]; exact List.mem_cons_self) ?_
      rw [hwork]
      exact decide_eq_true rfl
    obtain ⟨d, hd⟩ := kind?_eq_file_iff.1 hfile
    refine ⟨d.bytes, [⟨true, ⟨false, offset, data⟩⟩], content?_eq_file_iff.2 ⟨d, hd, rfl⟩, ?_, rfl, ?_⟩
    · rw [hmemory, hv.files_perform hd hcold hlive.1 hlive.2]
      exact content?_eq_file_iff.2 ⟨_, node?_put_self _ _ _, rfl⟩
    · rw [List.append_nil, hwaiting]
      rfl
  · have hpatch : j.work.patch? p v.detached = none := by
      rw [hwork]
      exact if_neg fun h => hlive h.2
    rw [hpatch] at hwaiting
    refine .of_same hfile ?_ hwaiting.symm
    rcases (perform_write p generation offset data (v.world, v.detached)).2.1 with hm | ⟨_, _, hcurrent, -, hfits⟩
    · rw [hmemory]
      exact congrArg (content? · p) hm
    · exact absurd ⟨hcurrent, hfits⟩ hlive

theorem Healthy.tracked_job (hv : v.Healthy)
    (hq : v.background.queue = j :: rest) (hfile : v.memory.kind? p = some .file) :
    Tracked p [] [] v (v.finished j rest) := by
  cases hj : j.work.writesTo p with
  | false => exact tracked_job_of_other hq hj hfile
  | true =>
    cases hwork : j.work with
    | link job =>
      rw [hwork] at hj
      cases hj
    | write q generation offset data =>
      rw [hwork] at hj
      obtain rfl : q = p := of_decide_eq_true hj
      exact hv.tracked_write_job hq hwork hfile

/-! ### Other steps -/

omit [LinkMap μ] in
/-- One more write waits. -/
theorem Sound.tracked_queued (hs : v.Sound) (hfile : v.memory.kind? p = some .file) (offset : Nat) (data : Bytes) :
    Tracked p [] (if offset + data.length ≤ maxLength then [⟨false, offset, data⟩] else []) v
      (v.queued p offset data) := by
  -- While writes of the file wait, one more takes their generation; so they stay meant.
  have hold : v.works.filterMap (Work.patch? p (v.detached.enter p).2) = v.waiting p := by
    refine List.filterMap_congr fun x hx => ?_
    cases hwrites : x.writesTo p with
    | false => rw [Work.patch?_eq_none hwrites, Work.patch?_eq_none hwrites]
    | true =>
      obtain ⟨k, hk, rfl⟩ := List.mem_map.1 hx
      have hpending := hs.queue.hasPending_iff.2 ⟨k, hk, hwrites⟩
      unfold Work.patch?
      cases k.work with
      | link job => rfl
      | write q generation offset data => simp only [Detached.isCurrent_enter hpending]
  have hnew : [Work.write p (v.detached.enter p).1 offset data].filterMap (Work.patch? p (v.detached.enter p).2) =
      if offset + data.length ≤ maxLength then [⟨false, offset, data⟩] else [] := by
    by_cases hfits : offset + data.length ≤ maxLength
    · rw [if_pos hfits]
      exact List.filterMap_cons_some (if_pos ⟨rfl, Detached.isCurrent_enter_self _ _, hfits⟩)
    · rw [if_neg hfits]
      exact List.filterMap_cons_none (if_neg fun h => hfits h.2.2)
  obtain ⟨d, hd⟩ := kind?_eq_file_iff.1 hfile
  have hcontent : v.memory.content? p = some (.file d.bytes) := content?_eq_file_iff.2 ⟨d, hd, rfl⟩
  refine ⟨d.bytes, [], hcontent, hcontent, rfl, ?_⟩
  have hwaiting : (v.queued p offset data).waiting p =
      (v.queued p offset data).works.filterMap (Work.patch? p (v.detached.enter p).2) := rfl
  rw [hwaiting, works_queued, List.filterMap_append, hold, hnew]
  rfl

omit [LinkMap μ] in
/-- A write of an operation. -/
theorem Patched.tracked {x : Patch} (h : Patched p x v w) : Tracked p [x] [] v w := by
  obtain ⟨-, d, hd, hw⟩ := h
  have hcontent : v.memory.content? p = some (.file d.bytes) := content?_eq_file_iff.2 ⟨d, hd, rfl⟩
  have hwaiting : w.waiting p = v.waiting p := by
    rcases hw with ⟨rfl, -⟩ | ⟨rfl, -⟩
    · rfl
    · rfl
  refine ⟨d.bytes, [⟨false, x⟩], hcontent, ?_, rfl, ?_⟩
  · rcases hw with ⟨rfl, hsame⟩ | ⟨rfl, -⟩
    · exact hcontent.trans (congrArg (fun b => some (Content.file b)) hsame.symm)
    · exact content?_eq_file_iff.2 ⟨_, node?_put_self _ _ _, rfl⟩
  · rw [List.append_nil, hwaiting]
    rfl

/-- The steps that leave a file and the writes to it alone. -/
def Leaves (p : Path) : Act → Prop
  | .stale q => p.under q = false
  | .queue q => q ≠ p
  | .edit q => q ≠ p
  | .drop q => p.under q = false
  | .copy _ target => p.under target = false
  | .move source target => p.under source = false ∧ p.under target = false
  | _ => True

theorem Step.tracked (ha : Leaves p a) (h : Step a v w) (hv : v.Healthy) (hfile : v.memory.kind? p = some .file) :
    Tracked p [] [] v w := by
  have hnode : ∀ {m : Memory}, m.node? p = v.memory.node? p → m.content? p = v.memory.content? p :=
    fun hsame => congrArg (Option.map Node.content) hsame
  cases h with
  | job hq => exact hv.tracked_job hq hfile
  | @pass _ f l htree => exact .of_same hfile (congrArg (content? · p) htree) rfl
  | note => exact .of_same hfile rfl rfl
  | @lock _ q f k d _ _ hd _ _ htree =>
    refine .of_same hfile (content?_of_atRest? ?_) rfl
    exact (congrArg (atRest? · p) htree).trans
      (atRest?_put_locked hd true p)
  | @unlock _ q f k _ htree =>
    refine .of_same hfile (content?_of_atRest? ?_) rfl
    exact (congrArg (atRest? · p) htree).trans (atRest?_release _ _ p)
  | @stale _ q =>
    refine .of_same hfile rfl (waiting_congr rfl ?_)
    refine (Detached.get?_invalidateUnder v.detached q p).trans ?_
    cases v.detached.paths.get? p with
    | none => rfl
    | some x => exact congrArg some (if_neg (by rw [show p.under q = false from ha]; simp))
  | @queue _ q offset data _ =>
    have hne : p ≠ q := Ne.symm ha
    refine .of_same hfile rfl ?_
    have hget : (v.queued q offset data).detached.paths.get? p = v.detached.paths.get? p :=
      (Detached.get?_enter v.detached q p).trans (if_neg hne)
    unfold waiting
    rw [works_queued, funext (Work.patch?_congr hget), List.filterMap_append]
    refine (congrArg (_ ++ ·) ?_).trans (List.append_nil _)
    exact List.filterMap_cons_none (if_neg fun h => hne h.1.symm)
  | @edit _ q f d bytes _ htree _ =>
    refine .of_same hfile (hnode ?_) rfl
    exact (congrArg (node? · p) htree).trans (node?_revised_of_ne (Ne.symm ha) bytes)
  | make _ hgrown =>
    refine .of_same hfile (hnode (hgrown.old p fun hnone => ?_)) rfl
    rw [kind?_eq_none_iff.2 hnone] at hfile
    cases hfile
  | link | unlink | relink => exact .of_same hfile rfl (waiting_relinked v _ _ p)
  | @dropFile _ q f d _ _ _ htree =>
    refine .of_same hfile (hnode ?_) rfl
    refine (congrArg (node? · p) htree).trans ?_
    rw [node?_prune, if_neg (by rw [show p.under q = false from ha]; simp)]
  | @dropTree _ q f _ _ htree =>
    refine .of_same hfile (hnode ?_) (waiting_relinked (v.withFiles f) _ _ p)
    refine (congrArg (node? · p) htree).trans ?_
    rw [node?_prune, if_neg (by rw [show p.under q = false from ha]; simp)]
  | copy _ _ _ htree => exact .of_same hfile (hnode (htree.same p ha)) rfl
  | moveFile _ _ htree => exact .of_same hfile (hnode (htree.same p ha.1 ha.2)) rfl
  | @moveTree _ source target f sizes _ htree =>
    exact .of_same hfile (hnode (htree.same p ha.1 ha.2)) (waiting_relinked { v.withFiles f with sizes := sizes } _ _ p)

theorem Reaches.tracked (h : Reaches (Leaves p) v w) (hv : v.Healthy) (hfile : v.memory.kind? p = some .file) :
    Tracked p [] [] v w := by
  induction h with
  | refl => exact .of_same hfile rfl rfl
  | tail hr hstep ih =>
    obtain ⟨a, ha, hs⟩ := hstep
    exact ih.trans (hs.tracked ha (Reaches.healthy hr hv) ih.file)

/-- Jobs do the writes that wait, and nothing else to the file. -/
theorem Healthy.tracked_runJobs (hv : v.Healthy) (hfile : v.memory.kind? p = some .file) (n : Nat) :
    Tracked p [] [] v (v.runJobs n) :=
  Reaches.tracked ((reaches_runJobs n v).of_only trivial) hv hfile

/-- A write after some steps that leave the file alone, and notes. -/
theorem After.tracked {P : Act → Prop} {x : Patch} (h : After P (Patched p x) v w) (hP : ∀ a, P a → Leaves p a)
    (hv : v.Healthy) (hfile : v.memory.kind? p = some .file) : Tracked p [x] [] v w := by
  obtain ⟨u, y, hu, hy, hw⟩ := h
  have hu : Reaches (Leaves p) v u := hu.mono hP
  have hw : Reaches (Leaves p) y w := hw.of_only trivial
  have hy' := (hu.tracked hv hfile).trans hy.tracked
  have hhealthy : y.Healthy := hy.reaches.healthy (hu.healthy hv)
  exact hy'.trans (hw.tracked hhealthy hy'.file)

/-! ### Operations -/

/-- The path of a descriptor. -/
def Session.pathOf (s : Session Memory μ) (fd : String) : Option Path := (s.descriptors.get? fd).map Descriptor.path

/-- The writes to a file that an operation does itself. -/
def Operation.writes (p : Path) (op : Operation) (s : Session Memory μ) : List Patch :=
  match op, (op.run s).1 with
  | write fd data offset, .ok _ => if s.pathOf fd = some p then [⟨s.space.usesHandle p, offset, data⟩] else []
  | writeStream fd data, .ok (.written n cursor) =>
    if s.pathOf fd = some p then [⟨s.space.usesHandle p, cursor - n, data⟩] else []
  | writeDetached fd data offset, .ok _ =>
    if s.pathOf fd = some p ∧ s.space.isWarm p = true then [⟨true, offset, data⟩] else []
  | _, _ => []

/-- The writes to a file that an operation queues. -/
def Operation.queues (p : Path) (op : Operation) (s : Session Memory μ) : List Patch :=
  match op, (op.run s).1 with
  | writeDetached fd data offset, .ok _ =>
    if s.pathOf fd = some p ∧ s.space.isWarm p = false ∧ offset + data.length ≤ maxLength then
      [⟨false, offset, data⟩] else []
  | _, _ => []

/-- An operation leaves the queued writes of a file alone: it does not remove or rename what is at or above the path, it
does not open the file to cut it, and it is no attempt to change the length through a file descriptor at or above the
path. -/
def Operation.Spares (p : Path) (op : Operation) (s : Session Memory μ) : Prop :=
  match op with
  | setSize fd _ => ∀ d, s.descriptors.get? fd = some d → d.isDirectory = false → d.flags.writable = true →
    p.under d.path = false
  | openAt b raw flags _ => ∀ x, (op.run s).1 = .ok x → flags.truncate = true → ¬ Names b raw flags.follow s p
  | _ => ∀ x, (op.run s).1 = .ok x → ∀ q, op.Source s q → p.under q = false

/-- The descriptor through which an operation writes. -/
def Operation.writer? : Operation → Option String
  | write fd _ _ | writeStream fd _ | writeDetached fd _ _ => some fd
  | _ => none

section Operations

variable {op : Operation} {x : Value}

omit [LinkMap μ] in
/-- What is there does not lie below a free path. -/
theorem Healthy.not_under_free {q : Path} (hv : v.Healthy) (hfile : v.memory.kind? p = some .file)
    (hfree : v.kindAt q = none) : p.under q = false := by
  rw [Bool.eq_false_iff]
  intro hu
  rw [kind?_eq_none_iff.2 (hv.closed.nothing_under (kindAt_eq_none_iff.1 hfree).2 hu)] at hfile
  cases hfile

omit [LinkMap μ] in
/-- Nor below another file. -/
theorem Healthy.not_under_file {q : Path} (hv : v.Healthy) (hfile : v.memory.kind? p = some .file)
    (hq : v.kindAt q = some .file) (hne : p ≠ q) : p.under q = false := by
  rw [Bool.eq_false_iff]
  intro hu
  have habove := hv.closed.above (by rw [hfile]; simp) hu hne
  rw [kind?_eq_file_iff.2 (kindAt_eq_file_iff.1 hq).2] at habove
  cases habove

theorem Operation.Prepares.leaves (h : op.Prepares s a) (hs : s.space.Healthy)
    (hfile : s.space.memory.kind? p = some .file) (hok : (op.run s).1 = .ok x) (hsp : op.Spares p s) :
    Leaves p a := by
  cases h with
  | cut hcut hq hnames =>
    refine hs.not_under_file hfile hq ?_
    rintro rfl
    exact hsp x hok hcut hnames
  | setSize hd hd' hwritable => exact hsp _ hd hd' hwritable
  | removeDirectory hq | unlink hq => exact hsp x hok _ hq
  | rename hq hother => exact hsp x hok _ ⟨hq, hother⟩
  | copy _ _ hfree => exact hs.not_under_free hfile hfree
  | _ => trivial

theorem Operation.Changes.leaves (h : op.Changes s a) (hs : s.space.Healthy)
    (hfile : s.space.memory.kind? p = some .file) (hok : (op.run s).1 = .ok x) (hsp : op.Spares p s)
    (hother : ∀ fd, op.writer? = some fd → s.pathOf fd ≠ some p) : Leaves p a := by
  have hpath : ∀ {fd : String} {d : Descriptor}, s.descriptors.get? fd = some d → op.writer? = some fd → d.path ≠ p := by
    rintro fd d hd hw rfl
    exact hother fd hw (congrArg (Option.map Descriptor.path) hd)
  cases h with
  | write hd | writeStream hd | writeDetached hd | queue hd => exact hpath hd rfl
  | setSize hd hd' hwritable =>
    rintro rfl
    have := hsp _ hd hd' hwritable
    rw [Path.under_refl] at this
    cases this
  | cut hcut hnames =>
    rintro rfl
    exact hsp x hok hcut hnames
  | removeDirectory hq | removeFile hq => exact hsp x hok _ hq
  | move hq _ hother' hfree => exact ⟨hsp x hok _ ⟨hq, hother'⟩, hs.not_under_free hfile hfree⟩
  | _ => trivial

theorem Operation.Tries.leaves (h : op.Tries s a) (hsp : op.Spares p s) : Leaves p a := by
  cases h with
  | wait | lock => trivial
  | setSize hd hd' hwritable => exact hsp _ hd hd' hwritable

/-- A write through a descriptor. -/
theorem Operation.write_after (hs : s.space.Healthy)
    (hrun : (Operation.write fd data offset).run s = (.ok x, t)) (hp : s.pathOf fd = some p) :
    After (Looking p) (Patched p ⟨s.space.usesHandle p, offset, data⟩) s.space t.space := by
  have hwp : wp (Operation.write fd data offset).run
      (fun _ t => After (Looking p) (Patched p ⟨s.space.usesHandle p, offset, data⟩) s.space t.space) (fun _ _ => True) s := by
    refine Session.wp_onDescriptor (fun d hd => ?_) trivial
    obtain rfl : d.path = p := by simpa [Session.pathOf, hd] using hp
    exact (ends_write d data offset s.space hs).mono (fun _ _ h => h.2.after) fun _ _ _ => trivial
  exact hwp.ok hrun

/-- A write in sequence tells how much it wrote and where it ended. -/
theorem Operation.writeStream_after (hs : s.space.Healthy)
    (hrun : (Operation.writeStream fd data).run s = (.ok x, t)) (hp : s.pathOf fd = some p) :
    ∃ offset, x = .written data.length (offset + data.length) ∧
      After (Looking p) (Patched p ⟨s.space.usesHandle p, offset, data⟩) s.space t.space := by
  have hwp : wp (Operation.writeStream fd data).run
      (fun x t => ∃ offset, x = .written data.length (offset + data.length) ∧
        After (Looking p) (Patched p ⟨s.space.usesHandle p, offset, data⟩) s.space t.space) (fun _ _ => True) s := by
    refine Session.wp_onDescriptor (fun d hd => ?_) trivial
    obtain rfl : d.path = p := by simpa [Session.pathOf, hd] using hp
    refine (ends_writeStream d data s.space hs).mono ?_ fun _ _ _ => trivial
    rintro r w ⟨offset, rfl, h⟩
    exact ⟨offset, rfl, h.after⟩
  exact hwp.ok hrun

/-- A write that nobody waits for is done at once or queued. -/
theorem Operation.writeDetached_after (hs : s.space.Healthy)
    (hrun : (Operation.writeDetached fd data offset).run s = (.ok x, t)) (hp : s.pathOf fd = some p) :
    (s.space.isWarm p = true ∧ After (Looking p) (Patched p ⟨true, offset, data⟩) s.space t.space) ∨
      (s.space.isWarm p = false ∧ t.space = s.space.queued p offset data) := by
  have hwp : wp (Operation.writeDetached fd data offset).run
      (fun _ t => (s.space.isWarm p = true ∧ After (Looking p) (Patched p ⟨true, offset, data⟩) s.space t.space) ∨
        (s.space.isWarm p = false ∧ t.space = s.space.queued p offset data)) (fun _ _ => True) s := by
    refine Session.wp_onDescriptor (fun d hd => ?_) trivial
    obtain rfl : d.path = p := by simpa [Session.pathOf, hd] using hp
    refine (ends_writeDetached (F := Looking d.path) d data offset s.space hs).mono ?_ fun _ _ _ => trivial
    rintro - w (h | ⟨hcold, rfl⟩)
    · exact Or.inl ⟨h.1, h.2.after⟩
    · exact Or.inr ⟨Table.contains_eq_false_iff.2 hcold, rfl⟩
  exact hwp.ok hrun

theorem Operation.writes_of_error {r : Refusal} (hrun : op.run s = (.error r, t)) :
    op.writes p s = [] ∧ op.queues p s = [] := by
  unfold Operation.writes Operation.queues
  rw [hrun]
  cases op <;> exact ⟨rfl, rfl⟩

/-- Who does not write through a descriptor of a file does not write to it. -/
theorem Operation.writes_of_other (hother : ∀ fd, op.writer? = some fd → s.pathOf fd ≠ some p) :
    op.writes p s = [] ∧ op.queues p s = [] := by
  unfold Operation.writes Operation.queues
  rcases op.run s with ⟨r | x, t⟩
  · cases op <;> exact ⟨rfl, rfl⟩
  · cases op with
    | write fd data offset => exact ⟨if_neg (hother fd rfl), rfl⟩
    | writeStream fd data =>
      cases x with
      | written n cursor => exact ⟨if_neg (hother fd rfl), rfl⟩
      | _ => exact ⟨rfl, rfl⟩
    | writeDetached fd data offset =>
      exact ⟨if_neg fun h => hother fd rfl h.1, if_neg fun h => hother fd rfl h.1⟩
    | _ => exact ⟨rfl, rfl⟩

theorem Looking.leaves (h : Looking p a) : Leaves p a := by
  cases a with
  | wait | lock => trivial
  | _ => exact h.elim

/-- The bytes of a file are followed through an operation that leaves the queued writes alone. -/
theorem Operation.tracked (hs : s.space.Healthy) (hfile : s.space.memory.kind? p = some .file) (hsp : op.Spares p s) :
    Tracked p (op.writes p s) (op.queues p s) s.space (op.run s).2.space := by
  rcases hrun : op.run s with ⟨r | x, t⟩
  · obtain ⟨hwrites, hqueues⟩ := Operation.writes_of_error hrun
    rw [hwrites, hqueues]
    exact (((op.ended hs).error hrun).1.mono fun _ ha => ha.leaves hsp).tracked hs hfile
  · have hok : (op.run s).1 = .ok x := by rw [hrun]
    by_cases hother : ∀ fd, op.writer? = some fd → s.pathOf fd ≠ some p
    · obtain ⟨hwrites, hqueues⟩ := Operation.writes_of_other hother
      rw [hwrites, hqueues]
      exact (((op.ended hs).ok hrun).reaches (fun _ ha => ha.leaves hs hfile hok hsp)
        (fun _ ha => ha.leaves hs hfile hok hsp hother) trivial).tracked hs hfile
    · obtain ⟨fd, hfd, hp⟩ : ∃ fd, op.writer? = some fd ∧ s.pathOf fd = some p := by
        simpa only [not_forall, not_not, exists_prop] using hother
      -- What is left are the three operations that write, each through a descriptor of the very file.
      unfold Operation.writes Operation.queues
      rw [hok]
      cases op with
      | write fd' data offset =>
        cases hfd
        have htracked := (Operation.write_after hs hrun hp).tracked (fun _ ha => ha.leaves) hs hfile
        simpa [hp] using htracked
      | writeStream fd' data =>
        cases hfd
        obtain ⟨offset, rfl, hafter⟩ := Operation.writeStream_after hs hrun hp
        have htracked := hafter.tracked (fun _ ha => ha.leaves) hs hfile
        simpa [hp] using htracked
      | writeDetached fd' data offset =>
        cases hfd
        rcases Operation.writeDetached_after hs hrun hp with ⟨hwarm, hafter⟩ | ⟨hcold, hqueued⟩
        · have htracked := hafter.tracked (fun _ ha => ha.leaves) hs hfile
          simpa [hp, hwarm] using htracked
        · have htracked := hs.sound.tracked_queued hfile offset data
          rw [← hqueued] at htracked
          simpa [hp, hcold] using htracked
      | _ => cases hfd

end Operations

/-! ### Runs -/

/-- The writes to a file that the operations of a run do themselves. -/
def Session.writes (p : Path) : Session Memory μ → List Event → List Patch
  | _, [] => []
  | s, .use op :: run => op.writes p s ++ writes p (op.run s).2 run
  | s, e :: run => writes p (e.happen s) run

/-- The writes to a file that the operations of a run queue. -/
def Session.queues (p : Path) : Session Memory μ → List Event → List Patch
  | _, [] => []
  | s, .use op :: run => op.queues p s ++ queues p (op.run s).2 run
  | s, e :: run => queues p (e.happen s) run

/-- No operation of a run disturbs the queued writes of a file. -/
def Session.Spares (p : Path) : Session Memory μ → List Event → Prop
  | _, [] => True
  | s, .use op :: run => op.Spares p s ∧ Spares p (op.run s).2 run
  | s, e :: run => Spares p (e.happen s) run

/-- The bytes of a file are followed through a run. -/
theorem Session.tracked {run : List Event} (hs : s.space.Healthy) (hfile : s.space.memory.kind? p = some .file)
    (hsp : s.Spares p run) : Tracked p (s.writes p run) (s.queues p run) s.space (s.after run).space := by
  induction run generalizing s with
  | nil => exact .of_same hfile rfl rfl
  | cons e run ih =>
    have hnext := healthy_after [e] hs
    cases e with
    | use op =>
      have hfirst := Operation.tracked hs hfile hsp.1
      exact hfirst.trans (ih hnext hfirst.file hsp.2)
    | work n =>
      have hfirst := hs.tracked_runJobs hfile n
      exact hfirst.trans (ih hnext hfirst.file hsp)
    | pace l =>
      have hfirst : Tracked p [] [] s.space { s.space with pace := l } := .of_same hfile rfl rfl
      exact hfirst.trans (ih hnext hfirst.file hsp)

theorem Session.tracked_drain {run : List Event} (hs : s.space.Healthy) (hfile : s.space.memory.kind? p = some .file)
    (hsp : s.Spares p run) : Tracked p (s.writes p run) (s.queues p run) s.space (s.after run).space.drain := by
  have hrun := tracked hs hfile hsp
  have hdrain : Tracked p [] [] (s.after run).space (s.after run).space.drain :=
    (healthy_after run hs).tracked_runJobs hrun.file _
  simpa using hrun.trans hdrain

/-! ### One write -/

/-- A write to a file has been done once on the way from one state to another: after all the writes that waited for the
file in the first state, and before all that were queued on the way. Besides it only the writes of operations on the way
have been done, in their order, and those that waited or were queued, in theirs. -/
def DoneOnce (p : Path) (x : Patch) (own queued : List Patch) (v w : Vfs Memory μ) : Prop :=
  ∃ b before after, v.memory.content? p = some (.file b) ∧
    w.memory.content? p = some (.file (Applied.all after (x.apply (Applied.all before b)))) ∧
    Applied.byJobs before = v.waiting p ∧ Applied.byJobs after ++ w.waiting p = queued ∧
    Applied.byOperations before ++ Applied.byOperations after = own

/-- A write to a file has not been done yet, and no write that was queued after it. They wait behind what is left of those
that waited in the first state. -/
def StillWaits (p : Path) (x : Patch) (own queued : List Patch) (v w : Vfs Memory μ) : Prop :=
  ∃ b before left, v.memory.content? p = some (.file b) ∧
    w.memory.content? p = some (.file (Applied.all before b)) ∧
    v.waiting p = Applied.byJobs before ++ left ∧ w.waiting p = left ++ x :: queued ∧
    Applied.byOperations before = own

section OneWrite

omit [LinkMap μ]

variable {own queued : List Patch} {x : Patch}

/-- The first of the writes that were queued on the way has been done or waits. -/
theorem Tracked.done_or_waits (h : Tracked p own (x :: queued) v w) :
    DoneOnce p x own queued v w ∨ StillWaits p x own queued v w := by
  obtain ⟨b, l, hb, hl, hown, hqueue⟩ := h
  -- The jobs that were done are a first part of what waited and was queued. It ends before the write or reaches beyond it.
  rcases List.append_eq_append_iff.1 hqueue with ⟨done, hdone, hrest⟩ | ⟨left, hleft, hrest⟩
  · cases done with
    | nil =>
      refine .inr ⟨b, l, [], hb, hl, ?_, hrest.symm, hown⟩
      rw [hdone, List.append_nil, List.append_nil]
    | cons y done =>
      obtain ⟨rfl, hqueued⟩ := List.cons.inj hrest
      obtain ⟨before, after, rfl, hbefore, hafter⟩ := Applied.exists_split hdone
      refine .inl ⟨b, before, after, hb, ?_, hbefore, ?_, ?_⟩
      · rw [hl, Applied.all_append]
        rfl
      · rw [hafter]
        exact hqueued.symm
      · rw [← hown, Applied.byOperations_append]
        rfl
  · exact .inr ⟨b, l, left, hb, hl, hleft, hrest, hown⟩

/-- A write that was done at once comes before all that is done later. -/
theorem Tracked.done_at_once (h : Tracked p [x] [] u v) (hidle : u.waiting p = []) (k : Tracked p own queued v w) :
    DoneOnce p x own queued u w := by
  obtain ⟨b, l, hb, hl, hown, hqueue⟩ := h
  rw [hidle] at hqueue
  obtain ⟨hjobs, hwaiting⟩ := List.append_eq_nil_iff.1 hqueue.symm
  rw [Applied.all_of_byJobs_eq_nil hjobs, hown] at hl
  obtain ⟨b', l', hb', hl', hown', hqueue'⟩ := k
  rw [hl] at hb'
  cases hb'
  refine ⟨b, [], l', hb, hl', hidle.symm, ?_, hown'⟩
  rw [← hqueue', hwaiting]
  rfl

/-- When nothing waits, it is done. -/
theorem StillWaits.not_idle (h : StillWaits p x own queued v w) : w.background.queue ≠ [] := by
  obtain ⟨b, before, left, -, -, -, hwaiting, -⟩ := h
  intro hidle
  rw [waiting_of_idle hidle] at hwaiting
  exact absurd hwaiting.symm (by simp)

end OneWrite

/-- A write that nobody waits for is not lost. Let its file be there when it is made, let it not end beyond the longest
file, and let no operation after it disturb the queued writes of the file. Then whatever jobs run in between, the write
has been done once or it still waits, and it has been done once when the queue is empty. -/
theorem queued_write_done_once {μ : Type} [LinkMap μ] {o : Options} {w w' : World Memory μ} {v : Vfs Memory μ}
    (hstart : start o w = (.ok v, w')) (hstore : w.files.Reachable) (hfree : ∀ p, w.files.isLocked p = false)
    (descriptors : Table String Descriptor) (earlier later : List Event) {fd : String} {d : Descriptor} {data : Bytes}
    {offset : Nat} {x : Value} {t : Session Memory μ}
    (hrun : (Operation.writeDetached fd data offset).run (Session.after ⟨v, descriptors⟩ earlier) = (.ok x, t))
    (hd : (Session.after ⟨v, descriptors⟩ earlier).descriptors.get? fd = some d)
    (hfile : (Session.after ⟨v, descriptors⟩ earlier).space.world.files.kind? d.path = some .file)
    (hfits : offset + data.length ≤ maxLength) (hlater : t.Spares d.path later) :
    let s := (Session.after ⟨v, descriptors⟩ earlier).space
    let u := (t.after later).space
    let write : Patch := ⟨s.isWarm d.path, offset, data⟩
    (DoneOnce d.path write (t.writes d.path later) (t.queues d.path later) s u ∨
      StillWaits d.path write (t.writes d.path later) (t.queues d.path later) s u) ∧
    DoneOnce d.path write (t.writes d.path later) (t.queues d.path later) s u.drain := by
  intro s u write
  have hs : s.Healthy := Session.healthy_after earlier (healthy_of_start hstart hstore hfree)
  have ht : t.space.Healthy := by
    have hafter := Session.healthy_after [.use (.writeDetached fd data offset)] (s := Session.after ⟨v, descriptors⟩ earlier) hs
    rwa [show Session.after _ [.use (.writeDetached fd data offset)] = _ from congrArg Prod.snd hrun] at hafter
  have hp : (Session.after ⟨v, descriptors⟩ earlier).pathOf fd = some d.path := congrArg (Option.map Descriptor.path) hd
  -- With a handle the write is done at once, and no job of the file waits that could come after it.
  rcases Operation.writeDetached_after hs hrun hp with ⟨hwarm, hafter⟩ | ⟨hcold, hqueued⟩
  · have hfirst : Tracked d.path [write] [] s t.space := by
      have htracked := hafter.tracked (fun _ ha => ha.leaves) hs hfile
      rwa [← hwarm] at htracked
    have hidle := hs.sound.waiting_of_warm hwarm
    exact ⟨.inl (hfirst.done_at_once hidle (Session.tracked ht hfirst.file hlater)),
      hfirst.done_at_once hidle (Session.tracked_drain ht hfirst.file hlater)⟩
  · have hfirst : Tracked d.path [] [write] s t.space := by
      have htracked := hs.sound.tracked_queued hfile offset data
      rwa [if_pos hfits, ← hqueued, ← hcold] at htracked
    refine ⟨(hfirst.trans (Session.tracked ht hfirst.file hlater)).done_or_waits, ?_⟩
    rcases (hfirst.trans (Session.tracked_drain ht hfirst.file hlater)).done_or_waits with hdone | hwaits
    · exact hdone
    · exact absurd (queue_drain _) hwaits.not_idle

/-- An empty file. -/
def anEmptyFile : List Event := [.use (.openAt none "f" .createFile (some "fd"))]

/-- Another write is queued, a removal fails, and one job is done. -/
def besideAQueuedWrite : List Event := [.use (.writeDetached "fd" [3] 1), .use (.unlinkAt none "g"), .work 1]

/-- The write is done before the one that is queued after it. -/
theorem queued_write_done_once_inMemory :
    ∃ x t, (Operation.writeDetached "fd" [1, 2] 0).run (Session.after ⟨inMemory, ∅⟩ anEmptyFile) = (.ok x, t) ∧
      DoneOnce (Path.root.child ⟨"f", by decide⟩) ⟨false, 0, [1, 2]⟩ [] [⟨false, 1, [3]⟩]
        (Session.after ⟨inMemory, ∅⟩ anEmptyFile).space (t.after besideAQueuedWrite).space.drain := by
  obtain ⟨hstart, hstore, hfree⟩ := inMemory_started
  have hrun : (Operation.writeDetached "fd" [1, 2] 0).run (Session.after ⟨inMemory, ∅⟩ anEmptyFile) = (.ok _, _) := rfl
  have hd : (Session.after ⟨inMemory, ∅⟩ anEmptyFile).descriptors.get? "fd" = some _ := rfl
  refine ⟨_, _, hrun, ?_⟩
  refine (queued_write_done_once hstart hstore hfree ∅ anEmptyFile besideAQueuedWrite hrun hd rfl (by decide) ?_).2
  refine ⟨fun _ _ _ h => h.elim, fun x hx => ?_, trivial⟩
  have hfail : Except.error _ = Except.ok x := hx
  cases hfail

/-- An attempt to make a file too long fails, and the write that was queued before it is lost. -/
theorem failed_resize_loses_queued_write :
    ∃ x t r u, (Operation.writeDetached "fd" [1, 2] 0).run (Session.after ⟨inMemory, ∅⟩ anEmptyFile) = (.ok x, t) ∧
      (Operation.setSize "fd" (maxLength + 1)).run t = (.error r, u) ∧
      u.space.drain.world.files.content? (Path.root.child ⟨"f", by decide⟩) = some (.file []) :=
  ⟨_, _, _, _, rfl, rfl, rfl⟩

end Vfs

end Filespace
