import Filespace.Proofs.FailedCalls

/-!
# Removed paths stay removed

Descriptors, warm handles and queued writes can outlive the entry they are for. None of them brings it back: an
operation on a descriptor, and each job, changes the bytes of files that are there and nothing else (`WritesOnly`). So a
path without an entry gets one only from an operation that makes an entry at, above or below it.
-/

namespace Filespace.Vfs

open Storage Memory Session

variable {μ : Type} [LinkMap μ] {u v w : Vfs Memory μ} {s t : Session Memory μ} {p source : Path} {a : Act}
  {fd : String}

/-! ### Steps that write to files -/

/-- Only files are written to: the jobs `done` were done and others queued. Jobs were queued for paths in `S` only, and
what is neither in `S` nor written to by a job that was done is as it was. -/
structure WritesOnly (S : Path → Prop) (v w : Vfs Memory μ) : Prop where
  links : w.links = v.links
  kind : ∀ q, w.memory.kind? q = v.memory.kind? q
  bytes : ∃ done new, v.background.queue ++ new = done ++ w.background.queue ∧
    (∀ j ∈ new, ∃ q generation offset data, S q ∧ j.work = .write q generation offset data) ∧
    ∀ q, ¬ S q → (∀ j ∈ done, j.work.writesTo q = false) → w.memory.atRest? q = v.memory.atRest? q

/-- The steps that write to files, and only to those at paths in `S` if they do it themselves. -/
def Filewise (S : Path → Prop) : Act → Prop
  | .wait => True
  | .note => True
  | .lock _ => True
  | .unlock _ => True
  | .stale _ => True
  | .queue q => S q
  | .edit q => S q
  | _ => False

section Filewise

variable {S : Path → Prop}

omit [LinkMap μ] in
theorem WritesOnly.refl (v : Vfs Memory μ) : WritesOnly S v v :=
  ⟨rfl, fun _ => rfl, [], [], by simp, by simp, fun _ _ _ => rfl⟩

omit [LinkMap μ] in
theorem WritesOnly.trans (h : WritesOnly S u v) (k : WritesOnly S v w) : WritesOnly S u w := by
  obtain ⟨done, new, hqueue, hnew, hsame⟩ := h.bytes
  obtain ⟨done', new', hqueue', hnew', hsame'⟩ := k.bytes
  refine ⟨k.links.trans h.links, fun q => (k.kind q).trans (h.kind q), done ++ done', new ++ new', ?_, ?_, ?_⟩
  · rw [← List.append_assoc, hqueue, List.append_assoc, hqueue', List.append_assoc]
  · intro j hj
    rcases List.mem_append.1 hj with hj | hj
    · exact hnew j hj
    · exact hnew' j hj
  · intro q hq hdone
    rw [hsame' q hq fun j hj => hdone j (List.mem_append_right _ hj),
      hsame q hq fun j hj => hdone j (List.mem_append_left _ hj)]

omit [LinkMap μ] in
/-- The queue stays, and so does all that is not in `S`. -/
theorem WritesOnly.of_same (hlinks : w.links = v.links) (hqueue : w.background.queue = v.background.queue)
    (hkind : ∀ q, w.memory.kind? q = v.memory.kind? q)
    (hsame : ∀ q, ¬ S q → w.memory.atRest? q = v.memory.atRest? q) : WritesOnly S v w :=
  ⟨hlinks, hkind, [], [], by simp [hqueue], by simp, fun q hq _ => hsame q hq⟩

/-- A job leaves the files alone to which it does not write. -/
theorem atRest?_finished (v : Vfs Memory μ) {j : Job Work} (rest : List (Job Work)) {q : Path}
    (h : j.work.writesTo q = false) : (v.finished j rest).memory.atRest? q = v.memory.atRest? q := by
  unfold finished memory
  cases hj : j.work with
  | link job => rfl
  | write p generation offset data =>
    rw [hj] at h
    have hne : q ≠ p := fun e => of_decide_eq_false h e.symm
    rcases (perform_write p generation offset data (v.world, v.detached)).2.1 with hm | ⟨d, hd, -, hm, -⟩
    · exact congrArg (atRest? · q) hm
    · exact (congrArg (atRest? · q) hm).trans
        (congrArg (Option.map Node.atRest) (node?_revised_of_ne hne _))

theorem Step.writesOnly (ha : Filewise S a) (h : Step a v w) : WritesOnly S v w := by
  cases h with
  | @job _ j rest hq =>
    refine ⟨rfl, fun q => kind?_of_outline? (outline?_finished v j rest q), [j], [], ?_, by simp, ?_⟩
    · rw [hq, List.append_nil]
      rfl
    · intro q _ hj
      exact atRest?_finished v rest (hj j List.mem_cons_self)
  | @pass _ f l htree =>
    refine .of_same rfl rfl (fun q => ?_) fun q _ => ?_
    · exact congrArg (kind? · q) htree
    · exact congrArg (atRest? · q) htree
  | note => exact .of_same rfl rfl (fun _ => rfl) fun _ _ => rfl
  | @lock _ p f k d _ _ hd _ _ htree =>
    refine .of_same rfl rfl (fun q => ?_) fun q _ => ?_
    · exact (congrArg (kind? · q) htree).trans (kind?_put_file hd q)
    · exact (congrArg (atRest? · q) htree).trans
        (atRest?_put_locked hd true q)
  | @unlock _ p f k _ htree =>
    refine .of_same rfl rfl (fun q => ?_) fun q _ => ?_
    · exact (congrArg (kind? · q) htree).trans (kind?_release _ _ q)
    · exact (congrArg (atRest? · q) htree).trans (atRest?_release _ _ q)
  | stale => exact .of_same rfl rfl (fun _ => rfl) fun _ _ => rfl
  | @queue _ p offset data hcold =>
    refine ⟨rfl, fun _ => rfl, [], [_], rfl, ?_, fun _ _ _ => rfl⟩
    intro j hj
    rw [List.mem_singleton] at hj
    subst hj
    exact ⟨p, _, offset, data, ha, rfl⟩
  | @edit _ p f d bytes hd htree _ =>
    refine .of_same rfl rfl (fun q => ?_) fun q hq => ?_
    · exact (congrArg (kind? · q) htree).trans (kind?_of_outline? (outline?_revised hd bytes q))
    · have hne : q ≠ p := fun e => hq (e ▸ ha)
      exact (congrArg (atRest? · q) htree).trans
        (congrArg (Option.map Node.atRest) (node?_revised_of_ne hne _))
  | _ => exact ha.elim

theorem Reaches.writesOnly (h : Reaches (Filewise S) v w) : WritesOnly S v w := by
  induction h with
  | refl => exact .refl v
  | tail _ hstep ih =>
    obtain ⟨a, ha, hs⟩ := hstep
    exact ih.trans (hs.writesOnly ha)

/-- Jobs write to the files they are for. -/
theorem writesOnly_runJobs (n : Nat) (v : Vfs Memory μ) :
    (v.runJobs n).links = v.links ∧ (∀ q, (v.runJobs n).memory.kind? q = v.memory.kind? q) ∧
      ∀ q, (∀ j ∈ v.background.queue.take n, j.work.writesTo q = false) →
        (v.runJobs n).memory.atRest? q = v.memory.atRest? q := by
  have hwrites : WritesOnly (fun _ => False) v (v.runJobs n) :=
    ((reaches_runJobs n v).of_only trivial).writesOnly
  obtain ⟨done, new, hqueue, hnew, hsame⟩ := hwrites.bytes
  have hnew : new = [] := List.eq_nil_iff_forall_not_mem.2 fun j hj => by
    obtain ⟨q, _, _, _, hfalse, -⟩ := hnew j hj
    exact hfalse
  refine ⟨hwrites.links, hwrites.kind, fun q hq => hsame q id fun j hj => hq j ?_⟩
  -- The jobs that were done are the first of the queue.
  rw [hnew, List.append_nil, queue_runJobs] at hqueue
  have hlength := congrArg List.length hqueue
  rw [List.length_append, List.length_drop] at hlength
  have htake : v.background.queue.take n = v.background.queue.take done.length := by
    by_cases hn : n ≤ v.background.queue.length
    · rw [show done.length = n by omega]
    · rw [List.take_of_length_le (by omega), List.take_of_length_le (by omega)]
  rw [htake, hqueue, List.take_left]
  exact hj

end Filewise

/-! ### Steps that make nothing at a path -/

/-- The steps that make no entry at a path. -/
def Sparing (p : Path) : Act → Prop
  | .make q => q.under p = false
  | .link q => q ≠ p
  | .relink _ target => target ≠ p
  | .copy _ target => p.under target = false
  | .move _ target => p.under target = false
  | _ => True

omit [LinkMap μ] in
/-- Where there was nothing, there is nothing if there is no new link and no new node. -/
theorem kindAt_eq_none_of (h : v.kindAt p = none) (hlink : v.links.get? p = none → w.links.get? p = none)
    (hnode : v.memory.node? p = none → w.memory.node? p = none) : w.kindAt p = none := by
  rw [kindAt_eq_none_iff] at h ⊢
  exact ⟨hlink h.1, hnode h.2⟩

/-- An entry that has been moved away is not back, unless it was moved there. -/
theorem Memory.Moved.absent {m m' : Memory} {target : Path} (h : Moved source target m m')
    (hp : p.under target = false) (hnone : m.node? p = none) : m'.node? p = none := by
  cases hs : p.under source with
  | true => exact h.gone p hs
  | false => rw [h.same p hs hp, hnone]

/-- A path without an entry has none after a step that makes none there. -/
theorem Step.absent (ha : Sparing p a) (h : Step a v w) (hv : v.kindAt p = none) : w.kindAt p = none := by
  have hkeeps : Filewise (fun _ => True) a → w.kindAt p = none := by
    intro hfile
    have hw := h.writesOnly hfile
    unfold kindAt at hv ⊢
    rwa [hw.links, hw.kind]
  cases h with
  | job | pass | note | lock | unlock | stale | queue | edit => exact hkeeps trivial
  | @make _ q f _ hgrown =>
    refine kindAt_eq_none_of hv id fun hnone => ?_
    -- The entry and what is made above it lie on its trail.
    by_contra hnew
    have hunder := (Path.mem_trail_iff.1 (hgrown.onTrail p hnone hnew)).1
    rw [show q.under p = false from ha] at hunder
    cases hunder
  | @link _ q text _ _ =>
    refine kindAt_eq_none_of hv (fun hnone => ?_) id
    exact (Links.get?_insert _ _ _ _).trans ((if_neg (Ne.symm ha)).trans hnone)
  | @unlink _ q =>
    refine kindAt_eq_none_of hv (fun hnone => ?_) id
    exact (Links.get?_remove _ _ _).trans (ite_eq_left_iff.2 fun _ => hnone)
  | @relink _ source target text hlink _ _ =>
    refine kindAt_eq_none_of hv (fun hnone => ?_) id
    exact (Links.get?_rename hlink _ _).trans ((if_neg (Ne.symm ha)).trans (ite_eq_left_iff.2 fun _ => hnone))
  | @dropFile _ q f d _ _ _ htree =>
    refine kindAt_eq_none_of hv id fun hnone => ?_
    refine (congrArg (node? · p) htree).trans ?_
    exact (node?_prune ..).trans (ite_eq_left_iff.2 fun _ => hnone)
  | @dropTree _ q f _ _ htree =>
    refine kindAt_eq_none_of hv (fun hnone => ?_) fun hnone => ?_
    · exact (Links.get?_removeUnder _ _ _).trans (ite_eq_left_iff.2 fun _ => hnone)
    · refine (congrArg (node? · p) htree).trans ?_
      exact (node?_prune ..).trans (ite_eq_left_iff.2 fun _ => hnone)
  | copy _ _ _ htree => exact kindAt_eq_none_of hv id fun hnone => (htree.same p ha).trans hnone
  | moveFile _ _ htree => exact kindAt_eq_none_of hv id fun hnone => Moved.absent htree ha hnone
  | @moveTree _ source target f sizes _ htree =>
    refine kindAt_eq_none_of hv (fun hnone => ?_) fun hnone => Moved.absent htree ha hnone
    refine (Links.get?_renameUnder v.links htree.beside.1 htree.beside.2 p).trans ?_
    rw [Path.relativeTo?_eq_none_iff.2 ha]
    exact ite_eq_left_iff.2 fun _ => hnone

/-! ### Steps that take an entry away -/

omit [LinkMap μ] in
/-- Nothing lies below a path without an entry. -/
theorem Consistent.nothing_below {q : Path} (h : v.Consistent) (hc : v.memory.Closed) (hp : v.kindAt p = none)
    (hq : q.under p = true) : v.kindAt q = none := by
  obtain ⟨hlink, hnode⟩ := kindAt_eq_none_iff.1 hp
  exact kindAt_eq_none_iff.2 ⟨h.no_link_under hc hnode hlink hq, hc.nothing_under hnode hq⟩

/-- A step takes away the entry at a path. -/
inductive Takes (source : Path) (u x : Vfs Memory μ) : Prop
  | link (text : String) (link : u.links.get? source = some text) (step : Step (.unlink source) u x)
  | drop (step : Step (.drop source) u x)
  | relink (target : Path) (other : target ≠ source) (step : Step (.relink source target) u x)
  | move (target : Path) (step : Step (.move source target) u x)

/-- What was taken away is gone. -/
theorem Takes.gone {x : Vfs Memory μ} (h : Takes source u x) (hc : u.memory.Closed) (hu : u.Consistent) :
    x.kindAt source = none := by
  rw [kindAt_eq_none_iff]
  cases h with
  | link text hlink step =>
    cases step with
    | unlink => exact ⟨(Links.get?_remove _ _ _).trans (if_pos rfl), hu.apart source text hlink⟩
  | drop step =>
    cases step with
    | @dropFile _ _ f d hfile _ _ htree =>
      refine ⟨hu.no_link_under_file hc hfile (Path.under_refl source), ?_⟩
      refine (congrArg (node? · source) htree).trans ?_
      rw [node?_prune, if_pos (Path.under_refl source)]
    | @dropTree _ _ f _ _ htree =>
      refine ⟨(Links.get?_removeUnder _ _ _).trans (if_pos (Path.under_refl source)), ?_⟩
      refine (congrArg (node? · source) htree).trans ?_
      rw [node?_prune, if_pos (Path.under_refl source)]
  | relink target hother step =>
    cases step with
    | @relink _ _ _ text hlink _ _ =>
      refine ⟨(Links.get?_rename hlink _ _).trans ?_, hu.apart source text hlink⟩
      rw [if_neg (Ne.symm hother), if_pos rfl]
  | move target step =>
    cases step with
    | moveFile hfile _ htree =>
      exact ⟨hu.no_link_under_file hc hfile (Path.under_refl source), htree.gone source (Path.under_refl source)⟩
    | moveTree _ htree =>
      refine ⟨(Links.get?_renameUnder u.links htree.beside.1 htree.beside.2 source).trans ?_,
        htree.gone source (Path.under_refl source)⟩
      rw [Path.relativeTo?_eq_none_iff.2 htree.beside.1]
      exact if_pos (Path.under_refl source)

/-- What was taken away in the last step of an operation is gone, with all below it. -/
theorem After.gone {P : Act → Prop} (h : After P (Takes source) v w) (hv : v.Healthy)
    (hcons : v.Consistent) (hp : p.under source = true) : w.kindAt p = none := by
  obtain ⟨u, x, hu, hx, hw⟩ := h
  have hgone : w.kindAt source = none := by
    refine hw.keeps (I := fun y => y.kindAt source = none) (fun b y z hb hstep => ?_)
      (hx.gone (hu.closed hv.closed) (hu.consistent hv.closed hcons))
    subst hb
    exact Step.absent (a := .note) trivial hstep
  have hreach : Reaches Any v w := by
    have hstep : Reaches Any u x := by
      cases hx with
      | link _ _ step | drop step | relink _ _ step | move _ step => exact .single trivial step
    exact (hu.mono fun _ _ => trivial).trans (hstep.trans (hw.mono fun _ _ => trivial))
  exact (hreach.consistent hv.closed hcons).nothing_below (hreach.closed hv.closed) hgone hp

/-! ### Operations -/

/-- The descriptor that an operation is on. -/
def Operation.descriptor? : Operation → Option String
  | read fd _ _ | write fd _ _ | readStream fd _ | writeStream fd _ | seek fd _ | writeDetached fd _ _ | setSize fd _
  | sync fd | release fd | stat fd | readDirectory fd => some fd
  | _ => none

/-- The path at which an operation makes an entry if it succeeds. -/
def Operation.Destination (op : Operation) (s : Session Memory μ) (q : Path) : Prop :=
  match op with
  | openAt b raw flags _ => flags.create = true ∧ Names b raw flags.follow s q
  | createDirectoryAt b raw => Names b raw false s q
  | symlinkAt b _ raw => Names b raw false s q
  | renameAt _ _ c toRaw => Names c toRaw false s q
  | _ => False

/-- The path from which an operation takes the entry away if it succeeds. -/
def Operation.Source (op : Operation) (s : Session Memory μ) (q : Path) : Prop :=
  match op with
  | unlinkAt b raw => Names b raw false s q
  | removeDirectoryAt b raw => Names b raw false s q
  | renameAt b raw c toRaw => Names b raw false s q ∧ ¬ Names c toRaw false s q
  | _ => False

section Operations

variable {op : Operation}

omit [LinkMap μ] in
theorem Operation.Prepares.filewise (h : op.Prepares s a) (hop : op.descriptor? = some fd)
    (S : Path → Prop) : Filewise S a := by
  cases h with
  | copy => cases hop
  | _ => trivial

omit [LinkMap μ] in
theorem Operation.Changes.filewise {d : Descriptor} (h : op.Changes s a) (hop : op.descriptor? = some fd)
    (hd : s.descriptors.get? fd = some d) : Filewise (· = d.path) a := by
  cases h with
  | write hd' | writeStream hd' | writeDetached hd' | queue hd' | setSize hd' _ _ =>
    cases hop
    rw [hd] at hd'
    cases hd'
    rfl
  | _ => cases hop

/-- An operation on a descriptor writes to the file at its path, and jobs are done. -/
theorem Operation.writesOnly {d : Descriptor} (hs : s.space.Healthy) (hop : op.descriptor? = some fd)
    (hd : s.descriptors.get? fd = some d) : WritesOnly (· = d.path) s.space (op.run s).2.space := by
  refine wp.state (P := fun t : Session Memory μ => WritesOnly (· = d.path) s.space t.space) ?_
  refine (op.ended hs).mono (fun _ t h => ?_) fun _ t h => ?_
  · exact (h.reaches (fun _ ha => ha.filewise hop _) (fun _ ha => ha.filewise hop hd) trivial).writesOnly
  · exact (h.1.mono fun _ ha => ha.prepares.filewise hop _).writesOnly

omit [LinkMap μ] in
theorem Operation.Prepares.sparing (h : op.Prepares s a)
    (hp : ∀ q, op.Destination s q → p.under q = false ∧ q.under p = false) : Sparing p a := by
  cases h with
  | copy _ hq _ => exact (hp _ hq).1
  | _ => trivial

omit [LinkMap μ] in
theorem Operation.Changes.sparing (h : op.Changes s a)
    (hp : ∀ q, op.Destination s q → p.under q = false ∧ q.under p = false) : Sparing p a := by
  have hne : ∀ {q : Path}, op.Destination s q → q ≠ p := by
    rintro q hq rfl
    have := (hp q hq).1
    rw [Path.under_refl] at this
    cases this
  cases h with
  | create hflag hq => exact (hp _ ⟨hflag, hq⟩).2
  | createDirectory hq => exact (hp _ hq).2
  | relink _ hq => exact hne hq
  | move _ hq _ _ => exact (hp _ hq).1
  | symlink hq => exact hne hq
  | _ => trivial

omit [LinkMap μ] in
theorem Operation.Tries.sparing (h : op.Tries s a) (p : Path) : Sparing p a := by
  cases h with
  | wait | lock | setSize => trivial

/-- An operation that takes an entry away takes all below it away. -/
theorem Operation.gone {x : Value} (hs : s.space.Healthy) (hcons : s.space.Consistent)
    (hrun : op.run s = (.ok x, t)) (hsource : op.Source s source) (hp : p.under source = true) :
    t.space.kindAt p = none := by
  have hnamed : ∀ {b : Option String} {d : Option Descriptor} {raw : String} {q : Path}, Names b raw false s source →
      (base b s).1 = .ok d → resolve d raw false s.space = (.ok q, s.space) → q = source :=
    fun hnames hd hres => Names.unique ⟨_, hd, by rw [hres]⟩ hnames
  cases op with
  | unlinkAt b raw =>
    have hended : Ended (fun w => w.kindAt p = none) (· = .wait) Error.Own (unlinkAt b raw).run s := by
      refine .onBase hs (fun d hd => (ends_unlinkAt d raw s.space).imp ?_) fun _ _ => rfl
      rintro - w ⟨q, hres, h⟩
      obtain rfl := hnamed hsource hd hres
      refine (h.mono (fun _ ha => ha) fun u x hx => ?_).gone hs hcons hp
      rcases hx with ⟨⟨text, hlink⟩, hx⟩ | hx
      · exact .link text hlink hx
      · exact .drop hx
    exact hended.ok hrun
  | removeDirectoryAt b raw =>
    have hended : Ended (fun w => w.kindAt p = none) (· = .wait) Error.Own (removeDirectoryAt b raw).run s := by
      refine .onBase hs (fun d hd => (ends_removeDirectoryAt d raw s.space).imp ?_)
        fun _ _ => rfl
      rintro - w ⟨q, hres, h⟩
      obtain rfl := hnamed hsource hd hres
      exact (h.mono (fun _ ha => ha) fun u x hx => .drop hx).gone hs hcons hp
    exact hended.ok hrun
  | renameAt b raw c toRaw =>
    obtain ⟨hsource, hother⟩ := hsource
    have hended : Ended (fun w => w.kindAt p = none) (· = .wait) Error.Own (renameAt b raw c toRaw).run s := by
      refine .bind_base fun d hd => .onBase hs (fun d' hd' => (ends_renameAt d raw d' toRaw s.space).mono
        (fun _ h => h) ?_ fun _ h => h) fun _ _ => rfl
      rintro - w ⟨q, target, hres, htarget, h⟩
      obtain rfl := hnamed hsource hd hres
      -- An entry that is renamed to itself stays, and this is not counted as taking it away.
      have hne : target ≠ q := by
        rintro rfl
        exact hother ⟨d', hd', by rw [htarget]⟩
      rcases h with ⟨e, -⟩ | ⟨-, h⟩
      · exact absurd e.symm hne
      · refine (h.mono (fun _ ha => ha) fun u x hx => ?_).gone hs hcons hp
        rcases hx with hx | hx
        · exact .relink target hne hx
        · exact .move target hx
    exact hended.ok hrun
  | _ => exact hsource.elim

end Operations

/-! ### Runs -/

/-- An event makes no entry at, above or below a path. -/
def Event.Avoids (p : Path) (e : Event) (s : Session Memory μ) : Prop :=
  match e with
  | use op => ∀ x, (op.run s).1 = .ok x → ∀ q, op.Destination s q → p.under q = false ∧ q.under p = false
  | _ => True

/-- No event of a run makes an entry at, above or below a path. -/
def Session.Avoids (p : Path) : Session Memory μ → List Event → Prop
  | _, [] => True
  | s, e :: run => e.Avoids p s ∧ Avoids p (e.happen s) run

/-- A path without an entry has none after an event that makes none there. -/
theorem Event.absent {e : Event} (hs : s.space.Healthy) (he : e.Avoids p s) (hp : s.space.kindAt p = none) :
    (e.happen s).space.kindAt p = none := by
  have hkeeps : ∀ {P : Act → Prop} {w : Vfs Memory μ}, Reaches P s.space w → (∀ a, P a → Sparing p a) →
      w.kindAt p = none :=
    fun hr hP => hr.keeps (fun _ _ _ ha hstep => hstep.absent (hP _ ha)) hp
  cases e with
  | use op =>
    show (op.run s).2.space.kindAt p = none
    rcases hrun : op.run s with ⟨r | x, t⟩
    · exact hkeeps ((op.ended hs).error hrun).1 fun _ ha => ha.sparing p
    · have havoids := he x (by rw [hrun])
      exact hkeeps (((op.ended hs).ok hrun).reaches (fun _ ha => ha.sparing havoids) (fun _ ha => ha.sparing havoids)
        trivial) fun _ ha => ha
  | work n => exact hkeeps (reaches_runJobs n s.space) fun a ha => by rw [ha]; trivial
  | pace l => exact hp

theorem Session.absent_after {run : List Event} (hs : s.space.Healthy) (hrun : s.Avoids p run)
    (hp : s.space.kindAt p = none) : (s.after run).space.kindAt p = none := by
  induction run generalizing s with
  | nil => exact hp
  | cons e run ih => exact ih (healthy_after [e] hs) hrun.2 (e.absent hs hrun.1 hp)

/-- A look finds nothing exactly where there is no entry. -/
theorem Healthy.lookup_eq_none_iff (hv : v.Healthy) : (lookup p v).1 = .ok none ↔ v.kindAt p = none := by
  obtain ⟨w, hw, hrun⟩ := hv.lookup_run p
  have hkind : w.kindAt p = v.kindAt p := by
    rcases hw with rfl | rfl
    · rfl
    · exact (reaches_runDue v).waited.kindAt p
  rw [hrun, ← hkind, ← kind_entryAt, Option.map_eq_none_iff]
  exact ⟨fun h => Except.ok.inj h, fun h => congrArg Except.ok h⟩

/-- Nothing comes back by itself. An operation on a descriptor changes no links, makes and removes no entry, and changes
the bytes of no file but that at the path of the descriptor and those to which the jobs write that are done meanwhile; a
job changes the bytes of its file only. So a path at which a look finds nothing stays so along every run, until an
operation succeeds that makes an entry at, above or below it. In a namespace that was started consistent, this is the
fate of all at and below a path that was removed or renamed. -/
theorem removed_paths_stay_removed {μ : Type} [LinkMap μ] {o : Options} {w w' : World Memory μ} {v : Vfs Memory μ}
    (hstart : start o w = (.ok v, w')) (hstore : w.files.Reachable) (hfree : ∀ p, w.files.isLocked p = false)
    (descriptors : Table String Descriptor) (run : List Event) :
    let s := after ⟨v, descriptors⟩ run
    (∀ (op : Operation) fd d, op.descriptor? = some fd → s.descriptors.get? fd = some d →
      WritesOnly (· = d.path) s.space (op.run s).2.space) ∧
    (∀ (x : Vfs Memory μ) n, (x.runJobs n).links = x.links ∧ (∀ q, (x.runJobs n).memory.kind? q = x.memory.kind? q) ∧
      ∀ q, (∀ j ∈ x.background.queue.take n, j.work.writesTo q = false) →
        (x.runJobs n).memory.atRest? q = x.memory.atRest? q) ∧
    (∀ p later, (lookup p s.space).1 = .ok none → s.Avoids p later → (lookup p (s.after later).space).1 = .ok none) ∧
    (v.Consistent → ∀ (op : Operation) x t source p later, op.run s = (.ok x, t) → op.Source s source →
      p.under source = true → t.Avoids p later → (lookup p (t.after later).space).1 = .ok none) := by
  intro s
  have hv := healthy_of_start hstart hstore hfree
  have hs : s.space.Healthy := healthy_after run hv
  refine ⟨fun op fd d hop hd => op.writesOnly hs hop hd, fun x n => writesOnly_runJobs n x, ?_, ?_⟩
  · intro p later hp hlater
    exact (healthy_after later hs).lookup_eq_none_iff.2
      (absent_after hs hlater (hs.lookup_eq_none_iff.1 hp))
  · intro hcons op x t source p later hrun hsource hp hlater
    have ht : t.space.Healthy := by
      have hafter := healthy_after [.use op] hs
      rwa [show (s.after [.use op]) = (op.run s).2 from rfl, hrun] at hafter
    refine (healthy_after later ht).lookup_eq_none_iff.2 (absent_after ht hlater ?_)
    exact op.gone hs (consistent_after run hv.closed hcons) hrun hsource hp

/-- A file that is open, with a write in the queue. -/
def aQueuedWrite : List Event :=
  [.use (.openAt none "f" .createFile (some "fd")), .use (.writeDetached "fd" [1, 2] 0)]

/-- The file is removed before the write is done; neither the queued write nor others bring it back. -/
theorem removed_paths_stay_removed_inMemory :
    ∃ t, (Operation.unlinkAt none "f").run (after ⟨inMemory, ∅⟩ aQueuedWrite) = (.ok .unit, t) ∧
      (lookup (Path.root.child ⟨"f", by decide⟩)
        (t.after [.use (.write "fd" [3] 0), .use (.setSize "fd" 7), .work 5]).space).1 = .ok none := by
  obtain ⟨hstart, hstore, hfree⟩ := inMemory_started
  obtain ⟨t, hrun⟩ : ∃ t, (Operation.unlinkAt none "f").run (after ⟨inMemory, ∅⟩ aQueuedWrite) =
      (.ok .unit, t) := ⟨_, rfl⟩
  refine ⟨t, hrun, ?_⟩
  refine (removed_paths_stay_removed hstart hstore hfree ∅ aQueuedWrite).2.2.2
    (consistent_of_no_links fun p => Table.get?_empty p) _ _ t _ _ _ hrun ⟨none, rfl, rfl⟩ (Path.under_refl _) ?_
  exact ⟨fun _ _ _ h => h.elim, fun _ _ _ h => h.elim, trivial, trivial⟩

end Filespace.Vfs
