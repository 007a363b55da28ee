import Filespace.Proofs.AlikeTrees
import Filespace.Proofs.HealthyFiles
import Filespace.Proofs.Likeness

/-!
# Namespaces that look alike

Two namespaces in memory are compared, one that keeps a handle on each file it uses and one that keeps none. They are
alike (`AlikeBy`) if they have the same links, listings, sizes and working directory, and trees that a reader cannot tell
apart; handles, locks, times and what waits in the queues can differ.

While operations look, both namespaces stay sound and consistent (`Pair`), so the warm handles of the first are on the
files that the second asks its store for. Once they start to change things, all that is needed is that the files
concerned are not locked. What is shown here are the calls that change the tree; the rest is in `Likeness`.
-/

namespace Filespace

open Storage Memory Table

/-- A descriptor without the time of its entry. -/
def Descriptor.timeless (d : Descriptor) : Descriptor := { d with entry := d.entry.timeless }

namespace Entry

variable {e e' : Entry}

theorem kind_timeless (e : Entry) : e.timeless.kind = e.kind := by
  cases e <;> rfl

theorem size_timeless (e : Entry) : e.timeless.size = e.size := by
  cases e <;> rfl

/-- Entries that differ in time only are of one kind. -/
theorem kind_of_timeless (h : e'.timeless = e.timeless) : e'.kind = e.kind := by
  rw [← kind_timeless, h, kind_timeless]

end Entry

namespace Vfs

variable {μ α β : Type} [LinkMap μ] {v v' w w' : Vfs Memory μ} {p : Path}

/-! ### The relation -/

/-- No writes are in the queue. -/
def OnlyLinkJobs (v : Vfs Memory μ) : Prop := ∀ j ∈ v.background.queue, ∃ l, j.work = .link l

/-- The namespaces show the same, given what relates their trees. The first keeps handles, the second has none. -/
structure AlikeBy (T : Memory → Memory → Prop) (v v' : Vfs Memory μ) : Prop where
  trees : T v.memory v'.memory
  links : v'.links = v.links
  resolver : v'.resolver = v.resolver
  listings : v'.listings = v.listings
  /-- The same sizes are remembered, at whatever time. -/
  sizes : (v'.sizes.map fun _ => FileMeta.size) = v.sizes.map fun _ => FileMeta.size
  jobs : v.OnlyLinkJobs
  jobs' : v'.OnlyLinkJobs
  policy : v.coldPath = .acquire
  policy' : v'.coldPath = .direct
  /-- The second namespace has no warm handles. -/
  cold' : ∀ p, v'.handles.get? p = none

/-- What every chain of steps keeps. -/
structure Fit (v : Vfs Memory μ) : Prop where
  closed : v.memory.Closed
  sound : v.Sound
  consistent : v.Consistent

/-- Namespaces that are alike between two operations. -/
structure Pair (v v' : Vfs Memory μ) : Prop where
  left : v.Fit
  right : v'.Fit
  alike : AlikeBy Alike v v'

theorem Reaches.fit {P : Act → Prop} (h : Reaches P v w) (hv : v.Fit) : w.Fit :=
  ⟨h.closed hv.closed, h.sound hv.closed hv.sound, h.consistent hv.closed hv.consistent⟩

section Relation

variable {T T' : Memory → Memory → Prop}

omit [LinkMap μ] in
theorem AlikeBy.mono (h : AlikeBy T v v') (hT : T v.memory v'.memory → T' v.memory v'.memory) : AlikeBy T' v v' :=
  { h with trees := hT h.trees }

omit [LinkMap μ] in
/-- What is alike without looking at some locks is alike. -/
theorem AlikeBy.shown {U : Path → Prop} (h : AlikeBy (AlikeOn U) v v') : AlikeBy Alike v v' :=
  h.mono fun ht => ht.toAlike

omit [LinkMap μ] in
theorem AlikeBy.knownSize (h : AlikeBy T v v') (p : Path) :
    (v'.knownSize? p).map FileMeta.size = (v.knownSize? p).map FileMeta.size := by
  have hsizes := congrArg (fun t => t.get? p) h.sizes
  simp only [get?_map] at hsizes
  exact hsizes

omit [LinkMap μ] in
/-- Paths without a handle are not locked. -/
theorem Pair.free (h : Pair v v') : AlikeBy (AlikeOn fun q => v.handles.get? q = none) v v' :=
  h.alike.mono fun ht => ⟨ht, fun _ hq => h.left.sound.handles.unlocked hq,
    fun q _ => h.right.sound.handles.unlocked (h.alike.cold' q)⟩

/-- Operations that are chains of steps lead from pairs to pairs. -/
theorem Pair.parallel {x : VfsM Memory μ α} {y : VfsM Memory μ β} {R : α → β → Prop}
    {E E' : Vfs Memory μ → Error → Prop} {P P' : Act → Prop}
    (h : ∀ v v', Pair v v' →
      Agree x y (fun a b w w' => R a b ∧ AlikeBy Alike w w') (AlikeBy Alike) v v')
    (hx : ∀ v, Runs P x (fun _ _ => True) (E v) v) (hy : ∀ v, Runs P' y (fun _ _ => True) (E' v) v) :
    Parallel Pair R x y := by
  intro v v' hp
  have hleft := hx v hp.left.closed
  have hright := hy v' hp.right.closed
  refine ((h v v' hp).and_wp hleft hright).mono ?_ ?_
  · rintro a b w w' ⟨⟨hR, halike⟩, ⟨hw, -⟩, hw', -⟩
    exact ⟨hR, hw.fit hp.left, hw'.fit hp.right, halike⟩
  · rintro w w' ⟨halike, ⟨e, hw, -⟩, e', hw', -⟩
    exact ⟨hw.fit hp.left, hw'.fit hp.right, halike⟩

end Relation

/-! ### Waiting -/

section Waiting

variable {T : Memory → Memory → Prop}

/-- Jobs that change the link records leave the tree alone. -/
theorem OnlyLinkJobs.runJobs (h : v.OnlyLinkJobs) (n : Nat) :
    (v.runJobs n).memory = v.memory ∧ (v.runJobs n).OnlyLinkJobs := by
  induction n generalizing v with
  | zero =>
    exact ⟨rfl, h⟩
  | succ n ih =>
    cases hq : v.background.queue with
    | nil =>
      rw [runJobs_nil _ hq]
      exact ⟨rfl, h⟩
    | cons j rest =>
      rw [runJobs_succ n hq]
      obtain ⟨l, hl⟩ := h j (by rw [hq]; exact List.mem_cons_self)
      have hmemory : (v.finished j rest).memory = v.memory := by
        unfold finished memory
        rw [hl]
        rfl
      have hjobs : (v.finished j rest).OnlyLinkJobs := fun k hk => h k (by rw [hq]; exact List.mem_cons_of_mem j hk)
      rw [← hmemory]
      exact ih hjobs

theorem OnlyLinkJobs.runDue (h : v.OnlyLinkJobs) : v.runDue.memory = v.memory ∧ v.runDue.OnlyLinkJobs := by
  unfold Vfs.runDue
  cases v.pace with
  | nil => exact h.runJobs _
  | cons n rest => exact h.runJobs n

omit [LinkMap μ] in
/-- The first namespace has waited. -/
theorem AlikeBy.left (h : AlikeBy T v v') (hw : Waited v w) (hm : w.memory = v.memory) (hj : w.OnlyLinkJobs) :
    AlikeBy T w v' where
  trees := by rw [hm]; exact h.trees
  links := by rw [h.links, hw.links]
  resolver := by rw [h.resolver, hw.resolver]
  listings := by rw [h.listings, hw.listings]
  sizes := by rw [h.sizes, hw.sizes]
  jobs := hj
  jobs' := h.jobs'
  policy := by rw [hw.coldPath, h.policy]
  policy' := h.policy'
  cold' := h.cold'

omit [LinkMap μ] in
/-- The second namespace has waited. -/
theorem AlikeBy.right (h : AlikeBy T v v') (hw : Waited v' w') (hm : w'.memory = v'.memory) (hj : w'.OnlyLinkJobs) :
    AlikeBy T v w' where
  trees := by rw [hm]; exact h.trees
  links := by rw [hw.links, h.links]
  resolver := by rw [hw.resolver, h.resolver]
  listings := by rw [hw.listings, h.listings]
  sizes := by rw [hw.sizes, h.sizes]
  jobs := h.jobs
  jobs' := hj
  policy := h.policy
  policy' := by rw [hw.coldPath, h.policy']
  cold' p := by rw [hw.handles, h.cold']

theorem AlikeBy.due_left (h : AlikeBy T v v') : AlikeBy T v.runDue v' :=
  h.left (reaches_runDue v).waited h.jobs.runDue.1 h.jobs.runDue.2

theorem AlikeBy.due_right (h : AlikeBy T v v') : AlikeBy T v v'.runDue :=
  h.right (reaches_runDue v').waited h.jobs'.runDue.1 h.jobs'.runDue.2

end Waiting

/-! ### The store -/

section Store

variable {T U S : Memory → Memory → Prop} {R : α → β → Prop}

omit [LinkMap μ] in
/-- Two calls on the stores. -/
theorem agree_onFiles {x : StoreM (Host × Memory) α} {y : StoreM (Host × Memory) β} (h : AlikeBy T v v')
    (hx : Agree x y (fun a b s t => R a b ∧ U s.2 t.2) (fun s t => S s.2 t.2)
      (v.world.host, v.memory) (v'.world.host, v'.memory)) :
    Agree (onFiles x) (onFiles y) (fun a b w w' => R a b ∧ AlikeBy U w w') (AlikeBy S) v v' := by
  have hrun : ∀ {α : Type} (x : StoreM (Host × Memory) α) (v : Vfs Memory μ),
      onFiles x v = ((x (v.world.host, v.memory)).1.mapError .storage,
        { v with world := { v.world with host := (x (v.world.host, v.memory)).2.1, files := (x (v.world.host, v.memory)).2.2 } }) :=
    fun _ _ => rfl
  obtain ⟨a, b, s, t, hxs, hyt, hR, hT⟩ | ⟨e, s, t, hxs, hyt, hS⟩ := hx.cases
  · refine (agree_of_ok (by rw [hrun, hxs]; rfl) (by rw [hrun, hyt]; rfl)).2 ⟨hR, ?_⟩
    exact { h with trees := hT }
  · refine (agree_of_error (by rw [hrun, hxs]; rfl) (by rw [hrun, hyt]; rfl)).2 ?_
    exact { h with trees := hS }

/-- One request of both stores. -/
theorem agree_call {r : Request} {R : Reply Handle → Reply Handle → Prop} (h : AlikeBy T v v')
    (hr : ∀ s t, T s.2 t.2 →
      Agree r.execute r.execute (fun a b s t => R a b ∧ U s.2 t.2) (fun s t => S s.2 t.2) s t) :
    Agree (call r) (call r) (fun a b w w' => R a b ∧ AlikeBy U w w') (AlikeBy S) v v' := by
  have hdue := h.due_left.due_right
  exact .bind (.modify hdue) (fun _ _ hs => hs)
    fun _ _ w w' hw => agree_onFiles hw (hr _ _ hw.trees)

end Store

/-! ### Looking -/

/-- A warm handle tells the length that the store tells. -/
theorem parallel_lookup (p : Path) :
    Parallel (Pair (μ := μ)) (fun a b => b.map Entry.timeless = a.map Entry.timeless) (lookup p) (lookup p) := by
  refine Pair.parallel (fun v v' h => ?_) (fun v => (runs_lookup p v).imp fun _ _ _ _ => trivial)
    (fun v => (runs_lookup p v).imp fun _ _ _ _ => trivial)
  refine .get_bind ?_
  rw [h.alike.links]
  cases v.links.get? p with
  | some target => exact .pure ⟨rfl, h.alike⟩
  | none =>
    refine .ite (fun _ => .pure ⟨rfl, h.alike⟩) fun _ => ?_
    have hdue := h.alike.due_left.due_right
    refine .bind_left (call_entry_run p v) (.bind_right (call_entry_run p v') ?_)
    obtain ⟨hn, hn'⟩ | ⟨hn, hn'⟩ | ⟨d, d', hn, hn', hb⟩ := hdue.trees.node?_cases p <;> rw [hn, hn']
    · exact .pure ⟨rfl, hdue⟩
    · exact .pure ⟨rfl, hdue⟩
    · -- The second namespace has no handle; the first may have one.
      have hsound := (reaches_runDue v).sound h.left.closed h.left.sound
      refine .bind_left rfl (.bind_right rfl (.get_bind ?_))
      rw [hdue.cold']
      cases hk : v.runDue.handles.get? p with
      | none => exact .pure ⟨by simp [Entry.timeless, hb], hdue⟩
      | some k => exact .bind_left (hsound.size_run hk hn) (.pure ⟨by simp [Entry.timeless, hb], hdue⟩)

/-! ### Caches and links -/

section Caches

omit [LinkMap μ]

variable {T : Memory → Memory → Prop}

theorem parallel_clearListings : Parallel (AlikeBy (μ := μ) T) Eq clearListings clearListings :=
  .modify fun _ _ h => { h with listings := by rw [h.listings] }

theorem parallel_noteSize (p : Path) (size : Nat) :
    Parallel (AlikeBy (μ := μ) T) Eq (noteSize p size) (noteSize p size) := by
  refine .modify fun v v' h => { h with sizes := ?_ }
  rw [map_insert, map_insert, h.sizes]

theorem parallel_setLinks (l : Links) (jobs : List LinkJob) :
    Parallel (AlikeBy (μ := μ) T) Eq (setLinks l jobs) (setLinks l jobs) := by
  have hsubmit : ∀ (jobs : List LinkJob) (b : Background Work), (∀ j ∈ b.queue, ∃ l, j.work = .link l) →
      ∀ j ∈ (jobs.foldl (fun b j => (b.submit j.label (.link j)).2) b).queue, ∃ l, j.work = .link l := by
    intro jobs
    induction jobs with
    | nil => exact fun b hb => hb
    | cons job jobs ih =>
      intro b hb
      refine ih _ fun j hj => ?_
      rcases List.mem_append.1 hj with hj | hj
      · exact hb j hj
      · rw [List.mem_singleton.1 hj]
        exact ⟨job, rfl⟩
  intro v v' h
  refine (agree_of_ok (setLinks_run l jobs v) (setLinks_run l jobs v')).2 ⟨rfl, ?_⟩
  exact { h with links := rfl, jobs := hsubmit jobs _ h.jobs, jobs' := hsubmit jobs _ h.jobs' }

/-- Closing handles changes nothing that a reader sees. -/
theorem alike_closed (l : List (Path × Handle)) (s : Host × Memory) :
    Alike s.2 (l.foldl (fun s x => Handles.closeQuietly x.2 s) s).2 := by
  induction l generalizing s with
  | nil => exact .refl s.2
  | cons x l ih => exact (alike_release s.2 x.2).trans (ih (s.1, s.2.release x.2))

end Caches

/-- Forgetting a path makes all at and below it cold. -/
theorem agree_forget (h : Pair v v') (p : Path) :
    Agree (forget p) (forget p)
      (fun _ _ w w' => Pair w w' ∧ w.handles = v.handles.filter fun q _ => !q.under p) (fun _ _ => False) v v' := by
  have halike : Agree (forget p) (forget p)
      (fun _ _ w w' => AlikeBy Alike w w' ∧ w.handles = v.handles.filter fun q _ => !q.under p)
      (fun _ _ => False) v v' := by
    refine .modify ⟨{ h.alike with trees := ?_, sizes := ?_, cold' := ?_ }, rfl⟩
    · exact ((alike_closed _ _).symm.trans h.alike.trees).trans (alike_closed _ _)
    · rw [map_filter FileMeta.size v.sizes fun q => !q.under p,
        map_filter FileMeta.size v'.sizes fun q => !q.under p, h.alike.sizes]
    · intro q
      show (v'.handles.filter fun q _ => !q.under p).get? q = none
      rw [get?_filter, h.alike.cold']
      rfl
  have hforget : ∀ u : Vfs Memory μ, wp (forget p) (fun _ w => Reaches Any u w) (fun _ _ => True) u :=
    fun u => (wp_forget trivial (fun _ => trivial) trivial u).imp fun _ _ h => h.1
  refine (halike.and_wp (hforget v) (hforget v')).mono ?_ fun _ _ hs => hs.1
  rintro - - w w' ⟨⟨hw, hhandles⟩, hreach, hreach'⟩
  exact ⟨⟨hreach.fit h.left, hreach'.fit h.right, hw⟩, hhandles⟩

/-! ### Listing -/

/-- A listing does not show times. -/
theorem mergeListing_of_timeless {l l' : List (Name × Stat)} (h : l'.map timelessRow = l.map timelessRow)
    (links : List (Name × String)) : mergeListing l' links = mergeListing l links := by
  have hkinds : ∀ l : List (Name × Stat),
      (l.map fun x => (x.1, x.2.isDirectory)) = (l.map timelessRow).map fun x => (x.1, x.2.isDirectory) := by
    intro l
    rw [List.map_map]
    congr 1
    funext ⟨n, s⟩
    cases s <;> rfl
  refine mergeListing_congr ?_ links
  rw [hkinds, hkinds l, h]

theorem agree_list (h : Pair v v') (dir : Path) :
    Agree (list dir) (list dir) (fun a b w w' => a = b ∧ AlikeBy Alike w w') (AlikeBy Alike) v v' := by
  refine .get_bind ?_
  rw [h.alike.listings]
  cases v.listings.get? dir with
  | some entries => exact .pure ⟨rfl, h.alike⟩
  | none =>
    refine .bind (agree_call h.free fun s t hs => Request.parallel_list dir s t hs) (fun _ _ hs => hs.shown) ?_
    rintro _ _ w w' ⟨⟨l, l', rfl, rfl, hl⟩, hw⟩
    refine .bind_left rfl (.bind_right rfl (.get_bind ?_))
    rw [mergeListing_of_timeless hl, hw.links]
    refine .bind (.modify ?_) (fun _ _ hs => hs)
      fun _ _ _ _ hs => .pure ⟨rfl, hs⟩
    exact { hw.shown with listings := by rw [hw.listings] }

/-! ### Making and removing -/

omit [LinkMap μ] in
/-- What a filter by path has taken away is cold. -/
theorem cold_of_filter (h : w.handles = v.handles.filter fun q _ => !q.under p) : w.ColdBelow p := by
  intro q hq
  rw [h]
  exact get?_filter_of_false fun _ => by rw [hq]; rfl

/-- What was forgotten is removed alike. -/
theorem agree_remove (h : Pair v v') (p : Path) (recursive : Bool) {x y : VfsM Memory μ Unit}
    (hnext : Parallel (AlikeBy Alike) Eq x y) :
    Agree (do forget p; clearListings; let _ ← call (.remove p recursive); x)
      (do forget p; clearListings; let _ ← call (.remove p recursive); y)
      (fun a b w w' => a = b ∧ AlikeBy Alike w w') (AlikeBy Alike) v v' := by
  refine .bind (agree_forget h p) (fun _ _ hs => hs.elim) ?_
  rintro - - x x' ⟨hx, hhandles⟩
  refine .bind (parallel_clearListings x x' hx.free) (fun _ _ hs => hs.shown) ?_
  rintro - - y y' ⟨-, hy⟩
  refine .bind (agree_call hy fun s t hs => Request.parallel_remove recursive (cold_of_filter hhandles) s t hs)
    (fun _ _ hs => hs.shown) ?_
  rintro - - z z' ⟨-, hz⟩
  exact hnext z z' hz.shown

/-! ### Renaming -/

section Renaming

variable {source target : Path}

/-- An entry moves by the store's own means in both namespaces or in neither. -/
theorem agree_moveEntry {U : Path → Prop} (h : AlikeBy (AlikeOn U) v v')
    (hs : ∀ q, q.under source = true → U q) (ht : ∀ q, q.under target = true → U q) :
    Agree (moveEntry source target) (moveEntry source target) (fun _ _ => AlikeBy Alike)
      (AlikeBy Alike) v v' := by
  refine .bind
    (Q := fun o o' w w' => (o = .ok () ∧ o' = .ok () ∧ AlikeBy Alike w w') ∨
      ∃ e, o = .error e ∧ o' = .error e ∧ AlikeBy (AlikeOn U) w w') ?_ (fun _ _ hs => hs) ?_
  · refine .tryCatch ?_ fun e w w' hw => .pure (Or.inr ⟨e, rfl, rfl, hw⟩)
    refine .bind (agree_call (R := fun _ _ => True) h fun s t hst => ?_) (fun _ _ hs => hs)
      fun _ _ w w' hw => .pure (Or.inl ⟨rfl, rfl, hw.2⟩)
    exact (Request.agree_move hs hst).imp fun _ _ _ _ h => ⟨trivial, h⟩
  · rintro _ _ w w' (⟨rfl, rfl, hw⟩ | ⟨e, rfl, rfl, hw⟩)
    · exact .pure hw
    · refine .ite (fun _ => ?_) fun _ => .throw hw.shown
      refine .bind (agree_call hw fun s t hst => Request.parallel_copy hs ht s t hst) (fun _ _ hs => hs.shown) ?_
      rintro - - u u' ⟨-, hu⟩
      refine .bind (agree_call hu fun s t hst => Request.parallel_remove true hs s t hst) (fun _ _ hs => hs.shown) ?_
      rintro - - x x' ⟨-, hx⟩
      exact .pure hx.shown

/-- A planned move is made alike. -/
theorem agree_relocate {e e' : Entry} (h : Pair v v') (hplan : Planned source target e v)
    (he : e'.timeless = e.timeless) :
    Agree (relocate source target e) (relocate source target e') (fun _ _ => AlikeBy Alike)
      (AlikeBy Alike) v v' := by
  have hkind := Entry.kind_of_timeless he
  have hlink : e'.isLink = e.isLink := by
    unfold Entry.isLink
    rw [hkind]
  have hdirectory : e'.isDirectory = e.isDirectory := by
    unfold Entry.isDirectory
    rw [hkind]
  -- Nothing is at or below the target, so no handle is.
  have hcold : v.ColdBelow target := by
    intro q hq
    refine h.left.sound.handles.noHandle (isLocked_eq_false_iff.2 fun d hd => ?_)
    rw [h.left.closed.nothing_under (kindAt_eq_none_iff.1 hplan.free).2 hq] at hd
    cases hd
  have hclear : Agree clearListings clearListings
      (fun _ _ w w' => Pair w w' ∧ w.handles = v.handles) (fun _ _ => False) v v' := by
    have hnote : ∀ u : Vfs Memory μ, u.Fit → Fit { u with listings := u.listings.clear } :=
      fun u hu => Reaches.fit (P := Any) (.single trivial .note) hu
    refine .modify ⟨⟨hnote v h.left, hnote v' h.right, ?_⟩, rfl⟩
    exact { h.alike with listings := by rw [h.alike.listings] }
  refine .bind hclear (fun _ _ hs => hs.elim) ?_
  rintro - - w w' ⟨hw, hhandles⟩
  rw [hlink, hdirectory]
  refine .ite (fun _ => .get_bind ?_) fun _ => .get_bind ?_
  · rw [hw.alike.links]
    exact (parallel_setLinks _ _ w w' hw.alike).imp fun _ _ _ _ h => h.2
  · have hmoved := map_picked FileMeta.size w'.sizes (fun p => p.relativeTo? source) target.join
    rw [hw.alike.sizes, ← map_picked FileMeta.size w.sizes (fun p => p.relativeTo? source) target.join] at hmoved
    refine .bind (agree_forget hw source) (fun _ _ hs => hs.elim) ?_
    rintro - - x x' ⟨hx, hfilter⟩
    refine .bind (agree_moveEntry hx.free (cold_of_filter hfilter) fun q hq => ?_) (fun _ _ hs => hs) ?_
    · rw [hfilter, hhandles, get?_filter, hcold q hq]
      rfl
    · rintro - - y y' hy
      refine .bind (Q := fun _ _ => AlikeBy Alike) (.modify ?_) (fun _ _ hs => hs) ?_
      · refine { hy with sizes := ?_ }
        rw [map_insertMany, map_insertMany, hy.sizes, hmoved]
      · rintro - - z z' hz
        refine .ite (fun _ => .get_bind ?_) fun _ => .pure hz
        rw [hz.links]
        exact (parallel_setLinks _ _ z z' hz).imp fun _ _ _ _ h => h.2

end Renaming

end Vfs

end Filespace
