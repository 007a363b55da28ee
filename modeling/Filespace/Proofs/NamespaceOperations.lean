import Filespace.Proofs.FileOperations

/-!
# Changes of the namespace are chains of steps

Opening and creating, looking, removing, and links; renaming has a module of its own. Where an operation changes the
store and then the links, both changes together are one step, and it is taken only when the store's part has succeeded.
-/

namespace Filespace

open Storage Memory Error

/-! ### Trees that grow -/

namespace Storage.Memory

variable {m : Memory} {p : Path}

/-- Making a directory grows the tree, if no file is in the way. -/
theorem Closed.grown_grown (hc : m.Closed) (hfree : ∀ q d, q ∈ p.trail → m.node? q ≠ some (.file d)) :
    Grown p m (m.grown p) where
  closed := hc.grown p
  old q hq := by
    rw [node?_grown]
    split
    · rename_i htrail
      rcases hn : m.node? q with _ | (_ | d)
      · exact absurd hn hq
      · rfl
      · exact absurd hn (hfree q d htrail)
    · rfl
  onTrail q hnone hsome := by
    rw [node?_grown] at hsome
    split at hsome
    · rename_i htrail
      exact htrail
    · exact absurd hnone hsome
  unlocked q hnone := by
    unfold isLocked
    rw [node?_grown]
    split
    · rename_i n hn
      split at hn
      · cases hn
        rfl
      · rw [hnone] at hn
        cases hn
    · rfl
  short hs := hs.grown p

/-- Making a file grows the tree. -/
theorem Closed.grown_made (hc : m.Closed) {dir : Path} {n : Name} (hnone : m.node? (dir.child n) = none)
    (hfree : ∀ q d, q ∈ dir.trail → m.node? q ≠ some (.file d)) :
    Grown (dir.child n) m ((m.grown dir).made (dir.child n)) := by
  have hdir := hc.grown_grown hfree
  refine ⟨(hc.grown dir).made (hc.node?_grown_self dir) (by rw [node?_grown_child, hnone]), ?_, ?_, ?_,
    fun hs => (hs.grown dir).made _⟩
  · intro q hq
    rw [node?_made, if_neg, hdir.old q hq]
    rintro rfl
    exact hq hnone
  · intro q hq hsome
    rw [Path.trail_child, List.mem_append, List.mem_singleton]
    rw [node?_made] at hsome
    split at hsome
    · rename_i e
      exact Or.inr e
    · exact Or.inl (hdir.onTrail q hq hsome)
  · intro q hq
    unfold isLocked
    rw [node?_made]
    by_cases e : q = dir.child n
    · rw [if_pos e]
      rfl
    · rw [if_neg e]
      exact hdir.unlocked q hq

/-- A tree that has grown to a free path, with something new there and directories on the way. -/
structure Added (p : Path) (x : Content) (m m' : Memory) : Prop where
  free : m.node? p = none
  grown : Grown p m m'
  new : m'.content? p = some x
  clear : ∀ q ∈ p.trail, q ≠ p → ∀ d, m.node? q ≠ some (.file d)
  old : ∀ q, q ≠ p → m'.content? q = if q ∈ p.trail then some .directory else m.content? q

theorem Added.ne_root {x : Content} {m' : Memory} (h : Added p x m m') (hc : m.Closed) : p ≠ .root := by
  rintro rfl
  have hfree := h.free
  rw [kind?_eq_directory_iff.1 hc.root] at hfree
  cases hfree

theorem Closed.added_directory (hc : m.Closed) (hroot : p ≠ .root) (hnone : m.node? p = none)
    (hfree : ∀ q d, q ∈ p.trail → m.node? q ≠ some (.file d)) : Added p .directory m (m.grown p) where
  free := hnone
  grown := hc.grown_grown hfree
  new := by
    unfold content?
    rw [node?_grown, if_pos (Path.mem_trail_iff.2 ⟨Path.under_refl p, hroot⟩)]
    rfl
  clear q hq _ d := hfree q d hq
  old q _ := by
    unfold content?
    rw [node?_grown]
    split <;> rfl

theorem Closed.added_file (hc : m.Closed) {dir : Path} {n : Name} (hnone : m.node? (dir.child n) = none)
    (hfree : ∀ q d, q ∈ dir.trail → m.node? q ≠ some (.file d)) :
    Added (dir.child n) (.file []) m ((m.grown dir).made (dir.child n)) := by
  have htrail : ∀ {q}, q ≠ dir.child n → (q ∈ (dir.child n).trail ↔ q ∈ dir.trail) := by
    intro q hq
    rw [Path.trail_child, List.mem_append, List.mem_singleton, or_iff_left hq]
  refine ⟨hnone, hc.grown_made hnone hfree, ?_, fun q hq hne d => hfree q d ((htrail hne).1 hq), fun q hne => ?_⟩
  · unfold content?
    rw [node?_made, if_pos rfl]
    rfl
  · unfold content?
    rw [node?_made, if_neg hne, node?_grown, if_congr (htrail hne) rfl rfl]
    split <;> rfl

end Storage.Memory

/-- Where no link is at a resolved path, none is on the way to it. -/
theorem Links.none_on_trail {links : Links} {p : Path} {follow : Bool}
    (htrail : ∀ q ∈ p.trail, (q = p → follow = true) → links.get? q = none) (hlink : links.get? p = none) :
    ∀ q ∈ p.trail, links.get? q = none := by
  intro q hq
  by_cases e : q = p
  · rw [e, hlink]
  · exact htrail q hq fun h => absurd h e

namespace Vfs

variable {φ μ : Type} [FileStore φ] [Backed φ] [LinkMap μ] {v w : Vfs φ μ} {p : Path} {P : Act → Prop}

/-! ### Caches and links -/

omit [Backed φ] [LinkMap μ] in
/-- Taking changed links does not fail. -/
theorem setLinks_run (l : Links) (jobs : List LinkJob) (v : Vfs φ μ) :
    setLinks l jobs v = (.ok (), v.relinked l jobs) := by
  have hsubmit : ∀ (jobs : List LinkJob) (w : Vfs φ μ),
      (jobs.forM fun job => submit job.label (.link job)) w =
        (.ok (), { w with background := jobs.foldl (fun b j => (b.submit j.label (.link j)).2) w.background }) := by
    intro jobs
    induction jobs with
    | nil => intro w; rfl
    | cons job jobs ih =>
      intro w
      exact ih { w with background := (w.background.submit job.label (.link job)).2 }
  exact hsubmit jobs { v with links := l }

/-- Forgetting all listings. -/
theorem runs_clearListings {E : Error → Prop} (hP : P .note) (v : Vfs φ μ) :
    Runs P clearListings (fun _ w => w = { v with listings := v.listings.clear }) E v :=
  .modify (.single hP .note) rfl

/-- Handles are closed one after the other. -/
theorem reaches_closed (hP : ∀ q, P (.unlock q)) {l : List (Path × FileStore.Handle φ)}
    (hl : ∀ q k, (q, k) ∈ l → v.handles.get? q = some k) (hnodup : (l.map Prod.fst).Nodup) :
    ∃ f handles, l.foldl (fun s x => Handles.closeQuietly x.2 s) (v.world.host, v.world.files) = (v.world.host, f) ∧
      (∀ q k, handles.get? q = some k ↔ v.handles.get? q = some k ∧ (q, k) ∉ l) ∧
      Reaches P v { v.withFiles f with handles := handles } := by
  induction l generalizing v with
  | nil => exact ⟨v.world.files, v.handles, rfl, fun q k => by simp, .refl⟩
  | cons x l ih =>
    obtain ⟨p, k⟩ := x
    obtain ⟨hnot, hrest⟩ := List.nodup_cons.1 hnodup
    have hk : v.handles.get? p = some k := hl p k List.mem_cons_self
    have hget : ∀ q, (v.handles.erase p).get? q = if q = p then none else v.handles.get? q :=
      Table.get?_erase v.handles p
    obtain ⟨hhost, htree⟩ := tree_closeQuietly k v.world.host v.world.files
    have hclose : Handles.closeQuietly k (v.world.host, v.world.files) =
        (v.world.host, (Handles.closeQuietly k (v.world.host, v.world.files)).2) := Prod.ext hhost rfl
    have hothers : ∀ q k', (q, k') ∈ l → (v.handles.erase p).get? q = some k' := by
      intro q k' hq
      have hne : q ≠ p := fun e => hnot (List.mem_map.2 ⟨(q, k'), hq, e⟩)
      rw [hget, if_neg hne]
      exact hl q k' (List.mem_cons_of_mem _ hq)
    obtain ⟨f, handles, hfold, hhandles, hreach⟩ := ih
      (v := { v.withFiles (Handles.closeQuietly k (v.world.host, v.world.files)).2 with
        handles := v.handles.erase p }) hothers hrest
    refine ⟨f, handles, ?_, ?_, .trans (.single (hP p) (.unlock hk htree)) hreach⟩
    · rw [List.foldl_cons, hclose]
      exact hfold
    · intro q k'
      rw [hhandles q k', hget, List.mem_cons, Prod.mk.injEq, not_or]
      by_cases e : q = p
      · have : v.handles.get? q = some k' → k' = k := by
          rw [e, hk]
          exact fun h => (Option.some.inj h).symm
        simp only [if_pos e, reduceCtorEq, false_and, false_iff, not_and]
        exact fun h hne => absurd (this h) (hne e)
      · simp [e]

/-- Forgetting a path makes all at and below it cold. -/
theorem wp_forget {E : Error → Vfs φ μ → Prop} (hnote : P .note) (hunlock : ∀ q, P (.unlock q))
    (hstale : P (.stale p)) (v : Vfs φ μ) :
    wp (forget p) (fun _ w => Reaches P v w ∧ w.ColdBelow p) E v := by
  have hdoomed : ∀ q k, (q, k) ∈ (v.handles.filter fun q _ => q.under p).rows ↔
      v.handles.get? q = some k ∧ q.under p = true := by
    intro q k
    rw [← Table.get?_eq_some_iff, Table.get?_filter, Option.filter_eq_some_iff]
  obtain ⟨f, handles, hfold, hget, hclosed⟩ := reaches_closed hunlock (fun q k hq => ((hdoomed q k).1 hq).1) (Table.nodup_keys _)
  have hhandles : (v.handles.filter fun q _ => !q.under p) = handles := by
    apply Table.ext_get?
    intro q
    apply Option.ext
    intro k
    rw [hget, hdoomed, Table.get?_filter]
    cases q.under p <;> simp
  refine wp_modify.2 ⟨?_, ?_⟩
  · unfold Handles.releaseUnder
    simp only
    rw [hfold, hhandles]
    have hnoted : Reaches P { v.withFiles f with handles := handles }
        { v.withFiles f with handles := handles, sizes := v.sizes.filter fun q _ => !q.under p } :=
      .single hnote .note
    exact (hclosed.trans hnoted).trans (.single hstale (.stale))
  · intro q hq
    exact Table.get?_filter_of_false fun _ => by rw [hq]; rfl

/-! ### Steps that keep entries -/

/-- Steps that change nothing of the entries at the paths in `S`, unless jobs write to them. -/
def Quiet (S : Path → Prop) : Act → Prop
  | .wait => True
  | .note => True
  | .lock _ => True
  | .unlock _ => True
  | .stale _ => True
  | .copy _ target => ∀ q, S q → q.under target = false
  | _ => False

/-- What quiet steps keep. -/
structure Kept (S : Path → Prop) (v w : Vfs φ μ) : Prop where
  /-- The links stay. -/
  links : w.links = v.links
  /-- Directories and files stay directories and files. -/
  kind : ∀ q, S q → w.memory.kind? q = v.memory.kind? q
  /-- Without jobs they stay as they are, and so do the link records. -/
  idle : v.background.queue = [] → w.background.queue = [] ∧ w.world.map = v.world.map ∧
    ∀ q, S q → w.memory.atRest? q = v.memory.atRest? q

section Quiet

variable {S : Path → Prop} {a : Act} {u : Vfs φ μ}

omit [LinkMap μ] in
theorem Kept.refl (v : Vfs φ μ) : Kept S v v := ⟨rfl, fun _ _ => rfl, fun h => ⟨h, rfl, fun _ _ => rfl⟩⟩

omit [LinkMap μ] in
theorem Kept.trans (h : Kept S u v) (k : Kept S v w) : Kept S u w where
  links := k.links.trans h.links
  kind q hq := (k.kind q hq).trans (h.kind q hq)
  idle hu := by
    obtain ⟨hv, hmap, hsame⟩ := h.idle hu
    obtain ⟨hw, hmap', hsame'⟩ := k.idle hv
    exact ⟨hw, hmap'.trans hmap, fun q hq => (hsame' q hq).trans (hsame q hq)⟩

/-- Steps that keep more keep less. -/
theorem Quiet.mono {S' : Path → Prop} (hS : ∀ q, S q → S' q) (h : Quiet S' a) : Quiet S a := by
  cases a with
  | copy source target => exact fun q hq => h q (hS q hq)
  | _ => exact h

theorem Step.kept (ha : Quiet S a) (h : Step a v w) : Kept S v w := by
  cases a with
  | wait =>
    have hw := h.waited
    refine ⟨hw.links, fun q _ => hw.kind? q, fun hidle => ?_⟩
    obtain ⟨hq, hmemory, hmap⟩ := hw.idle hidle
    exact ⟨hq, hmap, fun q _ => by rw [hmemory]⟩
  | note => cases h with
    | note => exact ⟨rfl, fun _ _ => rfl, fun h => ⟨h, rfl, fun _ _ => rfl⟩⟩
  | stale p => cases h with
    | stale => exact ⟨rfl, fun _ _ => rfl, fun h => ⟨h, rfl, fun _ _ => rfl⟩⟩
  | lock p => cases h with
    | @lock _ _ f k d _ _ hd _ _ htree =>
      refine ⟨rfl, fun q _ => ?_, fun hq => ⟨hq, rfl, fun q _ => ?_⟩⟩
      · show (Backed.tree f).kind? q = _
        rw [htree, kind?_put_file hd]
      · show (Backed.tree f).atRest? q = _
        rw [htree]
        exact atRest?_put_locked hd true q
  | unlock p => cases h with
    | @unlock _ _ f k _ htree =>
      refine ⟨rfl, fun q _ => ?_, fun hq => ⟨hq, rfl, fun q _ => ?_⟩⟩
      · show (Backed.tree f).kind? q = _
        rw [htree, kind?_release]
      · show (Backed.tree f).atRest? q = _
        rw [htree, atRest?_release]
  | copy source target => cases h with
    | @copy _ _ _ f _ _ _ htree =>
      have hsame : ∀ q, S q → (Backed.tree f).node? q = v.memory.node? q := fun q hq => htree.same q (ha q hq)
      refine ⟨rfl, fun q hq => ?_, fun hidle => ⟨hidle, rfl, fun q hq => ?_⟩⟩
      · exact congrArg (Option.map Node.kind) (hsame q hq)
      · exact congrArg (Option.map Node.atRest) (hsame q hq)
  | _ => exact ha.elim

theorem Reaches.kept (h : Reaches (Quiet S) v w) : Kept S v w := by
  induction h with
  | refl => exact .refl v
  | tail _ hstep ih =>
    obtain ⟨a, ha, hs⟩ := hstep
    exact ih.trans (hs.kept ha)

end Quiet

/-! ### Opening -/

theorem runs_openExisting (p : Path) (flags : Flags) (e : Entry) (v : Vfs φ μ) :
    Runs Any (openExisting p flags e) (fun _ _ => True) (Calm φ) v := by
  refine .ite (fun _ => .throw_bind fun h => nomatch h) fun _ => ?_
  refine .ite (fun _ => .throw_bind fun h => nomatch h) fun _ => ?_
  refine .ite (fun _ => .throw_bind fun h => nomatch h) fun _ => ?_
  refine .ite (fun _ => ?_) fun _ => .pure trivial
  exact .bind (runs_truncatePath p 0 v) fun _ w _ _ => .get_bind (.pure trivial)

/-- A request that makes an entry where no link is on the way. -/
theorem runs_make {r : Request} (hlinks : ∀ q ∈ p.trail, v.links.get? q = none)
    (h : ∀ m : Memory, m.Closed → treeWp (φ := φ) r.execute (fun _ m' => m' = m ∨ Grown p m m') (NoEffect φ m False) m) :
    Runs Any (call r) (fun _ _ => True) (Calm φ) v := by
  refine .call trivial fun w hw => .onFiles (h _) ?_ ?_
  · rintro r f hc (hf | hgrown)
    · exact ⟨reaches_withFiles trivial hf, trivial⟩
    · exact ⟨.single trivial (.make (by rwa [hw.links]) hgrown), trivial⟩
  · rintro e f - ⟨hf, hb⟩
    exact ⟨reaches_withFiles trivial hf, fun _ => Error.calm_storage hb⟩

theorem runs_makeDirectory (hlinks : ∀ q ∈ p.trail, v.links.get? q = none) (parents : Bool) :
    Runs Any (call (.createDirectory p parents)) (fun _ _ => True) (Calm φ) v := by
  refine runs_make hlinks fun m hc => (Request.treeWp_createDirectory hc p parents).imp ?_
  rintro - _ ⟨-, rfl, hfree, -⟩
  exact Or.inr (hc.grown_grown hfree)

theorem runs_openNew (flags : Flags) (hlinks : ∀ q ∈ p.trail, v.links.get? q = none) :
    Runs Any (openNew p flags) (fun _ _ => True) (Calm φ) v := by
  refine .ite (fun _ => .throw_bind fun h => nomatch h) fun _ => ?_
  refine .ite (fun _ => ?_) fun _ => ?_
  · refine .bind (runs_makeDirectory hlinks true) fun _ w _ _ => ?_
    exact .bind (runs_clearListings trivial w) fun _ _ _ _ => .pure trivial
  · refine .bind (runs_make hlinks fun m hc => (Request.treeWp_createFile hc p).imp ?_) fun _ w _ _ => ?_
    · rintro - _ ⟨-, ⟨rfl, -⟩ | ⟨dir, n, rfl, hnone, hfree, rfl⟩⟩
      · exact Or.inl rfl
      · exact Or.inr (hc.grown_made hnone hfree)
    · refine .bind (runs_clearListings trivial w) fun _ u _ _ => ?_
      exact .bind (runs_noteSize p 0 u) fun _ _ _ _ => .get_bind (.pure trivial)

variable (base : Option Descriptor) (raw : String)

theorem runs_openAt (flags : Flags) (v : Vfs φ μ) : Runs Any (openAt base raw flags) (fun _ _ => True) (Calm φ) v := by
  refine .bind (runs_resolve base raw flags.follow v) ?_
  rintro p v - ⟨rfl, htrail⟩
  have hopened : ∀ entry w, Runs Any
      (pure { path := p, entry := entry, flags := flags } : VfsM φ μ Descriptor) (fun _ _ => True) (Calm φ) w :=
    fun _ _ => .pure trivial
  refine .bind (Q := fun r w => w.links = v.links ∧ r.map Entry.kind = w.kindAt p)
    ((runs_lookup p v).mono (fun _ _ => trivial) (fun _ _ hr hk => ⟨hr.waited.links, hk⟩) fun _ he => he) ?_
  rintro (_ | (_ | ⟨size, modified⟩ | target)) w - ⟨hlinks, hkind⟩
  · -- Nothing is there, so not even the last name is that of a link.
    refine .bind (runs_openNew flags ?_) fun e u _ _ => hopened e u
    rw [hlinks]
    exact Links.none_on_trail htrail (hlinks ▸ (kindAt_eq_none_iff.1 hkind.symm).1)
  · exact .bind (runs_openExisting p flags _ w) fun e u _ _ => hopened e u
  · exact .bind (runs_openExisting p flags _ w) fun e u _ _ => hopened e u
  · exact .throw_bind fun h => nomatch h

/-! ### Looking -/

theorem runs_statAt (follow : Bool) (v : Vfs φ μ) : Runs (· = .wait) (statAt base raw follow) (fun _ _ => True) (Calm φ) v :=
  .bind (runs_resolve base raw follow v) fun p w _ _ =>
    (runs_requireEntry p w).imp fun _ _ _ _ => trivial

/-- Which of its children are directories decides the listing of a directory. -/
theorem mergeListing_congr {l l' : List (Name × Stat)}
    (h : (l'.map fun x => (x.1, x.2.isDirectory)) = l.map fun x => (x.1, x.2.isDirectory))
    (links : List (Name × String)) : mergeListing l' links = mergeListing l links := by
  have hrows : ∀ l, mergeListing l links =
      ((Table.ofList ((l.map fun x => (x.1, x.2.isDirectory)).map fun x =>
        (x.1, if x.2 then EntryKind.directory else .file))).insertMany
          (links.map fun x => (x.1, .link))).rows.map fun x => ⟨x.1.text, x.2⟩ := by
    intro l
    rw [List.map_map]
    rfl
  rw [hrows, hrows, h]

theorem runs_list (dir : Path) (v : Vfs φ μ) : Runs Any (list dir) (fun _ _ => True) (Calm φ) v := by
  refine .get_bind ?_
  cases v.listings.get? dir with
  | some entries => exact .pure trivial
  | none =>
    refine .bind (Q := fun r _ => ∃ l, r = .entries l) (.call trivial fun w _ => ?_) ?_
    · refine .look trivial ((Request.treeWp_list dir w.memory).imp ?_) (fun _ _ _ h => h) (fun _ => id)
      rintro r m ⟨hm, -, hr⟩
      exact ⟨hm, _, hr⟩
    · rintro r w - ⟨l, rfl⟩
      refine .bind (Q := fun _ _ => True) (.settle_ok trivial) fun children w _ _ => .get_bind ?_
      exact .bind (Q := fun _ _ => True) (.modify (.single trivial .note) trivial) fun _ _ _ _ => .pure trivial

theorem runs_readDirectory (d : Descriptor) (v : Vfs φ μ) : Runs Any (readDirectory d) (fun _ _ => True) (Calm φ) v :=
  .ite (fun _ => .throw_bind fun h => nomatch h) fun _ => runs_list d.path v

theorem runs_readDirectoryAt (v : Vfs φ μ) : Runs Any (readDirectoryAt base raw) (fun _ _ => True) (Calm φ) v :=
  .bind (runs_resolve base raw true v) fun p w _ _ => runs_list p w

/-! ### Making and removing -/

theorem runs_createDirectoryAt (v : Vfs φ μ) : Runs Any (createDirectoryAt base raw) (fun _ _ => True) (Calm φ) v := by
  refine .bind (runs_resolve base raw false v) ?_
  rintro p v - ⟨rfl, htrail⟩
  refine .bind (Q := fun _ w => ∀ q ∈ p.trail, w.links.get? q = none)
    ((runs_requireFree p v).mono (fun _ _ => trivial) ?_ fun _ he => he) fun _ w _ hlinks => ?_
  · rintro - w hr ⟨-, hlink, -, -⟩
    rw [hr.waited.links] at hlink ⊢
    exact Links.none_on_trail htrail hlink
  exact .bind (runs_makeDirectory hlinks false) fun _ u _ _ => .modify (.single trivial .note) trivial

omit [LinkMap μ] in
/-- Where all is cold, nothing is locked. -/
theorem Sound.none_locked (h : v.Sound) (hp : v.ColdBelow p) : ¬ ∃ q, q.under p = true ∧ v.memory.isLocked q = true := by
  rintro ⟨q, hq, hl⟩
  exact h.not_locked (hp q hq) hl

/-- The entries and the links below a path go together. -/
theorem runs_removeTree (hcold : v.ColdBelow p) : Runs Any (do
        let _ ← call (.remove p true)
        let (_, links, jobs) := (← get).links.removeUnder p
        setLinks links jobs) (fun _ _ => True) (Calm φ) v := by
  unfold call
  simp only [bind_assoc]
  refine .bind (Q := fun _ w => Waited v w) (.modify ?_ (reaches_runDue v).waited) fun _ w _ hw => ?_
  · exact (reaches_runDue v).mono fun _ _ => trivial
  -- The removal in the store and that of the links are one step.
  intro hc
  rw [wp_bind]
  refine wp_onFiles ((Request.treeWp_remove hc p true).mono ?_ ?_)
  · rintro r m ⟨hroot, -, hfree, -, rfl⟩ f hf
    refine (wp_of_ok (setLinks_run _ _ (w.withFiles f))).2 ⟨?_, trivial⟩
    exact .single trivial (.dropTree hroot hfree hf)
  · rintro e m ⟨rfl, hb⟩ f hf
    refine ⟨reaches_withFiles trivial hf, fun hs => Error.calm_storage (hb.mono ?_)⟩
    exact hs.none_locked (hcold.waited hw)

/-- A directory goes with the links below it. The root cannot go. -/
theorem runs_removeDirectoryAt (v : Vfs φ μ) : Runs Any (removeDirectoryAt base raw) (fun _ _ => True)
      (fun e => Calm φ e ∨ resolve base raw false v = (.ok .root, v)) v := by
  refine .bind ((runs_resolved base raw false v).imp_error fun _ => Or.inl) ?_
  rintro p w - ⟨hw, hres⟩
  refine .ite (fun hroot => .throw_bind (Or.inr ?_)) fun hroot => ?_
  · rw [hres, Path.isRoot_iff.1 hroot]
  refine Runs.mono ?_ (fun _ h => h) (fun _ _ _ h => h)
    fun _ => Or.inl
  have hremove : ∀ w : Vfs φ μ, Runs Any (do
      forget p
      clearListings
      let _ ← call (.remove p true)
      let (_, links, jobs) := (← get).links.removeUnder p
      setLinks links jobs) (fun _ _ => True) (Calm φ) w := by
    intro w
    refine .bind (fun _ => wp_forget trivial (fun _ => trivial) trivial w) fun _ u _ hcold => ?_
    refine .bind (runs_clearListings trivial u) ?_
    rintro - u' - rfl
    exact runs_removeTree hcold
  refine .bind (runs_lookup p w).toAny ?_
  rintro (_ | (_ | ⟨size, modified⟩ | target)) u - -
  · exact .throw_bind fun h => nomatch h
  · exact hremove u
  · exact .throw_bind fun h => nomatch h
  · exact .throw_bind fun h => nomatch h

/-- A file or a link goes alone. -/
theorem runs_unlinkAt (v : Vfs φ μ) : Runs Any (unlinkAt base raw) (fun _ _ => True) (Calm φ) v := by
  have hclear : ∀ w : Vfs φ μ, Runs Any clearListings (fun _ _ => True) (Calm φ) w :=
    fun w => .modify (.single trivial .note) trivial
  refine .bind (runs_resolve base raw false v) fun p w _ _ => ?_
  refine .bind (runs_lookup p w).toAny ?_
  rintro (_ | (_ | ⟨size, modified⟩ | target)) u - hkind
  · exact .throw_bind fun h => nomatch h
  · exact .throw_bind fun h => nomatch h
  · obtain ⟨-, d, hfile⟩ := kindAt_eq_file_iff.1 hkind.symm
    have hforget : Runs (Quiet fun _ => True) (forget p)
        (fun _ w => w.ColdBelow p) (Calm φ) u :=
      fun _ => wp_forget trivial (fun _ => trivial) trivial u
    refine .bind (Q := fun _ w => w.ColdBelow p ∧ w.memory.kind? p = some .file)
      (hforget.mono (fun _ _ => trivial) (fun _ w hr hcold => ⟨hcold, ?_⟩) fun _ he => he) ?_
    · rw [hr.kept.kind p trivial]
      exact kind?_eq_file_iff.2 ⟨d, hfile⟩
    rintro - x - ⟨hcold, hkind⟩
    refine .bind (runs_clearListings trivial x) ?_
    rintro - x' - rfl
    refine .bind (Q := fun _ _ => True) (.call trivial fun y hy => ?_) fun _ y _ _ => hclear y
    refine .onFiles (fun hc => Request.treeWp_remove hc p false) ?_ ?_
    · rintro r f hc ⟨hroot, -, hfree, -, hf⟩
      obtain ⟨d, hd⟩ := kind?_eq_file_iff.1 ((hy.kind? p).trans hkind)
      exact ⟨.single trivial (.dropFile hd hroot hfree hf), trivial⟩
    · rintro e f - ⟨hf, hb⟩
      refine ⟨reaches_withFiles trivial hf, fun hs => Error.calm_storage (hb.mono ?_)⟩
      exact hs.none_locked fun q hq => by rw [hy.handles]; exact hcold q hq
  · refine .get_bind ?_
    refine .bind (Q := fun _ _ => True) (fun _ => ?_) fun _ y _ _ => hclear y
    exact (wp_of_ok (setLinks_run _ _ u)).2 ⟨.single trivial .unlink, trivial⟩

/-! ### Links -/

theorem runs_symlinkAt (target raw : String) (v : Vfs φ μ) :
    Runs Any (symlinkAt base target raw) (fun _ _ => True) (Calm φ) v := by
  refine .ite (fun _ => .throw_bind fun h => nomatch h) fun _ => ?_
  refine .bind (runs_resolve base raw false v) fun p w _ _ => ?_
  refine .bind (runs_requireFree p w).toAny ?_
  rintro - u - ⟨-, -, hnone, hparent⟩
  refine .get_bind ?_
  refine .bind (Q := fun _ _ => True) (fun _ => ?_) fun _ y _ _ => .modify (.single trivial .note) trivial
  exact (wp_of_ok (setLinks_run _ _ u)).2 ⟨.single trivial (.link hnone hparent), trivial⟩

theorem runs_readlinkAt (v : Vfs φ μ) : Runs (· = .wait) (readlinkAt base raw) (fun _ _ => True) (Calm φ) v := by
  refine .bind (runs_resolve base raw false v) fun p w _ _ => .get_bind ?_
  cases w.links.get? p with
  | some target => exact .pure trivial
  | none => exact .bind (runs_requireEntry p w) fun _ _ _ _ => .throw fun h => nomatch h

/-! ### The working directory -/

theorem runs_setWorkingDirectory (v : Vfs φ μ) : Runs Any (setWorkingDirectory raw) (fun _ _ => True) (Calm φ) v := by
  refine .bind (runs_resolve none raw true v) fun p w _ _ => ?_
  refine .bind (runs_lookup p w).toAny ?_
  rintro (_ | (_ | ⟨size, modified⟩ | target)) u - -
  · exact .throw fun h => nomatch h
  · exact .modify (.single trivial .note) trivial
  · exact .throw fun h => nomatch h
  · exact .throw fun h => nomatch h

end Vfs

end Filespace
