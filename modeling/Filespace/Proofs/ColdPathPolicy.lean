import Filespace.Proofs.WarmAndCold

/-!
# The policy for cold files cannot be seen

Two namespaces are started on the same store, one that opens a handle on each cold file it uses and one that makes
single requests. Whatever is then done with them, they answer alike and end alike, but for times.

In the two runs the same operations are used in the same order (`Moment.operation?`). All else is free to differ: when
handles are released, when jobs are done, and what the clocks show. So the proof has one lemma for an operation that
both sessions use (`Paired.use`) and one for each session alone that does something else
(`Paired.quiet_left`, `Paired.quiet_right`); a run is put together from these.
-/

namespace Filespace.Vfs

open Storage Memory Session

variable {μ : Type} [LinkMap μ] {m : Moment} {op : Operation} {quiet : List Moment}

/-! ### What is compared -/

/-- A value without times. -/
def Value.timeless : Value → Value
  | descriptor d => .descriptor d.timeless
  | entry e => .entry e.timeless
  | v => v

/-- The operations whose results are compared. Left out are writes in the background, the question whether a path is
warm, and releasing a handle; something must be written by a write. -/
def Operation.Compared : Operation → Prop
  | writeDetached _ _ _ | isWarm _ | release _ => False
  | write _ data _ | writeStream _ data => data ≠ []
  | _ => True

/-- What happens in a run in which time passes. -/
inductive Moment where
  | event (e : Event)
  /-- The clocks of the host and of the store show these times from now on. -/
  | clocks (host store : Nat)
  deriving DecidableEq

namespace Moment

/-- The session after a moment. -/
def happen : Moment → Session Memory μ → Session Memory μ
  | event e, s => e.happen s
  | clocks host store, s => { s with space := { s.space with world := { s.space.world with
      host := { s.space.world.host with clock := host }
      files := { s.space.world.files with clock := store } } } }

/-- The operation that is used, unless it only releases a handle. -/
def operation? : Moment → Option Operation
  | event (.use (.release _)) => none
  | event (.use op) => some op
  | _ => none

theorem eq_of_operation? (h : m.operation? = some op) : m = .event (.use op) := by
  unfold operation? at h
  split at h <;> cases h
  rfl

/-- Nothing else happens: a handle is released, jobs are done, the pace changes, or time passes. -/
theorem quiet_cases (h : m.operation? = none) :
    (∃ fd, m = .event (.use (.release fd))) ∨ (∃ n, m = .event (.work n)) ∨ (∃ l, m = .event (.pace l)) ∨
      ∃ host store, m = .clocks host store := by
  match m with
  | .event (.use op) =>
    cases op with
    | release fd => exact Or.inl ⟨fd, rfl⟩
    | _ => cases h
  | .event (.work n) => exact Or.inr (Or.inl ⟨n, rfl⟩)
  | .event (.pace l) => exact Or.inr (Or.inr (Or.inl ⟨l, rfl⟩))
  | .clocks host store => exact Or.inr (Or.inr (Or.inr ⟨host, store, rfl⟩))

end Moment

namespace Session

/-- The session after a run. -/
def played (s : Session Memory μ) (run : List Moment) : Session Memory μ := run.foldl (fun s m => m.happen s) s

/-- What the operations of a run give, in order. -/
def answers (s : Session Memory μ) : List Moment → List (Except Refusal Value)
  | [] => []
  | m :: run => match m.operation? with
    | some op => (op.run s).1 :: (m.happen s).answers run
    | none => (m.happen s).answers run

/-- The sessions show the same, but for times. -/
structure Same (s s' : Session Memory μ) : Prop where
  /-- The same directories, and files with the same bytes. -/
  entries : s'.space.world.files.contents = s.space.world.files.contents
  links : s'.space.links = s.space.links
  sizes : ∀ p, (s'.space.knownSize? p).map FileMeta.size = (s.space.knownSize? p).map FileMeta.size
  /-- The same descriptors under the same names, with the same cursors. -/
  descriptors : (s'.descriptors.map fun _ => Descriptor.timeless) = s.descriptors.map fun _ => Descriptor.timeless
  workingDirectory : s'.space.workingDirectory = s.space.workingDirectory

/-- What is kept between the sessions: their namespaces are alike, and so are their descriptors. -/
structure Paired (s s' : Session Memory μ) : Prop where
  space : Pair s.space s'.space
  descriptors : (s'.descriptors.map fun _ => Descriptor.timeless) = s.descriptors.map fun _ => Descriptor.timeless

variable {s s' : Session Memory μ}

omit [LinkMap μ] in
theorem Paired.same (h : Paired s s') : Same s s' where
  entries := h.space.alike.trees.contents
  links := h.space.alike.links
  sizes := h.space.alike.knownSize
  descriptors := h.descriptors
  workingDirectory := congrArg Resolver.workingDirectory h.space.alike.resolver

/-! ### Steps of both sessions -/

omit [LinkMap μ] in
/-- Descriptors are told alike under each name. -/
theorem descriptors_timeless_iff : (∀ name, (s'.descriptors.get? name).map (Descriptor.through Entry.timeless) =
      (s.descriptors.get? name).map (Descriptor.through Entry.timeless)) ↔
    (s'.descriptors.map fun _ => Descriptor.timeless) = s.descriptors.map fun _ => Descriptor.timeless := by
  refine ⟨fun h => Table.ext_get? fun name => ?_, fun h name => ?_⟩
  · rw [Table.get?_map, Table.get?_map]
    exact h name
  · have hname := congrArg (fun t => t.get? name) h
    simp only [Table.get?_map] at hname
    exact hname

/-- One operation is answered alike. -/
theorem Paired.use (h : Paired s s') (hop : op.Compared) :
    (op.run s').1.map Value.timeless = (op.run s).1.map Value.timeless ∧ Paired (op.run s).2 (op.run s').2 := by
  have hwrite : ∀ data, op.Writes data → data ≠ [] := by
    intro data hdata
    cases op with
    | write | writeStream => exact hdata ▸ hop
    | _ => exact hdata.elim
  have hwarm : ¬ op.TellsWarmth := by
    intro hwarm
    cases op with
    | writeDetached _ _ _ | release _ | isWarm _ => exact hop.elim
    | _ => exact hwarm.elim
  have hvalue : ∀ a : Value, a.timeless = a.through Entry.timeless := fun a => by cases a <;> rfl
  have hrun := likeness_pair.run hwrite (fun _ dir _ _ _ hv => agree_list hv dir) leadsTo_renameAt (fun hop => (hwarm hop).elim)
    (fun _ _ hs => ⟨hs.space.alike, hs.descriptors⟩) s s' ⟨h.space, descriptors_timeless_iff.2 h.descriptors⟩
  have hpaired : Like Entry.timeless (AlikeBy Alike) (op.run s).2 (op.run s').2 → Paired (op.run s).2 (op.run s').2 :=
    fun hs => ⟨⟨((Event.use op).reaches h.space.left.closed).fit h.space.left,
      ((Event.use op).reaches h.space.right.closed).fit h.space.right, hs.space⟩, descriptors_timeless_iff.1 hs.descriptors⟩
  obtain ⟨a, b, t, t', hx, hy, hab, ht⟩ | ⟨e, t, t', hx, hy, ht⟩ := hrun.cases
  · rw [hx, hy] at hpaired ⊢
    refine ⟨congrArg Except.ok ?_, hpaired ht⟩
    rw [hvalue, hvalue, hab]
  · rw [hx, hy] at hpaired ⊢
    exact ⟨rfl, hpaired ht⟩

end Session

open Session

/-! ### Steps of one session -/

section Quiet

variable {v v' : Vfs Memory μ} {s s' : Session Memory μ}

omit [LinkMap μ] in
/-- Clocks decide nothing. -/
theorem Fit.clocks (h : v.Fit) (host store : Nat) :
    Fit { v with world := { v.world with
      host := { v.world.host with clock := host }, files := { v.world.files with clock := store } } } where
  closed := h.closed.congr fun _ => rfl
  sound := ⟨⟨h.sound.handles.held, h.sound.handles.known⟩, h.sound.queue, h.sound.cold⟩
  consistent := h.consistent.congr (fun _ => rfl) rfl

omit [LinkMap μ] in
theorem release_run (d : Descriptor) (v : Vfs Memory μ) :
    Vfs.release d v = match v.handles.get? d.path with
      | some k => (.ok true, { v.withFiles (v.memory.release k) with handles := v.handles.erase d.path })
      | none => (.ok false, v) := by
  unfold Vfs.release Handles.release
  rw [bind_run, show (get : VfsM Memory μ _) v = (.ok v, v) from rfl]
  simp only
  cases v.handles.get? d.path <;> rfl

omit [LinkMap μ] in
/-- A release in the first namespace only changes what is locked. -/
theorem AlikeBy.release_left (h : AlikeBy Alike v v') (d : Descriptor) :
    AlikeBy Alike (Vfs.release d v).2 v' := by
  rw [release_run]
  cases v.handles.get? d.path with
  | none => exact h
  | some k => exact { h with trees := (alike_release v.memory k).symm.trans h.trees }

omit [LinkMap μ] in
/-- The second namespace has nothing to release. -/
theorem AlikeBy.release_right (h : AlikeBy Alike v v') (d : Descriptor) : (Vfs.release d v').2 = v' := by
  rw [release_run, h.cold']

/-- What a release does to a session it does to its namespace. -/
theorem release_session (fd : String) (s : Session Memory μ) :
    (Event.use (.release fd)).happen s = s ∨
      ∃ d, (Event.use (.release fd)).happen s = { s with space := (Vfs.release d s.space).2 } := by
  have hhappen : (Event.use (.release fd)).happen s =
      ((descriptor fd >>= fun d => onSpace (Vfs.release d) >>= fun warm => pure (Value.bool warm)) s).2 := rfl
  rw [hhappen, bind_run, descriptor_run]
  cases s.descriptors.get? fd with
  | none => exact Or.inl rfl
  | some d =>
    refine Or.inr ⟨d, ?_⟩
    rcases hd : Vfs.release d s.space with ⟨r, v⟩
    simp only
    rw [bind_run, onSpace_run hd]
    cases r <;> rfl

theorem Session.Paired.quiet_left (h : Paired s s') (hm : m.operation? = none) : Paired (m.happen s) s' := by
  have hfit : ∀ e : Event, (e.happen s).space.Fit := fun e => (e.reaches h.space.left.closed).fit h.space.left
  obtain ⟨fd, rfl⟩ | ⟨n, rfl⟩ | ⟨l, rfl⟩ | ⟨host, store, rfl⟩ := Moment.quiet_cases hm
  · have hrun := hfit (.use (.release fd))
    show Paired ((Event.use (.release fd)).happen s) s'
    obtain hsame | ⟨d, hrelease⟩ := release_session fd s
    · rw [hsame]
      exact h
    · rw [hrelease] at hrun ⊢
      exact ⟨⟨hrun, h.space.right, h.space.alike.release_left d⟩, h.descriptors⟩
  · have hjobs := h.space.alike.jobs.runJobs n
    refine ⟨⟨hfit (.work n), h.space.right, ?_⟩, h.descriptors⟩
    exact h.space.alike.left (reaches_runJobs n s.space).waited hjobs.1 hjobs.2
  · exact ⟨⟨hfit (.pace l), h.space.right, { h.space.alike with }⟩, h.descriptors⟩
  · exact ⟨⟨h.space.left.clocks host store, h.space.right, { h.space.alike with trees := { h.space.alike.trees with } }⟩,
      h.descriptors⟩

theorem Session.Paired.quiet_right (h : Paired s s') (hm : m.operation? = none) : Paired s (m.happen s') := by
  have hfit : ∀ e : Event, (e.happen s').space.Fit := fun e => (e.reaches h.space.right.closed).fit h.space.right
  obtain ⟨fd, rfl⟩ | ⟨n, rfl⟩ | ⟨l, rfl⟩ | ⟨host, store, rfl⟩ := Moment.quiet_cases hm
  · show Paired s ((Event.use (.release fd)).happen s')
    obtain hsame | ⟨d, hrelease⟩ := release_session fd s'
    · rw [hsame]
      exact h
    · rw [hrelease, h.space.alike.release_right]
      exact h
  · have hjobs := h.space.alike.jobs'.runJobs n
    refine ⟨⟨h.space.left, hfit (.work n), ?_⟩, h.descriptors⟩
    exact h.space.alike.right (reaches_runJobs n s'.space).waited hjobs.1 hjobs.2
  · exact ⟨⟨h.space.left, hfit (.pace l), { h.space.alike with }⟩, h.descriptors⟩
  · exact ⟨⟨h.space.left, h.space.right.clocks host store, { h.space.alike with trees := { h.space.alike.trees with } }⟩,
      h.descriptors⟩

end Quiet

/-! ### Runs -/

namespace Session

variable {s s' : Session Memory μ}

/-- Moments in which no operation is used answer nothing. -/
theorem answers_append {run : List Moment} (hquiet : ∀ m ∈ quiet, m.operation? = none) :
    s.answers (quiet ++ run) = (s.played quiet).answers run := by
  induction quiet generalizing s with
  | nil => rfl
  | cons m quiet ih =>
    rw [List.cons_append, answers, hquiet m (List.mem_cons_self ..)]
    exact ih fun n hn => hquiet n (List.mem_cons_of_mem m hn)

theorem answers_cons {run : List Moment} (hm : m.operation? = some op) :
    s.answers (m :: run) = (op.run s).1 :: (op.run s).2.answers run := by
  rw [answers, hm]
  obtain rfl := Moment.eq_of_operation? hm
  rfl

theorem Paired.played_left (h : Paired s s') (hquiet : ∀ m ∈ quiet, m.operation? = none) :
    Paired (s.played quiet) s' := by
  induction quiet generalizing s with
  | nil => exact h
  | cons m quiet ih =>
    exact ih (h.quiet_left (hquiet m (List.mem_cons_self ..))) fun n hn => hquiet n (List.mem_cons_of_mem m hn)

theorem Paired.played_right (h : Paired s s') (hquiet : ∀ m ∈ quiet, m.operation? = none) :
    Paired s (s'.played quiet) := by
  induction quiet generalizing s' with
  | nil => exact h
  | cons m quiet ih =>
    exact ih (h.quiet_right (hquiet m (List.mem_cons_self ..))) fun n hn => hquiet n (List.mem_cons_of_mem m hn)

/-- Runs with the same operations are answered alike. The induction is on the operations; what happens before the next
one is passed over in each run alone. -/
theorem Paired.runs {ops : List Operation} {run run' : List Moment} (h : Paired s s')
    (hrun : run.filterMap Moment.operation? = ops) (hrun' : run'.filterMap Moment.operation? = ops)
    (hops : ∀ op ∈ ops, op.Compared) :
    (s'.answers run').map (Except.map Value.timeless) = (s.answers run).map (Except.map Value.timeless) ∧
      Paired (s.played run) (s'.played run') := by
  induction ops generalizing s s' run run' with
  | nil =>
    rw [List.filterMap_eq_nil_iff] at hrun hrun'
    have hnone : ∀ {t : Session Memory μ} {l : List Moment}, (∀ m ∈ l, m.operation? = none) → t.answers l = [] := by
      intro t l hl
      rw [← List.append_nil l, answers_append hl]
      rfl
    rw [hnone hrun, hnone hrun']
    exact ⟨rfl, (h.played_left hrun).played_right hrun'⟩
  | cons op ops ih =>
    obtain ⟨quiet, m, rest, rfl, hquiet, hm, hrest⟩ := List.filterMap_eq_cons_iff.1 hrun
    obtain ⟨quiet', m', rest', rfl, hquiet', hm', hrest'⟩ := List.filterMap_eq_cons_iff.1 hrun'
    obtain ⟨hanswer, hnext⟩ :=
      ((h.played_left hquiet).played_right hquiet').use (hops op (List.mem_cons_self ..))
    obtain ⟨hanswers, hlast⟩ := ih hnext hrest hrest' fun o ho => hops o (List.mem_cons_of_mem op ho)
    have hplayed : ∀ {t : Session Memory μ} {q : List Moment} {n : Moment} {l : List Moment},
        n.operation? = some op → t.played (q ++ n :: l) = (op.run (t.played q)).2.played l := by
      intro t q n l hn
      obtain rfl := Moment.eq_of_operation? hn
      exact List.foldl_append
    rw [answers_append hquiet, answers_append hquiet', answers_cons hm, answers_cons hm', List.map_cons, hanswer, hanswers, hplayed hm, hplayed hm']
    exact ⟨rfl, hlast⟩

end Session

/-! ### Started namespaces -/

section Start

variable {o : Options} {w w₁ w₂ : World Memory μ} {v v' x x' : Vfs Memory μ}

/-- Both make the same directory. -/
theorem AlikeBy.enter {raw : String} (h : AlikeBy (AlikeOn fun _ => True) v v')
    (hx : Vfs.enter raw v = (.ok x, w₁)) (hx' : Vfs.enter raw v' = (.ok x', w₂)) : AlikeBy Alike x x' := by
  unfold Vfs.enter at hx hx'
  cases hp : Path.parse raw with
  | error f =>
    rw [hp] at hx
    cases hx
  | ok p =>
    simp only [hp] at hx hx'
    by_cases hroot : p.isRoot = true
    · rw [if_pos hroot] at hx hx'
      cases hx
      cases hx'
      exact h.shown
    · rw [if_neg hroot] at hx hx'
      obtain ⟨r, r', u, u', hu, hu', -, halike⟩ | ⟨e, u, u', hu, -, -⟩ :=
        (agree_call h fun s t hs => Request.parallel_createDirectory p true s t hs).cases
      · rw [hu] at hx
        rw [hu'] at hx'
        cases hx
        cases hx'
        have hresolver : u'.resolver = u.resolver := halike.resolver
        exact { halike.shown with resolver := by rw [hresolver] }
      · rw [hu] at hx
        cases hx

/-- Namespaces that are started with different policies are alike. -/
theorem alike_of_start (hv : start { o with coldPath := .acquire } w = (.ok v, w₁))
    (hv' : start { o with coldPath := .direct } w = (.ok v', w₂)) (hfree : ∀ p, w.files.isLocked p = false) :
    AlikeBy Alike v v' := by
  unfold start at hv hv'
  rcases hload : LinkMap.load (w.host, w.map) with ⟨_ | records, t⟩
  · rw [hload] at hv
    cases hv
  · rw [hload] at hv hv'
    refine AlikeBy.enter ?_ hv hv'
    refine ⟨⟨.refl _, fun p _ => hfree p, fun p _ => hfree p⟩, rfl, rfl, rfl, rfl, ?_, ?_, rfl, rfl, Table.get?_empty⟩
    · intro j hj
      cases hj
    · intro j hj
      cases hj

end Start

/-- The policy for cold files cannot be seen. Two namespaces are started on one store, which nobody else uses, one that
keeps handles and one that does not; no links are on record, or links that fit the store. In two runs the
same operations are used, while handles are released, jobs are done and time passes as may be. If no write is
empty, each operation gives the same value, but for times, or fails with the same error, and in the end the
namespaces have the same entries, bytes, links, remembered sizes, cursors and working directory. -/
theorem cold_path_invisible {o : Options} {w w₁ w₂ : World Memory μ} {v v' : Vfs Memory μ}
    (hacquire : start { o with coldPath := .acquire } w = (.ok v, w₁))
    (hdirect : start { o with coldPath := .direct } w = (.ok v', w₂))
    (hstore : w.files.Reachable) (hfree : ∀ p, w.files.isLocked p = false)
    (hlinks : (∀ p, v.links.get? p = none) ∨ v.Consistent) (descriptors : Table String Descriptor)
    {run run' : List Moment} (hsame : run'.filterMap Moment.operation? = run.filterMap Moment.operation?)
    (hcompared : ∀ op ∈ run.filterMap Moment.operation?, op.Compared) :
    (answers ⟨v', descriptors⟩ run').map (Except.map Value.timeless) =
        (answers ⟨v, descriptors⟩ run).map (Except.map Value.timeless) ∧
      Same (played ⟨v, descriptors⟩ run) (played ⟨v', descriptors⟩ run') := by
  have halike := alike_of_start hacquire hdirect hfree
  have hconsistent : v.Consistent := hlinks.elim consistent_of_no_links fun h => h
  obtain ⟨hclosed, hsound⟩ := sound_of_start hacquire hstore.closed hfree
  obtain ⟨hclosed', hsound'⟩ := sound_of_start hdirect hstore.closed hfree
  have hconsistent' : v'.Consistent := hconsistent.congr halike.trees.kind? halike.links
  have hpaired : Paired ⟨v, descriptors⟩ ⟨v', descriptors⟩ :=
    ⟨⟨⟨hclosed, hsound, hconsistent⟩, ⟨hclosed', hsound', hconsistent'⟩, halike⟩, rfl⟩
  obtain ⟨hanswers, hlast⟩ := hpaired.runs rfl hsame hcompared
  exact ⟨hanswers, hlast.same⟩

/-- A file is made, written and read in two empty namespaces; one of them lets go of the file before it is read, and in
the other time passes. -/
theorem cold_path_invisible_inMemory :
    let run : List Moment := [.event (.use (.openAt none "f" .createFile (some "fd"))),
      .event (.use (.write "fd" [1, 2] 0)), .event (.use (.release "fd")), .event (.use (.read "fd" 2 0))]
    let run' : List Moment := [.event (.use (.openAt none "f" .createFile (some "fd"))), .clocks 5 7,
      .event (.use (.write "fd" [1, 2] 0)), .event (.use (.read "fd" 2 0))]
    start { ({} : Options) with coldPath := .acquire } (⟨{}, {}, {}⟩ : World Memory Records) =
        (.ok inMemory, ⟨{}, {}, {}⟩) ∧
      start { ({} : Options) with coldPath := .direct } (⟨{}, {}, {}⟩ : World Memory Records) =
        (.ok { inMemory with coldPath := .direct }, ⟨{}, {}, {}⟩) ∧
      (answers ⟨{ inMemory with coldPath := .direct }, ∅⟩ run').map (Except.map Value.timeless) =
        (answers ⟨inMemory, ∅⟩ run).map (Except.map Value.timeless) ∧
      Same (played ⟨inMemory, ∅⟩ run) (played ⟨{ inMemory with coldPath := .direct }, ∅⟩ run') := by
  intro run run'
  have hacquire : start { ({} : Options) with coldPath := .acquire } (⟨{}, {}, {}⟩ : World Memory Records) =
      (.ok inMemory, ⟨{}, {}, {}⟩) := by rfl
  have hdirect : start { ({} : Options) with coldPath := .direct } (⟨{}, {}, {}⟩ : World Memory Records) =
      (.ok { inMemory with coldPath := .direct }, ⟨{}, {}, {}⟩) := by rfl
  obtain ⟨-, hstore, hfree⟩ := inMemory_started
  have hops : run.filterMap Moment.operation? =
      [.openAt none "f" .createFile (some "fd"), .write "fd" [1, 2] 0, .read "fd" 2 0] := rfl
  have hcompared : ∀ op ∈ run.filterMap Moment.operation?, op.Compared := by
    rw [hops]
    simp [Operation.Compared]
  exact ⟨hacquire, hdirect,
    cold_path_invisible hacquire hdirect hstore hfree (Or.inl Table.get?_empty) ∅ rfl hcompared⟩

end Filespace.Vfs
