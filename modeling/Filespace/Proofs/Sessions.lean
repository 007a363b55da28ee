import Filespace.Proofs.Renaming
import Filespace.Vfs.Session

/-!
# Whole runs

A run is a list of events: operations are used, and jobs are done in between, at a pace that can change. Every event
is a chain of steps (`Event.reaches`), so what steps keep holds along every run. The two results of this module are
that a consistent namespace stays consistent, and that handles, locks and queued writes agree in every state that a
namespace on its own store can come to, so that nothing is ever busy.
-/

namespace Filespace.Vfs

open Storage Memory Backed Session

variable {φ μ α β : Type} [FileStore φ] [LinkMap μ] {v : Vfs φ μ} {E : Error → Prop}

/-- What happens in a run. -/
inductive Event where
  /-- An operation is used, with or without success. -/
  | use (op : Operation)
  /-- So many jobs of the queue are done. -/
  | work (n : Nat)
  /-- From now on so many jobs are due at each request. -/
  | pace (l : List Nat)
  deriving DecidableEq

/-- The session after an event. -/
def Event.happen : Event → Session φ μ → Session φ μ
  | use op, s => (op.run s).2
  | work n, s => { s with space := s.space.runJobs n }
  | pace l, s => { s with space := { s.space with pace := l } }

/-- The session after a run. -/
def Session.after (s : Session φ μ) (run : List Event) : Session φ μ := run.foldl (fun s e => e.happen s) s

/-- An operation names the root where it has to change it. -/
def Operation.namesRoot (op : Operation) (s : Session φ μ) : Prop :=
  match op with
  | removeDirectoryAt b p => ∃ d, (base b s).1 = .ok d ∧ (resolve d p false s.space).1 = .ok .root
  | renameAt b p c q =>
    (∃ d, (base b s).1 = .ok d ∧ (resolve d p false s.space).1 = .ok .root) ∨
      ∃ d, (base c s).1 = .ok d ∧ (resolve d q false s.space).1 = .ok .root
  | _ => False

/-! ### Operations in a session -/

variable [Backed φ]

/-- A step of a session is a chain of steps of the namespace. When it fails, `E` is known of the failure, provided
handles and locks agree at the start. -/
def Uses (x : SessionM φ μ α) (Q : α → Session φ μ → Prop) (E : Error → Prop) (s : Session φ μ) : Prop :=
  s.space.memory.Closed →
    wp x (fun a t => Reaches Any s.space t.space ∧ Q a t)
      (fun r t => Reaches Any s.space t.space ∧ (s.space.Sound → ∀ e, r = .failed e → E e)) s

section Rules

variable {x : SessionM φ μ α} {Q : α → Session φ μ → Prop} {E : Error → Prop} {s : Session φ μ}

theorem Uses.pure {a : α} (h : Q a s) : Uses (pure a) Q E s := fun _ => ⟨.refl, h⟩

theorem Uses.bind {f : α → SessionM φ μ β} {R : β → Session φ μ → Prop} (h : Uses x Q E s)
    (k : ∀ a t, Q a t → Uses (f a) R E t) : Uses (x >>= f) R E s := by
  intro hc
  rw [wp_bind]
  refine (h hc).imp ?_
  rintro a t ⟨hr, hq⟩
  refine (k a t hq (hr.closed hc)).mono ?_ ?_
  · rintro b u ⟨hr', hR⟩
    exact ⟨hr.trans hr', hR⟩
  · rintro e u ⟨hr', he⟩
    exact ⟨hr.trans hr', fun hs => he (hr.sound hc hs)⟩

omit [LinkMap μ] [Backed φ] in
theorem onSpace_run {x : VfsM φ μ α} {r : Except Error α} (hx : x s.space = (r, v)) :
    onSpace x s = (r.mapError .failed, { s with space := v }) := by
  unfold onSpace
  rw [hx]

omit [LinkMap μ] [Backed φ] in
theorem Session.wp_onSpace {x : VfsM φ μ α} {E : Refusal → Session φ μ → Prop} : wp (onSpace x) Q E s ↔
      wp x (fun a v => Q a { s with space := v }) (fun e v => E (.failed e) { s with space := v }) s.space := by
  rcases hx : x s.space with ⟨_ | a, v⟩
  · rw [wp_of_error (onSpace_run hx), wp_of_error hx]
  · rw [wp_of_ok (onSpace_run hx), wp_of_ok hx]

/-- An operation of the namespace. -/
theorem Uses.onSpace {x : VfsM φ μ α} (h : Runs Any x (fun _ _ => True) E s.space) :
    Uses (onSpace x) (fun _ _ => True) E s := by
  intro hc
  have hwp := wp_iff.1 (h hc)
  rcases hx : x s.space with ⟨r, v⟩
  have hrun := onSpace_run hx
  cases r with
  | ok a => exact (wp_of_ok hrun).2 ⟨(hwp.1 a v hx).1, trivial⟩
  | error e =>
    refine (wp_of_error hrun).2 ⟨(hwp.2 e v hx).1, fun hs e' he' => ?_⟩
    cases he'
    exact (hwp.2 e v hx).2 hs

omit [LinkMap μ] [Backed φ] in
theorem descriptor_run (name : String) (s : Session φ μ) :
    descriptor name s =
      match s.descriptors.get? name with
      | some d => (.ok d, s)
      | none => (.error .unknownDescriptor, s) := by
  show (match s.descriptors.get? name with
    | some d => pure d
    | none => throw .unknownDescriptor : SessionM φ μ Descriptor) s = _
  cases s.descriptors.get? name <;> rfl

omit [LinkMap μ] [Backed φ] in
/-- Looking up a descriptor changes nothing. -/
theorem Session.wp_descriptor (name : String) (s : Session φ μ) :
    wp (descriptor name) (fun d t => t = s ∧ s.descriptors.get? name = some d)
      (fun r t => t = s ∧ r = .unknownDescriptor) s := by
  have hrun := descriptor_run name s
  cases h : s.descriptors.get? name with
  | some d =>
    rw [h] at hrun
    exact (wp_of_ok hrun).2 ⟨rfl, rfl⟩
  | none =>
    rw [h] at hrun
    exact (wp_of_error hrun).2 ⟨rfl, rfl⟩

omit [LinkMap μ] [Backed φ] in
theorem Session.wp_base (name : Option String) (s : Session φ μ) :
    wp (base name) (fun d t => t = s ∧ (base name s).1 = .ok d)
      (fun r t => t = s ∧ r = .unknownDescriptor) s := by
  have hbase : wp (base name) (fun _ t => t = s) (fun r t => t = s ∧ r = .unknownDescriptor) s := by
    cases name with
    | none => exact rfl
    | some n =>
      show wp (some <$> descriptor n) _ _ s
      rw [wp_map]
      exact (wp_descriptor n s).imp fun _ _ h => h.1
  rw [wp_iff] at hbase ⊢
  exact ⟨fun d t hrun => ⟨hbase.1 d t hrun, by rw [hrun]⟩, hbase.2⟩

omit [LinkMap μ] [Backed φ] in
/-- A descriptor is used on the namespace. -/
theorem Session.wp_onDescriptor {fd : String} {x : Descriptor → VfsM φ μ α} {k : α → SessionM φ μ β}
    {Q : β → Session φ μ → Prop} {E : Refusal → Session φ μ → Prop}
    (h : ∀ d, s.descriptors.get? fd = some d → wp (x d) (fun a w => wp (k a) Q E { s with space := w })
      (fun e w => E (.failed e) { s with space := w }) s.space) (hE : E .unknownDescriptor s) :
    wp (descriptor fd >>= fun d => onSpace (x d) >>= k) Q E s := by
  refine wp_bind.2 ((wp_descriptor fd s).mono ?_ ?_)
  · rintro d t ⟨rfl, hd⟩
    exact wp_bind.2 (wp_onSpace.2 (h d hd))
  · rintro r t ⟨rfl, rfl⟩
    exact hE

theorem Uses.descriptor (name : String) : Uses (descriptor name) (fun _ t => t = s) E s := by
  intro _
  refine (wp_descriptor name s).mono ?_ ?_
  · rintro d t ⟨rfl, -⟩
    exact ⟨.refl, rfl⟩
  · rintro r t ⟨rfl, rfl⟩
    exact ⟨.refl, fun _ e he => nomatch he⟩

theorem Uses.base (name : Option String) :
    Uses (base name) (fun d t => t = s ∧ (base name s).1 = .ok d) E s := by
  intro _
  refine (wp_base name s).mono ?_ ?_
  · rintro d t ⟨rfl, hd⟩
    exact ⟨.refl, rfl, hd⟩
  · rintro r t ⟨rfl, rfl⟩
    exact ⟨.refl, fun _ e he => nomatch he⟩

omit [LinkMap μ] [Backed φ] in
theorem path_run (raw : String) (s : Session φ μ) :
    (∃ p, path raw s = (.ok p, s)) ∨ ∃ f, path raw s = (.error (.failed (.path f)), s) := by
  unfold path
  cases Path.parse raw with
  | ok p => exact Or.inl ⟨p, rfl⟩
  | error f => exact Or.inr ⟨f, rfl⟩

theorem Uses.path (raw : String) (hE : ∀ f, E (.path f)) : Uses (path raw) (fun _ _ => True) E s := by
  intro _
  rcases path_run raw s with ⟨p, hp⟩ | ⟨f, hf⟩
  · exact (wp_of_ok hp).2 ⟨.refl, trivial⟩
  · refine (wp_of_error hf).2 ⟨.refl, fun _ e he => ?_⟩
    cases he
    exact hE f

theorem Uses.get_bind {f : Session φ μ → SessionM φ μ α} (h : Uses (f s) Q E s) : Uses (get >>= f) Q E s := by
  intro hc
  exact h hc

theorem Uses.keep (name : String) (d : Descriptor) : Uses (keep name d) (fun _ _ => True) E s :=
  fun _ => ⟨.refl, trivial⟩

end Rules

section Operations

variable {s : Session φ μ}

/-- Uses a descriptor, then the namespace, and keeps a changed descriptor. -/
theorem Uses.onDescriptor {fd : String} {x : Descriptor → VfsM φ μ α} {k : α → SessionM φ μ Value}
    (hx : ∀ d v, Runs Any (x d) (fun _ _ => True) E v) (hk : ∀ a t, Uses (k a) (fun _ _ => True) E t) :
    Uses (Session.descriptor fd >>= fun d => Session.onSpace (x d) >>= k) (fun _ _ => True) E s :=
  .bind (.descriptor fd) fun d t _ => .bind (.onSpace (hx d t.space)) fun a u _ => hk a u

theorem Uses.onBase {b : Option String} {x : Option Descriptor → VfsM φ μ α} {k : α → SessionM φ μ Value} (hx : ∀ d v, Runs Any (x d) (fun _ _ => True) E v)
    (hk : ∀ a t, Uses (k a) (fun _ _ => True) E t) :
    Uses (Session.base b >>= fun d => Session.onSpace (x d) >>= k) (fun _ _ => True) E s :=
  .bind (.base b) fun d t _ => .bind (.onSpace (hx d t.space)) fun a u _ => hk a u

theorem Uses.done {a : α} : Uses (Pure.pure a) (fun _ _ => True) E s :=
  .pure trivial

/-- Every operation is a chain of steps, and a failure is calm unless the operation names the root. -/
theorem Operation.uses (op : Operation) (s : Session φ μ) :
    Uses op.run (fun _ _ => True) (fun e => Error.Calm φ e ∨ op.namesRoot s) s := by
  have hcalm : ∀ {α : Type} {x : VfsM φ μ α} {v : Vfs φ μ}, Runs Any x (fun _ _ => True) (Error.Calm φ) v →
      Runs Any x (fun _ _ => True) (fun e => Error.Calm φ e ∨ op.namesRoot s) v :=
    fun h => h.imp_error fun _ => Or.inl
  cases op with
  | openAt b p flags name =>
    refine .onBase (fun d v => hcalm (runs_openAt d p flags v)) fun d t => ?_
    cases name with
    | none => exact .done
    | some n => exact .bind (.keep n d) fun _ _ _ => .done
  | preopens name =>
    cases name with
    | none => exact .done
    | some n => exact .bind (.keep n _) fun _ _ _ => .done
  | inspect fd => exact .bind (.descriptor fd) fun _ _ _ => .done
  | read fd length offset => exact .onDescriptor (fun d v => hcalm (runs_read d length offset v).toAny) fun _ _ => .done
  | write fd data offset => exact .onDescriptor (fun d v => hcalm (runs_write d data offset v)) fun _ _ => .done
  | readStream fd length =>
    exact .onDescriptor (fun d v => hcalm (runs_readStream d length v).toAny) fun _ _ =>
      .bind (.keep fd _) fun _ _ _ => .done
  | writeStream fd data =>
    exact .onDescriptor (fun d v => hcalm (runs_writeStream d data v)) fun _ _ =>
      .bind (.keep fd _) fun _ _ _ => .done
  | seek fd whence =>
    exact .onDescriptor (fun d v => hcalm (runs_seek d whence v).toAny) fun _ _ => .bind (.keep fd _) fun _ _ _ => .done
  | writeDetached fd data offset =>
    exact .onDescriptor (fun d v => hcalm (runs_writeDetached d data offset v)) fun _ _ => .done
  | setSize fd length => exact .onDescriptor (fun d v => hcalm (runs_setSize d length v)) fun _ _ => .done
  | sync fd => exact .onDescriptor (fun d v => hcalm (runs_sync d v).toAny) fun _ _ => .done
  | release fd => exact .onDescriptor (fun d v => hcalm (runs_release d v).toAny) fun _ _ => .done
  | stat fd =>
    refine .onDescriptor (fun d v => hcalm ?_) fun _ _ => .done
    exact (runs_requireEntry d.path v).mono (fun _ _ => trivial) (fun _ _ _ _ => trivial) fun _ he => he
  | statAt b p follow => exact .onBase (fun d v => hcalm (runs_statAt d p follow v).toAny) fun _ _ => .done
  | readDirectory fd => exact .onDescriptor (fun d v => hcalm (runs_readDirectory d v)) fun _ _ => .done
  | readDirectoryAt b p => exact .onBase (fun d v => hcalm (runs_readDirectoryAt d p v)) fun _ _ => .done
  | createDirectoryAt b p => exact .onBase (fun d v => hcalm (runs_createDirectoryAt d p v)) fun _ _ => .done
  | removeDirectoryAt b p =>
    refine .bind (.base b) ?_
    rintro d t ⟨rfl, hd⟩
    refine .bind (.onSpace ((runs_removeDirectoryAt d p _).imp_error ?_)) fun _ _ _ => .done
    exact fun e he => he.imp_right fun hroot => ⟨d, hd, by rw [hroot]⟩
  | unlinkAt b p => exact .onBase (fun d v => hcalm (runs_unlinkAt d p v)) fun _ _ => .done
  | renameAt b p c q =>
    refine .bind (.base b) ?_
    rintro d t ⟨rfl, hd⟩
    refine .bind (.base c) ?_
    rintro d' t' ⟨rfl, hd'⟩
    refine .bind (.onSpace ((runs_renameAt d p d' q _).imp_error ?_)) fun _ _ _ => .done
    refine fun e he => he.imp_right (Or.imp (fun hroot => ?_) fun hroot => ?_)
    · exact ⟨d, hd, by rw [hroot]⟩
    · exact ⟨d', hd', by rw [hroot]⟩
  | symlinkAt b target p => exact .onBase (fun d v => hcalm (runs_symlinkAt d target p v)) fun _ _ => .done
  | readlinkAt b p => exact .onBase (fun d v => hcalm (runs_readlinkAt d p v).toAny) fun _ _ => .done
  | linkAt b old new => exact .onBase (fun d v => hcalm (.throw fun h => nomatch h)) fun _ _ => .done
  | workingDirectory => exact .get_bind .done
  | setWorkingDirectory p =>
    exact .bind (.onSpace (hcalm (runs_setWorkingDirectory p s.space))) fun _ _ _ => .done
  | knownSize p | isWarm p => exact .bind (.path p fun f => Or.inl fun h => nomatch h) fun _ _ _ => .get_bind .done

/-- Every event is a chain of steps. -/
theorem Event.reaches (e : Event) (hc : s.space.memory.Closed) : Reaches Any s.space (e.happen s).space := by
  cases e with
  | use op =>
    exact wp.state
      ((op.uses s hc).mono (fun _ _ h => h.1) fun _ _ h => h.1)
  | work n => exact (reaches_runJobs n s.space).mono fun _ _ => trivial
  | pace l => exact .single trivial (Step.pass rfl)

/-- A run is a chain of steps. -/
theorem Session.reaches_after (run : List Event) (hc : s.space.memory.Closed) :
    Reaches Any s.space (s.after run).space := by
  induction run generalizing s with
  | nil => exact .refl
  | cons e run ih =>
    have hfirst := e.reaches hc
    exact hfirst.trans (ih (hfirst.closed hc))

end Operations

/-! ### One entry for each path -/

theorem Session.consistent_after {s : Session φ μ} (run : List Event) (hc : s.space.memory.Closed)
    (h : s.space.Consistent) : (s.after run).space.Consistent :=
  (reaches_after run hc).consistent hc h

omit [LinkMap μ] in
/-- Without links there is nothing to be inconsistent with. -/
theorem consistent_of_no_links (h : ∀ p, v.links.get? p = none) : v.Consistent := by
  refine ⟨?_, ?_⟩
  · intro p t hp
    rw [h p] at hp
    cases hp
  · intro p t hp
    rw [h p] at hp
    cases hp

/-- A namespace has at most one entry for each path, and every link is in a directory of the store: this holds of an
empty namespace in memory and of every consistent namespace on a reachable store, and it stays so along every run,
also if calls of the store fail. -/
theorem one_entry_per_path {μ : Type} [LinkMap μ] :
    (∀ run, (after ⟨inMemory, ∅⟩ run).space.Consistent) ∧
    (∀ (s : Session Memory μ) run, s.space.world.files.Reachable → s.space.Consistent →
      (s.after run).space.Consistent) ∧
    (∀ (s : Session (Faulty Memory) μ) run, s.space.world.files.inner.Reachable → s.space.Consistent →
      (s.after run).space.Consistent) := by
  refine ⟨fun run => ?_, fun s run hs h => ?_, fun s run hs h => ?_⟩
  · refine consistent_after run (closed_of_nodes rfl) (consistent_of_no_links fun p => ?_)
    exact Table.get?_empty p
  · exact consistent_after run hs.closed h
  · exact consistent_after run hs.closed h

/-- A namespace with one link, on a store that refuses to remove anything. -/
def refusingRemovals : Vfs (Faulty Memory) Records :=
  fresh {} ⟨Table.empty.insert (Path.root.child ⟨"l", by decide⟩) "target"⟩
    ⟨{}, { inner := {}, plan := fun _ call _ => if call = .remove then some (.refuse .mapUnavailable) else none }, {}⟩

/-- A directory with a link in it is made, and its removal is refused. -/
theorem one_entry_per_path_refusingRemovals :
    refusingRemovals.world.files.inner.Reachable ∧ refusingRemovals.Consistent ∧
      (after ⟨refusingRemovals, ∅⟩
        [.use (.createDirectoryAt none "d"), .use (.symlinkAt none "t" "d/k"),
          .use (.removeDirectoryAt none "d"), .work 1]).space.Consistent := by
  have hstore : refusingRemovals.world.files.inner.Reachable := ⟨_, .fresh {} false 0, rfl⟩
  have hlink : ∀ p t, refusingRemovals.links.get? p = some t → p = Path.root.child ⟨"l", by decide⟩ := by
    intro p t hp
    by_contra hne
    have hnone : refusingRemovals.links.get? p = none :=
      (Table.get?_insert_of_ne _ _ hne).trans (Table.get?_empty p)
    rw [hnone] at hp
    cases hp
  have hconsistent : refusingRemovals.Consistent := by
    refine ⟨fun p t hp => ?_, fun p t hp => ?_⟩
    · rw [hlink p t hp]
      rfl
    · rw [hlink p t hp]
      exact ⟨.root, Path.parent?_child _ _, rfl⟩
  exact ⟨hstore, hconsistent, (one_entry_per_path).2.2 _ _ hstore hconsistent⟩

/-! ### Handles, locks and queued writes -/

omit [LinkMap μ] in
/-- Without handles, locks and jobs there is nothing to disagree. -/
theorem sound_of_idle (hhandles : v.handles = ∅) (hdetached : v.detached = {})
    (hqueue : v.background.queue = []) (hreports : v.background.reports = [])
    (hfree : ∀ p, v.memory.isLocked p = false) : v.Sound := by
  have hpaths : ∀ p, v.detached.paths.get? p = none := fun p => by
    rw [hdetached]
    exact Table.get?_empty p
  have hcold : ∀ p, v.handles.get? p = none := fun p => by
    rw [hhandles]
    exact Table.get?_empty p
  refine ⟨⟨?_, ?_⟩, ⟨?_, ?_, ?_, ?_⟩, ?_⟩
  · intro p h hp
    rw [hcold] at hp
    cases hp
  · intro p hp
    rw [hfree] at hp
    cases hp
  · intro p
    rw [hqueue, Detached.pending, hpaths]
    rfl
  · intro p x hp
    rw [hpaths] at hp
    cases hp
  · intro j hj
    rw [hqueue] at hj
    cases hj
  · intro r hr
    rw [hreports] at hr
    cases hr
  · intro p h hp
    rw [hcold] at hp
    cases hp

/-- Going to the working directory grows the tree at most. -/
theorem enter_cases {raw : String} {v' : Vfs φ μ} {w : World φ μ} (h : enter raw v = (.ok v', w))
    (hqueue : v.background.queue = []) (hpace : v.pace = []) (hc : v.memory.Closed) :
    v' = v ∨ ∃ p f, v' = { v.withFiles f with resolver := { v.resolver with workingDirectory := p } } ∧
      tree f = v.memory.grown p ∧ Grown p v.memory (tree f) := by
  unfold enter at h
  split at h
  · cases h
  · rename_i p _
    split at h
    · cases h
      exact Or.inl rfl
    · have hcall : wp (call (.createDirectory p true))
          (fun _ u => ∃ f, u = v.withFiles f ∧ tree f = v.memory.grown p ∧
            Grown p v.memory (tree f)) (fun _ _ => True) v := by
        unfold call
        have hdue : v.runDue = v := by
          unfold runDue
          rw [hpace]
          exact runJobs_nil _ hqueue
        rw [wp_bind, wp_modify, hdue]
        refine wp_onFiles ((Request.treeWp_createDirectory hc p true).mono ?_ fun _ _ _ _ _ => trivial)
        rintro r m ⟨-, rfl, hfree, -⟩ f hf
        exact ⟨f, rfl, hf, hf ▸ hc.grown_grown hfree⟩
      split at h
      · cases h
      · rename_i hrun
        cases h
        obtain ⟨f, rfl, hf, hgrown⟩ := hcall.ok hrun
        exact Or.inr ⟨p, f, rfl, hf, hgrown⟩

omit [LinkMap μ] [Backed φ] [FileStore φ] in
theorem Memory.isLocked_grown {m : Memory} (h : ∀ p, m.isLocked p = false) (p q : Path) :
    (m.grown p).isLocked q = false := by
  have := h q
  unfold isLocked at this ⊢
  rw [node?_grown]
  by_cases hq : q ∈ p.trail
  · rw [if_pos hq]
    rfl
  · rwa [if_neg hq]

/-- A namespace that was just started on a store without locks is sound. -/
theorem sound_of_start {o : Options} {w w' : World φ μ} (hstart : start o w = (.ok v, w'))
    (hc : (tree w.files).Closed) (hfree : ∀ p, (tree w.files).isLocked p = false) :
    v.memory.Closed ∧ v.Sound := by
  unfold start at hstart
  split at hstart
  · cases hstart
  · rcases enter_cases hstart rfl rfl hc with rfl | ⟨p, f, rfl, hf, -⟩
    · exact ⟨hc, sound_of_idle rfl rfl rfl rfl hfree⟩
    · have hmemory : (tree f) = (tree w.files).grown p := hf
      refine ⟨?_, sound_of_idle rfl rfl rfl rfl fun q => ?_⟩
      · show (tree f).Closed
        rw [hmemory]
        exact hc.grown p
      · show (tree f).isLocked q = false
        rw [hmemory]
        exact Memory.isLocked_grown hfree p q

/-- A namespace that is the only user of a store in memory has a handle on exactly the locked files, and never on one
with queued writes. So it meets no lock: neither an operation nor a queued write is ever busy, but for operations
that would remove or rename the root. -/
theorem handles_match_locks {μ : Type} [LinkMap μ] {o : Options} {w w' : World Memory μ} {v : Vfs Memory μ}
    (hstart : start o w = (.ok v, w')) (hstore : w.files.Reachable) (hfree : ∀ p, w.files.isLocked p = false)
    (descriptors : Table String Descriptor) (run : List Event) :
    let s := after ⟨v, descriptors⟩ run
    (∀ p h, s.space.handles.get? p = some h ↔
      ∃ d, s.space.world.files.node? p = some (.file d) ∧ d.locked = true ∧ h = ⟨p, d.serial⟩) ∧
    (∀ p, s.space.isWarm p = true →
      s.space.detached.hasPending p = false ∧ ∀ j ∈ s.space.background.queue, j.work.writesTo p = false) ∧
    (∀ (op : Operation) e, (op.run s).1 = .error (.failed e) → e.code = .busy → op.namesRoot s) ∧
    (∀ j rest p generation offset data e, s.space.background.queue = j :: rest →
      j.work = .write p generation offset data → (perform j.work (s.space.world, s.space.detached)).1 = .error e →
      (Error.storage e).code ≠ .busy) ∧
    (∀ r ∈ s.space.background.reports, ∀ (p : Path) e, r.label = "detached write " ++ p.display → r.outcome = .error e →
      e.code ≠ .busy) := by
  intro s
  obtain ⟨hc₀, hs₀⟩ := sound_of_start hstart hstore.closed hfree
  have hreach : Reaches Any v s.space := reaches_after (s := ⟨v, descriptors⟩) run hc₀
  have hc := hreach.closed hc₀
  have hs := hreach.sound hc₀ hs₀
  -- A store in memory refuses nothing, so what is calm is not busy.
  have hcalm : ∀ e : Error, e.Calm Memory → e.code ≠ .busy := by
    intro e he hcode
    obtain ⟨_, -, hr⟩ := he hcode
    exact hr
  refine ⟨?_, ?_, ?_, ?_, ?_⟩
  · intro p h
    constructor
    · intro hp
      exact hs.handles.held p h hp
    · rintro ⟨d, hd, hl, rfl⟩
      obtain ⟨h, hp⟩ := hs.handles.known p (isLocked_eq_true_iff.2 ⟨d, hd, hl⟩)
      obtain ⟨d', hd', -, hh⟩ := hs.handles.held p h hp
      rw [show s.space.memory.node? p = some (.file d) from hd] at hd'
      cases hd'
      rw [hp, show h = ⟨p, d.serial⟩ from hh]
  · intro p hp
    obtain ⟨h, hh⟩ := Table.contains_eq_true_iff.1 hp
    have hcold := hs.cold p h hh
    refine ⟨hcold, fun j hj => ?_⟩
    rw [Bool.eq_false_iff]
    intro hw
    rw [hs.queue.hasPending_iff.2 ⟨j, hj, hw⟩] at hcold
    cases hcold
  · intro op e he hcode
    have huses := op.uses s hc
    rcases hrun : op.run s with ⟨r, t⟩
    rw [hrun] at he
    cases he
    exact ((huses.error hrun).2 hs e rfl).resolve_left fun h => hcalm e h hcode
  · intro j rest p generation offset data e hq hw he
    exact hcalm _ (hs.not_busy hq hw he)
  · intro r hr p e hlabel he
    exact hcalm e (hs.queue.quiet r hr p e hlabel he)

/-- The empty namespace in memory is started on an empty store. -/
theorem inMemory_started :
    start {} (⟨{}, {}, {}⟩) = (.ok inMemory, ⟨{}, {}, {}⟩) ∧ ({} : Memory).Reachable ∧
      ∀ p, ({} : Memory).isLocked p = false :=
  ⟨rfl, ⟨_, .fresh {} false 0, rfl⟩, isLocked_of_nodes rfl⟩

/-- An empty namespace in memory, in which a file is written and then removed: its removal meets no lock. -/
theorem handles_match_locks_inMemory :
    start {} (⟨{}, {}, {}⟩ : World Memory Records) = (.ok inMemory, ⟨{}, {}, {}⟩) ∧
      (inMemory.world.files.Reachable ∧ ∀ p, inMemory.world.files.isLocked p = false) ∧
      ∀ e, ((Operation.unlinkAt none "f").run (after ⟨inMemory, ∅⟩
        [.use (.openAt none "f" .createFile (some "fd")), .use (.write "fd" [1, 2] 0)])).1 = .error (.failed e) →
          e.code ≠ .busy := by
  obtain ⟨hstart, hstore, hfree⟩ := inMemory_started
  exact ⟨hstart, ⟨hstore, hfree⟩, fun e he hcode => (handles_match_locks hstart hstore hfree ∅ _).2.2.1 _ e he hcode⟩

end Filespace.Vfs
