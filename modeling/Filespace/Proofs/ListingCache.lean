import Filespace.Proofs.Turns

/-!
# Remembering listings cannot be seen

Two namespaces are started on one store. One remembers listings, the other does not, and both are put to the same use.
Each operation then gives the same in both (`listing_cache_invisible`), on a store in memory and on one that refuses
some calls without effect.

A remembered listing saves a request, and queued work is done at requests. So the two namespaces can be at different
points of the queue in the middle of an operation. A run is cut into turns: at the end of a turn both have done as much
of the queue, as they have when they wait for it after each operation. The second namespace can then be ahead of the
first only until its turn ends (`Lag`).
-/

namespace Filespace

open Storage Memory Session

variable {φ μ : Type} [FileStore φ] [LinkMap μ]

/-- A change that no state on the other side can tell. -/
def Storage.Simulation.Unseen (S : Simulation φ) (t t' : Host × φ) : Prop := ∀ s, S.Rel s t → S.Rel s t'

instance (S : Simulation φ) : IsPreorder (Host × φ) S.Unseen where
  refl _ _ h := h
  trans _ _ _ htu huv s h := huv s (htu s h)

namespace Vfs

/-! ### Doing jobs early -/

theorem runJobs_add (n k : Nat) (v : Vfs φ μ) : v.runJobs (n + k) = (v.runJobs n).runJobs k := by
  induction n generalizing v with
  | zero => rw [Nat.zero_add, runJobs_zero]
  | succ n ih =>
    cases hq : v.background.queue with
    | nil => rw [runJobs_nil _ hq, runJobs_nil _ hq, runJobs_nil _ hq]
    | cons j rest => rw [Nat.add_right_comm, runJobs_succ _ hq, runJobs_succ _ hq, ih]

/-- Jobs that were due at a request are not due again at the end. -/
theorem caughtUp_runDue {due : List Nat} {v : Vfs φ μ} (h : v.pace = due) : v.runDue.caughtUp due = v.caughtUp due := by
  unfold caughtUp runDue
  rw [h]
  cases due with
  | nil =>
    exact runJobs_nil _ (queue_drain v)
  | cons n rest =>
    rw [if_neg (List.cons_ne_nil n rest), List.foldr_cons, runJobs_add]
    rfl

/-! ### Two namespaces -/

/-- Nothing is remembered on the second side. -/
def Unremembered (_ l' : Listings) : Prop := l'.enabled = false ∧ l'.known = ∅

theorem Unremembered.clear {l l' : Listings} (h : Unremembered l l') : Unremembered l.clear l'.clear := ⟨h.1, rfl⟩

theorem Unremembered.insert {l l' : Listings} (h : Unremembered l l') (dir : Path) (entries : List DirEntry) :
    Unremembered (l.insert dir entries) (l'.insert dir entries) := by
  unfold Listings.insert
  rw [h.1]
  exact h

theorem Unremembered.get? {l l' : Listings} (h : Unremembered l l') (dir : Path) : l'.get? dir = none := by
  unfold Listings.get?
  rw [h.2]
  exact Table.get?_empty dir

variable {S : Simulation φ} {O : Outline φ} {v v' : Vfs φ μ}

/-- The second namespace corresponds to the first, or to what it will be after its next request. -/
def Lag (S : Simulation φ) (due : List Nat) (v v' : Vfs φ μ) : Prop :=
  Twin S Unremembered v v' ∨ (v.pace = due ∧ Twin S Unremembered v.runDue v')

/-- The same of two sessions with the same descriptors. -/
def Session.Lag (S : Simulation φ) (due : List Nat) (s s' : Session φ μ) : Prop :=
  Vfs.Lag S due s.space s'.space ∧ s'.descriptors = s.descriptors

/-- What is asked of stores that are compared. -/
structure Comparable (S : Simulation φ) (O : Outline φ) (μ : Type) [LinkMap μ] (tick : Nat → φ → φ) : Prop where
  simulation : S.Lawful
  outline : O.Lawful
  apart : S.Apart μ
  hides : O.Hides μ
  /-- Nothing is noticed too late. -/
  prompt : ∀ e, ¬ O.Late e
  /-- Listing a directory leaves no trace that could be seen. -/
  directory : ∀ p, Stays S.Unseen (FileStore.directory (φ := φ) p false)
  list : ∀ p, Stays S.Unseen (FileStore.list (φ := φ) p)
  /-- Neither does the time. -/
  ticked : ∀ n s t, S.Rel s t → S.Rel ({ s.1 with clock := n }, tick n s.2) ({ t.1 with clock := n }, tick n t.2)
  same : ∀ n s, O.Same s ({ s.1 with clock := n }, tick n s.2)

/-- The two sessions between turns: they correspond, and what the first remembers is right. -/
structure Session.Matched (S : Simulation φ) (O : Outline φ) (s s' : Session φ μ) : Prop where
  twin : Twin S Unremembered s s'
  fresh : Fresh O s.space

section Run

variable {tick : Nat → φ → φ} {s s' : Session φ μ} (h : Comparable S O μ tick)

include h

/-- At the end of the turn both have done the same jobs. -/
theorem Lag.caughtUp {due : List Nat} (hv : Lag S due v v') : Twin S Unremembered (v.caughtUp due) (v'.caughtUp due) := by
  obtain hv | ⟨hpace, hv⟩ := hv
  · exact hv.caughtUp h.simulation h.apart due
  · rw [← caughtUp_runDue hpace]
    exact hv.caughtUp h.simulation h.apart due

theorem Session.Matched.atTurn (hs : s.Matched S O s') (t : Turn) :
    Matched S O { s with space := s.space.atTurn tick t } { s' with space := s'.space.atTurn tick t } where
  twin := hs.twin.atTurn h.ticked t
  fresh := hs.fresh.atTurn h.outline h.hides h.same t

/-- A directory is listed alike by a namespace that remembers it, rightly, and by one that has to ask. -/
theorem Twin.agree_list (hv : Twin S Unremembered v v') (hfresh : Fresh O v) (dir : Path) :
    Agree (list dir) (list dir) (fun a b w w' => a = b ∧ Lag S v.pace w w') (Lag S v.pace) v v' := by
  have hnone' : v'.listings.get? dir = none := hv.listings.get? dir
  have hinsert : ∀ l l' entries, Unremembered l l' → Unremembered (l.insert dir entries) (l'.insert dir entries) :=
    fun _ _ entries hl => hl.insert dir entries
  cases hdir : v.listings.get? dir with
  | none =>
    refine (hv.list_unknown h.simulation h.apart hinsert hdir hnone').mono ?_ fun _ _ hw => Or.inl hw
    exact fun _ _ _ _ hw => ⟨hw.1, Or.inl hw.2⟩
  | some l =>
    -- The second side asks, as the first would if it had forgotten.
    have hasked : (list dir v').1 = .ok l := by
      have hcleared : Twin S Unremembered { v with listings := v.listings.clear } v' :=
        { hv with listings := ⟨hv.listings.1, hv.listings.2⟩ }
      obtain ⟨a, b, w, w', hx, hy, rfl, -⟩ | ⟨e, w, w', hx, hy, -⟩ :=
        (hcleared.list_unknown h.simulation h.apart hinsert rfl hnone').cases
      · rw [hy, ← hfresh.coherent dir l hdir, hx]
      · have hknown := hfresh.coherent dir l hdir
        rw [hx] at hknown
        cases hknown
    have hlooks : Stays S.Unseen ((Request.list dir).execute) :=
      .bind (h.directory dir) fun _ => .bind (h.list dir) fun _ => .pure
    have hlag : Twin S Unremembered v.runDue (list dir v').2 := by
      have hdue := hv.runDue h.simulation h.apart
      have hcall : Twin S Unremembered v.runDue (call (.list dir) v').2 :=
        { hdue with behind := stays_iff.1 hlooks v'.runDue.behind _ hdue.behind }
      rw [Vfs.list_unknown hnone']
      rcases hrun : call (.list dir) v' with ⟨_ | reply, w⟩
      · rw [hrun] at hcall
        exact hcall
      · rw [hrun] at hcall
        dsimp only
        cases reply.toEntries with
        | error e => exact hcall
        | ok children => exact { hcall with listings := hcall.listings.insert dir _ }
    refine (agree_of_ok (list_known hdir) ?_).2 ⟨rfl, Or.inr ⟨rfl, hlag⟩⟩
    exact Prod.ext hasked rfl

/-- An operation that lists a directory gives the same, though the second side may be ahead then. -/
theorem Session.Matched.agree_lists (hs : s.Matched S O s') {op : Operation} (hop : op.Lists) :
    Agree op.run op.run (fun a b u u' => a = b ∧ Lag S s.space.pace u u') (Lag S s.space.pace) s s' := by
  -- Nothing changes before the directory is listed.
  have hstart : ∀ u u', u = s ∧ u' = s' → Like id (Vfs.Twin S Unremembered) u u' := by
    rintro _ _ ⟨rfl, rfl⟩
    exact twin_iff.1 hs.twin
  have hlag : ∀ u u', u = s ∧ u' = s' → Lag S s.space.pace u u' := by
    rintro _ _ ⟨rfl, rfl⟩
    exact ⟨Or.inl hs.twin.space, hs.twin.descriptors⟩
  have hlist : ∀ {x : VfsM φ μ (List DirEntry)} {u u' : Session φ μ}, u = s ∧ u' = s' →
      Agree x x (fun a b w w' => a = b ∧ Vfs.Lag S s.space.pace w w') (Vfs.Lag S s.space.pace) s.space s'.space →
      Agree (onSpace x >>= fun l => pure (Value.entries l)) (onSpace x >>= fun l => pure (Value.entries l))
        (fun a b u u' => a = b ∧ Lag S s.space.pace u u') (Lag S s.space.pace) u u' := by
    rintro x u u' ⟨rfl, rfl⟩ hx
    have hspace : Agree (onSpace x) (onSpace x) (fun a b u₁ u₁' => a = b ∧ Lag S u.space.pace u₁ u₁')
        (Lag S u.space.pace) u u' := by
      refine agree_onSpace (hx.mono ?_ ?_)
      · exact fun _ _ _ _ hw => ⟨hw.1, hw.2, hs.twin.descriptors⟩
      · exact fun _ _ hw => ⟨hw, hs.twin.descriptors⟩
    refine .bind hspace (fun _ _ hw => hw) ?_
    rintro l _ w w' ⟨rfl, hw⟩
    exact ⟨rfl, hw⟩
  cases op with
  | readDirectory fd =>
    have hkept : ∀ u : Session φ μ, (descriptor fd u).2 = u := fun u => (stays_iff.1 (stays_descriptor (R := Eq) fd) u).symm
    refine .bind ((parallel_descriptor fd).strengthen hstart hkept hkept s s' ⟨rfl, rfl⟩) hlag ?_
    rintro d d' u u' ⟨hd, hu⟩
    obtain rfl : d' = d := hd
    refine hlist hu (.ite (fun _ => ?_) fun _ => hs.twin.space.agree_list h hs.fresh d'.path)
    exact Agree.throw_bind (Or.inl hs.twin.space)
  | readDirectoryAt b p =>
    have hkept : ∀ u : Session φ μ, (base b u).2 = u := fun u => (stays_iff.1 (stays_base (R := Eq) b) u).symm
    refine .bind ((parallel_base b).strengthen hstart hkept hkept s s' ⟨rfl, rfl⟩) hlag ?_
    rintro d d' u u' ⟨hd, hu⟩
    obtain rfl : d' = d := Option.map_injective (fun _ _ h => h) hd
    have hresolve : Parallel (fun v v' => v = s.space ∧ v' = s'.space) Eq (resolve d' p true)
        (resolve d' p true) := by
      have hkept : ∀ v : Vfs φ μ, (resolve d' p true v).2 = v :=
        fun v => (stays_iff.1 (stays_resolve (R := Eq) d' p true) v).symm
      have htwin := likeness_twin (L := Unremembered) h.simulation h.apart fun _ _ hl => hl.clear
      refine (htwin.resolve rfl p true).strengthen ?_ hkept hkept
      rintro _ _ ⟨rfl, rfl⟩
      exact hs.twin.space
    refine hlist hu (.bind (hresolve _ _ ⟨rfl, rfl⟩) ?_ ?_)
    · rintro _ _ ⟨rfl, rfl⟩
      exact Or.inl hs.twin.space
    · rintro dir _ _ _ ⟨rfl, rfl, rfl⟩
      exact hs.twin.space.agree_list h hs.fresh dir
  | _ => exact hop.elim

/-- A turn gives the same in both sessions, and they match again when it ends. -/
theorem Session.Matched.play (hs : s.Matched S O s') (t : Turn) :
    (t.play tick s').1 = (t.play tick s).1 ∧ Matched S O (t.play tick s).2 (t.play tick s').2 := by
  have hturn := hs.atTurn h t
  have hagree : Agree t.operation.run t.operation.run
      (fun a b u u' => a = b ∧ Lag S t.due u u') (Lag S t.due)
      { s with space := s.space.atTurn tick t } { s' with space := s'.space.atTurn tick t } := by
    by_cases hop : t.operation.Lists
    · exact hturn.agree_lists h hop
    · refine (t.operation.twin_run h.simulation h.apart (fun _ _ hl => hl.clear) (absurd · hop) _ _ hturn.twin).mono ?_ ?_
      · exact fun _ _ _ _ hu => ⟨hu.1, Or.inl hu.2.space, hu.2.descriptors⟩
      · exact fun _ _ hu => ⟨Or.inl hu.space, hu.descriptors⟩
  have hfresh := t.operation.fresh_run h.outline h.hides hturn.fresh fun _ e _ hlate => hlate.elim fun c hc => h.prompt c hc.2
  unfold Turn.play
  obtain ⟨a, b, u, u', hx, hy, rfl, hlag, hdescriptors⟩ | ⟨e, u, u', hx, hy, hlag, hdescriptors⟩ := hagree.cases
  · rw [hx] at hfresh
    rw [hx, hy]
    exact ⟨rfl, ⟨hlag.caughtUp h, hdescriptors⟩, hfresh.caughtUp h.outline h.hides t.due⟩
  · rw [hx] at hfresh
    rw [hx, hy]
    exact ⟨rfl, ⟨hlag.caughtUp h, hdescriptors⟩, hfresh.caughtUp h.outline h.hides t.due⟩

theorem Session.Matched.results (hs : s.Matched S O s') (run : List Turn) : s'.results tick run = s.results tick run := by
  induction run generalizing s s' with
  | nil => rfl
  | cons t run ih =>
    obtain ⟨hresult, hrest⟩ := hs.play h t
    unfold Session.results
    rw [hresult, ih hrest]

/-- Two namespaces that are started alike, one with a memory for listings and one without, give the same results. -/
theorem results_of_start {w : World φ μ} (hw : S.Rel (w.host, w.files) (w.host, w.files)) (hfit : O.Fit (w.host, w.files))
    (o : Options) (descriptors : Table String Descriptor) (run : List Turn) :
    (start { o with cacheListings := true } w).1.map (fun v => Session.results tick ⟨v, descriptors⟩ run) =
      (start { o with cacheListings := false } w).1.map fun v => Session.results tick ⟨v, descriptors⟩ run := by
  obtain ⟨v, v', hv, hv', htwin⟩ | ⟨e, hv, hv'⟩ :=
    (StartedAlike.start h.simulation h.apart hw rfl true false (L := Unremembered) ⟨rfl, rfl⟩ o).outcome
  · have hfresh : Fresh O v := by
      rcases hrun : start { o with cacheListings := true } w with ⟨r, w'⟩
      rw [hrun] at hv
      obtain rfl : r = .ok v := hv
      exact fresh_of_start h.outline h.hides hfit hrun
    rw [hv, hv']
    have hmatched : Session.Matched S O ⟨v, descriptors⟩ ⟨v', descriptors⟩ := ⟨⟨htwin, rfl⟩, hfresh⟩
    exact congrArg Except.ok (hmatched.results h run).symm
  · rw [hv, hv']

end Run

end Vfs

/-! ### Stores that are compared -/

namespace Storage

/-- A state corresponds to itself only. -/
def Simulation.same (φ : Type) [FileStore φ] : Simulation φ := ⟨Eq, fun _ => True, id⟩

theorem Simulation.same_lawful (hroot : ∀ create s a t, FileStore.file (φ := φ) .root create s ≠ (.ok a, t)) :
    (Simulation.same φ).Lawful := by
  have hself : ∀ {α : Type} (x : StoreM (Host × φ) α), Parallel Eq Eq x x := by
    rintro α x s _ rfl
    rcases hx : x s with ⟨e | a, t⟩
    · exact (agree_of_error hx hx).2 rfl
    · exact (agree_of_ok hx hx).2 ⟨rfl, rfl⟩
  exact {
    clock := fun _ _ h => by rw [h]
    directory := fun _ _ => hself _
    file := fun _ _ => hself _
    file_root := fun create s _ _ a t => hroot create s a t
    openHandle := fun _ _ => (hself _).mono fun _ _ h => ⟨h.symm, trivial⟩
    remove := fun _ _ => hself _
    move := fun _ _ _ _ => hself _
    list := fun _ => hself _
    entry := fun _ _ => hself _
    writeAt := fun _ _ _ _ => hself _
    read := fun _ _ _ _ => hself _
    write := fun _ _ _ _ => hself _
    truncate := fun _ _ _ => hself _
    flush := fun _ _ => hself _
    size := fun _ _ => hself _
    close := fun _ _ => hself _
    fallback := Or.inl fun _ _ h => by rw [h] }

theorem Simulation.same_apart : (Simulation.same φ).Apart μ := by
  constructor
  · rintro h _ m f _ ⟨⟩
    exact ⟨rfl, rfl, rfl⟩
  · rintro job h _ m f _ ⟨⟩
    exact ⟨rfl, rfl, rfl⟩

namespace Faulty

variable {refusals : Call → Path → Option StorageError}

omit [FileStore φ] in
/-- The store behind the plan at a given time. -/
def atTime (tick : Nat → φ → φ) (n : Nat) (f : Faulty φ) : Faulty φ := { f with inner := tick n f.inner }

/-- The stores behind the plans correspond. -/
def simulation (S : Simulation φ) (refusals : Call → Path → Option StorageError) : Simulation (Faulty φ) where
  Rel s t := S.Rel (inside s) (inside t) ∧ Steady refusals s ∧ Steady refusals t
  Held h := S.Held h.2
  partner h := (h.1, S.partner h.2)

variable {S : Simulation φ} {α β : Type} {x : StoreM (Host × φ) α} {y : StoreM (Host × φ) β} {R : α → β → Prop}

theorem parallel_served (h : Parallel S.Rel R x y) (call : Call) (p : Path) :
    Parallel (simulation S refusals).Rel R (served call p x) (served call p y) := by
  rintro s t ⟨hst, hs, ht⟩
  unfold Agree
  rw [served_run hs, served_run ht]
  cases refusals call p with
  | some e => exact ⟨rfl, hst, hs.around _, ht.around _⟩
  | none =>
    obtain ⟨a, b, s', t', hx, hy, hab, hst'⟩ | ⟨e, s', t', hx, hy, hst'⟩ := (h _ _ hst).cases
    · rw [hx, hy]
      exact ⟨hab, hst', hs.around s', ht.around t'⟩
    · rw [hx, hy]
      exact ⟨rfl, hst', hs.around s', ht.around t'⟩

theorem parallel_direct (h : Parallel S.Rel R x y) (call : Call) (p : Path) :
    Parallel (simulation S refusals).Rel R (direct call p x) (direct call p y) := by
  rintro s t ⟨hst, hs, ht⟩
  have hserved := parallel_served h call p s t ⟨hst, hs, ht⟩
  unfold Agree at hserved ⊢
  rw [served_run hs, served_run ht] at hserved
  rw [direct_run hs, direct_run ht]
  exact hserved

theorem simulation_lawful (hS : S.Lawful) (hbound : ∀ s t, S.Rel s t → FileStore.bound t = FileStore.bound s) :
    (simulation S refusals).Lawful where
  clock s t h := hS.clock (inside s) (inside t) h.1
  directory p create := parallel_served (hS.directory p create) .directory p
  file p create := parallel_served (hS.file p create) .file p
  file_root create s t h a s' hrun := by
    have hserved : served .file .root (FileStore.file .root create) s = (.ok a, s') := hrun
    rw [served_run h.2.1] at hserved
    cases hcall : refusals .file .root with
    | some e =>
      rw [hcall] at hserved
      cases hserved
    | none =>
      rw [hcall] at hserved
      have hpassed : (FileStore.file .root create (inside s)).1 = .ok a := congrArg Prod.fst hserved
      exact hS.file_root create (inside s) (inside t) h.1 a _ (Prod.ext hpassed rfl)
  openHandle p hp := by
    refine parallel_served (.bind (hS.openHandle p hp) ?_) .openHandle p
    rintro h _ ⟨rfl, hh⟩
    exact .pure ⟨rfl, hh⟩
  remove p recursive := parallel_served (hS.remove p recursive) .remove p
  move source target hs ht := parallel_served (hS.move source target hs ht) .move source
  list p := parallel_served (hS.list p) .list p
  entry p hp := parallel_served (hS.entry p hp) .entry p
  writeAt p offset data hp := parallel_served (hS.writeAt p offset data hp) .writeAt p
  read h pos length hh := parallel_direct (hS.read h.2 pos length hh) .read h.1
  write h pos data hh := parallel_direct (hS.write h.2 pos data hh) .write h.1
  truncate h length hh := parallel_direct (hS.truncate h.2 length hh) .truncate h.1
  flush h hh := parallel_direct (hS.flush h.2 hh) .flush h.1
  size h hh := parallel_direct (hS.size h.2 hh) .size h.1
  close h hh := by
    rintro s t ⟨hst, hs, ht⟩
    unfold Agree
    rw [close_run hs, close_run ht]
    obtain ⟨_, _, s', t', hx, hy, -, hst'⟩ | ⟨e, s', t', hx, hy, hst'⟩ := (hS.close h.2 hh _ _ hst).cases
    · simp only [hx, simulation, hy]
      cases refusals .close h.1 with
      | some e => exact ⟨rfl, hst', hs.around s', ht.around t'⟩
      | none => exact ⟨trivial, hst', hs.around s', ht.around t'⟩
    · simp only [hx, simulation, hy]
      exact ⟨trivial, hst', ⟨hs.plan, hs.alive⟩, ⟨ht.plan, ht.alive⟩⟩
  fallback := Or.inl fun s t h => hbound (inside s) (inside t) h.1

theorem unseen_served (h : Stays S.Unseen x) (call : Call) (p : Path) :
    Stays (simulation S refusals).Unseen (served call p x) := by
  refine stays_iff.2 fun t s ⟨hst, hs, ht⟩ => ?_
  rw [served_run ht]
  cases refusals call p with
  | some e => exact ⟨hst, hs, ht.around _⟩
  | none => exact ⟨stays_iff.1 h (inside t) (inside s) hst, hs, ht.around _⟩

theorem simulation_apart (h : S.Apart μ) : (simulation S refusals).Apart μ where
  load host host' m f f' hrel := by
    obtain ⟨hresult, hmap, hrel'⟩ := h.load host host' m f.inner f'.inner hrel.1
    exact ⟨hresult, hmap, hrel', ⟨hrel.2.1.plan, hrel.2.1.alive⟩, ⟨hrel.2.2.plan, hrel.2.2.alive⟩⟩
  job job host host' m f f' hrel := by
    obtain ⟨hresult, hmap, hrel'⟩ := h.job job host host' m f.inner f'.inner hrel.1
    exact ⟨hresult, hmap, hrel', ⟨hrel.2.1.plan, hrel.2.1.alive⟩, ⟨hrel.2.2.plan, hrel.2.2.alive⟩⟩

end Faulty

namespace Memory

/-- The store at a given time. -/
def atTime (n : Nat) (m : Memory) : Memory := { m with clock := n }

/-- A call that changes nothing. -/
theorem unseen_of_eq {α : Type} {x : StoreM Memory α} (h : ∀ m, wp x (fun _ m' => m' = m) (fun _ m' => m' = m) m) :
    Stays (Simulation.same Memory).Unseen (.onSecond x : StoreM (Host × Memory) α) := by
  intro s
  refine wp_within.2 ((h s.2).mono ?_ ?_)
  · rintro _ _ rfl _ ht
    exact ht
  · rintro _ _ rfl _ ht
    exact ht

end Memory

end Storage

namespace Vfs

variable {S : Simulation φ} {O : Outline φ} {tick : Nat → φ → φ}

/-- Stores in memory are compared with themselves. -/
theorem comparable_memory : Comparable (.same Memory) outline μ atTime where
  simulation := by
    refine Simulation.same_lawful fun create s a t hrun => ?_
    cases create <;> cases hrun
  outline := outline_lawful
  apart := Simulation.same_apart
  hides := ⟨fun _ _ _ hfit => ⟨hfit, rfl⟩, fun _ _ _ _ hfit => ⟨hfit, rfl⟩⟩
  prompt _ h := h
  directory p := unseen_of_eq fun m => (wp_directory_false p m).mono (fun _ _ h => h.1) fun _ _ h => h.1
  list p := unseen_of_eq fun m => (wp_list p m).mono (fun _ _ h => h.1) fun _ _ h => h.1
  ticked n s t h := by
    obtain rfl : s = t := h
    rfl
  same n s hfit := ⟨hfit.congr fun _ => rfl, rfl⟩

/-- What is so of stores is so of stores that refuse some calls. -/
theorem Comparable.refusing (h : Comparable S O μ tick) (hbound : ∀ s t, S.Rel s t → FileStore.bound t = FileStore.bound s)
    (refusals : Call → Path → Option StorageError) :
    Comparable (Faulty.simulation S refusals) (Faulty.outline O refusals) μ (Faulty.atTime tick) where
  simulation := Faulty.simulation_lawful h.simulation hbound
  outline := Faulty.outline_lawful h.outline
  apart := Faulty.simulation_apart h.apart
  hides := by
    constructor
    · intro host m f hfit
      obtain ⟨hfit', hshape⟩ := h.hides.load host m f.inner hfit.1
      exact ⟨⟨hfit', ⟨hfit.2.plan, hfit.2.alive⟩⟩, hshape⟩
    · intro job host m f hfit
      obtain ⟨hfit', hshape⟩ := h.hides.job job host m f.inner hfit.1
      exact ⟨⟨hfit', ⟨hfit.2.plan, hfit.2.alive⟩⟩, hshape⟩
  prompt := h.prompt
  directory p := Faulty.unseen_served (h.directory p) .directory p
  list p := Faulty.unseen_served (h.list p) .list p
  ticked n s t hst := ⟨h.ticked n _ _ hst.1, ⟨hst.2.1.plan, hst.2.1.alive⟩, ⟨hst.2.2.plan, hst.2.2.alive⟩⟩
  same n s hfit := by
    obtain ⟨hfit', hshape⟩ := h.same n (Faulty.inside s) hfit.1
    exact ⟨⟨hfit', ⟨hfit.2.plan, hfit.2.alive⟩⟩, hshape⟩

/-- Remembering listings cannot be seen. A namespace is started on a store in memory, or on one that always refuses the
same calls, and used in turns. With a memory for listings or without, starting it fails for the same reason, or
each operation gives the same value or fails with the same error. -/
theorem listing_cache_invisible (o : Options) (descriptors : Table String Descriptor) (run : List Turn) :
    (∀ w : World Memory μ, w.files.Reachable →
      (start { o with cacheListings := true } w).1.map (fun v => Session.results atTime ⟨v, descriptors⟩ run) =
        (start { o with cacheListings := false } w).1.map fun v => Session.results atTime ⟨v, descriptors⟩ run) ∧
    ∀ (refusals : Call → Path → Option StorageError) (w : World (Faulty Memory) μ), w.files.inner.Reachable →
      Faulty.Steady refusals (w.host, w.files) →
      (start { o with cacheListings := true } w).1.map
          (fun v => Session.results (Faulty.atTime atTime) ⟨v, descriptors⟩ run) =
        (start { o with cacheListings := false } w).1.map
          fun v => Session.results (Faulty.atTime atTime) ⟨v, descriptors⟩ run := by
  constructor
  · intro w hstore
    exact results_of_start comparable_memory rfl hstore.closed o descriptors run
  · intro refusals w hstore hsteady
    have hbound : ∀ s t, (Simulation.same Memory).Rel s t → FileStore.bound t = FileStore.bound s :=
      fun _ _ h => congrArg FileStore.bound (Eq.symm h)
    exact results_of_start (comparable_memory.refusing hbound refusals) ⟨rfl, hsteady, hsteady⟩ ⟨hstore.closed, hsteady⟩ o
      descriptors run

/-- A directory is listed twice and its removal is refused; then it is listed again, with a job in the queue. -/
theorem listing_cache_invisible_refusingRemovals :
    let refusals : Call → Path → Option StorageError := fun call _ => if call = .remove then some .mapUnavailable else none
    let w : World (Faulty Memory) Records := ⟨{}, { inner := {}, plan := Faulty.refusing refusals }, {}⟩
    let run : List Turn := [⟨.createDirectoryAt none "d", [], 1⟩, ⟨.readDirectoryAt none "/", [], 2⟩,
      ⟨.readDirectoryAt none "/", [], 3⟩, ⟨.removeDirectoryAt none "d", [], 4⟩, ⟨.symlinkAt none "d" "l", [0], 5⟩,
      ⟨.readDirectoryAt none "/", [0, 1], 6⟩]
    (w.files.inner.Reachable ∧ Faulty.Steady refusals (w.host, w.files)) ∧
      (start { ({} : Options) with cacheListings := true } w).1.map
          (fun v => Session.results (Faulty.atTime atTime) ⟨v, ∅⟩ run) =
        (start { ({} : Options) with cacheListings := false } w).1.map
          fun v => Session.results (Faulty.atTime atTime) ⟨v, ∅⟩ run := by
  intro refusals w run
  have hstore : w.files.inner.Reachable := ⟨_, .fresh {} false 0, rfl⟩
  have hsteady : Faulty.Steady refusals (w.host, w.files) := ⟨rfl, rfl⟩
  exact ⟨⟨hstore, hsteady⟩, (listing_cache_invisible {} ∅ run).2 refusals w hstore hsteady⟩

end Vfs

end Filespace
