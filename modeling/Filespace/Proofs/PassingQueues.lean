import Filespace.Proofs.Traversals

/-!
# What operations do to the queue

Over whatever store, only five things can happen to the queue of a namespace and to its register of queued writes:
the first job is done, the writes below a path lose their meaning, a write is queued, link jobs are queued, or nothing
(`Beat`). Every use of a session is a chain of them (`Session.passes_after`), so what they keep holds along every run.

An operation that cuts a file, or removes or moves an entry of the store, makes the writes queued for it meaningless
before it goes on (`Operation.voided`). A link is no entry of the store, and neither its removal nor its renaming
touches queued writes.
-/

namespace Filespace.Vfs

open Storage Session

variable {φ μ α β : Type} [FileStore φ] [LinkMap μ] {x : VfsM φ μ α} {b : Option String}

/-! ### Beats -/

/-- The namespace with the queued writes at and below a path out of the way. -/
def staled (v : Vfs φ μ) (p : Path) : Vfs φ μ := { v with detached := v.detached.invalidateUnder p }

/-- What can happen to the queue. Everything but the queue may change at any time. -/
inductive Beat : Vfs φ μ → Vfs φ μ → Prop
  | job {v : Vfs φ μ} {j : Job Work} {rest : List (Job Work)} (queue : v.background.queue = j :: rest) :
      Beat v (v.finished j rest)
  | stale {v : Vfs φ μ} (p : Path) : Beat v (v.staled p)
  | queue {v : Vfs φ μ} (p : Path) (offset : Nat) (data : Bytes) : Beat v (v.queued p offset data)
  | links {v : Vfs φ μ} (l : Links) (jobs : List LinkJob) : Beat v (v.relinked l jobs)
  | aside {v w : Vfs φ μ} (background : w.background = v.background) (detached : w.detached = v.detached) : Beat v w

/-- A chain of beats. -/
def Passes : Vfs φ μ → Vfs φ μ → Prop := Relation.ReflTransGen Beat

instance : IsPreorder (Vfs φ μ) Passes where
  refl _ := .refl
  trans _ _ _ := .trans

variable {u v w : Vfs φ μ} {p q : Path}

theorem Passes.aside (hbackground : w.background = v.background) (hdetached : w.detached = v.detached) : Passes v w :=
  .single (.aside hbackground hdetached)

theorem passes_runJobs (n : Nat) (v : Vfs φ μ) : Passes v (v.runJobs n) :=
  related_runJobs (fun _ _ _ hq => .single (.job hq)) n v

theorem passes_onFiles (x : StoreM (Host × φ) α) : Stays Passes (onFiles x : VfsM φ μ α) :=
  stays_iff.2 fun _ => .aside rfl rfl

theorem passes_call (r : Request) : Stays Passes (call r : VfsM φ μ _) :=
  .bind (.modify fun v => related_runDue (fun _ _ _ hq => .single (.job hq)) (fun _ _ => .aside rfl rfl) v)
    fun _ => passes_onFiles _

theorem passes_clearListings : Stays Passes (clearListings : VfsM φ μ Unit) := .modify fun _ => .aside rfl rfl

theorem passes_setLinks (l : Links) (jobs : List LinkJob) : Stays Passes (setLinks l jobs : VfsM φ μ Unit) := by
  refine stays_iff.2 fun v => ?_
  rw [setLinks_run]
  exact .single (.links l jobs)

theorem bears_passes : Bears (Passes (φ := φ) (μ := μ)) where
  waitIdle := .modify fun v => passes_runJobs _ v
  look _ := passes_call _
  readExactAt _ _ _ := passes_onFiles _
  writeAllAt _ _ _ := passes_onFiles _
  size _ := passes_onFiles _
  truncate _ _ := passes_onFiles _
  flush _ := passes_onFiles _
  note _ _ _ := .aside rfl rfl
  stale _ p := .single (.stale p)

/-! ### Operations that make queued writes meaningless -/

/-- On the way the writes at and below a path have lost their meaning. -/
def Voided (p : Path) (v w : Vfs φ μ) : Prop := ∃ u, Passes v u ∧ Passes (u.staled p) w

/-- An operation that ends well only after the writes at and below a path have lost their meaning. -/
def Voids (p : Path) (x : VfsM φ μ α) (v : Vfs φ μ) : Prop := wp x (fun _ w => Voided p v w) (fun _ _ => True) v

theorem Voids.throw {e : Error} : Voids p (throw e : VfsM φ μ α) v := trivial

theorem Voids.later (h : Passes v w) (hx : Voids p x w) : wp x (fun _ u => Voided p v u) (fun _ _ => True) w := by
  refine hx.imp fun _ u hu => ?_
  obtain ⟨y, hy, hu⟩ := hu
  exact ⟨y, trans_of Passes h hy, hu⟩

theorem Voids.before {f : α → VfsM φ μ β} (hx : Stays Passes x) (hf : ∀ a w, Voids p (f a) w) : Voids p (x >>= f) v :=
  wp_bind.2 ((hx v).mono (fun a w hw => Voids.later hw (hf a w)) fun _ _ _ => trivial)

theorem Voids.after {f : α → VfsM φ μ β} (hx : Voids p x v) (hf : ∀ a, Stays Passes (f a)) : Voids p (x >>= f) v := by
  refine wp_bind.2 (hx.imp fun a w hw => (hf a w).mono (fun _ _ hu => ?_) fun _ _ _ => trivial)
  obtain ⟨y, hy, hw⟩ := hw
  exact ⟨y, hy, trans_of Passes hw hu⟩

theorem Voids.ite {c : Prop} [Decidable c] {y : VfsM φ μ α} (hx : c → Voids p x v) (hy : ¬ c → Voids p y v) :
    Voids p (if c then x else y) v := by
  split
  · exact hx ‹_›
  · exact hy ‹_›

theorem voids_truncatePath (p : Path) (length : Nat) (v : Vfs φ μ) : Voids p (truncatePath p length) v :=
  .after (show Voided p v (v.staled p) from ⟨v, .refl, .refl⟩) fun _ => bears_passes.resize p length

theorem voids_forget (p : Path) (v : Vfs φ μ) : Voids p (forget p) v :=
  show Voided p v _ from ⟨v, .refl, .aside rfl rfl⟩

theorem passes_forget (p : Path) : Stays Passes (forget p : VfsM φ μ Unit) := by
  refine stays_iff.2 fun v => ?_
  obtain ⟨u, hu, hw⟩ := voids_forget p v
  exact trans_of Passes hu (.head (.stale p) hw)

theorem passes_moveEntry (source target : Path) : Stays Passes (moveEntry source target : VfsM φ μ Unit) := by
  have hmove : Stays Passes (tryCatch (do
      let _ ← call (.move source target)
      return .ok ()) (fun e => return .error e) : VfsM φ μ (Except Error Unit)) :=
    .tryCatch (.bind (passes_call _) fun _ => .pure) fun _ => .pure
  refine .bind hmove fun outcome => ?_
  split
  · exact .pure
  · exact .ite (fun _ => .bind (passes_call _) fun _ => .bind (passes_call _) fun _ => .pure) fun _ => .throw

theorem passes_relocate (source target : Path) (entry : Entry) :
    Stays Passes (relocate source target entry : VfsM φ μ Unit) := by
  refine .bind passes_clearListings fun _ => .ite (fun _ => .get_bind fun _ => passes_setLinks _ _) fun _ => ?_
  refine .get_bind fun v => .bind (passes_forget source) fun _ => .bind (passes_moveEntry source target) fun _ => ?_
  refine .bind (.modify fun _ => .aside rfl rfl) fun _ => .ite (fun _ => ?_) fun _ => .pure
  exact .get_bind fun _ => passes_setLinks _ _

theorem passes_openNew (p : Path) (flags : Flags) : Stays Passes (openNew p flags : VfsM φ μ Entry) := by
  refine .guard (.ite (fun _ => ?_) fun _ => ?_)
  · exact .bind (passes_call _) fun _ => .bind passes_clearListings fun _ => .pure
  · exact .bind (passes_call _) fun _ => .bind passes_clearListings fun _ => .bind (bears_passes.noteSize p 0)
      fun _ => .get_bind fun _ => .pure

theorem passes_openAt (base : Option Descriptor) (raw : String) (flags : Flags) :
    Stays Passes (openAt base raw flags : VfsM φ μ Descriptor) :=
  bears_passes.openAt (fun p => passes_openNew p flags) base raw

theorem passes_list (dir : Path) : Stays Passes (list dir : VfsM φ μ (List DirEntry)) := by
  refine .get_bind fun v => ?_
  split
  · exact .pure
  · refine .bind (passes_call _) fun _ => .bind (stays_settle _) fun _ => .get_bind fun _ => ?_
    exact .bind (.modify fun _ => .aside rfl rfl) fun _ => .pure

theorem carries_passes : Carries (Passes (φ := φ) (μ := μ)) where
  toBears := bears_passes
  goTo _ _ := .aside rfl rfl
  queue _ p offset data := .single (.queue p offset data)
  release _ := stays_iff.2 fun _ => .aside rfl rfl
  list := passes_list
  createDirectoryAt base raw :=
    .bind (stays_resolve base raw false) fun p => .bind (bears_passes.requireFree p) fun _ =>
      .bind (passes_call _) fun _ => passes_clearListings
  removeDirectoryAt base raw := by
    refine .bind (stays_resolve base raw false) fun p => .guard (.bind (bears_passes.lookup p) fun found => ?_)
    split
    · exact .throw_bind
    · exact .bind (passes_forget p) fun _ => .bind passes_clearListings fun _ => .bind (passes_call _) fun _ =>
        .get_bind fun _ => passes_setLinks _ _
    · exact .throw_bind
  unlinkAt base raw := by
    refine .bind (stays_resolve base raw false) fun p => .bind (bears_passes.lookup p) fun found => ?_
    split
    · exact .throw_bind
    · exact .throw_bind
    · exact .get_bind fun _ => .bind (passes_setLinks _ _) fun _ => passes_clearListings
    · exact .bind (passes_forget p) fun _ => .bind passes_clearListings fun _ => .bind (passes_call _) fun _ =>
        passes_clearListings
  renameAt base raw toBase toRaw := by
    refine .bind (bears_passes.renamePlan base raw toBase toRaw) fun plan => ?_
    split
    · exact .pure
    · exact passes_relocate _ _ _
  symlinkAt base target raw := by
    refine .guard (.bind (stays_resolve base raw false) fun p => .bind (bears_passes.requireFree p) fun _ => ?_)
    exact .get_bind fun _ => .bind (passes_setLinks _ _) fun _ => passes_clearListings

theorem Operation.passes (op : Operation) (s : Session φ μ) : Passes s.space (op.run s).2.space :=
  stays_iff.1 (carries_passes.run op fun _ p flags _ _ base => passes_openAt base p flags) s

/-- Whatever happens in a run is a chain of beats. -/
theorem Session.passes_after (s : Session φ μ) (run : List Event) : Passes s.space (s.after run).space := by
  induction run generalizing s with
  | nil => exact .refl
  | cons e run ih =>
    refine trans_of Passes ?_ (ih (e.happen s))
    cases e with
    | use op => exact op.passes s
    | work n => exact passes_runJobs n s.space
    | pace l => exact .aside rfl rfl

/-! ### Operations that displace entries of the store -/

/-- The path that the arguments of an operation stand for. -/
def Session.placeOf (s : Session φ μ) (b : Option String) (raw : String) (follow : Bool) : Except Refusal Path :=
  ((do
    let d ← base b
    onSpace (resolve d raw follow)) s).1

/-- What an operation that ends well has cut, removed or moved in the store. -/
inductive Operation.Displaces (s : Session φ μ) : Operation → Path → Prop
  | setSize {fd : String} {length : Nat} {d : Descriptor} (open_ : s.descriptors.get? fd = some d) :
      Displaces s (.setSize fd length) d.path
  | cut {b : Option String} {raw : String} {flags : Flags} {name : Option String} {p : Path} {e : Entry}
      (truncate : flags.truncate = true) (names : s.placeOf b raw flags.follow = .ok p)
      (found : (lookup p s.space).1 = .ok (some e)) (file : e.isFile = true) : Displaces s (.openAt b raw flags name) p
  | unlink {b : Option String} {raw : String} {p : Path} (names : s.placeOf b raw false = .ok p)
      (unlinked : s.space.links.get? p = none) : Displaces s (.unlinkAt b raw) p
  | rename {b c : Option String} {raw toRaw : String} {p : Path} (names : s.placeOf b raw false = .ok p)
      (other : s.placeOf c toRaw false ≠ .ok p) (unlinked : s.space.links.get? p = none) :
      Displaces s (.renameAt b raw c toRaw) p
  | removeDirectory {b : Option String} {raw : String} {p : Path} (names : s.placeOf b raw false = .ok p) :
      Displaces s (.removeDirectoryAt b raw) p

section Displacing

variable {s : Session φ μ} {base toBase : Option Descriptor} {raw toRaw : String}

/-- Where no link is, none is found. -/
theorem lookup_unlinked (h : v.links.get? p = none) :
    wp (lookup p) (fun found w => Passes v w ∧ ∀ target, found ≠ some (.link target)) (fun _ _ => True) v := by
  have hentry : wp (lookup p) (fun found _ => ∀ target, found ≠ some (.link target)) (fun _ _ => True) v := by
    refine wp_bind.2 (wp_get.2 ?_)
    rw [h]
    refine wp_ite.2 ⟨fun _ => by simp [wp_pure], fun _ => wp_bind.2 ?_⟩
    refine (passes_call _ v).mono (fun reply u _ => wp_bind.2 ?_) fun _ _ _ => trivial
    refine (stays_settle (R := Passes) _ u).mono (fun found u' _ => ?_) fun _ _ _ => trivial
    split
    · simp [wp_pure]
    · simp [wp_pure]
    · refine wp_bind.2 (wp_get.2 ?_)
      split
      · refine wp_bind.2 ((passes_onFiles _ u').mono (fun _ _ _ => ?_) fun _ _ _ => trivial)
        simp [wp_pure]
      · simp [wp_pure]
  exact ((bears_passes.lookup p v).and hentry).mono (fun _ _ h => h) fun _ _ _ => trivial

theorem voids_removeDirectoryAt (hp : (resolve base raw false v).1 = .ok p) :
    Voids p (removeDirectoryAt base raw) v := by
  refine wp_bind.2 ((wp_of_ok (resolve_run hp)).2 (Voids.ite (fun _ => .throw) fun _ => ?_))
  refine .before (bears_passes.lookup p) fun found w => ?_
  split
  · exact .throw
  · exact .after (voids_forget p w) fun _ => .bind passes_clearListings fun _ => .bind (passes_call _) fun _ =>
      .get_bind fun _ => passes_setLinks _ _
  · exact .throw

theorem voids_unlinkAt (hp : (resolve base raw false v).1 = .ok p) (hunlinked : v.links.get? p = none) :
    Voids p (unlinkAt base raw) v := by
  refine wp_bind.2 ((wp_of_ok (resolve_run hp)).2 (wp_bind.2 ?_))
  refine (lookup_unlinked hunlinked).mono ?_ fun _ _ _ => trivial
  intro found w ⟨hpasses, hfound⟩
  refine Voids.later hpasses ?_
  split
  · exact .throw
  · exact .throw
  · rename_i target
    exact absurd rfl (hfound target)
  · exact .after (voids_forget p w) fun _ => .bind passes_clearListings fun _ => .bind (passes_call _) fun _ =>
      passes_clearListings

/-- What a rename to another path is to do, if it is not a link that is renamed. -/
theorem renamePlan_unlinked (hp : (resolve base raw false v).1 = .ok p)
    (hother : (resolve toBase toRaw false v).1 ≠ .ok p) (hunlinked : v.links.get? p = none) :
    wp (renamePlan base raw toBase toRaw)
      (fun plan w => Passes v w ∧ ∃ target entry, plan = some (p, target, entry) ∧ entry.isLink = false)
      (fun _ _ => True) v := by
  have hplan : wp (renamePlan base raw toBase toRaw)
      (fun plan _ => ∃ target entry, plan = some (p, target, entry) ∧ entry.isLink = false) (fun _ _ => True) v := by
    refine wp_bind.2 ((wp_of_ok (resolve_run hp)).2 (wp_bind.2 ?_))
    refine wp_iff.2 ⟨fun target w hrun => ?_, fun _ _ _ => trivial⟩
    have hresolved : (resolve toBase toRaw false v).1 = .ok target := by rw [hrun]
    obtain rfl : w = v := by
      have hsame := resolve_run hresolved
      rw [hrun] at hsame
      exact congrArg Prod.snd hsame
    have hne : p ≠ target := by
      intro htarget
      rw [← htarget] at hresolved
      exact hother hresolved
    refine wp_ite.2 ⟨fun _ => trivial, fun _ => wp_bind.2 (wp_bind.2 ?_)⟩
    refine (lookup_unlinked hunlinked).mono (fun found u hfound => ?_) fun _ _ _ => trivial
    cases found with
    | none => exact trivial
    | some entry =>
      have hlink : entry.isLink = false := by
        cases entry with
        | link target => exact absurd rfl (hfound.2 target)
        | _ => rfl
      refine wp_pure.2 (wp_ite.2 ⟨fun heq => absurd heq hne, fun _ => wp_bind.2 ?_⟩)
      refine (bears_passes.lookup target u).mono (fun found u' _ => ?_) fun _ _ _ => trivial
      refine wp_ite.2 ⟨fun _ => trivial, fun _ => wp_ite.2 ⟨fun _ => trivial, fun _ => wp_bind.2 ?_⟩⟩
      exact (bears_passes.requireParent target u').mono (fun _ _ _ => ⟨target, entry, rfl, hlink⟩)
        fun _ _ _ => trivial
  exact ((bears_passes.renamePlan base raw toBase toRaw v).and hplan).mono (fun _ _ h => h) fun _ _ _ => trivial

theorem voids_relocate (source target : Path) {entry : Entry} (hentry : entry.isLink = false) (v : Vfs φ μ) :
    Voids source (relocate source target entry) v := by
  refine .before passes_clearListings fun _ w => .ite (fun hlink => ?_) fun _ => ?_
  · rw [hentry] at hlink
    cases hlink
  · refine wp_bind.2 (wp_get.2 (Voids.after (voids_forget source w) fun _ => ?_))
    refine .bind (passes_moveEntry source target) fun _ => .bind (.modify fun _ => .aside rfl rfl) fun _ => ?_
    exact .ite (fun _ => .get_bind fun _ => passes_setLinks _ _) fun _ => .pure

theorem voids_renameAt (hp : (resolve base raw false v).1 = .ok p) (hother : (resolve toBase toRaw false v).1 ≠ .ok p)
    (hunlinked : v.links.get? p = none) : Voids p (renameAt base raw toBase toRaw) v := by
  refine wp_bind.2 ((renamePlan_unlinked hp hother hunlinked).mono ?_ fun _ _ _ => trivial)
  intro plan w ⟨hpasses, target, entry, hplan, hentry⟩
  subst hplan
  exact Voids.later hpasses (voids_relocate p target hentry w)

theorem voids_openAt {flags : Flags} {e : Entry} (htruncate : flags.truncate = true)
    (hp : (resolve base raw flags.follow v).1 = .ok p) (hfound : (lookup p v).1 = .ok (some e))
    (hfile : e.isFile = true) : Voids p (openAt base raw flags) v := by
  refine wp_bind.2 ((wp_of_ok (resolve_run hp)).2 (wp_bind.2 ?_))
  refine wp_iff.2 ⟨fun found w hrun => ?_, fun _ _ _ => trivial⟩
  have hpasses : Passes v w := (bears_passes.lookup p v).ok hrun
  obtain rfl : found = some e := by
    rw [hrun] at hfound
    exact Except.ok.inj hfound
  refine Voids.later hpasses ?_
  cases e with
  | directory | link => cases hfile
  | file size modified =>
    refine .after (.ite (fun _ => .throw) fun _ => .ite (fun _ => .throw) fun _ => .ite (fun _ => .throw) fun _ => ?_)
      fun _ => .pure
    rw [if_pos ⟨htruncate, hfile⟩]
    exact .after (voids_truncatePath p 0 w) fun _ => .get_bind fun _ => .pure

theorem voids_setSize (d : Descriptor) (length : Nat) (v : Vfs φ μ) : Voids d.path (setSize d length) v :=
  .before (stays_requireWritable d) fun _ w => voids_truncatePath d.path length w

/-! #### In a session -/

omit [LinkMap μ] in
theorem Session.base_run {d : Option Descriptor} (h : (Session.base b s).1 = .ok d) : Session.base b s = (.ok d, s) :=
  Prod.ext h (stays_iff.1 (stays_base (R := Eq) b) s).symm

omit [LinkMap μ] in
theorem Session.placeOf_eq_ok_iff {follow : Bool} :
    s.placeOf b raw follow = .ok p ↔ ∃ d, (Session.base b s).1 = .ok d ∧ (resolve d raw follow s.space).1 = .ok p := by
  unfold placeOf
  rw [bind_run]
  rcases hbase : base b s with ⟨r | d, t⟩
  · simp
  · obtain rfl : t = s := congrArg Prod.snd (hbase.symm.trans (base_run (congrArg Prod.fst hbase)))
    rcases hrun : resolve d raw follow t.space with ⟨e | q, w⟩ <;> simp [onSpace_run hrun, hrun, Except.mapError]

theorem Session.voids_onSpace {k : α → SessionM φ μ β} (hx : Voids p x s.space)
    (hk : ∀ a, Stays (Across Passes) (k a)) :
    wp (onSpace x >>= k) (fun _ t => Voided p s.space t.space) (fun _ _ => True) s := by
  refine wp_bind.2 (wp_onSpace.2 (hx.imp fun a w hw => ?_))
  obtain ⟨y, hy, hw⟩ := hw
  exact (hk a _).mono (fun _ _ hu => ⟨y, hy, trans_of Passes hw hu⟩) fun _ _ _ => trivial

theorem Session.voids_onBase {d : Option Descriptor} {x : Option Descriptor → VfsM φ μ α}
    {k : α → SessionM φ μ β} (hbase : (Session.base b s).1 = .ok d) (hx : Voids p (x d) s.space)
    (hk : ∀ a, Stays (Across Passes) (k a)) :
    wp (Session.base b >>= fun d => Session.onSpace (x d) >>= k) (fun _ t => Voided p s.space t.space)
      (fun _ _ => True) s :=
  wp_bind.2 ((wp_of_ok (Session.base_run hbase)).2 (Session.voids_onSpace hx hk))

/-- An operation that has displaced an entry has first made the writes queued for it meaningless. -/
theorem Operation.voided {op : Operation} {t : Session φ μ} {x : Value} (h : op.Displaces s p)
    (hrun : op.run s = (.ok x, t)) : Voided p s.space t.space := by
  have hwp : wp op.run (fun _ t => Voided p s.space t.space) (fun _ _ => True) s := by
    cases h with
    | setSize hd =>
      refine wp_onDescriptor (fun d' hd' => ?_) trivial
      cases hd.symm.trans hd'
      exact voids_setSize _ _ s.space
    | cut htruncate hnames hfound hfile =>
      obtain ⟨d, hbase, hp⟩ := Session.placeOf_eq_ok_iff.1 hnames
      refine voids_onBase hbase (voids_openAt htruncate hp hfound hfile) fun a => ?_
      split
      · exact .bind (stays_keep _ a) fun _ => .pure
      · exact .pure
    | unlink hnames hunlinked =>
      obtain ⟨d, hbase, hp⟩ := Session.placeOf_eq_ok_iff.1 hnames
      exact voids_onBase hbase (voids_unlinkAt hp hunlinked) fun _ => .pure
    | rename hnames hother hunlinked =>
      obtain ⟨d, hbase, hp⟩ := Session.placeOf_eq_ok_iff.1 hnames
      refine wp_bind.2 ((wp_of_ok (base_run hbase)).2 (wp_bind.2 ?_))
      refine (wp_base _ s).mono ?_ fun _ _ _ => trivial
      intro d' t' ⟨hsame, hbase'⟩
      subst hsame
      refine voids_onSpace (voids_renameAt hp (fun hp' => ?_) hunlinked) fun _ => .pure
      exact hother (placeOf_eq_ok_iff.2 ⟨d', hbase', hp'⟩)
    | removeDirectory hnames =>
      obtain ⟨d, hbase, hp⟩ := Session.placeOf_eq_ok_iff.1 hnames
      exact voids_onBase hbase (voids_removeDirectoryAt hp) fun _ => .pure
  exact hwp.ok hrun

end Displacing

end Filespace.Vfs
