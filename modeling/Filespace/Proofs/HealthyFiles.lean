import Filespace.Proofs.NamespaceOperations
import Filespace.Proofs.SureCalls

/-!
# Files of a healthy namespace

A namespace over a store in memory is healthy if the tree is closed, no file is too long, and handles, locks and queued
writes agree. It stays so whatever is done (`Reaches.healthy`), and it knows before a call of the store whether the call
can fail. Its operations therefore fail before their first change or not at all. `Ends F x Q E v` says this of an
operation `x`: if it fails, it has taken steps of the kinds in `F` only, and `E` is known of the failure.

What an operation changes is one step, after steps that prepare it and before notes in caches (`After`). For writes the
step is known to the byte (`Patched`).
-/

namespace Filespace

open Storage Memory Request

/-- A failure that the namespace itself has found, and not the store. -/
def Error.Own (e : Error) : Prop := ∀ s, e ≠ .storage s

/-- What the namespace shows of a node. -/
def Storage.Memory.Node.entry : Node → Entry
  | directory => .directory
  | file d => .file d.bytes.length d.modified

namespace Vfs

variable {μ α β : Type} [LinkMap μ] {v w u : Vfs Memory μ} {p : Path} {F : Act → Prop} {f : α → VfsM Memory μ β}
  {k : Handle} {a : Act}

/-- The tree is closed, no file is too long, and handles, locks and queued writes agree. -/
structure Healthy (v : Vfs Memory μ) : Prop where
  closed : v.memory.Closed
  short : v.memory.Short
  sound : v.Sound

theorem Reaches.healthy {P : Act → Prop} (h : Reaches P v w) (hv : v.Healthy) : w.Healthy :=
  ⟨h.closed hv.closed, h.short hv.short, h.sound hv.closed hv.sound⟩

/-! ### Operations that fail early -/

/-- How an operation on a healthy namespace ends: in `Q` with a value, or by a failure in `E` after steps of the kinds in
`F`. -/
def Ends (F : Act → Prop) (x : VfsM Memory μ α) (Q : α → Vfs Memory μ → Prop) (E : Error → Prop) (v : Vfs Memory μ) :
    Prop :=
  v.Healthy → wp x Q (fun e w => Reaches F v w ∧ E e) v

section Rules

variable {F F' P : Act → Prop} {x : VfsM Memory μ α} {Q Q' : α → Vfs Memory μ → Prop} {R : β → Vfs Memory μ → Prop}
  {E E' : Error → Prop}

theorem Ends.mono (h : Ends F x Q E v) (hF : ∀ a, F a → F' a) (hQ : ∀ a w, Q a w → Q' a w) (hE : ∀ e, E e → E' e) :
    Ends F' x Q' E' v := by
  intro hv
  refine (h hv).mono hQ ?_
  rintro e w ⟨hr, he⟩
  exact ⟨hr.mono hF, hE e he⟩

theorem Ends.imp (h : Ends F x Q E v) (hQ : ∀ a w, Q a w → Q' a w) : Ends F x Q' E v :=
  h.mono (fun _ hF => hF) hQ fun _ hE => hE

theorem Ends.imp_error (h : Ends F x Q E v) (hE : ∀ e, E e → E' e) : Ends F x Q E' v :=
  h.mono (fun _ hF => hF) (fun _ _ hQ => hQ) hE

/-- Nothing is said of failures. -/
theorem Ends.any (h : Ends F x Q E v) : Ends Any x Q (fun _ => True) v :=
  h.mono (fun _ _ => trivial) (fun _ _ hQ => hQ) fun _ _ => trivial

theorem Ends.pure {a : α} (h : Q a v) : Ends F (pure a) Q E v := fun _ => h

theorem Ends.throw {e : Error} (h : E e) : Ends F (throw e) Q E v := fun _ => ⟨.refl, h⟩

theorem Ends.throw_bind {e : Error} (h : E e) : Ends F ((MonadExcept.throw e) >>= f) R E v := fun _ => ⟨.refl, h⟩

theorem Ends.ite {c : Prop} [Decidable c] {y : VfsM Memory μ α} (hx : c → Ends F x Q E v)
    (hy : ¬ c → Ends F y Q E v) : Ends F (if c then x else y) Q E v := by
  split
  · exact hx ‹_›
  · exact hy ‹_›

theorem Ends.get_bind {f : Vfs Memory μ → VfsM Memory μ α} (h : Ends F (f v) Q E v) : Ends F (get >>= f) Q E v := h

theorem Ends.modify {f : Vfs Memory μ → Vfs Memory μ} {Q : Unit → Vfs Memory μ → Prop} (h : Q () (f v)) :
    Ends F (modify f) Q E v := fun _ => h

/-- The second operation may fail as well, since the first has taken no other steps than a failure may have taken. -/
theorem Ends.bind (h : Ends F x (fun a w => Reaches P v w ∧ Q a w) E v) (hP : ∀ a, P a → F a)
    (k : ∀ a w, Reaches P v w → Q a w → Ends F (f a) R E w) : Ends F (x >>= f) R E v := by
  intro hv
  rw [wp_bind]
  refine (h hv).imp ?_
  rintro a w ⟨hr, hq⟩
  refine (k a w hr hq (hr.healthy hv)).mono (fun _ _ hR => hR) ?_
  rintro e u ⟨hu, he⟩
  exact ⟨(hr.mono hP).trans hu, he⟩

/-- The first operation has only found something out. -/
theorem Ends.bind_here {Q : α → Prop} (h : Ends F x (fun a w => w = v ∧ Q a) E v)
    (k : ∀ a, Q a → Ends F (f a) R E v) : Ends F (x >>= f) R E v := by
  intro hv
  rw [wp_bind]
  refine (h hv).imp ?_
  rintro a w ⟨rfl, hq⟩
  exact k a hq hv

/-- What cannot fail needs no allowance for a failure. -/
theorem Ends.of_sure (h : Ends F' x Q (fun _ => False) v) : Ends F x Q E v :=
  fun hv => (h hv).mono (fun _ _ hQ => hQ) fun _ _ he => he.2.elim

/-- Steps that are known of an operation are known of it in either case. -/
theorem Runs.ends {C : Error → Prop} (h : Runs P x Q C v) :
    Ends P x (fun a w => Reaches P v w ∧ Q a w) (fun _ => True) v := by
  intro hv
  refine (h hv.closed).mono (fun _ _ hQ => hQ) ?_
  rintro e w ⟨hr, -⟩
  exact ⟨hr, trivial⟩

/-- Two facts about one operation. -/
theorem Ends.and (h : Ends F x Q E v) (h' : Ends F' x Q' E' v) :
    Ends F x (fun a w => Q a w ∧ Q' a w) (fun e => E e ∧ E' e) v := by
  intro hv
  refine ((h hv).and (h' hv)).mono (fun _ _ hQ => hQ) ?_
  rintro e w ⟨⟨hr, he⟩, -, he'⟩
  exact ⟨hr, he, he'⟩

end Rules

/-- Some steps of given kinds, then a change, then notes. -/
def After (P : Act → Prop) (S : Vfs Memory μ → Vfs Memory μ → Prop) (v w : Vfs Memory μ) : Prop :=
  ∃ u x, Reaches P v u ∧ S u x ∧ Reaches (· = .note) x w

section After

variable {P P' : Act → Prop} {S S' : Vfs Memory μ → Vfs Memory μ → Prop}

theorem After.mono (h : After P S v w) (hP : ∀ a, P a → P' a) (hS : ∀ u x, S u x → S' u x) : After P' S' v w := by
  obtain ⟨u, x, hu, hx, hw⟩ := h
  exact ⟨u, x, hu.mono hP, hS u x hx, hw⟩

theorem Reaches.after (h : Reaches P u v) (k : After P S v w) : After P S u w := by
  obtain ⟨y, x, hy, hx, hw⟩ := k
  exact ⟨y, x, h.trans hy, hx, hw⟩

theorem After.of_step (h : S v w) : After P S v w := ⟨v, w, .refl, h, .refl⟩

end After

/-! ### Calls of the store -/

/-- A request in general: it has no effect if it fails. -/
theorem wp_call_of {r : Request} {T : Vfs Memory μ → Reply Handle → Memory → Prop} {U : StorageError → Prop}
    (h : ∀ u, Reaches (· = .wait) v u →
      treeWp (φ := Memory) r.execute (T u) (fun e m => m = u.memory ∧ U e) u.memory) :
    wp (call r) (fun a w => ∃ u m, Reaches (· = .wait) v u ∧ w = u.withFiles m ∧ T u a m)
      (fun e w => Reaches (· = .wait) v w ∧ ∃ s, e = .storage s ∧ U s) v := by
  have hr := reaches_runDue v
  refine wp_onFiles ((h _ hr).mono ?_ ?_)
  · rintro a m hT f rfl
    exact ⟨_, f, hr, rfl, hT⟩
  · rintro e m ⟨rfl, hU⟩ f rfl
    exact ⟨hr, e, rfl, hU⟩

/-- A request that cannot fail. -/
theorem wp_call_sure {r : Request} {T : Vfs Memory μ → Reply Handle → Memory → Prop}
    {U : Vfs Memory μ → StorageError → Memory → Prop}
    (hsure : ∀ u, Reaches (· = .wait) v u → Sure r.execute u.memory)
    (h : ∀ u, Reaches (· = .wait) v u → treeWp (φ := Memory) r.execute (T u) (U u) u.memory) :
    wp (call r) (fun a w => ∃ u m, Reaches (· = .wait) v u ∧ w = u.withFiles m ∧ T u a m) (fun _ _ => False) v := by
  refine (wp_call_of (U := fun _ => False) fun u hu => ?_).mono (fun _ _ hQ => hQ) ?_
  · exact ((hsure u hu).and (h u hu)).mono (fun _ _ hT => hT) fun _ _ hfalse => hfalse.elim
  · rintro e w ⟨-, s, -, hfalse⟩
    exact hfalse

/-- Asking the store what is at a path changes nothing. -/
theorem call_entry_run (p : Path) (v : Vfs Memory μ) :
    call (.entry p) v = (.ok (.entry p ((v.runDue.memory.node? p).map Node.stat)), v.runDue) := rfl

omit [LinkMap μ] in
/-- A warm handle is on the file at its path. -/
theorem Sound.fileOf? (h : v.Sound) (hk : v.handles.get? p = some k) :
    ∃ d, v.memory.node? p = some (.file d) ∧ v.memory.fileOf? k = some d ∧ k.path = p := by
  obtain ⟨d, hd, -, hserial⟩ := h.handles.held p k hk
  have hserial : k = ⟨p, d.serial⟩ := hserial
  refine ⟨d, hd, ?_, by rw [hserial]⟩
  rw [hserial]
  exact fileOf?_eq_some_iff.2 ⟨hd, rfl⟩

omit [LinkMap μ] in
/-- Locks are held by handles alone. -/
theorem Sound.unlocked_of_cold (h : v.Sound) (hcold : v.handles.get? p = none) {d : FileData}
    (hd : v.memory.node? p = some (.file d)) : d.locked = false :=
  isLocked_eq_false_iff.1 (h.handles.unlocked hcold) d hd

omit [LinkMap μ] in
theorem Sound.size_run (h : v.Sound) {d : FileData} (hk : v.handles.get? p = some k)
    (hd : v.memory.node? p = some (.file d)) :
    onFiles (FileStore.size k) v = (.ok d.bytes.length, v) := by
  obtain ⟨d', hd', hfile, -⟩ := h.fileOf? hk
  rw [hd] at hd'
  cases hd'
  rw [← contentOf_eq hfile]
  rfl

/-! ### Finding entries -/

/-- What is at a path: a link, or what the store has there. -/
def entryAt (v : Vfs Memory μ) (p : Path) : Option Entry :=
  match v.links.get? p with
  | some target => some (.link target)
  | none => (v.memory.node? p).map Node.entry

omit [LinkMap μ] in
theorem kind_entryAt (v : Vfs Memory μ) (p : Path) : (v.entryAt p).map Entry.kind = v.kindAt p := by
  unfold entryAt kindAt kind?
  cases v.links.get? p with
  | some target => rfl
  | none => rcases v.memory.node? p with _ | (_ | d) <;> rfl

/-- Where no link is on record, the store is asked after the jobs that are due. -/
theorem Healthy.lookup_unlinked_run (hv : v.Healthy) (hlink : v.links.get? p = none) (hroot : p ≠ .root) :
    lookup p v = (.ok (v.runDue.entryAt p), v.runDue) := by
  have hwait := reaches_runDue v
  have hentry : v.runDue.entryAt p = (v.runDue.memory.node? p).map Node.entry := by
    unfold entryAt
    rw [hwait.waited.links, hlink]
  refine eq_ok_of_wp ?_
  unfold lookup
  rw [wp_bind, wp_get, hlink, hentry]
  refine wp_ite.2 ⟨fun h => absurd (Path.isRoot_iff.1 h) hroot, fun _ => ?_⟩
  rw [wp_bind, wp_of_ok (call_entry_run p v), wp_bind]
  rcases hn : v.runDue.memory.node? p with _ | (_ | d)
  · exact ⟨rfl, rfl⟩
  · exact ⟨rfl, rfl⟩
  · refine (wp_of_ok rfl).2 ?_
    simp only [Option.map_some, Node.stat]
    rw [wp_bind, wp_get]
    cases hk : v.runDue.handles.get? p with
    | none => exact ⟨rfl, rfl⟩
    -- The size is asked of the handle, which has the same file.
    | some k =>
      rw [wp_bind, wp_of_ok ((hwait.healthy hv).sound.size_run hk hn)]
      exact ⟨rfl, rfl⟩

/-- A look tells what is at a path, perhaps after the jobs that are due. -/
theorem Healthy.lookup_run (hv : v.Healthy) (p : Path) :
    ∃ w, (w = v ∨ w = v.runDue) ∧ lookup p v = (.ok (w.entryAt p), w) := by
  cases hlink : v.links.get? p with
  | some target =>
    refine ⟨v, Or.inl rfl, eq_ok_of_wp ?_⟩
    unfold lookup entryAt
    rw [wp_bind, wp_get, hlink]
    exact ⟨rfl, rfl⟩
  | none =>
    by_cases hroot : p = .root
    · refine ⟨v, Or.inl rfl, eq_ok_of_wp ?_⟩
      unfold lookup entryAt
      rw [wp_bind, wp_get, hlink]
      refine wp_ite.2 ⟨fun _ => ⟨?_, rfl⟩, fun h => absurd (Path.isRoot_iff.2 hroot) h⟩
      rw [hroot, kind?_eq_directory_iff.1 hv.closed.root]
      rfl
    · exact ⟨v.runDue, Or.inr rfl, hv.lookup_unlinked_run hlink hroot⟩

/-- A look tells the kind of what is at a path. -/
theorem Healthy.kind_lookup (hv : v.Healthy) (p : Path) :
    ∃ e w, lookup p v = (.ok e, w) ∧ Reaches (· = .wait) v w ∧ e.map Entry.kind = v.kindAt p := by
  obtain ⟨w, hw, hrun⟩ := hv.lookup_run p
  have hr : Reaches (· = .wait) v w := by
    rcases hw with rfl | rfl
    · exact .refl
    · exact reaches_runDue v
  exact ⟨w.entryAt p, w, hrun, hr, by rw [kind_entryAt, hr.waited.kindAt]⟩

/-- A look does not fail. -/
theorem ends_lookup {E : Error → Prop} (p : Path) (v : Vfs Memory μ) :
    Ends F (lookup p) (fun r w => Reaches (· = .wait) v w ∧ r = w.entryAt p) E v := by
  intro hv
  obtain ⟨w, hw, hrun⟩ := hv.lookup_run p
  refine (wp_of_ok hrun).2 ⟨?_, rfl⟩
  rcases hw with rfl | rfl
  · exact .refl
  · exact reaches_runDue v

/-- Resolving a path is the namespace's own business. -/
theorem ends_resolve (base : Option Descriptor) (raw : String) (follow : Bool) (v : Vfs Memory μ) :
    Ends F (resolve base raw follow)
      (fun p w => w = v ∧ resolve base raw follow v = (.ok p, v) ∧
        ∀ q ∈ p.trail, (q = p → follow = true) → v.links.get? q = none) Error.Own v := by
  have hfrom : ∀ b, wp (resolveFrom b raw follow) (fun _ _ => True) (fun e w => w = v ∧ e.Own) v := by
    intro b
    unfold resolveFrom
    rw [wp_bind, wp_get]
    cases v.resolver.relative b raw with
    | error f => exact ⟨rfl, fun _ h => nomatch h⟩
    | ok p =>
      simp only
      unfold Resolver.resolveLinks
      rcases Resolver.chase_cases v.links follow p v.resolver.maxDepth v.resolver.maxDepth p with
        ⟨q, hq, -⟩ | ⟨f, hf⟩ | hmany
      · rw [hq]
        trivial
      · rw [hf]
        exact ⟨rfl, fun _ h => nomatch h⟩
      · rw [hmany]
        exact ⟨rfl, fun _ h => nomatch h⟩
  have hown : wp (resolve base raw follow) (fun _ _ => True) (fun e w => w = v ∧ e.Own) v := by
    cases base with
    | none => exact hfrom none
    | some d => exact wp_ite.2 ⟨fun _ => ⟨rfl, fun _ h => nomatch h⟩, fun _ => hfrom (some d.path)⟩
  intro hv
  refine (((runs_resolve (P := F) base raw follow v).exact hv.closed).and hown).mono ?_ ?_
  · rintro p w ⟨⟨-, ⟨rfl, htrail⟩, hrun⟩, -⟩
    exact ⟨rfl, hrun, htrail⟩
  · rintro e w ⟨⟨hr, -⟩, -, he⟩
    exact ⟨hr, he⟩

theorem ends_requireEntry (p : Path) (v : Vfs Memory μ) :
    Ends (· = .wait) (requireEntry p) (fun e w => Reaches (· = .wait) v w ∧ w.entryAt p = some e) Error.Own v := by
  refine .bind (ends_lookup p v) (fun _ h => h) ?_
  rintro (_ | e) w hr he
  · exact .throw fun _ h => nomatch h
  · exact .pure ⟨hr, he.symm⟩

theorem ends_requireParent (p : Path) (v : Vfs Memory μ) :
    Ends (· = .wait) (requireParent p) (fun _ w => Reaches (· = .wait) v w ∧
      ∀ dir, p.parent? = some dir → w.kindAt dir = some .directory) Error.Own v := by
  have hown : Ends (· = .wait) (requireParent p) (fun _ _ => True) Error.Own v := by
    unfold requireParent
    cases p.parent? with
    | none => exact .pure trivial
    | some parent =>
      refine .bind (ends_lookup parent v) (fun _ h => h) ?_
      rintro (_ | (_ | ⟨size, modified⟩ | target)) w - -
      · exact .throw fun _ h => nomatch h
      · exact .pure trivial
      · exact .throw fun _ h => nomatch h
      · exact .throw fun _ h => nomatch h
  exact ((runs_requireParent p v).ends.and hown).mono (fun _ h => h) (fun _ _ h => h.1) fun _ h => h.2

/-- A free path has neither a link nor a node, and it is in a directory. -/
theorem ends_requireFree (p : Path) (v : Vfs Memory μ) :
    Ends (· = .wait) (requireFree p)
      (fun _ w => Reaches (· = .wait) v w ∧
        p ≠ .root ∧ w.links.get? p = none ∧ w.memory.node? p = none ∧ HasParent w.memory p) Error.Own v := by
  have hown : Ends (· = .wait) (requireFree p) (fun _ _ => True) Error.Own v := by
    refine .ite (fun _ => .throw_bind fun _ h => nomatch h) fun _ => ?_
    refine .bind (ends_lookup p v) (fun _ h => h) ?_
    rintro (_ | e) w - -
    · exact (ends_requireParent p w).imp fun _ _ _ => trivial
    · exact .ite (fun _ => .throw_bind fun _ h => nomatch h) fun h => absurd rfl h
  exact ((runs_requireFree p v).ends.and hown).mono (fun _ h => h) (fun _ _ h => h.1) fun _ h => h.2

/-! ### Getting at a file -/

/-- Are the contents of a file reached through a handle, or by requests? -/
def usesHandle (v : Vfs Memory μ) (p : Path) : Bool := v.isWarm p || v.coldPath ≠ .direct

omit [LinkMap μ] in
theorem usesHandle_waited (h : Waited v w) (p : Path) : w.usesHandle p = v.usesHandle p := by
  unfold usesHandle isWarm
  rw [h.handles, h.coldPath]

/-- A file of a healthy namespace can be made warm. No write to it is queued by that. -/
theorem ends_acquire (hF : F .wait) (v : Vfs Memory μ) (p : Path) :
    Ends F (acquire p) (fun _ w => v.detached.hasPending p = false → w.detached.hasPending p = false)
      (fun _ => v.memory.kind? p ≠ some .file) v := by
  intro hv
  unfold acquire
  rw [wp_bind, wp_get]
  cases hk : v.handles.get? p with
  | some k => exact id
  | none =>
    by_cases hfile : v.memory.kind? p = some .file
    · rw [wp_bind]
      refine (wp_call_sure (fun u hu => ?_) fun u _ => treeWp_openHandle p u.memory).mono ?_
        fun _ _ hfalse => hfalse.elim
      · have hu' := hu.healthy hv
        obtain ⟨d, hd⟩ := kind?_eq_file_iff.1 ((hu.waited.kind? p).trans hfile)
        have hcold : u.handles.get? p = none := by rw [hu.waited.handles, hk]
        exact sure_openHandle hu'.closed hd (hu'.sound.unlocked_of_cold hcold hd)
      · rintro r w ⟨u, m, hu, rfl, k, d, rfl, -⟩
        exact hu.waited.cold p
    · rw [wp_bind]
      refine (wp_call_of (T := fun _ r _ => ∃ k, r = .handle k) (U := fun _ => True) fun u _ => ?_).mono ?_ ?_
      · refine (treeWp_openHandle p u.memory).mono ?_ fun e m h => ⟨h.1, trivial⟩
        rintro r m ⟨k, d, rfl, -⟩
        exact ⟨k, rfl⟩
      · rintro r w ⟨u, m, hu, rfl, k, rfl⟩
        exact hu.waited.cold p
      · rintro e w ⟨hr, -⟩
        exact ⟨hr.of_only hF, hfile⟩

/-- A handle is used for a path as the policy says. It can be had if a file is there. No write to the file is left in the
queue. -/
theorem ends_handleFor_isSome (p : Path) (v : Vfs Memory μ) :
    Ends (Looking p) (handleFor p) (fun r w => r.isSome = v.usesHandle p ∧ w.detached.hasPending p = false)
      (fun _ => v.memory.kind? p ≠ some .file) v := by
  have hacquire : ∀ w : Vfs Memory μ, w.memory.kind? p = v.memory.kind? p → v.usesHandle p = true →
      w.detached.hasPending p = false →
      Ends (Looking p) (do return some (← acquire p))
        (fun r w => r.isSome = v.usesHandle p ∧ w.detached.hasPending p = false)
        (fun _ => v.memory.kind? p ≠ some .file) w := by
    intro w hkind huses hidle hw
    rw [wp_bind, ← hkind]
    refine (ends_acquire trivial w p hw).imp fun _ _ hkeep => ?_
    exact ⟨huses.symm, hkeep hidle⟩
  have hcold : ∀ w : Vfs Memory μ, w.memory.kind? p = v.memory.kind? p → v.isWarm p = false →
      w.detached.hasPending p = false →
      Ends (Looking p) (if v.coldPath = .direct then pure none else do return some (← acquire p))
        (fun r w => r.isSome = v.usesHandle p ∧ w.detached.hasPending p = false)
        (fun _ => v.memory.kind? p ≠ some .file) w := by
    intro w hkind hwarm hidle
    refine .ite (fun hdirect => .pure ⟨?_, hidle⟩) fun hdirect => hacquire w hkind ?_ hidle
    · simp [usesHandle, hwarm, hdirect]
    · simp [usesHandle, hdirect]
  refine .get_bind (.ite (fun hw => ?_) fun hw => ?_)
  · have hw : v.isWarm p = false := by simpa using hw
    refine .ite (fun _ => ?_) fun hidle => hcold v rfl hw (by simpa using hidle)
    have hwait := reaches_runJobs v.background.pending v
    intro hv
    refine Ends.bind (Q := fun _ w => w = v.drain) (.modify ⟨hwait.looking p, rfl⟩) (fun _ h => h) ?_ hv
    rintro - w - rfl
    exact hcold _ (hwait.waited.kind? p) hw ((hwait.healthy hv).sound.queue.hasPending_of_nil (queue_drain v))
  · have hw : v.isWarm p = true := by simpa using hw
    obtain ⟨k, hk⟩ := Table.contains_eq_true_iff.1 hw
    exact fun hv => hacquire v rfl (by simp [usesHandle, hw]) (hv.sound.cold p k hk) hv

theorem Looking.quiet (h : Looking p a) (S : Path → Prop) : Quiet S a := by
  cases a with
  | wait | lock => trivial
  | _ => exact h.elim

/-- The handle to use for a path, if one is to be used. By then the queued writes to the file are done. -/
theorem ends_handleFor (p : Path) (v : Vfs Memory μ) :
    Ends (Looking p) (handleFor p)
      (fun r w => Reaches (Looking p) v w ∧ w.handles.get? p = r ∧ r.isSome = v.usesHandle p ∧
        w.detached.hasPending p = false)
      (fun _ => v.memory.kind? p ≠ some .file) v :=
  ((runs_handleFor p v).ends.and (ends_handleFor_isSome p v)).mono (fun _ h => h)
    (fun _ _ h => ⟨h.1.1, h.1.2, h.2⟩) fun _ h => h.2

/-! ### Writing -/

/-- A write to a file: where and what. Through a handle, a write of no bytes is left out. -/
structure Patch where
  through : Bool
  offset : Nat
  data : Bytes
  deriving DecidableEq

/-- The bytes of a file after a write. -/
def Patch.apply (x : Patch) (b : Bytes) : Bytes :=
  if x.through && x.data.isEmpty then b else b.overwrite x.offset x.data

/-- A write is done to the file at a path, when no other is queued. -/
def Patched (p : Path) (x : Patch) (u w : Vfs Memory μ) : Prop :=
  u.detached.hasPending p = false ∧ ∃ d, u.memory.node? p = some (.file d) ∧
    (w = u ∧ x.apply d.bytes = d.bytes ∨
      w = u.withFiles (u.memory.revised p d (x.apply d.bytes)) ∧
        (d.bytes.length ≤ maxLength → (x.apply d.bytes).length ≤ maxLength))

theorem Patched.reaches {x : Patch} (h : Patched p x v w) : Reaches (· = .edit p) v w := by
  obtain ⟨-, d, hd, ⟨rfl, -⟩ | ⟨rfl, hshort⟩⟩ := h
  · exact .refl
  · exact .single rfl (.edit hd rfl hshort)

/-- A write is done to the file at a path after some steps, and the new size is remembered. -/
def Written (F : Act → Prop) (p : Path) (x : Patch) (v w : Vfs Memory μ) : Prop :=
  ∃ u y b, Reaches F v u ∧ Patched p x u y ∧ y.memory.content? p = some (.file b) ∧
    w = { y with sizes := y.sizes.insert p ⟨b.length, y.now⟩ }

theorem Written.after {x : Patch} (h : Written F p x v w) : After F (Patched p x) v w := by
  obtain ⟨u, y, b, hu, hy, -, rfl⟩ := h
  exact ⟨u, y, hu, hy, .single rfl .note⟩

theorem Reaches.written {x : Patch} (h : Reaches F v w) (k : Written F p x w u) : Written F p x v u := by
  obtain ⟨y, z, b, hy, hz⟩ := k
  exact ⟨y, z, b, h.trans hy, hz⟩

variable (d : Descriptor)

theorem ends_requireWritable (v : Vfs Memory μ) :
    Ends F (requireWritable d) (fun _ w => w = v ∧ d.isDirectory = false ∧ d.flags.writable = true)
      (fun e => e.Own ∧ ¬ (d.isDirectory = false ∧ d.flags.writable = true)) v := by
  have hfile : Ends F (requireFile d) (fun _ w => w = v ∧ d.isDirectory = false)
      (fun e => e.Own ∧ ¬ (d.isDirectory = false ∧ d.flags.writable = true)) v :=
    .ite (fun hdir => .throw ⟨fun _ h => (nomatch h), fun h => by simp [h.1] at hdir⟩) fun h => .pure ⟨rfl, by simpa using h⟩
  refine .bind_here hfile fun _ hd => ?_
  exact .ite (fun hno => .throw ⟨fun _ h => (nomatch h), fun h => hno h.2⟩) fun h => .pure ⟨rfl, hd, by simpa using h⟩

omit [LinkMap μ] in
/-- A write through a warm handle. It can fail only if it ends beyond the longest file. -/
theorem Healthy.wp_writeThrough_patched (hv : v.Healthy) (hk : v.handles.get? p = some k) (data : Bytes) (offset : Nat) :
    wp (writeThrough k data offset) (fun _ w => Patched p ⟨true, offset, data⟩ v w)
      (fun _ w => w = v ∧ maxLength < offset + data.length) v := by
  obtain ⟨d, hd, hfile, hpath⟩ := hv.sound.fileOf? hk
  have hwrite := treeWp_of_sure_if (sure_writeAllAt k v.memory)
    (treeWp_writeAllAt (φ := Memory) k v.memory data offset)
  unfold writeThrough
  rw [wp_bind]
  refine wp_onFiles (hwrite.mono ?_ ?_)
  · rintro n m ⟨-, hm, hfits⟩ f rfl
    refine (wp_of_ok (x := onFiles (FileStore.size (φ := Memory) k)) rfl).2 ⟨hv.sound.cold p k hk, d, hd, ?_⟩
    -- A handle whose file is gone takes any write; here the file is there.
    have hfits : data.isEmpty = true ∨ offset + data.length ≤ maxLength :=
      hfits.imp_right fun h => h.resolve_left fun hnone => Option.some_ne_none d (hfile.symm.trans hnone)
    unfold written at hm
    unfold Patch.apply
    by_cases hempty : data.isEmpty = true
    · rw [if_pos hempty] at hm
      refine Or.inl ⟨?_, by simp [hempty]⟩
      rw [show f = v.memory from hm]
      rfl
    · rw [if_neg hempty, show Backed.memoryHandle (φ := Memory) k = k from rfl, hfile] at hm
      simp only [Bool.true_and, if_neg hempty]
      refine Or.inr ⟨?_, length_overwrite_le (hfits.resolve_left hempty)⟩
      rw [← hpath, show f = v.memory.revised k.path d (d.bytes.overwrite offset data) from hm]
  · rintro e m ⟨⟨hm, -⟩, hlong⟩ f rfl
    refine ⟨?_, Nat.not_le.1 hlong⟩
    rw [show f = v.memory from hm]
    rfl

/-- It tells the length of the file after it. -/
theorem Healthy.wp_writeThrough (hv : v.Healthy) (hk : v.handles.get? p = some k) (data : Bytes) (offset : Nat) :
    wp (writeThrough k data offset) (fun n w => Patched p ⟨true, offset, data⟩ v w ∧
        ∃ b, w.memory.content? p = some (.file b) ∧ n = b.length)
      (fun _ w => w = v ∧ maxLength < offset + data.length) v := by
  have hlength : wp (writeThrough k data offset) (fun n w => n = (w.memory.contentOf k).length) (fun _ _ => True) v := by
    unfold writeThrough
    rw [wp_bind]
    refine wp_iff.2 ⟨fun _ w _ => ?_, fun _ _ _ => trivial⟩
    exact (wp_of_ok (x := onFiles (FileStore.size (φ := Memory) k)) rfl).2 rfl
  refine ((hv.wp_writeThrough_patched hk data offset).and hlength).mono ?_ fun _ _ he => he.1
  rintro n w ⟨hw, rfl⟩
  have hk' : w.handles.get? p = some k := by
    obtain ⟨-, d, -, ⟨rfl, -⟩ | ⟨rfl, -⟩⟩ := hw
    · exact hk
    · exact hk
  obtain ⟨d, hd, hfile, -⟩ := (hw.reaches.healthy hv).sound.fileOf? hk'
  exact ⟨hw, d.bytes, content?_eq_file_iff.2 ⟨d, hd, rfl⟩, by rw [contentOf_eq hfile]⟩

omit [LinkMap μ] in
/-- A file of a healthy namespace is written by a request, unless the write ends beyond the longest file. -/
theorem Healthy.treeWp_writeAt (hv : v.Healthy) (hcold : v.handles.get? p = none) (offset : Nat) (data : Bytes) :
    treeWp (φ := Memory) (Request.writeAt p offset data).execute
      (fun r m => ∃ d, v.memory.node? p = some (.file d) ∧ r = .size (d.bytes.overwrite offset data).length ∧
        m = v.memory.revised p d (d.bytes.overwrite offset data) ∧ offset + data.length ≤ maxLength)
      (fun _ m => m = v.memory ∧ (v.memory.kind? p ≠ some .file ∨ maxLength < offset + data.length)) v.memory := by
  have hsure : v.memory.kind? p = some .file ∧ offset + data.length ≤ maxLength →
      Sure (execute (.writeAt p offset data)) v.memory := by
    rintro ⟨hkind, hfits⟩
    obtain ⟨d, hd⟩ := kind?_eq_file_iff.1 hkind
    exact sure_writeAt hv.closed hd (hv.sound.unlocked_of_cold hcold hd) hfits
  refine (treeWp_of_sure_if hsure (Request.treeWp_writeAt p offset data v.memory)).mono ?_ ?_
  · rintro r m ⟨d, hd, -, h⟩
    exact ⟨d, hd, h⟩
  · rintro e m ⟨⟨hm, -⟩, hno⟩
    rw [not_and_or, Nat.not_le] at hno
    exact ⟨hm, hno⟩

/-- Why a write can fail: it is not allowed, there is no file, or it would end beyond the longest file. -/
def Unwritable (d : Descriptor) (data : Bytes) (offset : Nat) (v : Vfs Memory μ) : Prop :=
  ¬ (d.isDirectory = false ∧ d.flags.writable = true) ∨ v.memory.kind? d.path ≠ some .file ∨
    maxLength < offset + data.length

/-- A write looks for its file, changes its bytes and notes the new size. -/
theorem ends_write (data : Bytes) (offset : Nat) (v : Vfs Memory μ) : Ends (Looking d.path) (write d data offset)
      (fun n w => n = data.length ∧ Written (Looking d.path) d.path ⟨v.usesHandle d.path, offset, data⟩ v w)
      (fun _ => Unwritable d data offset v) v := by
  refine .bind_here ((ends_requireWritable d v).imp_error fun _ h => Or.inl h.2) fun _ _ => ?_
  intro hv
  rw [wp_bind]
  refine (ends_handleFor d.path v hv).mono ?_ fun _ _ he => ⟨he.1, Or.inr (Or.inl he.2)⟩
  rintro (_ | k) u ⟨hr, hk, huses, hidle⟩
  · have huses : v.usesHandle d.path = false := huses.symm
    have hkind : u.memory.kind? d.path = v.memory.kind? d.path :=
      (hr.mono fun a ha => Looking.quiet ha fun _ => True).kept.kind d.path trivial
    rw [wp_bind]
    refine (wp_call_of (U := fun _ => Unwritable d data offset v) fun y hy =>
      (((hr.trans (hy.looking d.path)).healthy hv).treeWp_writeAt (by rw [hy.waited.handles, hk]) offset data).mono
        (fun _ _ h => h) ?_).mono ?_ ?_
    · rintro e m ⟨hm, hwhy⟩
      rw [hy.waited.kind?, hkind] at hwhy
      exact ⟨hm, Or.inr hwhy⟩
    · rintro r w ⟨y, m, hy, rfl, f, hf, rfl, rfl, hfits⟩
      refine ⟨rfl, y, _, _, hr.trans (hy.looking d.path), ⟨hy.waited.cold _ hidle, f, hf, Or.inr ⟨rfl, ?_⟩⟩,
        (content?_revised _ _ _ _ _).trans (if_pos rfl), ?_⟩
      · rw [huses]
        exact length_overwrite_le hfits
      · rw [huses]
        rfl
    · rintro e w ⟨hw, -, -, hwhy⟩
      exact ⟨hr.trans (hw.looking d.path), hwhy⟩
  · have huses : v.usesHandle d.path = true := huses.symm
    rw [wp_bind]
    refine ((hr.healthy hv).wp_writeThrough hk data offset).mono ?_ ?_
    · rintro n x ⟨hx, b, hb, rfl⟩
      refine ⟨rfl, u, x, b, hr, ?_, hb, rfl⟩
      rwa [huses]
    · rintro e w ⟨rfl, hlong⟩
      exact ⟨hr, Or.inr (Or.inr hlong)⟩

/-- A write in sequence is one at some offset, and the cursor goes behind it. -/
theorem ends_writeStream (data : Bytes) (v : Vfs Memory μ) : Ends (Looking d.path) (writeStream d data)
      (fun r w => ∃ offset, r = (data.length, { d with cursor := offset + data.length }) ∧
        Written (Looking d.path) d.path ⟨v.usesHandle d.path, offset, data⟩ v w) (fun _ => True) v := by
  have hwrite : ∀ offset u, Reaches (· = .wait) v u →
      Ends (Looking d.path) (do
        let n ← write d data offset
        return (n, { d with cursor := offset + n }))
        (fun r w => ∃ offset, r = (data.length, { d with cursor := offset + data.length }) ∧
          Written (Looking d.path) d.path ⟨v.usesHandle d.path, offset, data⟩ v w) (fun _ => True) u := by
    intro offset u hr hu
    rw [wp_bind]
    refine (ends_write d data offset u hu).mono ?_ fun _ _ he => ⟨he.1, trivial⟩
    rintro n w ⟨rfl, hw⟩
    rw [usesHandle_waited hr.waited] at hw
    exact ⟨offset, rfl, (hr.looking d.path).written hw⟩
  refine .ite (fun _ => ?_) fun _ => ?_
  · refine .bind ((runs_fileSize d.path v).ends.mono (fun a ha => by rw [ha]; trivial) (fun _ _ h => h) fun _ h => h)
      (fun a ha => by rw [ha]; trivial) fun offset w hr _ => hwrite offset w hr
  · exact .bind_here (Q := fun _ => True) (.pure ⟨rfl, trivial⟩) fun offset _ => hwrite offset v .refl

/-- A write that nobody waits for is done at once through a warm handle, and else it is queued. -/
theorem ends_writeDetached (data : Bytes) (offset : Nat) (v : Vfs Memory μ) : Ends F (writeDetached d data offset)
      (fun _ w => (v.isWarm d.path = true ∧ Written F d.path ⟨true, offset, data⟩ v w) ∨
        (v.handles.get? d.path = none ∧ w = v.queued d.path offset data)) (fun _ => Unwritable d data offset v) v := by
  refine .bind_here ((ends_requireWritable d v).imp_error fun _ h => Or.inl h.2) fun _ _ => ?_
  intro hv
  rw [wp_bind, wp_get]
  cases hk : v.handles.get? d.path with
  | some k =>
    rw [wp_bind]
    refine (hv.wp_writeThrough hk data offset).mono ?_ ?_
    · rintro n x ⟨hx, b, hb, rfl⟩
      exact Or.inl ⟨Table.contains_eq_true_iff.2 ⟨k, hk⟩, v, x, b, .refl, hx, hb, rfl⟩
    · rintro e w ⟨rfl, hlong⟩
      exact ⟨.refl, Or.inr (Or.inr hlong)⟩
  | none => exact Or.inr ⟨rfl, rfl⟩

/-! ### New lengths -/

/-- The steps on the way to a new length: the queued writes lose their meaning first. -/
def Cutting (p : Path) : Act → Prop
  | .wait => True
  | .lock q => q = p
  | .stale q => q = p
  | _ => False

theorem Looking.cutting (h : Looking p a) : Cutting p a := by
  cases a with
  | wait => trivial
  | lock q => exact h
  | _ => exact h.elim

theorem Cutting.quiet (h : Cutting p a) (S : Path → Prop) : Quiet S a := by
  cases a with
  | wait | lock | stale => trivial
  | _ => exact h.elim

omit [LinkMap μ] in
/-- A file of a healthy namespace takes a new length by a request, unless that is too large. -/
theorem Healthy.treeWp_truncate (hv : v.Healthy) (hcold : v.handles.get? p = none) (length : Nat) :
    treeWp (φ := Memory) (truncate p length).execute
      (fun _ m => ∃ d, v.memory.node? p = some (.file d) ∧ m = v.memory.revised p d (d.bytes.resize length) ∧
        length ≤ maxLength)
      (fun _ m => m = v.memory ∧ (v.memory.kind? p ≠ some .file ∨ maxLength < length)) v.memory := by
  have hsure : v.memory.kind? p = some .file ∧ length ≤ maxLength →
      Sure (execute (.truncate p length)) v.memory := by
    rintro ⟨hkind, hfits⟩
    obtain ⟨d, hd⟩ := kind?_eq_file_iff.1 hkind
    exact sure_truncate hv.closed hd (hv.sound.unlocked_of_cold hcold hd) hfits
  refine (treeWp_of_sure_if hsure (Request.treeWp_truncate p length v.memory)).mono ?_ ?_
  · rintro r m ⟨-, d, hd, -, hm, hfits⟩
    exact ⟨d, hd, hm, hfits⟩
  · rintro e m ⟨⟨-, hm | ⟨hrefused, -⟩⟩, hno⟩
    · rw [not_and_or, Nat.not_le] at hno
      exact ⟨hm, hno⟩
    · exact hrefused.elim

/-- A file is cut or filled up with zeros to a length. -/
def Resized (p : Path) (length : Nat) (u w : Vfs Memory μ) : Prop :=
  ∃ d, u.memory.node? p = some (.file d) ∧ w = u.withFiles (u.memory.revised p d (d.bytes.resize length)) ∧
    length ≤ maxLength

theorem Resized.step {length : Nat} (h : Resized p length v w) : Step (.edit p) v w := by
  obtain ⟨d, hd, rfl, hfits⟩ := h
  exact .edit hd rfl fun _ => by rwa [Bytes.length_resize]

omit [LinkMap μ] in
/-- A file takes a new length through its handle, unless that is too large. -/
theorem Healthy.wp_truncateThrough (hv : v.Healthy) (hk : v.handles.get? p = some k) (length : Nat) :
    wp (onFiles (FileStore.truncate k length)) (fun _ w => Resized p length v w)
      (fun _ w => w = v ∧ maxLength < length) v := by
  obtain ⟨d, hd, hfile, hpath⟩ := hv.sound.fileOf? hk
  have hlong : wp (truncate k length) (fun _ _ => True) (fun _ _ => maxLength < length) v.memory := by
    by_cases hfits : length ≤ maxLength
    · obtain ⟨m', hrun⟩ := truncate_run k hfits
      exact (wp_of_ok hrun).2 trivial
    · exact wp_iff.2 ⟨fun _ _ _ => trivial, fun _ _ _ => Nat.not_le.1 hfits⟩
  refine wp_onFiles ((treeWp_onSecond ((wp_truncate k length v.memory).and hlong)).mono ?_ ?_)
  · rintro - m ⟨hm, -⟩ f rfl
    rcases hm with ⟨hnone, -⟩ | ⟨d', hd', hf, hfits⟩
    · rw [hfile] at hnone
      cases hnone
    · rw [hfile] at hd'
      cases hd'
      rw [hpath] at hf
      exact ⟨d, hd, congrArg v.withFiles hf, hfits⟩
  · rintro e m ⟨⟨hm, -⟩, hlong⟩ f rfl
    refine ⟨?_, hlong⟩
    rw [show f = v.memory from hm]
    rfl

/-- A file is given a length, and the length is remembered. -/
def Trimmed (p : Path) (length : Nat) (v w : Vfs Memory μ) : Prop :=
  ∃ u x, Reaches (Cutting p) v u ∧ Resized p length u x ∧ w = { x with sizes := x.sizes.insert p ⟨length, x.now⟩ }

theorem Trimmed.after {length : Nat} (h : Trimmed p length v w) : After (Cutting p) (Resized p length) v w := by
  obtain ⟨u, x, hu, hx, rfl⟩ := h
  exact ⟨u, x, hu, hx, .single rfl .note⟩

/-- A file takes a new length unless that is too large. -/
theorem ends_truncatePath (p : Path) (length : Nat) (v : Vfs Memory μ) :
    Ends (Cutting p) (truncatePath p length) (fun _ w => Trimmed p length v w)
      (fun _ => v.memory.kind? p ≠ some .file ∨ maxLength < length) v := by
  -- Queued writes are dropped before it is known whether the length is taken. So a failure can come after this step.
  have hstale : Reaches (Cutting p) v { v with detached := v.detached.invalidateUnder p } :=
    .single (a := .stale p) rfl .stale
  intro hv
  unfold truncatePath
  rw [wp_bind, wp_modify, wp_bind]
  refine (ends_handleFor p _ (hstale.healthy hv)).mono ?_ ?_
  swap
  · rintro e w ⟨hr, hkind⟩
    exact ⟨hstale.trans (hr.mono fun _ => Looking.cutting), Or.inl hkind⟩
  rintro (_ | k) u ⟨hr, hk, -⟩
  all_goals have hu : Reaches (Cutting p) v u := hstale.trans (hr.mono fun _ => Looking.cutting)
  · have hquiet : Reaches (Quiet fun _ => True) v u := hu.mono fun _ ha => ha.quiet _
    have hkind : u.memory.kind? p = v.memory.kind? p :=
      hquiet.kept.kind p trivial
    have hwait : ∀ {y : Vfs Memory μ}, Reaches (· = .wait) u y → Reaches (Cutting p) v y :=
      fun hy => hu.trans (hy.of_only trivial)
    rw [wp_bind]
    refine (wp_call_of
      (T := fun y _ m => ∃ d, y.memory.node? p = some (.file d) ∧ m = y.memory.revised p d (d.bytes.resize length) ∧
        length ≤ maxLength)
      (U := fun _ => v.memory.kind? p ≠ some .file ∨ maxLength < length) fun y hy => ?_).mono ?_ ?_
    · have hcold : y.handles.get? p = none := by rw [hy.waited.handles, hk]
      rw [← hkind, ← hy.waited.kind? p]
      exact ((hwait hy).healthy hv).treeWp_truncate hcold length
    · rintro r w ⟨y, m, hy, rfl, d, hd, rfl, hfits⟩
      exact ⟨y, _, hwait hy, ⟨d, hd, rfl, hfits⟩, rfl⟩
    · rintro e w ⟨hw, s, -, hwhy⟩
      exact ⟨hwait hw, hwhy⟩
  · rw [wp_bind]
    refine ((hu.healthy hv).wp_truncateThrough hk length).mono ?_ ?_
    · intro _ x hx
      exact ⟨u, x, hu, hx, rfl⟩
    · rintro e w ⟨rfl, hlong⟩
      exact ⟨hu, Or.inr hlong⟩

/-- What a change of the length can do before it. The queued writes are given up before the length is
looked at. -/
def Resizing (d : Descriptor) (a : Act) : Prop :=
  Cutting d.path a ∧ (a = .stale d.path → d.isDirectory = false ∧ d.flags.writable = true)

theorem ends_setSize (length : Nat) (v : Vfs Memory μ) : Ends (Resizing d) (setSize d length)
      (fun _ w => (d.isDirectory = false ∧ d.flags.writable = true) ∧ After (Resizing d) (Step (.edit d.path)) v w)
      (fun _ => True) v := by
  refine .bind_here ((ends_requireWritable d v).imp_error fun _ _ => trivial) ?_
  rintro - ⟨hfile, hwritable⟩
  have hresizing : ∀ a, Cutting d.path a → Resizing d a := fun a ha => ⟨ha, fun _ => ⟨hfile, hwritable⟩⟩
  exact (ends_truncatePath d.path length v).mono hresizing
    (fun _ _ h => ⟨⟨hfile, hwritable⟩, h.after.mono hresizing fun _ _ hx => hx.step⟩) fun _ _ => trivial

/-- A release does not fail. -/
theorem ends_release {E : Error → Prop} (v : Vfs Memory μ) :
    Ends F (release d) (fun _ w => Reaches (· = .unlock d.path) v w) E v := by
  intro hv
  obtain ⟨warm, w, hrun⟩ : ∃ warm w, release d v = (.ok warm, w) := ⟨_, _, rfl⟩
  exact (wp_of_ok hrun).2 ((runs_release d v hv.closed).ok hrun).1

end Vfs

end Filespace
