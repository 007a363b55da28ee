import Filespace.Proofs.Consistency
import Filespace.Proofs.Locking

/-!
# Operations are chains of steps

`Runs P x Q E v` says of an operation `x` that starts from `v`, over a closed tree, that it is a chain of steps of the
kinds in `P`, whether it ends well or fails. `Q` is known when it ends well. When it fails, `E` is known of the failure,
provided handles and locks agree at the start.

One statement for each operation. Whatever every step keeps is kept by every operation, so invariants need not be
proved operation by operation.
-/

namespace Filespace.Vfs

open Storage Memory

variable {φ μ α β : Type} [FileStore φ] [Backed φ] [LinkMap μ]

/-- An operation is a chain of steps. -/
def Runs (P : Act → Prop) (x : VfsM φ μ α) (Q : α → Vfs φ μ → Prop) (E : Error → Prop) (v : Vfs φ μ) : Prop :=
  v.memory.Closed →
    wp x (fun a w => Reaches P v w ∧ Q a w) (fun e w => Reaches P v w ∧ (v.Sound → E e)) v

/-! ### Rules -/

section Rules

variable {P P' : Act → Prop} {x : VfsM φ μ α} {Q R : α → Vfs φ μ → Prop} {E F : Error → Prop} {v w : Vfs φ μ}

theorem Runs.mono (h : Runs P x Q E v) (hP : ∀ a, P a → P' a) (hQ : ∀ a w, Reaches P v w → Q a w → R a w)
    (hE : ∀ e, E e → F e) : Runs P' x R F v := by
  intro hc
  refine (h hc).mono ?_ ?_
  · rintro a w ⟨hr, hq⟩
    exact ⟨hr.mono hP, hQ a w hr hq⟩
  · rintro e w ⟨hr, he⟩
    exact ⟨hr.mono hP, fun hs => hE e (he hs)⟩

theorem Runs.imp (h : Runs P x Q E v) (hQ : ∀ a w, Reaches P v w → Q a w → R a w) : Runs P x R E v :=
  h.mono (fun _ hP => hP) hQ fun _ hE => hE

theorem Runs.imp_error (h : Runs P x Q E v) (hE : ∀ e, E e → F e) : Runs P x Q F v :=
  h.mono (fun _ hP => hP) (fun _ _ _ hQ => hQ) hE

theorem Runs.pure {a : α} (h : Q a v) : Runs P (pure a) Q E v := by
  intro _
  exact ⟨.refl, h⟩

theorem Runs.throw {e : Error} (h : E e) : Runs P (throw e) Q E v := by
  intro _
  exact ⟨.refl, fun _ => h⟩

/-- The steps of the second operation follow those of the first. -/
theorem Runs.bind {f : α → VfsM φ μ β} {R : β → Vfs φ μ → Prop} (h : Runs P x Q E v)
    (k : ∀ a w, Reaches P v w → Q a w → Runs P (f a) R E w) : Runs P (x >>= f) R E v := by
  intro hc
  rw [wp_bind]
  refine (h hc).imp ?_
  rintro a w ⟨hr, hq⟩
  refine (k a w hr hq (hr.closed hc)).mono ?_ ?_
  · rintro b u ⟨hr', hR⟩
    exact ⟨hr.trans hr', hR⟩
  · rintro e u ⟨hr', he⟩
    exact ⟨hr.trans hr', fun hs => he (hr.sound hc hs)⟩

theorem Runs.ite {c : Prop} [Decidable c] {y : VfsM φ μ α} (hx : c → Runs P x Q E v) (hy : ¬ c → Runs P y Q E v) :
    Runs P (if c then x else y) Q E v := by
  split
  · exact hx ‹_›
  · exact hy ‹_›

theorem Runs.get_bind {f : Vfs φ μ → VfsM φ μ α} (h : Runs P (f v) Q E v) : Runs P (get >>= f) Q E v := by
  intro hc
  exact h hc

/-- Several steps at once. -/
theorem Runs.modify {f : Vfs φ μ → Vfs φ μ} {Q : Unit → Vfs φ μ → Prop} (hr : Reaches P v (f v)) (hQ : Q () (f v)) :
    Runs P (modify f) Q E v := by
  intro _
  exact ⟨hr, hQ⟩

theorem Runs.settle_ok {a : α} (h : Q a v) : Runs P (settle (.ok a)) Q E v := by
  intro _
  exact ⟨.refl, h⟩

theorem Runs.throw_bind {e : Error} {f : α → VfsM φ μ β} {R : β → Vfs φ μ → Prop} (h : E e) :
    Runs P ((MonadExcept.throw e) >>= f) R E v :=
  .bind (Q := fun _ _ => False) (.throw h) fun _ _ _ h => h.elim

/-- The value that is known of is the one that was given. -/
theorem Runs.exact (h : Runs P x Q E v) : Runs P x (fun a w => Q a w ∧ x v = (.ok a, w)) E v := by
  intro hc
  have hwp := wp_iff.1 (h hc)
  exact wp_iff.2 ⟨fun a w hx => ⟨(hwp.1 a w hx).1, (hwp.1 a w hx).2, hx⟩, hwp.2⟩

omit [LinkMap μ] in
/-- A call on the store changes the store and nothing else. -/
theorem wp_onFiles {x : StoreM (Host × φ) α} {E : Error → Vfs φ μ → Prop}
    (hx : treeWp x (fun a m => ∀ f, Backed.tree f = m → Q a (v.withFiles f))
      (fun e m => ∀ f, Backed.tree f = m → E (.storage e) (v.withFiles f)) v.memory) : wp (onFiles x) Q E v := by
  have hwp := hx v.world.host v.world.files rfl
  rw [wp_iff] at hwp
  rcases hrun : x (v.world.host, v.world.files) with ⟨r, s⟩
  have hfiles : Vfs.onFiles x v =
      (r.mapError .storage, { v with world := { v.world with host := s.1, files := s.2 } }) := by
    unfold Vfs.onFiles
    rw [hrun]
  cases r with
  | ok a =>
    obtain ⟨hhost, hQ⟩ := hwp.1 a s hrun
    rw [hhost] at hfiles
    exact (wp_of_ok hfiles).2 (hQ s.2 rfl)
  | error e =>
    obtain ⟨hhost, hE⟩ := hwp.2 e s hrun
    rw [hhost] at hfiles
    exact (wp_of_error hfiles).2 (hE s.2 rfl)

/-- A call on the store as a step. -/
theorem Runs.onFiles {x : StoreM (Host × φ) α} {T : α → Memory → Prop} {U : StorageError → Memory → Prop}
    (hx : v.memory.Closed → treeWp x T U v.memory)
    (hok : ∀ a f, v.memory.Closed → T a (Backed.tree f) → Reaches P v (v.withFiles f) ∧ Q a (v.withFiles f))
    (herr : ∀ e f, v.memory.Closed → U e (Backed.tree f) → Reaches P v (v.withFiles f) ∧ (v.Sound → E (.storage e))) :
    Runs P (onFiles x) Q E v := by
  intro hc
  refine wp_onFiles ((hx hc).mono ?_ ?_)
  · rintro a m hT f rfl
    exact hok a f hc hT
  · rintro e m hU f rfl
    exact herr e f hc hU

/-- A call that changes nothing of the tree. -/
theorem reaches_withFiles {f : φ} (hP : P .wait) (h : Backed.tree f = v.memory) : Reaches P v (v.withFiles f) :=
  .single hP (Step.pass h)

/-- A call that only looks. -/
theorem Runs.look {x : StoreM (Host × φ) α} {T : α → Prop} {B : Prop} (hP : P .wait)
    (hx : treeWp x (fun a m => m = v.memory ∧ T a) (NoEffect φ v.memory B) v.memory)
    (hQ : ∀ a f, Backed.tree f = v.memory → T a → Q a (v.withFiles f)) (hB : v.Sound → ¬ B) :
    Runs P (Vfs.onFiles x) Q (Error.Calm φ) v := by
  refine .onFiles (fun _ => hx) ?_ ?_
  · rintro a f - ⟨hf, hT⟩
    exact ⟨reaches_withFiles hP hf, hQ a f hf hT⟩
  · rintro e f - ⟨hf, hb⟩
    exact ⟨reaches_withFiles hP hf, fun hs => Error.calm_storage (hb.mono (hB hs))⟩

end Rules

/-! ### Waiting -/

section Waiting

variable {P : Act → Prop} {v w : Vfs φ μ}

theorem reaches_runJobs (n : Nat) (v : Vfs φ μ) : Reaches (· = .wait) v (v.runJobs n) := by
  induction n generalizing v with
  | zero =>
    exact .refl
  | succ n ih =>
    cases hq : v.background.queue with
    | nil =>
      rw [runJobs_nil _ hq]
      exact .refl
    | cons j rest =>
      rw [runJobs_succ n hq]
      have hfirst : Reaches (· = .wait) v (v.finished j rest) := .single rfl (.job hq)
      exact hfirst.trans (ih _)

theorem reaches_runDue (v : Vfs φ μ) : Reaches (· = .wait) v v.runDue := by
  unfold runDue
  cases v.pace with
  | nil => exact reaches_runJobs _ v
  | cons n rest =>
    exact (reaches_runJobs n v).trans
      (.single rfl (Step.pass rfl))

/-- A request is a call on the store after some waiting. -/
theorem Runs.call {r : Request} {Q : Reply (FileStore.Handle φ) → Vfs φ μ → Prop} {E : Error → Prop} (hP : P .wait)
    (h : ∀ w, Waited v w → Runs P (Vfs.onFiles r.execute) Q E w) : Runs P (call r) Q E v := by
  refine .bind (.modify ?_ ?_) fun _ w _ hw => h w hw
  · exact (reaches_runDue v).mono fun a ha => ha ▸ hP
  · exact (reaches_runDue v).waited

omit [Backed φ] in
theorem queue_runJobs (n : Nat) (v : Vfs φ μ) : (v.runJobs n).background.queue = v.background.queue.drop n := by
  induction n generalizing v with
  | zero => rw [runJobs_zero, List.drop_zero]
  | succ n ih =>
    cases hq : v.background.queue with
    | nil => rw [runJobs_nil _ hq, hq, List.drop_nil]
    | cons j rest =>
      rw [runJobs_succ n hq, ih]
      rfl

omit [Backed φ] in
/-- Waiting for all jobs leaves none. -/
theorem queue_drain (v : Vfs φ μ) : v.drain.background.queue = [] := by
  unfold drain
  rw [queue_runJobs, Background.pending, List.drop_length]

end Waiting

/-! ### Finding entries -/

section Finding

variable {P : Act → Prop} {v w : Vfs φ μ} {p : Path}

/-- The kind of what is at a path: a link, or what the store has there. -/
def kindAt (v : Vfs φ μ) (p : Path) : Option EntryKind :=
  match v.links.get? p with
  | some _ => some .link
  | none => v.memory.kind? p

omit [LinkMap μ] in
theorem Waited.kind? (h : Waited v w) (p : Path) : w.memory.kind? p = v.memory.kind? p :=
  kind?_of_outline? (h.outline p)

omit [LinkMap μ] in
theorem Waited.kindAt (h : Waited v w) (p : Path) : w.kindAt p = v.kindAt p := by
  unfold Vfs.kindAt
  rw [h.links, h.kind? p]

omit [LinkMap μ] in
theorem kindAt_eq_none_iff : v.kindAt p = none ↔ v.links.get? p = none ∧ v.memory.node? p = none := by
  unfold kindAt
  rw [← kind?_eq_none_iff]
  cases v.links.get? p <;> simp

omit [LinkMap μ] in
theorem kindAt_eq_directory_iff :
    v.kindAt p = some .directory ↔ v.links.get? p = none ∧ v.memory.node? p = some .directory := by
  unfold kindAt
  rw [← kind?_eq_directory_iff]
  cases v.links.get? p <;> simp

omit [LinkMap μ] in
theorem kindAt_eq_file_iff :
    v.kindAt p = some .file ↔ v.links.get? p = none ∧ ∃ d, v.memory.node? p = some (.file d) := by
  unfold kindAt
  rw [← kind?_eq_file_iff]
  cases v.links.get? p <;> simp

omit [LinkMap μ] in
theorem kindAt_eq_link_iff : v.kindAt p = some .link ↔ ∃ t, v.links.get? p = some t := by
  unfold kindAt kind?
  cases v.links.get? p with
  | some t => simp
  | none =>
    rcases v.memory.node? p with _ | (_ | d) <;> simp [Node.kind]

omit [LinkMap μ] in
theorem kindAt_withFiles {f : φ} (hf : Backed.tree f = v.memory) (p : Path) :
    (v.withFiles f).kindAt p = v.kindAt p := by
  unfold kindAt
  rw [memory_withFiles, hf]
  rfl

/-- Finds the path that a text stands for, from a directory or else from the working directory. -/
def resolveFrom {φ μ : Type} [FileStore φ] (base : Option Path) (raw : String) (follow : Bool) : VfsM φ μ Path := do
  let v ← get
  match v.resolver.relative base raw with
  | .error f => throw (.path f)
  | .ok p => match v.resolver.resolveLinks v.links p follow with
    | .error e => throw e
    | .ok q => return q

theorem runs_resolveFrom (base : Option Path) (raw : String) (follow : Bool) (v : Vfs φ μ) :
    Runs P (resolveFrom base raw follow)
      (fun p w => w = v ∧ ∀ q ∈ p.trail, (q = p → follow = true) → v.links.get? q = none) (Error.Calm φ) v := by
  refine .get_bind ?_
  cases v.resolver.relative base raw with
  | error f =>
    refine .throw fun hbusy => ?_
    cases hbusy
  | ok p =>
    simp only
    unfold Resolver.resolveLinks
    rcases Resolver.chase_cases v.links follow p v.resolver.maxDepth v.resolver.maxDepth p with
      ⟨q, hq, hfirst⟩ | ⟨f, hf⟩ | hmany
    · rw [hq]
      exact .pure ⟨rfl, fun k hk hlast => Resolver.get?_trail_of_firstLink? hfirst hk hlast⟩
    · rw [hf]
      refine .throw fun hbusy => ?_
      cases hbusy
    · rw [hmany]
      refine .throw fun hbusy => ?_
      cases hbusy

/-- A resolved path has no link on the way to it. -/
theorem runs_resolve (base : Option Descriptor) (raw : String) (follow : Bool) (v : Vfs φ μ) :
    Runs P (resolve base raw follow)
      (fun p w => w = v ∧ ∀ q ∈ p.trail, (q = p → follow = true) → v.links.get? q = none) (Error.Calm φ) v := by
  cases base with
  | none => exact runs_resolveFrom none raw follow v
  | some d =>
    refine .ite (fun _ => .throw_bind fun hbusy => ?_) fun _ => runs_resolveFrom (some d.path) raw follow v
    cases hbusy

/-- Resolving changes nothing. -/
theorem runs_resolved (base : Option Descriptor) (raw : String) (follow : Bool) (v : Vfs φ μ) :
    Runs P (resolve base raw follow) (fun p w => w = v ∧ resolve base raw follow v = (.ok p, v)) (Error.Calm φ) v := by
  refine (runs_resolve base raw follow v).exact.imp ?_
  rintro p w - ⟨⟨rfl, -⟩, h⟩
  exact ⟨rfl, h⟩

/-- Looking at a path tells what is there at the end of the look. -/
theorem runs_lookup (p : Path) (v : Vfs φ μ) :
    Runs (· = .wait) (lookup p) (fun r w => r.map Entry.kind = w.kindAt p) (Error.Calm φ) v := by
  refine .get_bind ?_
  cases hlink : v.links.get? p with
  | some target =>
    refine .pure ?_
    unfold kindAt
    rw [hlink]
    rfl
  | none =>
    refine .ite (fun hroot => ?_) fun _ => ?_
    · intro hc
      refine Runs.pure ?_ hc
      rw [Path.isRoot_iff.1 hroot] at hlink ⊢
      unfold kindAt
      rw [hlink, hc.root]
      rfl
    · refine .bind (Q := fun r w => w.links.get? p = none ∧
          r = .entry p ((w.memory.node? p).map Node.stat)) ?_ ?_
      · refine .call rfl fun w hw => ?_
        refine .look rfl
          (Request.treeWp_entry p w.memory) ?_ (fun _ => id)
        intro r f hf hr
        refine ⟨?_, ?_⟩
        · show w.links.get? p = none
          rw [hw.links, hlink]
        · show r = .entry p (((Backed.tree f).node? p).map Node.stat)
          rw [hf, hr]
      · rintro r w - ⟨hnone, rfl⟩
        have hkind : w.kindAt p = (w.memory.node? p).map Node.kind := by
          unfold kindAt
          rw [hnone]
          rfl
        refine .bind (Q := fun r w' => r = (w.memory.node? p).map Node.stat ∧ w' = w)
          (.settle_ok ⟨rfl, rfl⟩) ?_
        rintro r w - ⟨rfl, rfl⟩
        rcases hn : w.memory.node? p with _ | (_ | d)
        · exact .pure (by rw [hkind, hn]; rfl)
        · exact .pure (by rw [hkind, hn]; rfl)
        · refine .get_bind ?_
          cases w.handles.get? p with
          | none => exact .pure (by rw [hkind, hn]; rfl)
          | some k =>
            refine .bind (Q := fun _ w' => w'.kindAt p = w.kindAt p) ?_ ?_
            · refine .look rfl (T := fun _ => True) ((treeWp_size k w.memory).imp ?_) ?_
                (fun _ => id)
              · rintro n m ⟨hm, -⟩
                exact ⟨hm, trivial⟩
              · intro n f hf _
                exact kindAt_withFiles hf p
            · intro n w' _ hw'
              exact .pure (by rw [hw', hkind, hn]; rfl)

/-- Where something must be, the entry that is found is of the kind that is there. -/
theorem runs_requireEntry (p : Path) (v : Vfs φ μ) :
    Runs (· = .wait) (requireEntry p) (fun e w => w.kindAt p = some e.kind) (Error.Calm φ) v := by
  refine .bind (runs_lookup p v) ?_
  rintro (_ | e) w - hkind
  · exact .throw fun h => nomatch h
  · exact .pure hkind.symm

/-- The parent of a path is found to be a directory. -/
theorem runs_requireParent (p : Path) (v : Vfs φ μ) :
    Runs (· = .wait) (requireParent p) (fun _ w => ∀ dir, p.parent? = some dir → w.kindAt dir = some .directory)
      (Error.Calm φ) v := by
  unfold requireParent
  cases p.parent? with
  | none => exact .pure fun dir hdir => nomatch hdir
  | some parent =>
    refine .bind (runs_lookup parent v) ?_
    rintro (_ | (_ | ⟨size, modified⟩ | target)) w - hkind
    · exact .throw fun h => nomatch h
    · refine .pure ?_
      rintro dir ⟨⟩
      exact hkind.symm
    · exact .throw fun h => nomatch h
    · exact .throw fun h => nomatch h

omit [LinkMap μ] in
/-- A directory that is found is one of the store. -/
theorem hasParent_of_kindAt (hroot : p ≠ .root)
    (h : ∀ dir, p.parent? = some dir → v.kindAt dir = some .directory) : HasParent v.memory p := by
  rcases Path.eq_root_or_child p with e | ⟨dir, n, rfl⟩
  · exact absurd e hroot
  · exact ⟨dir, Path.parent?_child dir n, (kindAt_eq_directory_iff.1 (h dir (Path.parent?_child dir n))).2⟩

/-- A free path has neither a link nor a node, and it is in a directory. -/
theorem runs_requireFree (p : Path) (v : Vfs φ μ) :
    Runs (· = .wait) (requireFree p)
      (fun _ w => p ≠ .root ∧ w.links.get? p = none ∧ w.memory.node? p = none ∧ HasParent w.memory p)
      (Error.Calm φ) v := by
  refine .ite (fun _ => .throw_bind fun h => nomatch h) fun hroot => ?_
  have hroot : p ≠ .root := fun e => hroot (Path.isRoot_iff.2 e)
  refine .bind (runs_lookup p v) ?_
  rintro (_ | e) w - hkind
  · refine (runs_requireParent p w).imp ?_
    intro _ u hr hparent
    have hnone : u.kindAt p = none := by
      rw [hr.waited.kindAt, ← hkind]
      rfl
    obtain ⟨hlink, hnode⟩ := kindAt_eq_none_iff.1 hnone
    exact ⟨hroot, hlink, hnode, hasParent_of_kindAt hroot hparent⟩
  · exact .ite (fun _ => .throw_bind fun h => nomatch h)
      fun h => absurd rfl h

end Finding

end Filespace.Vfs
