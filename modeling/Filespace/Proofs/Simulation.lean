import Filespace.Proofs.Agreement
import Filespace.Proofs.NamespaceOperations

/-!
# Stores that act alike

Two states of a store that a `Simulation` relates give the same results for every call and stay related. They need not be
the same: handles can differ, and so can anything that no call shows. A namespace shows no more of a store than its calls
do, so two namespaces on such stores give the same results too (`Twin`).

What is asked of the calls is what a namespace needs. It looks for an entry at the root nowhere and never moves the root,
and it falls back on copying only if the store says that it cannot move.
-/

namespace Filespace

open Storage FileStore

/-- A reply with other handles. -/
def Reply.map {η η' : Type} (f : η → η') : Reply η → Reply η'
  | done => .done
  | entry p s => .entry p s
  | entries l => .entries l
  | handle h => .handle (f h)
  | bytes d n => .bytes d n
  | size n => .size n

namespace Reply

variable {η η' : Type} (f : η → η') (r : Reply η)

@[simp] theorem toEntry_map : (r.map f).toEntry = r.toEntry := by
  cases r <;> rfl

@[simp] theorem toEntries_map : (r.map f).toEntries = r.toEntries := by
  rcases r with _ | ⟨p, _ | s⟩ | _ | _ | _ | _ <;> rfl

@[simp] theorem toBytes_map : (r.map f).toBytes = r.toBytes := by
  rcases r with _ | ⟨p, _ | s⟩ | _ | _ | _ | _ <;> rfl

@[simp] theorem toSize_map : (r.map f).toSize = r.toSize := by
  rcases r with _ | ⟨p, _ | s⟩ | _ | _ | _ | _ <;> rfl

end Reply

/-- The requests that a namespace makes: it neither asks for the root nor moves it. -/
def Request.Fair : Request → Prop
  | entry p | createDirectory p false => p.isRoot = false
  | move source target | copy source target => source.isRoot = false ∧ target.isRoot = false
  | _ => True

namespace Storage

/-- How two states of a store correspond. -/
structure Simulation (φ : Type) [FileStore φ] where
  /-- The states correspond. -/
  Rel : Host × φ → Host × φ → Prop
  /-- The handles that can be open in the first. -/
  Held : Handle φ → Prop
  /-- The handle in the second that corresponds to one in the first. -/
  partner : Handle φ → Handle φ

namespace Simulation

variable {φ α : Type} [FileStore φ] (S : Simulation φ) {h : Handle φ} {p : Path}

/-- Replies that correspond. -/
def Replied (a b : Reply (Handle φ)) : Prop := b = a.map S.partner ∧ ∀ h, a = .handle h → S.Held h

/-- The calls of a store give the same in states that correspond, and keep them so. -/
structure Lawful : Prop where
  clock : ∀ s t, S.Rel s t → t.1.clock = s.1.clock
  directory : ∀ p create, Parallel S.Rel Eq (directory p create) (directory p create)
  file : ∀ p create, Parallel S.Rel Eq (file p create) (file p create)
  /-- No file is at the root. -/
  file_root : ∀ create s t, S.Rel s t → ∀ a s', FileStore.file (φ := φ) .root create s ≠ (.ok a, s')
  openHandle : ∀ p, p.isRoot = false →
    Parallel S.Rel (fun a b => b = S.partner a ∧ S.Held a) (openHandle p) (openHandle p)
  remove : ∀ p recursive, Parallel S.Rel Eq (remove p recursive) (remove p recursive)
  move : ∀ source target, source.isRoot = false → target.isRoot = false →
    Parallel S.Rel Eq (move source target) (move source target)
  list : ∀ p, Parallel S.Rel Eq (list p) (list p)
  entry : ∀ p, p.isRoot = false → Parallel S.Rel Eq (entry p) (entry p)
  writeAt : ∀ p offset data, p.isRoot = false →
    Parallel S.Rel Eq (writeAt p offset data) (writeAt p offset data)
  read : ∀ h pos length, S.Held h → Parallel S.Rel Eq (read h pos length) (read (S.partner h) pos length)
  write : ∀ h pos data, S.Held h → Parallel S.Rel Eq (write h pos data) (write (S.partner h) pos data)
  truncate : ∀ h length, S.Held h → Parallel S.Rel Eq (truncate h length) (truncate (S.partner h) length)
  flush : ∀ h, S.Held h → Parallel S.Rel Eq (flush h) (flush (S.partner h))
  size : ∀ h, S.Held h → Parallel S.Rel Eq (size h) (size (S.partner h))
  close : ∀ h, S.Held h → Parallel S.Rel Eq (close h) (close (S.partner h))
  /-- Copies are bounded alike, or the store can move what it has. -/
  fallback : (∀ s t, S.Rel s t → bound t = bound s) ∨
    ∀ source target s e t, FileStore.move (φ := φ) source target s = (.error e, t) → (Error.storage e).code ≠ .unsupported

namespace Lawful

variable {S} (hS : S.Lawful)

include hS

/-! ### Requests -/

theorem readExactAt (hh : S.Held h) (length offset : Nat) : Parallel S.Rel Eq ((channel h).readExactAt length offset)
      ((channel (S.partner h)).readExactAt length offset) :=
  Channel.parallel_readExactAt (hS.size h hh) (fun pos n => hS.read h pos n hh) length offset

theorem writeAllAt (hh : S.Held h) (data : Bytes) (offset : Nat) :
    Parallel S.Rel Eq ((channel h).writeAllAt data offset) ((channel (S.partner h)).writeAllAt data offset) :=
  Channel.parallel_writeAllAt (fun pos data => hS.write h pos data hh) data offset

/-- After a file was found, it is not at the root. -/
theorem file_then {create : Bool} {x y : StoreM (Host × φ) α} {R : α → α → Prop}
    (h : p.isRoot = false → Parallel S.Rel R x y) :
    Parallel S.Rel R (FileStore.file p create >>= fun _ => x) (FileStore.file p create >>= fun _ => y) := by
  cases hp : p.isRoot with
  | false => exact .bind_eq (hS.file p create) fun _ => h hp
  | true =>
    obtain rfl := Path.isRoot_iff.1 hp
    intro s t hs
    obtain ⟨a, _, s', _, hx, -⟩ | ⟨e, s', t', hx, hy, hs'⟩ := (hS.file .root create s t hs).cases
    · exact absurd hx (hS.file_root create s t hs a s')
    · refine (agree_of_error (e := e) ?_ ?_).2 hs'
      · rw [bind_run, hx]
      · rw [bind_run, hy]

/-- A handle is opened, used and closed. -/
theorem openThen (hp : p.isRoot = false) {use use' : Handle φ → StoreM (Host × φ) α}
    {R : α → α → Prop} (huse : ∀ h, S.Held h → Parallel S.Rel R (use h) (use' (S.partner h))) :
    Parallel S.Rel R (do
      let handle ← FileStore.openHandle p
      let result ← (use handle).attempt
      FileStore.close handle
      StoreM.settle result) (do
      let handle ← FileStore.openHandle p
      let result ← (use' handle).attempt
      FileStore.close handle
      StoreM.settle result) := by
  refine .bind (hS.openHandle p hp) ?_
  rintro h _ ⟨rfl, hh⟩
  refine .bind (parallel_attempt (huse h hh)) fun a b hab => .bind_eq (hS.close h hh) fun _ => ?_
  obtain ⟨c, d, rfl, rfl, hcd⟩ | ⟨e, rfl, rfl⟩ := hab
  · exact .pure hcd
  · exact .throw

theorem slurp (hp : p.isRoot = false) : Parallel S.Rel Eq (slurp p) (slurp p) :=
  hS.openThen hp fun h hh => Channel.parallel_readAll (hS.size h hh) fun pos n => hS.read h pos n hh

theorem copyTree (depth : Nat) {source : Path} (hsource : source.isRoot = false) (target : Path) :
    Parallel S.Rel Eq (copyTree depth source target) (copyTree depth source target) := by
  induction depth generalizing source target with
  | zero => exact .throw
  | succ depth ih =>
    refine .bind_eq (hS.entry source hsource) fun found => ?_
    match found with
    | none => exact .throw
    | some (.file _ _) =>
      refine hS.file_then fun _ => .bind_eq (hS.slurp hsource) fun data => hS.file_then fun htarget => ?_
      exact .bind_eq (hS.writeAt target 0 data htarget) fun _ => .pure rfl
    | some .directory =>
      refine .bind_eq (hS.directory source false) fun _ => .bind_eq (hS.directory target true) fun _ =>
        .bind_eq (hS.list source) fun rows => (Parallel.forM ?_).mono fun _ _ _ => rfl
      refine List.forall₂_same.2 fun row _ => (ih ?_ _).mono fun _ _ _ => trivial
      exact Path.isRoot_child

theorem execute {r : Request} (hr : r.Fair) (hcopy : ∀ source target, r = .copy source target →
      ∀ s t, S.Rel s t → bound t = bound s) :
    Parallel S.Rel S.Replied (r.execute) r.execute := by
  have hplain : ∀ {α : Type} {x y : StoreM (Host × φ) α} {f : α → Reply (Handle φ)}, Parallel S.Rel Eq x y →
      (∀ a, (f a).map S.partner = f a) → (∀ a h, f a ≠ .handle h) →
      Parallel S.Rel S.Replied (x >>= fun a => pure (f a)) (y >>= fun a => pure (f a)) :=
    fun hx hf hne => .bind_eq hx fun a => .pure ⟨(hf a).symm, fun h hh => absurd hh (hne a h)⟩
  cases r with
  | entry p => exact hplain (hS.entry p hr) (fun _ => rfl) nofun
  | list p => exact .bind_eq (hS.directory p false) fun _ => hplain (hS.list p) (fun _ => rfl) nofun
  | createDirectory p parents =>
    cases parents with
    | true => exact hplain (hS.directory p true) (fun _ => rfl) nofun
    | false =>
      obtain rfl | ⟨parent, n, rfl⟩ := p.eq_root_or_child
      · cases hr
      · unfold Request.execute
        simp only [Path.parent?_child]
        refine .bind_eq (hS.directory parent false) fun _ => .bind_eq (hS.entry _ hr) fun found => .guard fun _ => ?_
        exact hplain (hS.directory _ true) (fun _ => rfl) nofun
  | createFile p => exact hplain (hS.file p true) (fun _ => rfl) nofun
  | openHandle p =>
    refine hS.file_then fun hp => .bind (hS.openHandle p hp) ?_
    rintro h _ ⟨rfl, hh⟩
    refine .pure ⟨rfl, ?_⟩
    rintro _ ⟨⟩
    exact hh
  | readAt p offset length =>
    refine hS.file_then fun hp => hS.openThen hp fun h hh => ?_
    exact .bind_eq (hS.readExactAt hh length offset) fun _ => hplain (hS.size h hh) (fun _ => rfl) nofun
  | writeAt p offset data => exact hS.file_then fun hp => hplain (hS.writeAt p offset data hp) (fun _ => rfl) nofun
  | truncate p length =>
    exact hS.file_then fun hp => hS.openThen hp fun h hh => hplain (hS.truncate h length hh) (fun _ => rfl) nofun
  | remove p recursive => exact hplain (hS.remove p recursive) (fun _ => rfl) nofun
  | move source target => exact hplain (hS.move source target hr.1 hr.2) (fun _ => rfl) nofun
  | copy source target =>
    refine hplain (.get_bind fun s t hs => ?_) (fun _ => rfl) nofun
    rw [hcopy source target rfl s t hs]
    exact hS.copyTree _ hr.1 target

end Lawful

/-- The link records are kept where the store does not depend on them, and do not depend on the store. -/
structure Apart (S : Simulation φ) (μ : Type) [LinkMap μ] : Prop where
  load : ∀ (h h' : Host) (m : μ) (f f' : φ), S.Rel (h, f) (h', f') →
    (LinkMap.load (h', m)).1 = (LinkMap.load (h, m)).1 ∧ (LinkMap.load (h', m)).2.2 = (LinkMap.load (h, m)).2.2 ∧
      S.Rel ((LinkMap.load (h, m)).2.1, f) ((LinkMap.load (h', m)).2.1, f')
  job : ∀ (job : LinkJob) (h h' : Host) (m : μ) (f f' : φ), S.Rel (h, f) (h', f') →
    (job.run (h', m)).1 = (job.run (h, m)).1 ∧ (job.run (h', m)).2.2 = (job.run (h, m)).2.2 ∧
      S.Rel ((job.run (h, m)).2.1, f) ((job.run (h', m)).2.1, f')

end Simulation

end Storage

namespace Vfs

variable {φ μ α β : Type} [FileStore φ]

/-- Two namespaces on stores that correspond. They can differ in the listings that they remember, as `L` says. -/
structure Twin (S : Simulation φ) (L : Listings → Listings → Prop) (v v' : Vfs φ μ) : Prop where
  behind : S.Rel v.behind v'.behind
  map : v'.world.map = v.world.map
  links : v'.links = v.links
  handles : v'.handles = v.handles.map fun _ => S.partner
  held : ∀ p h, v.handles.get? p = some h → S.Held h
  resolver : v'.resolver = v.resolver
  listings : L v.listings v'.listings
  sizes : v'.sizes = v.sizes
  detached : v'.detached = v.detached
  coldPath : v'.coldPath = v.coldPath
  background : v'.background = v.background
  pace : v'.pace = v.pace

variable {S : Simulation φ} {L : Listings → Listings → Prop} {v v' : Vfs φ μ}

/-! ### Calls of the store -/

theorem Twin.get?_handles (h : Twin S L v v') (p : Path) :
    v'.handles.get? p = (v.handles.get? p).map S.partner := by
  rw [h.handles, Table.get?_map]

theorem Twin.isWarm (h : Twin S L v v') (p : Path) : v'.isWarm p = v.isWarm p := by
  unfold Vfs.isWarm Table.contains
  rw [h.get?_handles, Option.isSome_map]

theorem Twin.now (hS : S.Lawful) (h : Twin S L v v') : v'.now = v.now := hS.clock _ _ h.behind

/-- A warm handle is there in both namespaces or in none. -/
theorem Twin.warm_cases (h : Twin S L v v') (p : Path) :
    (v.handles.get? p = none ∧ v'.handles.get? p = none) ∨
      ∃ k, v.handles.get? p = some k ∧ v'.handles.get? p = some (S.partner k) ∧ S.Held k := by
  have hget := h.get?_handles p
  cases hp : v.handles.get? p with
  | none =>
    rw [hp] at hget
    exact Or.inl ⟨rfl, hget⟩
  | some k =>
    rw [hp] at hget
    exact Or.inr ⟨k, rfl, hget, h.held p k hp⟩

theorem twin_onFiles {x y : StoreM (Host × φ) α} {R : α → α → Prop} (h : Parallel S.Rel R x y) :
    Parallel (Twin (μ := μ) S L) R (onFiles x) (onFiles y) := by
  intro v v' hv
  have hx : ∀ (x : StoreM (Host × φ) α) (v : Vfs φ μ), onFiles x v = ((x v.behind).1.mapError .storage,
      { v with world := { v.world with host := (x v.behind).2.1, files := (x v.behind).2.2 } }) := fun _ _ => rfl
  obtain ⟨a, b, s, t, hx', hy', hab, hst⟩ | ⟨e, s, t, hx', hy', hst⟩ := (h _ _ hv.behind).cases
  · have hrun := hx x v
    have hrun' := hx y v'
    rw [hx'] at hrun
    rw [hy'] at hrun'
    exact (agree_of_ok hrun hrun').2 ⟨hab, { hv with behind := hst }⟩
  · have hrun := hx x v
    have hrun' := hx y v'
    rw [hx'] at hrun
    rw [hy'] at hrun'
    exact (agree_of_error hrun hrun').2 { hv with behind := hst }

theorem twin_settle (r : Except StorageError α) : Parallel (Twin (μ := μ) S L) Eq (settle r) (settle r) := by
  intro v v' hv
  cases r with
  | ok | error => exact ⟨rfl, hv⟩

section Calls

variable [LinkMap μ] (hS : S.Lawful) (hμ : S.Apart μ)

include hS hμ

/-- A job ends in the same way on both sides. -/
theorem Twin.perform (h : Twin S L v v') (w : Work) :
    let a := Vfs.perform w (v.world, v.detached)
    let b := Vfs.perform w (v'.world, v'.detached)
    b.1 = a.1 ∧ b.2.2 = a.2.2 ∧ b.2.1.map = a.2.1.map ∧ S.Rel (a.2.1.host, a.2.1.files) (b.2.1.host, b.2.1.files) := by
  cases w with
  | link job =>
    have hjob := hμ.job job _ _ v.world.map _ _ h.behind
    unfold Vfs.perform
    simp only [h.map]
    exact ⟨hjob.1, h.detached, hjob.2.1, hjob.2.2⟩
  | write p generation offset data =>
    unfold Vfs.perform
    simp only [h.detached]
    by_cases hcurrent : v.detached.isCurrent p generation = true
    · rw [if_pos hcurrent, if_pos hcurrent]
      have hwrite : Parallel S.Rel Eq (do
          file p false
          let _ ← writeAt p offset data) (do
          file p false
          let _ ← writeAt p offset data) :=
        hS.file_then fun hp => .bind_eq (hS.writeAt p offset data hp) fun _ => .pure rfl
      obtain ⟨_, _, s, t, hx, hy, -, hst⟩ | ⟨e, s, t, hx, hy, hst⟩ := (hwrite _ _ h.behind).cases
      · unfold Vfs.behind at hx hy
        rw [hx, hy]
        exact ⟨rfl, rfl, h.map, hst⟩
      · unfold Vfs.behind at hx hy
        rw [hx, hy]
        exact ⟨rfl, rfl, h.map, hst⟩
    · rw [if_neg hcurrent, if_neg hcurrent]
      exact ⟨rfl, rfl, h.map, h.behind⟩

theorem Twin.finished (h : Twin S L v v') (j : Job Work) (rest : List (Job Work)) :
    Twin S L (v.finished j rest) (v'.finished j rest) := by
  obtain ⟨houtcome, hdetached, hmap, hbehind⟩ := h.perform hS hμ j.work
  have hbackground : (v'.finished j rest).background = (v.finished j rest).background := by
    unfold Vfs.finished
    simp only [houtcome, h.background]
  exact { h with behind := hbehind, map := hmap, detached := hdetached, background := hbackground }

theorem Twin.runJobs (h : Twin S L v v') (n : Nat) : Twin S L (v.runJobs n) (v'.runJobs n) := by
  induction n generalizing v v' with
  | zero =>
    exact h
  | succ n ih =>
    cases hq : v.background.queue with
    | nil =>
      rw [runJobs_nil _ hq, runJobs_nil _ (by rw [h.background, hq])]
      exact h
    | cons j rest =>
      rw [runJobs_succ n hq, runJobs_succ n (by rw [h.background, hq])]
      exact ih (h.finished hS hμ j rest)

theorem Twin.drain (h : Twin S L v v') : Twin S L v.drain v'.drain := by
  unfold Vfs.drain
  rw [h.background]
  exact h.runJobs hS hμ _

theorem Twin.runDue (h : Twin S L v v') : Twin S L v.runDue v'.runDue := by
  unfold Vfs.runDue
  rw [h.pace]
  cases v.pace with
  | nil => exact h.drain hS hμ
  | cons n rest => exact { h.runJobs hS hμ n with pace := rfl }

theorem twin_waitIdle : Parallel (Twin (μ := μ) S L) Eq waitIdle waitIdle := .modify fun _ _ h => h.drain hS hμ

theorem twin_call {r : Request} (hr : r.Fair) (hcopy : ∀ source target, r = .copy source target →
      ∀ s t, S.Rel s t → bound t = bound s) :
    Parallel (Twin (μ := μ) S L) S.Replied (call r) (call r) :=
  .bind_eq (.modify fun _ _ h => h.runDue hS hμ) fun _ => twin_onFiles (hS.execute hr hcopy)

end Calls

end Vfs

end Filespace
