import Filespace.Proofs.Agreement
import Filespace.Proofs.MemoryCalls
import Filespace.Request
import Filespace.Storage.Faulty
import Mathlib.Order.Defs.Unbundled

/-!
# What a listing shows of a store

A listing gives the names of the entries in a directory and tells directories from files. An `Outline` is what
listings depend on: a `shape` of the store, such that two stores of one shape are listed alike. Contents, times, locks
and open handles are no part of it.

An outline is `Lawful` for a store if its calls treat it as expected: those that look at entries or use a handle keep the
shape, however they end, and those that make something keep it at least when they fail. A store can break the last
rule when it notices too late that it cannot go on; its outline says with which failures that happens (`Late`). Requests
follow these rules because calls do.

`Stays R x` says that a call goes from a state only to states that are related to it.
-/

namespace Filespace

open Storage FileStore Request

/-! ### Calls that keep a relation to where they started -/

section Stays

variable {ε σ α β : Type} {R R' : σ → σ → Prop} {x : ExceptT ε (StateM σ) α}

/-- However it ends, the call ends in a state that `R` relates to the first. -/
def Stays (R : σ → σ → Prop) (x : ExceptT ε (StateM σ) α) : Prop :=
  ∀ s, wp x (fun _ t => R s t) (fun _ t => R s t) s

theorem stays_iff : Stays R x ↔ ∀ s, R s (x s).2 := by
  refine ⟨fun h s => (h s).state, fun h s => wp_iff.2 ⟨fun a t hx => ?_, fun e t hx => ?_⟩⟩
  · have hst := h s
    rwa [hx] at hst
  · have hst := h s
    rwa [hx] at hst

theorem Stays.mono (h : Stays R x) (hR : ∀ s t, R s t → R' s t) : Stays R' x :=
  fun s => (h s).mono (fun _ t => hR s t) fun _ t => hR s t

theorem Stays.modify {f : σ → σ} (h : ∀ s, R s (f s)) : Stays R (modify f : ExceptT ε (StateM σ) PUnit) := h

theorem Stays.get_bind {f : σ → ExceptT ε (StateM σ) α} (h : ∀ s, Stays R (f s)) : Stays R (get >>= f) :=
  fun s => h s s

theorem Stays.ite {c : Prop} [Decidable c] {y : ExceptT ε (StateM σ) α} (hx : c → Stays R x) (hy : ¬ c → Stays R y) :
    Stays R (if c then x else y) := by
  split
  · exact hx ‹_›
  · exact hy ‹_›

theorem Stays.map {f : α → β} (hx : Stays R x) : Stays R (f <$> x) := fun s => wp_map.2 (hx s)

theorem Stays.attempt {x : Storage.StoreM σ α} (h : Stays R x) : Stays R x.attempt :=
  fun s => Storage.wp_attempt.2 (h s)

variable [IsPreorder σ R]

theorem Stays.pure {a : α} : Stays R (pure a : ExceptT ε (StateM σ) α) := fun s => refl_of R s

theorem Stays.throw {e : ε} : Stays R (throw e : ExceptT ε (StateM σ) α) := fun s => refl_of R s

theorem Stays.throw_bind {e : ε} {f : β → ExceptT ε (StateM σ) α} :
    Stays R ((MonadExcept.throw e) >>= f) := fun s => refl_of R s

/-- Failing early changes nothing. -/
theorem Stays.guard {c : Prop} [Decidable c] {e : ε} {f : β → ExceptT ε (StateM σ) α} (h : Stays R x) :
    Stays R (if c then (MonadExcept.throw e) >>= f else x) :=
  .ite (fun _ => .throw_bind) fun _ => h

theorem Stays.settle {r : Except Storage.StorageError α} : Stays R (Storage.StoreM.settle r) := by
  intro s
  cases r with
  | ok | error => exact refl_of R s

theorem Stays.bind {f : α → ExceptT ε (StateM σ) β} (hx : Stays R x) (hf : ∀ a, Stays R (f a)) : Stays R (x >>= f) := by
  intro s
  refine wp_bind.2 ((hx s).imp fun a t hst => ?_)
  exact (hf a t).mono (fun _ _ htu => trans_of R hst htu) fun _ _ htu => trans_of R hst htu

theorem Stays.tryCatch {f : ε → ExceptT ε (StateM σ) α} (hx : Stays R x) (hf : ∀ e, Stays R (f e)) :
    Stays R (tryCatch x f) := by
  intro s
  refine wp_tryCatch.2 ((hx s).mono (fun _ _ h => h) fun e t hst => ?_)
  exact (hf e t).mono (fun _ _ htu => trans_of R hst htu) fun _ _ htu => trans_of R hst htu

theorem Stays.forM {f : α → ExceptT ε (StateM σ) PUnit} (l : List α) (h : ∀ a ∈ l, Stays R (f a)) : Stays R (l.forM f) := by
  induction l with
  | nil => exact .pure
  | cons a l ih =>
    have hrest : ∀ b ∈ l, Stays R (f b) := fun b hb => h b (List.mem_cons_of_mem a hb)
    exact .bind (h a (List.mem_cons_self ..)) fun _ => ih hrest

end Stays

/-- The requests that only look at entries, or use the content of a file. -/
def Request.Looks : Request → Prop
  | entry _ | list _ | openHandle _ | readAt _ _ _ | writeAt _ _ _ | truncate _ _ => True
  | _ => False

namespace Storage

/-! ### Outlines -/

/-- The rows of a listing as far as they show. -/
def shown (l : List (Name × Stat)) : List (Name × Bool) := l.map fun (n, s) => (n, s.isDirectory)

/-- What listings depend on in stores of type `φ`. -/
structure Outline (φ : Type) where
  /-- What a shape is. -/
  Shape : Type
  /-- The shape of a store on its host. -/
  shape : Host × φ → Shape
  /-- The states in which a store can be. -/
  Fit : Host × φ → Prop
  /-- The failures that can come after something was made. -/
  Late : StorageError → Prop

namespace Outline

variable {φ α β : Type} (O : Outline φ) {x : StoreM (Host × φ) α}

/-- The second state is as fit as the first and has its shape. -/
def Same (s t : Host × φ) : Prop := O.Fit s → O.Fit t ∧ O.shape t = O.shape s

/-- The second state is as fit as the first. -/
def AsFit (s t : Host × φ) : Prop := O.Fit s → O.Fit t

instance : IsPreorder (Host × φ) O.Same where
  refl _ hs := ⟨hs, rfl⟩
  trans _ _ _ hst htu hs := ⟨(htu (hst hs).1).1, (htu (hst hs).1).2.trans (hst hs).2⟩

instance : IsPreorder (Host × φ) O.AsFit where
  refl _ hs := hs
  trans _ _ _ hst htu hs := htu (hst hs)

variable {O} in
theorem Same.asFit {s t : Host × φ} (h : O.Same s t) : O.AsFit s t := fun hs => (h hs).1

/-- A call that makes something: it keeps the shape when it fails, unless the failure is a late one. -/
structure Makes (x : StoreM (Host × φ) α) : Prop where
  asFit : Stays O.AsFit x
  same : ∀ s e t, x s = (.error e, t) → O.Late e ∨ O.Same s t

variable {O} in
theorem Makes.of_stays (h : Stays O.Same x) : O.Makes x :=
  ⟨h.mono fun _ _ => Same.asFit, fun s _ _ hx => Or.inr ((h s).error hx)⟩

variable {O} in
/-- What comes before and only looks does not matter. -/
theorem Makes.after {f : α → StoreM (Host × φ) β} (hx : Stays O.Same x)
    (hf : ∀ a, O.Makes (f a)) : O.Makes (x >>= f) := by
  refine ⟨.bind (hx.mono fun _ _ => Same.asFit) fun a => (hf a).asFit, fun s e u hrun => ?_⟩
  have hst := hx s
  rw [bind_run] at hrun
  rcases hr : x s with ⟨_ | a, t⟩
  · rw [hr] at hrun
    cases hrun
    exact Or.inr (hst.error hr)
  · rw [hr] at hrun
    exact ((hf a).same t e u hrun).imp_right fun htu => trans_of O.Same (hst.ok hr) htu

variable {O} in
/-- What comes after and cannot fail does not matter. -/
theorem Makes.before {b : β} (hx : O.Makes x) : O.Makes (x >>= fun _ => pure b) := by
  refine ⟨.bind hx.asFit fun _ => .pure, fun s e u hrun => ?_⟩
  rw [bind_run] at hrun
  rcases hr : x s with ⟨_ | a, t⟩
  · rw [hr] at hrun
    cases hrun
    exact hx.same s e _ hr
  · rw [hr] at hrun
    cases hrun

/-- The calls of a store treat the outline as expected. -/
structure Lawful [FileStore φ] : Prop where
  directory : ∀ p, Stays O.Same (directory (φ := φ) p false)
  file : ∀ p, Stays O.Same (file (φ := φ) p false)
  makeDirectory : ∀ p, O.Makes (FileStore.directory (φ := φ) p true)
  makeFile : ∀ p, O.Makes (FileStore.file (φ := φ) p true)
  openHandle : ∀ p, Stays O.Same (openHandle (φ := φ) p)
  remove : ∀ p recursive, Stays O.AsFit (remove (φ := φ) p recursive)
  move : ∀ source target, Stays O.AsFit (move (φ := φ) source target)
  list : ∀ p, Stays O.Same (list (φ := φ) p)
  entry : ∀ p, Stays O.Same (entry (φ := φ) p)
  writeAt : ∀ p offset data, Stays O.Same (writeAt (φ := φ) p offset data)
  read : ∀ h pos length, Stays O.Same (read (φ := φ) h pos length)
  write : ∀ h pos data, Stays O.Same (write (φ := φ) h pos data)
  truncate : ∀ h length, Stays O.Same (truncate (φ := φ) h length)
  flush : ∀ h, Stays O.Same (flush (φ := φ) h)
  size : ∀ h, Stays O.Same (size (φ := φ) h)
  close : ∀ h, Stays O.Same (close (φ := φ) h)
  /-- In a directory that is there, no directory is made too late. -/
  makeIn : ∀ parent p s e t, p.parent? = some parent → (FileStore.directory (φ := φ) parent false s).1 = .ok () →
    FileStore.directory p true s = (.error e, t) → O.Same s t
  /-- Whether a directory is found depends on the shape. -/
  found : ∀ p s t, O.Fit s → O.Fit t → O.shape t = O.shape s →
    (FileStore.directory p false t).1 = (FileStore.directory (φ := φ) p false s).1
  /-- What a listing shows depends on the shape. -/
  listed : ∀ p s t, O.Fit s → O.Fit t → O.shape t = O.shape s →
    (FileStore.list p t).1.map shown = (FileStore.list (φ := φ) p s).1.map shown

/-! ### Requests -/

namespace Lawful

variable {O} [FileStore φ] (hO : O.Lawful)

include hO

theorem gather (h : Handle φ) (fuel pos want : Nat) :
    Stays O.Same ((channel h).gather fuel pos want) := by
  induction fuel generalizing pos want with
  | zero => exact .pure
  | succ fuel ih =>
    refine .ite (fun _ => .pure) fun _ => .bind (hO.read h pos want) fun bytes => ?_
    exact .ite (fun _ => .pure) fun _ => .bind (ih _ _) fun _ => .pure

theorem scatter (h : Handle φ) (fuel pos : Nat) (data : Bytes) :
    Stays O.Same ((channel h).scatter fuel pos data) := by
  induction fuel generalizing pos data with
  | zero => exact .pure
  | succ fuel ih =>
    refine .ite (fun _ => .pure) fun _ => .bind (hO.write h pos data) fun n => ?_
    exact .ite (fun _ => .throw) fun _ => .bind (ih _ _) fun _ => .pure

theorem readExactAt (h : Handle φ) (length offset : Nat) :
    Stays O.Same ((channel h).readExactAt length offset) :=
  .bind (hO.size h) fun _ => hO.gather h _ _ _

theorem writeAllAt (h : Handle φ) (data : Bytes) (offset : Nat) :
    Stays O.Same ((channel h).writeAllAt data offset) := by
  unfold Channel.writeAllAt
  cases Channel.endOffset offset data.length with
  | error e => exact .throw
  | ok last => exact hO.scatter h _ _ _

theorem withHandle (p : Path) {use : Handle φ → StoreM (Host × φ) α} (huse : ∀ h, Stays O.Same (use h)) :
    Stays O.Same (withHandle p use) :=
  .bind (hO.file p) fun _ => .bind (hO.openHandle p) fun h => .bind (huse h).attempt fun _ =>
    .bind (hO.close h) fun _ => .settle

/-- A copy makes entries, with whatever else. -/
theorem copyTree (depth : Nat) (source target : Path) : Stays O.AsFit (copyTree depth source target) := by
  have looks : ∀ {α : Type} {x : StoreM (Host × φ) α}, Stays O.Same x → Stays O.AsFit x :=
    fun h => h.mono fun _ _ => Same.asFit
  induction depth generalizing source target with
  | zero => exact .throw
  | succ depth ih =>
    refine .bind (looks (hO.entry source)) fun found => ?_
    match found with
    | none => exact .throw
    | some (.file _ _) =>
      refine .bind (looks (hO.file source)) fun _ => .bind ?_ fun data => .bind (hO.makeFile target).asFit fun _ =>
        .bind (looks (hO.writeAt target 0 data)) fun _ => .pure
      refine .bind (looks (hO.openHandle source)) fun h => .bind (looks ?_) fun _ =>
        .bind (looks (hO.close h)) fun _ => .settle
      exact .attempt (.bind (hO.size h) fun _ => hO.gather h _ _ _)
    | some .directory =>
      refine .bind (looks (hO.directory source)) fun _ => .bind (hO.makeDirectory target).asFit fun _ =>
        .bind (looks (hO.list source)) fun rows => .forM rows fun _ _ => ih _ _

/-- Requests that look at entries, or use the content of a file, keep the shape. -/
theorem looks {r : Request} (h : r.Looks) : Stays O.Same (r.execute) := by
  cases r with
  | entry p => exact .bind (hO.entry p) fun _ => .pure
  | list p => exact .bind (hO.directory p) fun _ => .bind (hO.list p) fun _ => .pure
  | openHandle p => exact .bind (hO.file p) fun _ => .bind (hO.openHandle p) fun _ => .pure
  | readAt p offset length =>
    exact hO.withHandle p fun h => .bind (hO.readExactAt h length offset) fun _ => .bind (hO.size h) fun _ => .pure
  | writeAt p offset data => exact .bind (hO.file p) fun _ => .bind (hO.writeAt p offset data) fun _ => .pure
  | truncate p length => exact hO.withHandle p fun h => .bind (hO.truncate h length) fun _ => .pure
  | _ => exact h.elim

/-- A directory that is made alone is not made too late. -/
theorem createDirectory_false {parent p : Path} (hp : p.parent? = some parent) (s : Host × φ) :
    wp ((createDirectory p false).execute) (fun _ _ => True) (fun _ t => O.Same s t) s := by
  unfold execute
  simp only [hp]
  rw [if_pos (by decide), wp_bind]
  have hparent := hO.directory parent s
  refine wp_iff.2 ⟨fun _ s' hx => ?_, fun _ s' hx => hparent.error hx⟩
  refine wp_bind.2 ((hO.entry p s').mono (fun found s'' hentry => ?_) fun _ _ h => trans_of O.Same (hparent.ok hx) h)
  have hsame : O.Same s s'' := trans_of O.Same (hparent.ok hx) hentry
  cases found with
  | some stat => exact hsame
  | none =>
    refine wp_bind.2 (wp_iff.2 ⟨fun _ _ _ => trivial, fun e t hmake hs => ?_⟩)
    obtain ⟨hs'', hshape⟩ := hsame hs
    have hok : (FileStore.directory parent false s'').1 = .ok () := by rw [hO.found parent s s'' hs hs'' hshape, hx]
    exact trans_of O.Same hsame (hO.makeIn parent p s'' e t hp hok hmake) hs

theorem createDirectory (p : Path) (parents : Bool) : O.Makes ((createDirectory p parents).execute) := by
  cases parents with
  | true => exact .before (hO.makeDirectory p)
  | false =>
    have hmake : O.Makes (do
        if (← FileStore.entry p).isSome then throw (.alreadyExists p)
        FileStore.directory p true
        return (Reply.done : Reply (Handle φ))) := by
      refine .after (hO.entry p) fun found => ?_
      cases found with
      | some s => exact .of_stays .throw
      | none => exact .before (hO.makeDirectory p)
    cases hp : p.parent? with
    | none =>
      unfold execute
      simp only [hp]
      exact hmake
    | some parent =>
      unfold execute
      simp only [hp]
      exact .after (hO.directory parent) fun _ => hmake

theorem createFile (p : Path) : O.Makes ((createFile p).execute) := .before (hO.makeFile p)

/-- All requests leave a fit state. -/
theorem execute (r : Request) : Stays O.AsFit (r.execute) := by
  have hlooks : r.Looks → Stays O.AsFit (r.execute) := fun h => (hO.looks h).mono fun _ _ => Same.asFit
  cases r with
  | createDirectory p parents => exact (hO.createDirectory p parents).asFit
  | createFile p => exact (hO.createFile p).asFit
  | remove p recursive => exact .bind (hO.remove p recursive) fun _ => .pure
  | move source target => exact .bind (hO.move source target) fun _ => .pure
  | copy source target => exact .bind (.get_bind fun s => hO.copyTree _ source target) fun _ => .pure
  | _ => exact hlooks trivial

/-- What a listing shows depends on the shape. -/
theorem listing (dir : Path) {s t : Host × φ} (hs : O.Fit s) (ht : O.Fit t) (hshape : O.shape t = O.shape s) :
    Agree (Request.list dir).execute (Request.list dir).execute
      (fun a b _ _ => ∃ l l', a = .entries l ∧ b = .entries l' ∧ shown l' = shown l) (fun _ _ => True) s t := by
  have hfound := hO.found dir s t hs ht hshape
  have hleft := stays_iff.1 (hO.directory dir) s hs
  have hright := stays_iff.1 (hO.directory dir) t ht
  rcases hx : FileStore.directory dir false s with ⟨r, s'⟩
  rcases hy : FileStore.directory dir false t with ⟨r', t'⟩
  rw [hx] at hfound hleft
  rw [hy] at hfound hright
  cases hfound
  cases r with
  | error e =>
    refine (agree_of_error (e := e) (u := s') (v := t') ?_ ?_).2 trivial
    · rw [Request.execute, bind_run, hx]
    · rw [Request.execute, bind_run, hy]
  | ok =>
    refine .bind_left hx (.bind_right hy ?_)
    have hlisted := hO.listed dir s' t' hleft.1 hright.1 (hright.2.trans (hshape.trans hleft.2.symm))
    rcases hx' : FileStore.list dir s' with ⟨r, s''⟩
    rcases hy' : FileStore.list dir t' with ⟨r', t''⟩
    rw [hx', hy'] at hlisted
    match r, r', hlisted with
    | .error e, .error e', hlisted =>
      obtain rfl : e' = e := Except.error.inj hlisted
      refine (agree_of_error (e := e') (u := s'') (v := t'') ?_ ?_).2 trivial
      · rw [bind_run, hx']
      · rw [bind_run, hy']
    | .ok l, .ok l', hlisted => exact .bind_left hx' (.bind_right hy' ⟨l, l', rfl, rfl, Except.ok.inj hlisted⟩)

end Lawful

end Outline

/-! ### The store in memory -/

namespace Memory

variable {α : Type} {m m' : Memory} {x : StoreM Memory α}

/-- Directories and files, whatever is in them. -/
def outline : Outline Memory where
  Shape := Table Path EntryKind
  shape s := s.2.nodes.map fun _ => Node.kind
  Fit s := s.2.Closed
  Late _ := False

theorem shape_outline {s t : Host × Memory} (h : ∀ p, t.2.kind? p = s.2.kind? p) : outline.shape t = outline.shape s := by
  refine Table.ext_get? fun p => ?_
  show (t.2.nodes.map fun _ => Node.kind).get? p = (s.2.nodes.map fun _ => Node.kind).get? p
  rw [Table.get?_map, Table.get?_map]
  exact h p

theorem kind?_of_shape {s t : Host × Memory} (h : outline.shape t = outline.shape s) (p : Path) :
    t.2.kind? p = s.2.kind? p := by
  have hp := congrArg (fun k : Table Path EntryKind => k.get? p) h
  simp only [outline, Table.get?_map] at hp
  exact hp

/-- A call that keeps all kinds keeps the shape. -/
theorem stays_outline
    (h : ∀ m, wp x (fun _ m' => ∀ p, m'.kind? p = m.kind? p) (fun _ m' => ∀ p, m'.kind? p = m.kind? p) m) :
    Stays outline.Same (.onSecond x : StoreM (Host × Memory) α) := by
  intro s
  refine wp_within.2 ((h s.2).mono ?_ ?_)
  · exact fun _ m' hk hs => ⟨hs.congr hk, shape_outline hk⟩
  · exact fun _ m' hk hs => ⟨hs.congr hk, shape_outline hk⟩

/-- A call that keeps the tree closed, and does nothing if it fails. -/
theorem makes_outline (h : ∀ m, m.Closed → wp x (fun _ m' => m'.Closed) (fun _ m' => m' = m) m) :
    outline.Makes (.onSecond x) := by
  refine ⟨stays_iff.2 fun s hs => ?_, fun s e t hrun => Or.inr fun hs => ?_⟩
  · exact ((h s.2 hs).mono (fun _ _ hc => hc) fun _ _ he => he ▸ hs).state
  · rcases hx : x s.2 with ⟨r, m'⟩
    have hrun' : (StoreM.onSecond x) s = (r, (s.1, m')) := by
      simp only [StoreM.onSecond, StoreM.within, hx]
    rw [hrun'] at hrun
    cases hrun
    obtain rfl : m' = s.2 := (h s.2 hs).error hx
    exact ⟨hs, rfl⟩

/-- What is shown of a directory depends on kinds only. -/
theorem shown_children (m : Memory) (p : Path) :
    shown (m.children p) = (m.nodes.map fun _ => Node.kind).rows.filterMap fun (q, k) =>
      if q.parent? = some p then q.name?.map fun n => (n, decide (k = .directory)) else none := by
  unfold shown children Table.map
  rw [List.map_filterMap, List.filterMap_map]
  refine List.filterMap_congr fun x _ => ?_
  obtain ⟨q, n⟩ := x
  by_cases hq : q.parent? = some p
  · simp only [hq, if_true, Function.comp]
    cases q.name? <;> cases n <;> rfl
  · simp only [hq, if_false, Function.comp]
    rfl

/-- A call that changes nothing. -/
theorem stays_of_eq (h : ∀ m, wp x (fun _ m' => m' = m) (fun _ m' => m' = m) m) :
    Stays outline.Same (.onSecond x : StoreM (Host × Memory) α) :=
  stays_outline fun m => (h m).mono (fun _ _ he p => by rw [he]) fun _ _ he p => by rw [he]

/-- New bytes in the file of a handle. -/
theorem kind?_revised_of_handle {h : Handle} {b : FileData → Bytes} {P : Prop} (hm : (m.fileOf? h = none ∧ m' = m) ∨
    ∃ d, m.fileOf? h = some d ∧ m' = m.revised h.path d (b d) ∧ P) (p : Path) : m'.kind? p = m.kind? p := by
  obtain ⟨-, rfl⟩ | ⟨d, hd, rfl, -⟩ := hm
  · rfl
  · exact kind?_of_outline? (outline?_revised (fileOf?_eq_some_iff.1 hd).1 _ p)

/-- What is found on the way depends on the kinds of entries only. -/
theorem ensure_false_run (p : Path) (l : List Path) (m : Memory) : (ensure false (p :: l) m).1 =
    match m.kind? p with
    | some .directory => (ensure false l m).1
    | some _ => .error (.notADirectory p.display)
    | none => .error (.notFound p) := by
  rw [ensure_cons_run]
  unfold kind?
  rcases m.node? p with _ | (_ | d) <;> rfl

theorem ensure_of_kind? (hk : ∀ p, m'.kind? p = m.kind? p) (l : List Path) :
    (ensure false l m').1 = (ensure false l m).1 := by
  induction l with
  | nil => rfl
  | cons p l ih => rw [ensure_false_run, ensure_false_run, hk, ih]

/-- What a listing shows of a directory. -/
theorem shown_list (p : Path) (m : Memory) : (list p m).1.map shown =
    match m.kind? p with
    | some .directory => .ok (shown (m.children p))
    | some _ => .error (.notADirectory p.display)
    | none => .error (.notFound p) := by
  unfold list
  rw [bind_run, show (get : StoreM Memory Memory) m = (.ok m, m) from rfl]
  unfold kind?
  dsimp only
  rcases m.node? p with _ | (_ | d) <;> rfl

theorem list_of_shape {s t : Host × Memory} (h : outline.shape t = outline.shape s) (p : Path) :
    (list p t.2).1.map shown = (list p s.2).1.map shown := by
  have hchildren : shown (t.2.children p) = shown (s.2.children p) := by
    rw [shown_children, shown_children]
    exact congrArg (fun k : Table Path EntryKind => k.rows.filterMap _) h
  rw [shown_list, shown_list, kind?_of_shape h, hchildren]

theorem outline_lawful : outline.Lawful where
  directory p := stays_of_eq fun m => (wp_directory_false p m).mono (fun _ _ h => h.1) fun _ _ h => h.1
  file p := stays_of_eq fun m => (wp_file_false p m).mono (fun _ _ h => h.1) fun _ _ h => h.1
  makeDirectory p := by
    refine makes_outline fun m hc => (hc.wp_directory_true p).mono ?_ fun _ _ h => h.1
    rintro _ _ ⟨rfl, -⟩
    exact hc.grown p
  makeFile p := by
    refine makes_outline fun m hc => (hc.wp_file_true p).mono ?_ fun _ _ h => h.1
    rintro _ _ (⟨rfl, -⟩ | ⟨dir, n, rfl, hnone, -, rfl⟩)
    · exact hc
    · exact (hc.grown dir).made (hc.node?_grown_self dir) (by rw [node?_grown_child, hnone])
  openHandle p := by
    refine stays_outline fun m => (wp_openHandle p m).mono ?_ (by rintro _ _ ⟨rfl, -⟩ _; rfl)
    rintro _ _ ⟨d, hd, -, -, rfl⟩ q
    exact kind?_put_file hd q
  remove p recursive := by
    refine (makes_outline fun m hc => (hc.wp_remove p recursive).mono ?_ fun _ _ h => h.1).asFit
    rintro _ _ ⟨hroot, -, -, -, rfl⟩
    exact hc.prune hroot
  move source target := by
    refine (makes_outline fun m hc => (hc.wp_move source target).mono ?_ fun _ _ h => h.1).asFit
    rintro _ _ ⟨hroot, -, hunder, hnone, ⟨dir, hdir, hnode⟩, -, rfl⟩
    exact hc.graft hroot hunder hnone hdir hnode
  list p := stays_of_eq fun m => (wp_list p m).mono (fun _ _ h => h.1) fun _ _ h => h.1
  entry p := stays_of_eq fun m => (wp_entry p m _).imp fun _ _ h => h.1
  writeAt p offset data := by
    refine stays_outline fun m => (wp_writeAt p offset data m).mono ?_ (by rintro _ _ ⟨rfl, -⟩ _; rfl)
    rintro _ _ ⟨d, hd, -, -, rfl, -⟩ q
    exact kind?_of_outline? (outline?_revised hd _ q)
  read h pos length := stays_of_eq fun m => (wp_read h pos length m _).imp fun _ _ h => h.1
  write h pos data :=
    stays_outline fun m => (wp_write h pos data m).mono (fun _ _ h => kind?_revised_of_handle h.2)
      (by rintro _ _ ⟨rfl, -⟩ _; rfl)
  truncate h length :=
    stays_outline fun m => (wp_truncate h length m).mono
      (fun _ _ h => kind?_revised_of_handle h)
      (by rintro _ _ ⟨rfl, -⟩ _; rfl)
  flush h := .pure
  size h := stays_of_eq fun m => (wp_size h m _).imp fun _ _ h => h.1
  close h := .modify fun s hs => ⟨hs.congr (kind?_release s.2 h), shape_outline (kind?_release s.2 h)⟩
  makeIn _ p s e t _ _ hrun := by
    have hmakes : outline.Makes (FileStore.directory p true) := by
      refine makes_outline fun m hc => (hc.wp_directory_true p).mono ?_ fun _ _ h => h.1
      rintro _ _ ⟨rfl, -⟩
      exact hc.grown p
    exact (hmakes.same s e t hrun).resolve_left id
  found p s t _ _ hshape := ensure_of_kind? (kind?_of_shape hshape) p.trail
  listed p s t _ _ hshape := list_of_shape hshape p

end Memory

/-! ### Stores that refuse some calls -/

namespace Faulty

variable {φ α : Type} {refusals : Call → Path → Option StorageError} {s : Host × Faulty φ} {call : Call} {p : Path}

/-- The plan that refuses the same calls whenever they are made. -/
def refusing (refusals : Call → Path → Option StorageError) : Nat → Call → Path → Option Failure :=
  fun _ call p => (refusals call p).map .refuse

/-- The store refuses the given calls, and no others. -/
structure Steady (refusals : Call → Path → Option StorageError) (s : Host × Faulty φ) : Prop where
  plan : s.2.plan = refusing refusals
  alive : s.2.crashed = false

/-- The store behind the plan. -/
def inside (s : Host × Faulty φ) : Host × φ := (s.1, s.2.inner)

/-- The same plan after one more call, in front of another store. -/
def around (s : Host × Faulty φ) (t : Host × φ) : Host × Faulty φ :=
  (t.1, { s.2 with inner := t.2, calls := s.2.calls + 1 })

theorem Steady.around (h : Steady refusals s) (t : Host × φ) : Steady refusals (Faulty.around s t) := ⟨h.plan, h.alive⟩

theorem planned_run (h : Steady refusals s) :
    planned call p s = (match refusals call p with
      | some e => .error e
      | none => .ok (), Faulty.around s (inside s)) := by
  have hset : (set (s.1, { s.2 with calls := s.2.calls + 1 }) : StoreM (Host × Faulty φ) PUnit) s =
      (.ok ⟨⟩, Faulty.around s (inside s)) := rfl
  unfold planned
  rw [bind_run, show (get : StoreM (Host × Faulty φ) _) s = (.ok s, s) from rfl]
  dsimp only
  rw [bind_run, hset]
  rw [h.plan]
  unfold refusing
  cases refusals call p <;> rfl

theorem direct_run (h : Steady refusals s) (x : StoreM (Host × φ) α) :
    direct call p x s = match refusals call p with
      | some e => (.error e, Faulty.around s (inside s))
      | none => ((x (inside s)).1, Faulty.around s (x (inside s)).2) := by
  unfold direct
  rw [bind_run, planned_run h]
  cases refusals call p <;> rfl

theorem served_run (h : Steady refusals s) (x : StoreM (Host × φ) α) :
    served call p x s = match refusals call p with
      | some e => (.error e, Faulty.around s (inside s))
      | none => ((x (inside s)).1, Faulty.around s (x (inside s)).2) := by
  have halive : served call p x s = direct call p x s := by
    unfold served
    rw [bind_run, show (get : StoreM (Host × Faulty φ) _) s = (.ok s, s) from rfl]
    simp only [h.alive]
    rfl
  rw [halive, direct_run h]

theorem close_run [FileStore φ] (h : Steady refusals s) (k : Handle (Faulty φ)) :
    close k s = match close k.2 (inside s) with
      | (.error e, t) => (.error e, (t.1, { s.2 with inner := t.2 }))
      | (.ok _, t) => (match refusals .close k.1 with
        | some e => .error e
        | none => .ok (), Faulty.around s t) := by
  show (pass (close k.2) >>= fun _ => planned .close k.1) s = _
  have hpass : pass (close k.2) s = ((close k.2 (inside s)).1,
      ((close k.2 (inside s)).2.1, { s.2 with inner := (close k.2 (inside s)).2.2 })) := rfl
  rw [bind_run, hpass]
  rcases close k.2 (inside s) with ⟨_ | _, t⟩
  · rfl
  · have hsteady : Steady refusals (t.1, { s.2 with inner := t.2 }) := ⟨h.plan, h.alive⟩
    exact planned_run hsteady

/-- The outline of the store behind the plan. -/
def outline (O : Outline φ) (refusals : Call → Path → Option StorageError) : Outline (Faulty φ) where
  Shape := O.Shape
  shape s := O.shape (inside s)
  Fit s := O.Fit (inside s) ∧ Steady refusals s
  Late := O.Late

variable {O : Outline φ} {x : StoreM (Host × φ) α}

theorem stays_served (hx : Stays O.Same x) : Stays (outline O refusals).Same (served call p x) := by
  refine stays_iff.2 fun s ⟨hfit, hsteady⟩ => ?_
  rw [served_run hsteady]
  cases refusals call p with
  | some e => exact ⟨⟨hfit, hsteady.around _⟩, rfl⟩
  | none =>
    obtain ⟨hfit', hshape⟩ := stays_iff.1 hx (inside s) hfit
    exact ⟨⟨hfit', hsteady.around _⟩, hshape⟩

theorem stays_direct (hx : Stays O.Same x) : Stays (outline O refusals).Same (direct call p x) := by
  refine stays_iff.2 fun s hs => ?_
  have hrun : direct call p x s = served call p x s := by rw [direct_run hs.2, served_run hs.2]
  rw [hrun]
  exact stays_iff.1 (stays_served hx) s hs

theorem asFit_served (hx : Stays O.AsFit x) : Stays (outline O refusals).AsFit (served call p x) := by
  refine stays_iff.2 fun s ⟨hfit, hsteady⟩ => ?_
  rw [served_run hsteady]
  cases refusals call p with
  | some e => exact ⟨hfit, hsteady.around _⟩
  | none => exact ⟨stays_iff.1 hx (inside s) hfit, hsteady.around _⟩

theorem makes_served (hx : O.Makes x) : (outline O refusals).Makes (served call p x) := by
  refine ⟨asFit_served hx.asFit, fun s e t hrun => ?_⟩
  by_cases hs : (outline O refusals).Fit s
  · rw [served_run hs.2] at hrun
    cases hcall : refusals call p with
    | some e =>
      rw [hcall] at hrun
      cases hrun
      exact Or.inr fun _ => ⟨⟨hs.1, hs.2.around _⟩, rfl⟩
    | none =>
      rw [hcall] at hrun
      rcases hr : x (inside s) with ⟨r, u⟩
      rw [hr] at hrun
      cases hrun
      refine (hx.same (inside s) e u hr).imp_right fun hsame _ => ?_
      exact ⟨⟨(hsame hs.1).1, hs.2.around u⟩, (hsame hs.1).2⟩
  · exact Or.inr fun h => absurd h hs

variable [FileStore φ]

theorem outline_lawful (hO : O.Lawful) : (outline O refusals).Lawful where
  directory p := stays_served (hO.directory p)
  file p := stays_served (hO.file p)
  makeDirectory p := makes_served (hO.makeDirectory p)
  makeFile p := makes_served (hO.makeFile p)
  openHandle p := stays_served (.bind (hO.openHandle p) fun _ => .pure)
  remove p recursive := asFit_served (hO.remove p recursive)
  move source target := asFit_served (hO.move source target)
  list p := stays_served (hO.list p)
  entry p := stays_served (hO.entry p)
  writeAt p offset data := stays_served (hO.writeAt p offset data)
  read h pos length := stays_direct (hO.read h.2 pos length)
  write h pos data := stays_direct (hO.write h.2 pos data)
  truncate h length := stays_direct (hO.truncate h.2 length)
  flush h := stays_direct (hO.flush h.2)
  size h := stays_direct (hO.size h.2)
  close h := by
    refine stays_iff.2 fun s ⟨hfit, hsteady⟩ => ?_
    have hclose := stays_iff.1 (hO.close h.2) (inside s) hfit
    rw [close_run hsteady]
    rcases hrun : close h.2 (inside s) with ⟨_ | _, t⟩
    · rw [hrun] at hclose
      exact ⟨⟨hclose.1, ⟨hsteady.plan, hsteady.alive⟩⟩, hclose.2⟩
    · rw [hrun] at hclose
      exact ⟨⟨hclose.1, hsteady.around t⟩, hclose.2⟩
  makeIn parent p s e t hp hok hrun := by
    intro hs
    have hok' : (served .directory parent (directory parent false) s).1 = .ok () := hok
    have hrun' : served .directory p (directory p true) s = (.error e, t) := hrun
    rw [served_run hs.2] at hok' hrun'
    cases hcall : refusals .directory p with
    | some e' =>
      rw [hcall] at hrun'
      cases hrun'
      exact ⟨⟨hs.1, hs.2.around _⟩, rfl⟩
    | none =>
      rw [hcall] at hrun'
      cases hparent : refusals .directory parent with
      | some e' =>
        rw [hparent] at hok'
        cases hok'
      | none =>
        rw [hparent] at hok'
        rcases hx : directory p true (inside s) with ⟨r, u⟩
        rw [hx] at hrun'
        cases hrun'
        obtain ⟨hfit, hshape⟩ := hO.makeIn parent p (inside s) e u hp hok' hx hs.1
        exact ⟨⟨hfit, hs.2.around u⟩, hshape⟩
  found p s t hs ht hshape := by
    show (served .directory p _ t).1 = (served .directory p _ s).1
    rw [served_run ht.2, served_run hs.2]
    cases refusals .directory p with
    | some e => rfl
    | none => exact hO.found p (inside s) (inside t) hs.1 ht.1 hshape
  listed p s t hs ht hshape := by
    show (served .list p _ t).1.map shown = (served .list p _ s).1.map shown
    rw [served_run ht.2, served_run hs.2]
    cases refusals .list p with
    | some e => rfl
    | none => exact hO.listed p (inside s) (inside t) hs.1 ht.1 hshape

end Faulty

end Storage

end Filespace
