import Filespace.Proofs.Likeness
import Filespace.Proofs.Simulation

/-!
# Namespaces on stores that act alike

Every operation gives the same in two namespaces whose stores correspond, and leaves them so. The two can remember
different listings, as long as they forget them together; then nothing is said of operations that list a directory
(`Operation.twin_run`), which need an argument of their own.
-/

namespace Filespace.Vfs

open Storage

variable {φ μ α β : Type} [FileStore φ] {S : Simulation φ} {L : Listings → Listings → Prop} {v v' : Vfs φ μ}
  {k : FileStore.Handle φ}

/-! ### Caches and paths -/

theorem twin_noteSize (hS : S.Lawful) (p : Path) (size : Nat) :
    Parallel (Twin (μ := μ) S L) Eq (noteSize p size) (noteSize p size) :=
  .modify fun v v' h => { h with sizes := by rw [h.sizes, h.now hS] }

theorem twin_clearListings (hL : ∀ l l', L l l' → L l.clear l'.clear) :
    Parallel (Twin (μ := μ) S L) Eq clearListings clearListings :=
  .modify fun _ _ h => { h with listings := hL _ _ h.listings }

theorem twin_submit (label : String) (w : Work) :
    Parallel (Twin (μ := μ) S L) Eq (submit label w) (submit label w) :=
  .modify fun _ _ h => { h with background := by rw [h.background] }

theorem twin_setLinks (l : Links) (jobs : List LinkJob) :
    Parallel (Twin (μ := μ) S L) Eq (setLinks l jobs) (setLinks l jobs) := by
  refine .bind_eq (.modify fun _ _ h => { h with links := rfl }) fun _ => ?_
  refine (Parallel.forM (List.forall₂_same.2 fun job _ => ?_)).mono fun _ _ _ => rfl
  exact (twin_submit job.label (.link job)).mono fun _ _ _ => trivial

theorem twin_requireFile (d : Descriptor) : Parallel (Twin (μ := μ) S L) Eq (requireFile d) (requireFile d) :=
  .ite (fun _ => .throw) fun _ => .pure rfl

theorem twin_requireWritable (d : Descriptor) :
    Parallel (Twin (μ := μ) S L) Eq (requireWritable d) (requireWritable d) :=
  .bind_eq (twin_requireFile d) fun _ => .ite (fun _ => .throw) fun _ => .pure rfl

/-! ### Handles -/

section Handles

variable (hS : S.Lawful)

include hS

theorem closeQuietly_rel (hk : S.Held k) {s t : Host × φ} (h : S.Rel s t) :
    S.Rel (Handles.closeQuietly k s) (Handles.closeQuietly (S.partner k) t) := by
  unfold Handles.closeQuietly
  obtain ⟨_, _, s', t', hx, hy, -, hst⟩ | ⟨_, s', t', hx, hy, hst⟩ := (hS.close k hk s t h).cases
  · rw [hx, hy]
    exact hst
  · rw [hx, hy]
    exact hst

theorem closeAll_rel {l : List (Path × FileStore.Handle φ)} (hl : ∀ x ∈ l, S.Held x.2) {s t : Host × φ} (h : S.Rel s t) :
    S.Rel (l.foldl (fun s x => Handles.closeQuietly x.2 s) s)
      ((l.map fun x => (x.1, S.partner x.2)).foldl (fun s x => Handles.closeQuietly x.2 s) t) := by
  induction l generalizing s t with
  | nil => exact h
  | cons x l ih =>
    have hx := closeQuietly_rel hS (hl x (List.mem_cons_self ..)) h
    exact ih (fun y hy => hl y (List.mem_cons_of_mem x hy)) hx

omit hS in
/-- Handles that correspond, as far as they are kept. -/
theorem Twin.filter_handles (h : Twin S L v v') (c : Path → Bool) :
    (v'.handles.filter fun q _ => c q) = (v.handles.filter fun q _ => c q).map fun _ => S.partner := by
  rw [h.handles, Table.map_filter]

omit hS in
theorem Twin.held_filter (h : Twin S L v v') {c : Path → Bool} {p : Path}
    (hk : (v.handles.filter fun q _ => c q).get? p = some k) : S.Held k := by
  rw [Table.get?_filter, Option.filter_eq_some_iff] at hk
  exact h.held p k hk.1

theorem twin_forget (p : Path) : Parallel (Twin (μ := μ) S L) Eq (forget p) (forget p) := by
  refine .modify fun v v' h => ?_
  have hclosed : S.Rel (v.handles.releaseUnder p v.behind).2.2 (v'.handles.releaseUnder p v'.behind).2.2 := by
    unfold Handles.releaseUnder
    rw [h.filter_handles fun q => q.under p]
    exact closeAll_rel hS (fun x hx => h.held_filter (Table.get?_eq_some_iff.2 hx)) h.behind
  exact { h with
    behind := hclosed
    handles := h.filter_handles fun q => !q.under p
    held := fun _ _ hk => h.held_filter hk
    sizes := by rw [h.sizes]
    detached := by rw [h.detached] }

theorem twin_release (d : Descriptor) : Parallel (Twin (μ := μ) S L) Eq (release d) (release d) := by
  intro v v' h
  have hrun : ∀ v : Vfs φ μ, release d v = (.ok (v.handles.release d.path v.behind).1,
      { v with handles := (v.handles.release d.path v.behind).2.1, world := { v.world with
        host := (v.handles.release d.path v.behind).2.2.1, files := (v.handles.release d.path v.behind).2.2.2 } }) :=
    fun _ => rfl
  refine (agree_of_ok (hrun v) (hrun v')).2 ?_
  unfold Handles.release
  obtain ⟨hcold, hcold'⟩ | ⟨k, hwarm, hwarm', hk⟩ := h.warm_cases d.path
  · rw [hcold, hcold']
    exact ⟨rfl, h⟩
  · rw [hwarm, hwarm']
    refine ⟨rfl, { h with behind := closeQuietly_rel hS hk h.behind, handles := ?_, held := ?_ }⟩
    · exact h.filter_handles fun q => q ≠ d.path
    · exact fun _ _ hk => h.held_filter hk

end Handles

/-! ### Looking -/

section Looking

variable [LinkMap μ] (hS : S.Lawful) (hμ : S.Apart μ)

include hS hμ

/-- A request that is made for its effect. -/
theorem twin_act {r : Request} (hr : r.Fair) (hcopy : ∀ source target, r ≠ .copy source target) :
    Parallel (Twin (μ := μ) S L) (fun _ _ => True) (call r) (call r) :=
  (twin_call hS hμ hr fun source target h => absurd h (hcopy source target)).mono fun _ _ _ => trivial

/-- A request whose reply has no handle in it. -/
theorem twin_ask {r : Request} (hr : r.Fair) (hcopy : ∀ source target, r ≠ .copy source target)
    {g : Reply (FileStore.Handle φ) → Except StorageError α} (hg : ∀ a, g (a.map S.partner) = g a)
    {k : α → VfsM φ μ β} {R : β → β → Prop} (hk : ∀ a, Parallel (Twin S L) R (k a) (k a)) :
    Parallel (Twin S L) R (call r >>= fun a => settle (g a) >>= k) (call r >>= fun a => settle (g a) >>= k) := by
  refine .bind (twin_call hS hμ hr fun source target h => absurd h (hcopy source target)) ?_
  rintro a _ ⟨rfl, -⟩
  rw [hg]
  exact .bind_eq (twin_settle _) hk

theorem twin_lookup (p : Path) : Parallel (Twin (μ := μ) S L) Eq (lookup p) (lookup p) := by
  refine .get_bind fun v v' h => ?_
  rw [h.links]
  cases v.links.get? p with
  | some target => exact .pure rfl
  | none =>
    refine .ite (fun _ => .pure rfl) fun hroot => ?_
    have hfair : (Request.entry p).Fair := Bool.eq_false_iff.2 hroot
    refine twin_ask hS hμ hfair nofun (Reply.toEntry_map S.partner) fun found => ?_
    rcases found with _ | (_ | _)
    · exact .pure rfl
    · exact .pure rfl
    · refine .get_bind fun w w' h => ?_
      obtain ⟨hcold, hcold'⟩ | ⟨k, hwarm, hwarm', hk⟩ := h.warm_cases p
      · rw [hcold, hcold']
        exact .pure rfl
      · rw [hwarm, hwarm']
        exact .bind_eq (twin_onFiles (hS.size k hk)) fun _ => .pure rfl

theorem twin_requireEntry (p : Path) : Parallel (Twin (μ := μ) S L) Eq (requireEntry p) (requireEntry p) := by
  refine .bind_eq (twin_lookup hS hμ p) fun found => ?_
  cases found with
  | some e => exact .pure rfl
  | none => exact .throw

/-! ### Reading and writing files -/

/-- The handle of a path corresponds to the one on the other side. -/
theorem twin_acquire (p : Path) :
    Parallel (Twin (μ := μ) S L) (fun a b => b = S.partner a ∧ S.Held a) (acquire p) (acquire p) := by
  refine .get_bind fun v v' h => ?_
  obtain ⟨hcold, hcold'⟩ | ⟨k, hwarm, hwarm', hk⟩ := h.warm_cases p
  · rw [hcold, hcold']
    refine .bind (twin_call hS hμ trivial nofun) ?_
    rintro a _ ⟨rfl, hheld⟩
    cases a with
    | handle k =>
      have hk : S.Held k := hheld k rfl
      refine .bind (R := fun a b => b = S.partner a ∧ S.Held a) (fun w w' h => ⟨⟨rfl, hk⟩, h⟩) ?_
      rintro a _ ⟨rfl, ha⟩
      refine .bind_eq (.modify fun w w' h => { h with handles := ?_, held := ?_ }) fun _ => .pure ⟨rfl, ha⟩
      · rw [Table.map_insert, h.handles]
      · intro q k' hk'
        rw [Table.get?_insert] at hk'
        split at hk'
        · cases hk'
          exact ha
        · exact h.held q k' hk'
    | _ => exact .throw_bind
  · rw [hwarm, hwarm']
    exact .pure ⟨rfl, hk⟩

/-- The same path is served by a handle on both sides, or by none. -/
theorem twin_handleFor (p : Path) :
    Parallel (Twin (μ := μ) S L) (fun a b => b = a.map S.partner ∧ ∀ k, a = some k → S.Held k) (handleFor p) (handleFor p) := by
  have hacquire : Parallel (Twin (μ := μ) S L) (fun a b => b = a.map S.partner ∧ ∀ k, a = some k → S.Held k)
      (do return some (← acquire p)) (do return some (← acquire p)) := by
    refine .bind (twin_acquire hS hμ p) ?_
    rintro k _ ⟨rfl, hk⟩
    refine .pure ⟨rfl, ?_⟩
    rintro _ ⟨⟩
    exact hk
  refine .get_bind fun v v' h => ?_
  rw [h.isWarm, h.detached, h.coldPath]
  refine .ite (fun _ => ?_) fun _ => hacquire
  have hcold : Parallel (Twin S L) (fun a b => b = a.map S.partner ∧ ∀ k, a = some k → S.Held k)
      (do
        if v.coldPath = .direct then return none
        return some (← acquire p)) (do
        if v.coldPath = .direct then return none
        return some (← acquire p)) :=
    .ite (fun _ => .pure ⟨rfl, nofun⟩) fun _ => hacquire
  exact .ite (fun _ => .bind_eq (twin_waitIdle hS hμ) fun _ => hcold) fun _ => hcold

/-- A file is used through its handle, or by a request. -/
theorem twin_onFile {p : Path} {f : FileStore.Handle φ → VfsM φ μ α} {x : VfsM φ μ α} {R : α → α → Prop}
    (hf : ∀ k, S.Held k → Parallel (Twin S L) R (f k) (f (S.partner k))) (hx : Parallel (Twin S L) R x x) :
    Parallel (Twin S L) R (do
      match ← handleFor p with
      | some h => f h
      | none => x) (do
      match ← handleFor p with
      | some h => f h
      | none => x) := by
  refine .bind (twin_handleFor hS hμ p) ?_
  rintro handle _ ⟨rfl, hheld⟩
  cases handle with
  | some k => exact hf k (hheld k rfl)
  | none => exact hx

theorem twin_read (d : Descriptor) (length offset : Nat) :
    Parallel (Twin (μ := μ) S L) Eq (read d length offset) (read d length offset) := by
  refine .bind_eq (twin_requireFile d) fun _ => .guard fun _ => ?_
  refine twin_onFile hS hμ (fun k hk => ?_) ?_
  · exact .bind_eq (twin_onFiles (hS.readExactAt hk length offset)) fun _ =>
      .bind_eq (twin_onFiles (hS.size k hk)) fun _ => .pure rfl
  · exact twin_ask (r := .readAt d.path offset length) hS hμ trivial nofun (Reply.toBytes_map S.partner) fun _ => .pure rfl

omit [LinkMap μ] hμ in
theorem twin_writeThrough (hk : S.Held k) (data : Bytes) (offset : Nat) :
    Parallel (Twin (μ := μ) S L) Eq (writeThrough k data offset) (writeThrough (S.partner k) data offset) :=
  .bind_eq (twin_onFiles (hS.writeAllAt hk data offset)) fun _ => twin_onFiles (hS.size k hk)

theorem twin_write (d : Descriptor) (data : Bytes) (offset : Nat) :
    Parallel (Twin (μ := μ) S L) Eq (write d data offset) (write d data offset) := by
  have hnote : ∀ size, Parallel (Twin (μ := μ) S L) Eq (do
      noteSize d.path size
      return data.length) (do
      noteSize d.path size
      return data.length) := fun size => .bind_eq (twin_noteSize hS d.path size) fun _ => .pure rfl
  refine .bind_eq (twin_requireWritable d) fun _ => twin_onFile hS hμ (fun k hk => ?_) ?_
  · exact .bind_eq (twin_writeThrough hS hk data offset) hnote
  · exact twin_ask (r := .writeAt d.path offset data) hS hμ trivial nofun (Reply.toSize_map S.partner) hnote

theorem twin_fileSize (p : Path) : Parallel (Twin (μ := μ) S L) Eq (fileSize p) (fileSize p) := by
  refine .get_bind fun v v' h => ?_
  obtain ⟨hcold, hcold'⟩ | ⟨k, hwarm, hwarm', hk⟩ := h.warm_cases p
  · rw [hcold, hcold']
    exact .bind_eq (twin_requireEntry hS hμ p) fun _ => .pure rfl
  · rw [hwarm, hwarm']
    exact twin_onFiles (hS.size k hk)

omit [LinkMap μ] hμ in
theorem twin_writeDetached (d : Descriptor) (data : Bytes) (offset : Nat) :
    Parallel (Twin (μ := μ) S L) Eq (writeDetached d data offset) (writeDetached d data offset) := by
  refine .bind_eq (twin_requireWritable d) fun _ => .get_bind fun v v' h => ?_
  obtain ⟨hcold, hcold'⟩ | ⟨k, hwarm, hwarm', hk⟩ := h.warm_cases d.path
  · rw [hcold, hcold']
    intro w w' h
    have hrun : ∀ v, (do
        let v ← get
        set { v with detached := (v.detached.enter d.path).2 }
        submit ("detached write " ++ d.path.display) (.write d.path (v.detached.enter d.path).1 offset data) :
          VfsM φ μ Unit) v =
        (.ok (), v.queued d.path offset data) := fun _ => rfl
    refine (agree_of_ok (hrun w) (hrun w')).2 ⟨rfl, { h with detached := ?_, background := ?_ }⟩
    · unfold queued
      simp only [h.detached]
    · unfold queued
      simp only [h.detached, h.background]
  · rw [hwarm, hwarm']
    exact .bind_eq (twin_writeThrough hS hk data offset) fun size => twin_noteSize hS d.path size

theorem twin_truncatePath (p : Path) (length : Nat) :
    Parallel (Twin (μ := μ) S L) Eq (truncatePath p length) (truncatePath p length) := by
  refine .bind_eq (.modify fun _ _ h => { h with detached := by rw [h.detached] }) fun _ => ?_
  refine twin_onFile hS hμ (fun k hk => ?_) ?_
  · exact .bind_eq (twin_onFiles (hS.truncate k length hk)) fun _ => twin_noteSize hS p length
  · exact .bind (twin_act hS hμ trivial nofun) fun _ _ _ => twin_noteSize hS p length

omit [LinkMap μ] hμ in
theorem twin_sync (d : Descriptor) : Parallel (Twin (μ := μ) S L) Eq (sync d) (sync d) := by
  refine .get_bind fun v v' h => ?_
  obtain ⟨hcold, hcold'⟩ | ⟨k, hwarm, hwarm', hk⟩ := h.warm_cases d.path
  · rw [hcold, hcold']
    exact .pure rfl
  · rw [hwarm, hwarm']
    exact twin_onFiles (hS.flush k hk)

end Looking

/-! ### Changing the namespace -/

section Changing

variable [LinkMap μ] (hS : S.Lawful) (hμ : S.Apart μ) (hL : ∀ l l', L l l' → L l.clear l'.clear)

include hS hμ hL

/-- Namespaces whose stores correspond are used alike. -/
theorem likeness_twin : Likeness id (fun _ => True) (Twin (μ := μ) S L) (Twin S L) where
  weaken _ _ h := h
  kind h := congrArg Entry.kind h
  links h := h.links
  resolver h := h.resolver
  knownSize h p := by rw [Vfs.knownSize?, h.sizes]; rfl
  now h n := by rw [h.now hS]
  clearListings := twin_clearListings hL
  noteSize := twin_noteSize hS
  setLinks := twin_setLinks
  enter p h := { h with resolver := by rw [h.resolver] }
  lookup p := (twin_lookup hS hμ p).mono fun _ _ h => h ▸ rfl
  fileSize := twin_fileSize hS hμ
  read d length offset := (twin_read hS hμ d length offset).leadsTo
  write d _ _ offset := (twin_write hS hμ d _ offset).leadsTo
  truncatePath p length := (twin_truncatePath hS hμ p length).leadsTo
  sync d := (twin_sync hS d).leadsTo
  makeDirectory {p r} hp := by
    refine Parallel.leadsTo (twin_act hS hμ ?_ nofun)
    cases r with
    | true => trivial
    | false => exact hp rfl
  makeFile p := (twin_act (r := .createFile p) hS hμ trivial nofun).leadsTo
  remove p r _ _ h := Parallel.leadsTo (.bind_eq (twin_forget hS p) fun _ => .bind_eq (twin_clearListings hL) fun _ =>
    .bind (twin_act hS hμ trivial nofun) fun _ _ _ => h)

omit hS hμ hL in
/-- A move that fails does so for a reason that the store gives. -/
theorem move_refused (hmove : ∀ source target s e t, FileStore.move (φ := φ) source target s = (.error e, t) →
      (Error.storage e).code ≠ .unsupported) {source target : Path} {e : Error} {w : Vfs φ μ}
    (h : call (.move source target) v = (.error e, w)) : e.code ≠ .unsupported := by
  have hrun : call (.move source target) v = onFiles (Request.execute (.move source target)) v.runDue := rfl
  rw [hrun] at h
  have hexecute : Request.execute (.move source target) v.runDue.behind =
      ((FileStore.move source target v.runDue.behind).1.map fun _ => .done,
        (FileStore.move source target v.runDue.behind).2) := by
    show (FileStore.move source target >>= fun _ => pure Reply.done) v.runDue.behind = _
    rw [bind_run]
    split
    · rename_i hx
      rw [hx]
      rfl
    · rename_i hx
      rw [hx]
      rfl
  unfold onFiles at h
  unfold Vfs.behind at hexecute
  simp only [hexecute] at h
  rcases hx : FileStore.move source target (v.runDue.world.host, v.runDue.world.files) with ⟨r, t⟩
  rw [hx] at h
  cases r with
  | ok a => cases h
  | error c =>
    cases h
    exact hmove source target _ c t hx

omit hS hμ hL in
theorem moveEntry_run (source target : Path) (v : Vfs φ μ) :
    moveEntry source target v = match call (.move source target) v with
      | (.ok _, w) => (.ok (), w)
      | (.error e, w) => if e.code = .unsupported then copyThenDelete source target w else (.error e, w) := by
  unfold moveEntry
  rw [bind_run, tryCatch_run, bind_run]
  rcases call (.move source target) v with ⟨e | a, w⟩
  · show (if e.code = .unsupported then copyThenDelete source target else throw e) w = _
    by_cases hcode : e.code = .unsupported
    · rw [if_pos hcode]
      exact (if_pos hcode).symm
    · rw [if_neg hcode]
      exact (if_neg hcode).symm
  · rfl

omit hL in
/-- Entries are moved by the store, or copied on both sides. -/
theorem twin_moveEntry {source target : Path} (hsource : source.isRoot = false) (htarget : target.isRoot = false) :
    Parallel (Twin (μ := μ) S L) Eq (moveEntry source target) (moveEntry source target) := by
  intro v v' h
  have hcall := twin_call (r := .move source target) hS hμ ⟨hsource, htarget⟩ nofun v v' h
  obtain ⟨a, b, w, w', hx, hy, -, hw⟩ | ⟨e, w, w', hx, hy, hw⟩ := hcall.cases
  · refine (agree_of_ok (a := ()) ?_ ?_).2 ⟨rfl, hw⟩
    · rw [moveEntry_run, hx]
    · rw [moveEntry_run, hy]
  · by_cases hcode : e.code = .unsupported
    · have hbound : ∀ s t, S.Rel s t → FileStore.bound t = FileStore.bound s :=
        hS.fallback.resolve_right fun hmove => move_refused hmove hx hcode
      have hcopy : Parallel (Twin (μ := μ) S L) Eq (copyThenDelete source target) (copyThenDelete source target) := by
        refine .bind (twin_call hS hμ ⟨hsource, htarget⟩ fun _ _ _ => hbound) fun _ _ _ => ?_
        exact .bind (twin_act hS hμ trivial nofun) fun _ _ _ => .pure rfl
      have hrun := hcopy w w' hw
      unfold Agree at hrun ⊢
      rw [moveEntry_run, moveEntry_run, hx, hy]
      simpa only [if_pos hcode] using hrun
    · refine (agree_of_error (e := e) ?_ ?_).2 hw
      · rw [moveEntry_run, hx]
        exact if_neg hcode
      · rw [moveEntry_run, hy]
        exact if_neg hcode

theorem twin_relocate {source target : Path} (hsource : source.isRoot = false) (htarget : target.isRoot = false)
    (entry : Entry) :
    Parallel (Twin (μ := μ) S L) Eq (relocate source target entry) (relocate source target entry) := by
  refine .bind_eq (twin_clearListings hL) fun _ => .ite (fun _ => ?_) fun _ => ?_
  · refine .get_bind fun v v' h => ?_
    rw [h.links]
    exact twin_setLinks _ _
  · refine .get_bind fun v v' h => ?_
    rw [h.sizes]
    refine .bind_eq (twin_forget hS source) fun _ => .bind_eq (twin_moveEntry hS hμ hsource htarget) fun _ => ?_
    refine .bind_eq (.modify fun _ _ h => { h with sizes := by rw [h.sizes] }) fun _ => .ite (fun _ => ?_) fun _ => .pure rfl
    refine .get_bind fun v v' h => ?_
    rw [h.links]
    exact twin_setLinks _ _

theorem twin_renameAt (base : Option Descriptor) (raw : String) (toBase : Option Descriptor) (toRaw : String) :
    Parallel (Twin (μ := μ) S L) Eq (renameAt base raw toBase toRaw) (renameAt base raw toBase toRaw) := by
  refine .bind ((likeness_twin hS hμ hL).renamePlan rfl rfl raw toRaw) ?_
  rintro _ _ (⟨rfl, rfl⟩ | ⟨source, target, e, _, rfl, rfl, rfl, hsource, htarget⟩)
  · exact .pure rfl
  · exact twin_relocate hS hμ hL hsource htarget _

end Changing

/-! ### Listing -/

section Listing

variable [LinkMap μ] (hS : S.Lawful) (hμ : S.Apart μ)

include hS hμ

/-- A directory that neither side remembers is listed alike, and then remembered by both as far as they do that. -/
theorem Twin.list_unknown {dir : Path} (hL : ∀ l l' entries, L l l' → L (l.insert dir entries) (l'.insert dir entries))
    (h : Twin S L v v') (hv : v.listings.get? dir = none) (hv' : v'.listings.get? dir = none) :
    Agree (list dir) (list dir) (fun a b w w' => a = b ∧ Twin S L w w') (Twin S L) v v' := by
  refine Agree.get_bind ?_
  rw [hv, hv']
  refine twin_ask (r := .list dir) hS hμ trivial nofun (Reply.toEntries_map S.partner) (fun children => ?_) v v' h
  refine .get_bind fun w w' h => ?_
  rw [h.links]
  exact .bind_eq (.modify fun _ _ h => { h with listings := hL _ _ _ h.listings }) fun _ => .pure rfl

/-- Directories are listed alike where the same is remembered. -/
theorem twin_list (dir : Path) : Parallel (Twin (μ := μ) S Eq) Eq (list dir) (list dir) := by
  intro v v' h
  cases hdir : v.listings.get? dir with
  | none =>
    have hdir' : v'.listings.get? dir = none := by rw [← h.listings, hdir]
    exact h.list_unknown hS hμ (fun _ _ _ hl => by rw [hl]) hdir hdir'
  | some l =>
    refine Agree.get_bind ?_
    rw [← h.listings, hdir]
    exact ⟨rfl, h⟩

end Listing

/-! ### Sessions -/

namespace Session

/-- Two sessions in namespaces that correspond, with the same descriptors. -/
structure Twin (S : Simulation φ) (L : Listings → Listings → Prop) (s s' : Session φ μ) : Prop where
  space : Vfs.Twin S L s.space s'.space
  descriptors : s'.descriptors = s.descriptors

theorem twin_iff {s s' : Session φ μ} : Twin S L s s' ↔ Like id (Vfs.Twin S L) s s' := by
  refine ⟨fun h => ⟨h.space, fun name => by rw [h.descriptors]⟩, fun h => ⟨h.space, Table.ext_get? fun name => ?_⟩⟩
  exact Option.map_injective (fun _ _ h => h) (h.descriptors name)

end Session

open Session

/-- An operation gives the same in two sessions that correspond, and leaves them so, if that is so of listing a
directory. -/
theorem Operation.twin_run [LinkMap μ] (hS : S.Lawful) (hμ : S.Apart μ) (hL : ∀ l l', L l l' → L l.clear l'.clear)
    {op : Operation} (hlist : op.Lists → ∀ dir, Parallel (Vfs.Twin (μ := μ) S L) Eq (list dir) (list dir)) :
    Parallel (Session.Twin (μ := μ) S L) Eq op.run op.run := by
  have hwarm : op.TellsWarmth → LeadsTo (Like id (Vfs.Twin (μ := μ) S L)) (Like id (Vfs.Twin S L))
      (fun a a' => a'.through id = a.through id) op.run op.run := by
    intro hop
    cases op with
    | writeDetached fd data offset =>
      refine leadsTo_onDescriptor (parallel_value fun _ => .unit) (fun _ _ h => h) ?_
      rintro d d' (rfl : d' = d)
      exact (twin_writeDetached hS d' data offset).leadsTo
    | release fd =>
      refine leadsTo_onDescriptor (parallel_value .bool) (fun _ _ h => h) ?_
      rintro d d' (rfl : d' = d)
      exact (twin_release hS d').leadsTo
    | isWarm p =>
      refine .look (parallel_path p) ?_
      rintro q _ rfl
      refine .get_bind fun s s' hs => .pure ?_
      rw [hs.space.isWarm]
    | _ => exact hop.elim
  have hvalue : ∀ a : Value, a.through id = a := fun a => by cases a <;> rfl
  have hrun := (likeness_twin hS hμ hL).run (fun _ _ => trivial) (fun h dir => (hlist h dir).leadsTo) ?_ hwarm
  · intro s s' hs
    refine (hrun (fun _ _ h => h) s s' (twin_iff.1 hs)).mono ?_ fun _ _ h => twin_iff.2 h
    rintro a a' u u' ⟨ha, hu⟩
    rw [hvalue, hvalue] at ha
    exact ⟨ha.symm, twin_iff.2 hu⟩
  · intro c c' d d' hc hd raw toRaw
    obtain rfl := Option.map_injective (fun _ _ h => h) hc
    obtain rfl := Option.map_injective (fun _ _ h => h) hd
    exact (twin_renameAt hS hμ hL c' raw d' toRaw).leadsTo

/-! ### Starting -/

section Starting

variable [LinkMap μ] {o o' : Options} {w w' : World φ μ}

/-- What starting two namespaces gives: both fail for one reason, or they correspond. What lies behind does so in
either case. -/
structure StartedAlike (S : Simulation φ) (L : Listings → Listings → Prop)
    (a b : Except StartError (Vfs φ μ) × World φ μ) : Prop where
  outcome : (∃ v v', a.1 = .ok v ∧ b.1 = .ok v' ∧ Twin S L v v') ∨ ∃ e, a.1 = .error e ∧ b.1 = .error e
  behind : S.Rel (a.2.host, a.2.files) (b.2.host, b.2.files)

theorem Twin.enter (hS : S.Lawful) (hμ : S.Apart μ) (h : Twin S L v v') (raw : String) :
    StartedAlike S L (enter raw v) (enter raw v') := by
  unfold Vfs.enter
  cases Path.parse raw with
  | error f => exact ⟨Or.inr ⟨_, rfl, rfl⟩, h.behind⟩
  | ok p =>
    dsimp only
    split
    · exact ⟨Or.inl ⟨v, v', rfl, rfl, h⟩, h.behind⟩
    · have hcall := twin_act (r := .createDirectory p true) hS hμ trivial nofun v v' h
      obtain ⟨_, _, u, u', hx, hy, -, hu⟩ | ⟨e, u, u', hx, hy, hu⟩ := hcall.cases
      · rw [hx, hy]
        exact ⟨Or.inl ⟨_, _, rfl, rfl, { hu with resolver := by rw [hu.resolver] }⟩, hu.behind⟩
      · rw [hx, hy]
        exact ⟨Or.inr ⟨_, rfl, rfl⟩, hu.behind⟩

/-- Namespaces that are started with options that differ only in what is remembered correspond. -/
theorem StartedAlike.start (hS : S.Lawful) (hμ : S.Apart μ) (hw : S.Rel (w.host, w.files) (w'.host, w'.files))
    (hmap : w'.map = w.map) (c c' : Bool) (hL : L ⟨c, ∅⟩ ⟨c', ∅⟩) (o : Options) :
    StartedAlike S L (start { o with cacheListings := c } w) (start { o with cacheListings := c' } w') := by
  obtain ⟨hload, hafter, hrel⟩ := hμ.load _ _ w.map _ _ hw
  unfold Vfs.start
  rw [hmap]
  rcases hx : LinkMap.load (w.host, w.map) with ⟨r, s⟩
  rcases hy : LinkMap.load (w'.host, w.map) with ⟨r', s'⟩
  rw [hx, hy] at hload hafter hrel
  obtain rfl : r' = r := hload
  cases r' with
  | error e => exact ⟨Or.inr ⟨_, rfl, rfl⟩, hrel⟩
  | ok records =>
    refine Twin.enter hS hμ ?_ o.workingDirectory
    exact {
      behind := hrel
      map := hafter
      links := rfl
      handles := rfl
      held := fun p k hk => nomatch hk
      resolver := rfl
      listings := hL
      sizes := rfl
      detached := rfl
      coldPath := rfl
      background := rfl
      pace := rfl }

end Starting

end Filespace.Vfs
