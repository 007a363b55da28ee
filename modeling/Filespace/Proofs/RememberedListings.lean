import Filespace.Proofs.Traversals

/-!
# Remembered listings are up to date

A namespace that remembers listings must forget them before they get old. `Coherent v` says that every listing that `v`
remembers is the one that would be read now.

The operations of a namespace fall in two kinds. Most of them keep the outline of the store and the links, and leave
the remembered listings alone (`Looked`). The others forget all listings; some do so before they change anything, some
when they are done, and these must not change anything if they fail (`UpToDate`). Only a failure that the store reports
too late can leave an old listing behind.
-/

namespace Filespace

open Storage

/-- The link records are kept where listings do not show them. -/
structure Storage.Outline.Hides {φ : Type} (O : Outline φ) (μ : Type) [LinkMap μ] : Prop where
  load : ∀ (h : Host) (m : μ) (f : φ), O.Same (h, f) ((LinkMap.load (h, m)).2.1, f)
  job : ∀ (job : LinkJob) (h : Host) (m : μ) (f : φ), O.Same (h, f) ((job.run (h, m)).2.1, f)

namespace Vfs

variable {φ μ α β : Type} [FileStore φ]

/-- Nothing that a listing shows has changed, and the listings are as they were. -/
def Looked (O : Outline φ) (v w : Vfs φ μ) : Prop :=
  O.Fit v.behind → O.Fit w.behind ∧ O.shape w.behind = O.shape v.behind ∧ w.links = v.links ∧ w.listings = v.listings

/-- The listings are as they were, or they were forgotten. -/
def NoneNew (O : Outline φ) (v w : Vfs φ μ) : Prop :=
  O.Fit v.behind → O.Fit w.behind ∧ (w.listings = v.listings ∨ w.listings.known = ∅)

/-- What was remembered is still right, or it was forgotten. -/
def UpToDate (O : Outline φ) (v w : Vfs φ μ) : Prop :=
  O.Fit v.behind → O.Fit w.behind ∧
    ((O.shape w.behind = O.shape v.behind ∧ w.links = v.links ∧ w.listings = v.listings) ∨ w.listings.known = ∅)

variable {O : Outline φ} {u v w : Vfs φ μ}

instance : IsPreorder (Vfs φ μ) (Looked O) where
  refl _ h := ⟨h, rfl, rfl, rfl⟩
  trans _ _ _ huv hvw hu := by
    obtain ⟨hv, hshape, hlinks, hlistings⟩ := huv hu
    obtain ⟨hw, hshape', hlinks', hlistings'⟩ := hvw hv
    exact ⟨hw, hshape'.trans hshape, hlinks'.trans hlinks, hlistings'.trans hlistings⟩

instance : IsPreorder (Vfs φ μ) (NoneNew O) where
  refl _ h := ⟨h, Or.inl rfl⟩
  trans _ _ _ huv hvw hu := by
    obtain ⟨hv, hnone⟩ := huv hu
    obtain ⟨hw, hlistings | hforgot⟩ := hvw hv
    · exact ⟨hw, hlistings ▸ hnone⟩
    · exact ⟨hw, Or.inr hforgot⟩

theorem Looked.noneNew (h : Looked O v w) : NoneNew O v w := fun hv => ⟨(h hv).1, Or.inl (h hv).2.2.2⟩

theorem Looked.upToDate (h : Looked O v w) : UpToDate O v w := fun hv => ⟨(h hv).1, Or.inl (h hv).2⟩

instance : IsPreorder (Vfs φ μ) (UpToDate O) where
  refl v := Looked.upToDate (refl_of (Looked O) v)
  trans _ _ _ huv hvw hu := by
    obtain ⟨hv, hkept⟩ := huv hu
    obtain ⟨hw, hkept'⟩ := hvw hv
    refine ⟨hw, ?_⟩
    obtain ⟨hshape', hlinks', hlistings'⟩ | hforgot := hkept'
    · obtain ⟨hshape, hlinks, hlistings⟩ | hforgot := hkept
      · exact Or.inl ⟨hshape'.trans hshape, hlinks'.trans hlinks, hlistings'.trans hlistings⟩
      · exact Or.inr (by rw [hlistings', hforgot])
    · exact Or.inr hforgot

/-- Changes of caches other than the listings show nowhere. -/
theorem Looked.of_eq (hbehind : w.behind = v.behind) (hlinks : w.links = v.links) (hlistings : w.listings = v.listings) :
    Looked O v w := fun hv => ⟨hbehind ▸ hv, by rw [hbehind], hlinks, hlistings⟩

end Vfs

section Stays

variable {φ μ α : Type} [FileStore φ] {O : Outline φ} {x : VfsM φ μ α}

theorem Stays.upToDate (h : Stays (Vfs.Looked O) x) : Stays (Vfs.UpToDate O) x := h.mono fun _ _ => Vfs.Looked.upToDate

/-- Whatever follows, no listing is remembered. -/
theorem Stays.forgotten {f : Unit → VfsM φ μ α} (h : Stays (Vfs.NoneNew O) (f ())) :
    Stays (Vfs.UpToDate O) (Vfs.clearListings >>= f) := by
  refine stays_iff.2 fun v hv => ?_
  obtain ⟨hfit, hlistings | hforgot⟩ := stays_iff.1 h { v with listings := v.listings.clear } hv
  · refine ⟨hfit, Or.inr ?_⟩
    show (f () { v with listings := v.listings.clear }).2.listings.known = ∅
    rw [hlistings]
    rfl
  · exact ⟨hfit, Or.inr hforgot⟩

/-- Whatever came before, no listing is remembered in the end, unless it failed. -/
theorem wp_cleared (h : Stays (Vfs.NoneNew O) x) {E : Error → Vfs φ μ → Prop} {v : Vfs φ μ}
    (hE : ∀ e w, x v = (.error e, w) → E e w) :
    wp (x >>= fun _ => Vfs.clearListings) (fun _ w => Vfs.UpToDate O v w) E v := by
  refine wp_bind.2 (wp_iff.2 ⟨fun a w hx => ?_, hE⟩)
  exact fun hv => ⟨((h v).ok hx hv).1, Or.inr rfl⟩

end Stays

namespace Vfs

variable {φ μ α β : Type} [FileStore φ] {O : Outline φ} {u v w : Vfs φ μ} {dir : Path}

/-! ### Calls of the store -/

theorem stays_onFiles {x : StoreM (Host × φ) α} (hx : Stays O.Same x) : Stays (Looked (μ := μ) O) (onFiles x) :=
  stays_iff.2 fun v hv => ⟨(stays_iff.1 hx v.behind hv).1, (stays_iff.1 hx v.behind hv).2, rfl, rfl⟩

theorem noneNew_onFiles {x : StoreM (Host × φ) α} (hx : Stays O.AsFit x) : Stays (NoneNew (μ := μ) O) (onFiles x) :=
  stays_iff.2 fun v hv => ⟨stays_iff.1 hx v.behind hv, Or.inl rfl⟩

section Calls

variable [LinkMap μ] (hO : O.Lawful) (hμ : O.Hides μ)

include hO hμ

/-- A job changes no more than the content of a file. -/
theorem looked_finished (v : Vfs φ μ) (j : Job Work) (rest : List (Job Work)) : Looked O v (v.finished j rest) := by
  intro hv
  have hjob : O.Same v.behind (v.finished j rest).behind := by
    unfold finished behind
    cases hj : j.work with
    | link job => exact hμ.job job _ _ _
    | write p generation offset data =>
      unfold perform
      simp only
      split
      · exact stays_iff.1 (.bind (hO.file p) fun _ => .bind (hO.writeAt p offset data) fun _ => .pure) v.behind
      · exact refl_of O.Same v.behind
  exact ⟨(hjob hv).1, (hjob hv).2, rfl, rfl⟩

theorem looked_runJobs (n : Nat) (v : Vfs φ μ) : Looked O v (v.runJobs n) :=
  related_runJobs (fun v j rest _ => looked_finished hO hμ v j rest) n v

theorem looked_runDue (v : Vfs φ μ) : Looked O v v.runDue :=
  related_runDue (fun v j rest _ => looked_finished hO hμ v j rest) (fun _ _ => .of_eq rfl rfl rfl) v

theorem stays_waitIdle : Stays (Looked O) (waitIdle : VfsM φ μ Unit) := .modify fun v => looked_runJobs hO hμ _ v

theorem stays_call {r : Request} (hr : r.Looks) : Stays (Looked O) (call r : VfsM φ μ _) :=
  .bind (.modify fun v => looked_runDue hO hμ v) fun _ => stays_onFiles (hO.looks hr)

theorem noneNew_call (r : Request) : Stays (NoneNew O) (call r : VfsM φ μ _) :=
  .bind (.modify fun v => (looked_runDue hO hμ v).noneNew) fun _ => noneNew_onFiles (hO.execute r)

end Calls

/-! ### Operations that look, or use the content of files -/

section Looking

variable (hO : O.Lawful)

include hO

/-- Closing handles shows nowhere. -/
theorem same_closeQuietly (h : FileStore.Handle φ) (s : Host × φ) : O.Same s (Handles.closeQuietly h s) :=
  stays_iff.1 (hO.close h) s

theorem same_closeAll (l : List (Path × FileStore.Handle φ)) (s : Host × φ) :
    O.Same s (l.foldl (fun s x => Handles.closeQuietly x.2 s) s) := by
  induction l generalizing s with
  | nil => exact refl_of O.Same s
  | cons x l ih => exact trans_of O.Same (same_closeQuietly hO x.2 s) (ih _)

theorem stays_release (d : Descriptor) : Stays (Looked O) (release d : VfsM φ μ Bool) := by
  refine stays_iff.2 fun v hv => ?_
  show O.Fit (v.handles.release d.path v.behind).2.2 ∧
    O.shape (v.handles.release d.path v.behind).2.2 = O.shape v.behind ∧ _
  unfold Handles.release
  cases v.handles.get? d.path with
  | none => exact ⟨hv, rfl, rfl, rfl⟩
  | some h => exact ⟨(same_closeQuietly hO h _ hv).1, (same_closeQuietly hO h _ hv).2, rfl, rfl⟩

theorem stays_forget (p : Path) : Stays (Looked O) (forget p : VfsM φ μ Unit) :=
  .modify fun v hv => ⟨(same_closeAll hO _ v.behind hv).1, (same_closeAll hO _ v.behind hv).2, rfl, rfl⟩

/-- Looking for entries and using files is no more than a look at the outline. -/
theorem bears_looked [LinkMap μ] (hμ : O.Hides μ) : Bears (Looked (μ := μ) O) where
  waitIdle := stays_waitIdle hO hμ
  look := stays_call hO hμ
  readExactAt h length offset := stays_onFiles (hO.readExactAt h length offset)
  writeAllAt h data offset := stays_onFiles (hO.writeAllAt h data offset)
  size h := stays_onFiles (hO.size h)
  truncate h length := stays_onFiles (hO.truncate h length)
  flush h := stays_onFiles (hO.flush h)
  note _ _ _ := .of_eq rfl rfl rfl
  stale _ _ := .of_eq rfl rfl rfl

end Looking

/-! ### Operations that change the namespace -/

section Changing

variable [LinkMap μ] (hO : O.Lawful) (hμ : O.Hides μ)

/-- The failures after which an old listing can be left. -/
def Late (O : Outline φ) (e : Error) : Prop := ∃ c, e = .storage c ∧ O.Late c

omit [LinkMap μ] in
theorem noneNew_clearListings : Stays (NoneNew O) (clearListings : VfsM φ μ Unit) := .modify fun _ hv => ⟨hv, Or.inr rfl⟩

omit [LinkMap μ] in
theorem noneNew_setLinks (l : Links) (jobs : List LinkJob) : Stays (NoneNew O) (setLinks l jobs : VfsM φ μ Unit) := by
  exact .bind (.modify fun v hv => ⟨hv, Or.inl rfl⟩) fun _ => .forM jobs fun job _ => .modify fun v hv => ⟨hv, Or.inl rfl⟩

include hO hμ

variable (base : Option Descriptor) (raw : String)

theorem stays_removeDirectoryAt : Stays (UpToDate O) (removeDirectoryAt base raw : VfsM φ μ Unit) := by
  refine .bind (stays_resolve base raw false).upToDate fun p => .guard (.bind ((bears_looked hO hμ).lookup p).upToDate fun found => ?_)
  split
  · exact .throw_bind
  · exact .bind (stays_forget hO p).upToDate fun _ => .forgotten
      (.bind (noneNew_call hO hμ _) fun _ => .get_bind fun _ => noneNew_setLinks _ _)
  · exact .throw_bind

theorem stays_unlinkAt : Stays (UpToDate O) (unlinkAt base raw : VfsM φ μ Unit) := by
  refine .bind (stays_resolve base raw false).upToDate fun p => .bind ((bears_looked hO hμ).lookup p).upToDate fun found => ?_
  split
  · exact .throw_bind
  · exact .throw_bind
  · refine .get_bind fun v w => wp_cleared (noneNew_setLinks _ _) fun e u hrun => ?_
    rw [setLinks_run] at hrun
    cases hrun
  · exact .bind (stays_forget hO p).upToDate fun _ => .forgotten
      (.bind (noneNew_call hO hμ _) fun _ => noneNew_clearListings)

theorem noneNew_moveEntry (source target : Path) : Stays (NoneNew O) (moveEntry source target : VfsM φ μ Unit) := by
  have hmove : Stays (NoneNew O) (tryCatch (do
      let _ ← call (.move source target)
      return .ok ()) (fun e => return .error e) : VfsM φ μ (Except Error Unit)) :=
    .tryCatch (.bind (noneNew_call hO hμ _) fun _ => .pure) fun _ => .pure
  refine .bind hmove fun outcome => ?_
  split
  · exact .pure
  · exact .ite (fun _ => .bind (noneNew_call hO hμ _) fun _ => .bind (noneNew_call hO hμ _) fun _ => .pure) fun _ => .throw

theorem stays_relocate (source target : Path) (entry : Entry) :
    Stays (UpToDate O) (relocate source target entry : VfsM φ μ Unit) := by
  refine .forgotten (.ite (fun _ => .get_bind fun _ => noneNew_setLinks _ _) fun _ => .get_bind fun v => ?_)
  refine .bind ((stays_forget hO source).mono fun _ _ => Looked.noneNew) fun _ => .bind (noneNew_moveEntry hO hμ source target) fun _ => ?_
  refine .bind (.modify fun v hv => ⟨hv, Or.inl rfl⟩) fun _ => .ite (fun _ => ?_) fun _ => .pure
  exact .get_bind fun _ => noneNew_setLinks _ _

theorem stays_renameAt (toBase : Option Descriptor) (toRaw : String) :
    Stays (UpToDate O) (renameAt base raw toBase toRaw : VfsM φ μ Unit) := by
  refine .bind ((bears_looked hO hμ).renamePlan base raw toBase toRaw).upToDate fun plan => ?_
  split
  · exact .pure
  · exact stays_relocate hO hμ _ _ _

theorem stays_symlinkAt (target raw : String) : Stays (UpToDate O) (symlinkAt base target raw : VfsM φ μ Unit) := by
  refine .guard (.bind (stays_resolve base raw false).upToDate fun p => .bind ((bears_looked hO hμ).requireFree p).upToDate fun _ => ?_)
  refine .get_bind fun v w => wp_cleared (noneNew_setLinks _ _) fun e u hrun => ?_
  cases hrun

/-- A request that fails has changed nothing, unless the failure is one of the given. -/
theorem looked_of_failed_call {r : Request} {P : StorageError → Prop} {e : Error}
    (hr : ∀ s, wp (r.execute) (fun _ _ => True) (fun e t => P e ∨ O.Same s t) s)
    (hrun : call r v = (.error e, w)) : (∃ c, e = .storage c ∧ P c) ∨ Looked O v w := by
  have hcall : call r v = onFiles r.execute v.runDue := rfl
  rw [hcall] at hrun
  unfold onFiles at hrun
  rcases hx : r.execute (v.runDue.world.host, v.runDue.world.files) with ⟨_ | _, t⟩
  · rw [hx] at hrun
    cases hrun
    refine ((hr _).error hx).imp (fun hP => ⟨_, rfl, hP⟩) fun hsame => ?_
    refine trans_of (Looked O) (looked_runDue hO hμ v) ?_
    exact fun hv => ⟨(hsame hv).1, (hsame hv).2, rfl, rfl⟩
  · rw [hx] at hrun
    cases hrun

theorem stays_createDirectoryAt : Stays (UpToDate O) (createDirectoryAt base raw : VfsM φ μ Unit) := by
  refine .bind (stays_resolve base raw false).upToDate fun p => ?_
  obtain rfl | ⟨parent, n, rfl⟩ := p.eq_root_or_child
  · exact .throw_bind
  · refine .bind ((bears_looked hO hμ).requireFree _).upToDate fun _ v => wp_cleared (noneNew_call hO hμ _) fun e w hrun => ?_
    have hfailed := looked_of_failed_call (P := fun _ => False) hO hμ
      (fun s => (hO.createDirectory_false (Path.parent?_child parent n) s).mono (fun _ _ h => h) fun _ _ h => Or.inr h) hrun
    exact (hfailed.resolve_left fun ⟨_, _, h⟩ => h).upToDate

/-- What is made to be opened is shown, unless making it fails too late. -/
theorem wp_openNew (p : Path) (flags : Flags) (v : Vfs φ μ) : wp (openNew p flags) (fun _ w => UpToDate O v w)
      (fun e w => UpToDate O v w ∨ flags.create = true ∧ Late O e) v := by
  have hmade : ∀ {r : Request}, O.Makes (r.execute) → ∀ e w, call r v = (.error e, w) →
      UpToDate O v w ∨ Late O e := by
    intro r hr e w hrun
    have hfailed := looked_of_failed_call hO hμ
      (fun s => wp_iff.2 ⟨fun _ _ _ => trivial, fun e t h => hr.same s e t h⟩) hrun
    exact hfailed.symm.imp_left Looked.upToDate
  have hforgot : ∀ {r : Request} {a : Reply (FileStore.Handle φ)} {w u : Vfs φ μ}, call r v = (.ok a, w) →
      u.behind = w.behind → u.listings.known = ∅ → UpToDate O v u := by
    intro r a w u hrun hbehind hknown hv
    have hfit := ((noneNew_call hO hμ r v).ok hrun hv).1
    exact ⟨hbehind ▸ hfit, Or.inr hknown⟩
  refine wp_ite.2 ⟨fun _ => Or.inl (refl_of (UpToDate O) v), fun hcreate => ?_⟩
  have hcreate : flags.create = true := by simpa using hcreate
  refine wp_ite.2 ⟨fun _ => ?_, fun _ => ?_⟩
  · refine wp_bind.2 (wp_iff.2 ⟨fun _ w hrun => hforgot hrun rfl rfl, fun e w hrun => ?_⟩)
    exact (hmade (hO.createDirectory p true) e w hrun).imp_right fun h => ⟨hcreate, h⟩
  · refine wp_bind.2 (wp_iff.2 ⟨fun _ w hrun => hforgot hrun rfl rfl, fun e w hrun => ?_⟩)
    exact (hmade (hO.createFile p) e w hrun).imp_right fun h => ⟨hcreate, h⟩

theorem wp_openAt (flags : Flags) (v : Vfs φ μ) : wp (openAt base raw flags) (fun _ w => UpToDate O v w)
      (fun e w => UpToDate O v w ∨ flags.create = true ∧ Late O e) v := by
  refine wp_bind.2 ((stays_resolve (R := Looked O) base raw flags.follow v).mono (fun p w hresolve => ?_) fun _ _ h => Or.inl h.upToDate)
  refine wp_bind.2 (((bears_looked hO hμ).lookup p w).mono (fun found u hlookup => ?_) fun _ _ h => ?_)
  · have hlooked : UpToDate O v u := (trans_of (Looked O) hresolve hlookup).upToDate
    split
    · exact Or.inl hlooked
    · refine wp_bind.2 (((bears_looked hO hμ).openExisting p flags _ u).mono (fun _ _ h => ?_) fun _ _ h => ?_)
      · exact trans_of (UpToDate O) hlooked h.upToDate
      · exact Or.inl (trans_of (UpToDate O) hlooked h.upToDate)
    · refine wp_bind.2 ((wp_openNew hO hμ p flags u).mono (fun _ _ h => ?_) fun _ _ h => ?_)
      · exact trans_of (UpToDate O) hlooked h
      · exact h.imp_left fun h => trans_of (UpToDate O) hlooked h
  · exact Or.inl (trans_of (Looked O) hresolve h).upToDate

end Changing

/-! ### Listings -/

/-- What a listing shows decides its rows. -/
theorem mergeListing_of_shown {l l' : List (Name × Stat)} (h : shown l' = shown l) (links : List (Name × String)) :
    mergeListing l' links = mergeListing l links :=
  mergeListing_congr h links

section Listing

variable [LinkMap μ]

/-- Every remembered listing is the one that would be read now. -/
def Coherent (v : Vfs φ μ) : Prop :=
  ∀ dir l, v.listings.get? dir = some l → (list dir { v with listings := v.listings.clear }).1 = .ok l

/-- Nothing is remembered that is not so. -/
theorem coherent_of_known (h : v.listings.known = ∅) : v.Coherent := by
  intro dir l hl
  unfold Listings.get? at hl
  rw [h] at hl
  cases hl

theorem list_known {l : List DirEntry} (h : v.listings.get? dir = some l) : list dir v = (.ok l, v) := by
  unfold list
  rw [bind_run, show (get : VfsM φ μ _) v = (.ok v, v) from rfl]
  simp only [h]
  rfl

/-- A directory that is not remembered is asked for. -/
theorem list_unknown (h : v.listings.get? dir = none) : list dir v = match call (.list dir) v with
      | (.error e, w) => (.error e, w)
      | (.ok reply, w) => match reply.toEntries with
        | .error e => (.error (.storage e), w)
        | .ok children => (.ok (mergeListing children (w.links.children dir)),
            { w with listings := w.listings.insert dir (mergeListing children (w.links.children dir)) }) := by
  unfold list
  rw [bind_run, show (get : VfsM φ μ _) v = (.ok v, v) from rfl]
  simp only [h]
  rw [bind_run]
  rcases call (.list dir) v with ⟨_ | reply, w⟩
  · rfl
  · simp only
    cases reply.toEntries <;> rfl

variable (hO : O.Lawful) (hμ : O.Hides μ)

include hO hμ

/-- Directories are listed alike where the outlines and the links are the same. -/
theorem list_congr (hv : O.Fit v.behind) (hw : O.Fit w.behind) (hshape : O.shape w.behind = O.shape v.behind)
    (hlinks : w.links = v.links) (hnone : v.listings.get? dir = none) (hnone' : w.listings.get? dir = none) :
    (list dir w).1 = (list dir v).1 := by
  rw [list_unknown hnone, list_unknown hnone']
  obtain ⟨hfit, hdue, hkept, -⟩ := looked_runDue hO hμ v hv
  obtain ⟨hfit', hdue', hkept', -⟩ := looked_runDue hO hμ w hw
  have hcall : ∀ v : Vfs φ μ, call (.list dir) v = onFiles (Request.list dir).execute v.runDue := fun _ => rfl
  rw [hcall, hcall]
  unfold onFiles
  obtain ⟨a, b, s, t, hx, hy, l, l', rfl, rfl, hshown⟩ | ⟨e, s, t, hx, hy, -⟩ :=
    (hO.listing dir hfit hfit' (hdue'.trans (hshape.trans hdue.symm))).cases
  · unfold behind at hx hy
    rw [hx, hy]
    show Except.ok (mergeListing l' (w.runDue.links.children dir)) = .ok (mergeListing l (v.runDue.links.children dir))
    rw [mergeListing_of_shown hshown, hkept, hkept', hlinks]
  · unfold behind at hx hy
    rw [hx, hy]
    rfl

/-- The namespace is fit, and what it remembers is right. -/
structure Fresh (O : Outline φ) (v : Vfs φ μ) : Prop where
  fit : O.Fit v.behind
  coherent : v.Coherent

theorem Fresh.upToDate (h : Fresh O v) (hw : UpToDate O v w) : Fresh O w := by
  obtain ⟨hfit, ⟨hshape, hlinks, hlistings⟩ | hforgot⟩ := hw h.fit
  · refine ⟨hfit, fun dir l hl => ?_⟩
    rw [hlistings] at hl
    rw [← h.coherent dir l hl]
    exact list_congr hO hμ h.fit hfit hshape hlinks rfl rfl
  · exact ⟨hfit, coherent_of_known hforgot⟩

/-- What is remembered is right, if it was before. -/
def AsFresh (O : Outline φ) (v w : Vfs φ μ) : Prop := Fresh O v → Fresh O w

omit hO hμ in
instance : IsPreorder (Vfs φ μ) (AsFresh O) where
  refl _ h := h
  trans _ _ _ huv hvw hu := hvw (huv hu)

/-- A listing that was just read can be remembered. -/
theorem Fresh.list (h : Fresh O v) (dir : Path) : Fresh O (Vfs.list dir v).2 := by
  cases hdir : v.listings.get? dir with
  | some l =>
    rw [list_known hdir]
    exact h
  | none =>
    have hcall := stays_iff.1 (stays_call hO hμ (r := .list dir) trivial) v
    have hrun := list_unknown hdir
    rcases hc : call (.list dir) v with ⟨_ | reply, w⟩
    · rw [hc] at hrun hcall
      rw [hrun]
      exact h.upToDate hO hμ (Looked.upToDate hcall)
    · rw [hc] at hrun hcall
      have hw : Fresh O w := h.upToDate hO hμ (Looked.upToDate hcall)
      cases hreply : reply.toEntries with
      | error e =>
        simp only [hreply] at hrun
        rw [hrun]
        exact hw
      | ok children =>
        simp only [hreply] at hrun
        have hresult := congrArg Prod.fst hrun
        rw [hrun]
        refine ⟨hw.fit, fun dir' l hl => ?_⟩
        rw [Listings.get?_insert] at hl
        split at hl
        · rename_i hnew
          obtain ⟨-, rfl⟩ := hnew
          cases hl
          refine Eq.trans ?_ hresult
          exact list_congr hO hμ h.fit hw.fit (hcall h.fit).2.1 (hcall h.fit).2.2.1 hdir rfl
        · rw [← hw.coherent dir' l hl]
          exact list_congr hO hμ hw.fit hw.fit rfl rfl rfl rfl

end Listing

/-! ### Sessions -/

section Sessions

variable [LinkMap μ]

namespace Session

/-- What is remembered in a session is right, if it was before. -/
def AsFresh (O : Outline φ) (s t : Session φ μ) : Prop := Vfs.AsFresh O s.space t.space

instance : IsPreorder (Session φ μ) (AsFresh O) := inferInstanceAs (IsPreorder (Session φ μ) (Across (Vfs.AsFresh O)))

end Session

open Session

omit [LinkMap μ] in
/-- The operation opens an entry and makes it if there is none. -/
def Operation.Creates : Operation → Prop
  | openAt _ _ flags _ => flags.create = true
  | _ => False

variable (hO : O.Lawful) (hμ : O.Hides μ)

include hO hμ

/-- What is remembered stays right in every use but for the opening of entries. -/
theorem carries_asFresh : Carries (Vfs.AsFresh (μ := μ) O) := by
  have keeps : ∀ {α : Type} {x : VfsM φ μ α}, Stays (UpToDate O) x → Stays (AsFresh O) x :=
    fun h => h.mono fun _ _ hk hv => hv.upToDate hO hμ hk
  exact {
    toBears := (bears_looked hO hμ).mono fun _ _ h hv => hv.upToDate hO hμ h.upToDate
    goTo := fun _ _ hv => hv.upToDate hO hμ (Looked.of_eq rfl rfl rfl).upToDate
    queue := fun _ _ _ _ hv => hv.upToDate hO hμ (Looked.of_eq rfl rfl rfl).upToDate
    release := fun d => keeps (stays_release hO d).upToDate
    list := fun dir => stays_iff.2 fun _ hv => hv.list hO hμ dir
    createDirectoryAt := fun d p => keeps (stays_createDirectoryAt hO hμ d p)
    removeDirectoryAt := fun d p => keeps (stays_removeDirectoryAt hO hμ d p)
    unlinkAt := fun d p => keeps (stays_unlinkAt hO hμ d p)
    renameAt := fun d p e q => keeps (stays_renameAt hO hμ d p e q)
    symlinkAt := fun d target p => keeps (stays_symlinkAt hO hμ d target p) }

/-- An operation that does not make what it opens leaves what is remembered right. -/
theorem Operation.stays_run {op : Operation} (hop : ¬ op.Creates) : Stays (Session.AsFresh O) (op.run : SessionM φ μ Value) := by
  refine (carries_asFresh hO hμ).run op fun b p flags name hopen d v => ?_
  subst hopen
  refine (wp_openAt hO hμ d p flags v).mono (fun _ _ h hv => hv.upToDate hO hμ h) fun _ _ h hv => ?_
  exact hv.upToDate hO hμ (h.resolve_right fun h => hop h.1)

/-- What is remembered is right after an operation, unless it was to make something and noticed too late that it could
not go on. -/
theorem Operation.fresh_run (op : Operation) {s : Session φ μ} (hs : Fresh O s.space)
    (hlate : op.Creates → ∀ e, (op.run s).1 = .error (.failed e) → ¬ Late O e) : Fresh O (op.run s).2.space := by
  by_cases hop : op.Creates
  · cases op with
    | openAt b p flags name =>
      have hwp : wp (Operation.openAt b p flags name).run (fun _ t => Fresh O t.space)
          (fun r t => (∀ e, r = .failed e → ¬ Late O e) → Fresh O t.space) s := by
        refine wp_bind.2 ((stays_base (R := Session.AsFresh O) b s).mono (fun d t ht => ?_) fun _ _ ht _ => ht hs)
        refine wp_bind.2 (wp_onSpace.2 ((wp_openAt hO hμ d p flags t.space).mono (fun d v hv => ?_) fun e v hv hnot => ?_))
        · have hfresh : Fresh O v := (ht hs).upToDate hO hμ hv
          cases name with
          | none | some => exact hfresh
        · exact (ht hs).upToDate hO hμ (hv.resolve_right fun h => hnot e rfl h.2)
      rcases hrun : (Operation.openAt b p flags name).run s with ⟨r | a, t⟩
      · refine hwp.error hrun fun e he => hlate hop e ?_
        rw [hrun, he]
      · exact hwp.ok hrun
    | _ => exact hop.elim
  · exact stays_iff.1 (stays_run hO hμ hop) s hs

/-- A namespace that was just started remembers nothing. -/
theorem fresh_of_start {o : Options} {w w' : World φ μ} (hw : O.Fit (w.host, w.files))
    (hstart : start o w = (.ok v, w')) : Fresh O v := by
  unfold start at hstart
  have hload := hμ.load w.host w.map w.files hw
  rcases hrun : LinkMap.load (w.host, w.map) with ⟨_ | records, s⟩
  · rw [hrun] at hstart
    cases hstart
  · rw [hrun] at hstart hload
    have hfresh : Fresh O (Vfs.fresh o (.ofRecords records) { w with host := s.1, map := s.2 }) :=
      ⟨hload.1, coherent_of_known rfl⟩
    simp only [enter] at hstart
    split at hstart
    · cases hstart
    · rename_i p _
      split at hstart
      · cases hstart
        exact hfresh
      · have hcall := stays_iff.1 (noneNew_call hO hμ (.createDirectory p true))
          (Vfs.fresh o (.ofRecords records) { w with host := s.1, map := s.2 }) hfresh.fit
        split at hstart
        · cases hstart
        · rename_i u hu
          rw [hu] at hcall
          cases hstart
          refine ⟨hcall.1, coherent_of_known (hcall.2.elim (fun h => ?_) id)⟩
          exact congrArg Listings.known h

end Sessions

end Vfs

end Filespace
