import Filespace.Proofs.Operations

/-!
# Reading and writing are chains of steps

The operations on the content of files. With a warm handle they edit the file behind the handle; without one they open a
handle and keep it, or make one request. The file is not locked in the second case, so the request is not busy.
-/

namespace Filespace.Vfs

open Storage Memory Backed

variable {φ μ : Type} [FileStore φ] [Backed φ] [LinkMap μ] {v w : Vfs φ μ} {p : Path} {P : Act → Prop}

/-- Every kind of step. -/
def Any : Act → Prop := fun _ => True

theorem Runs.toAny {α : Type} {x : VfsM φ μ α} {Q : α → Vfs φ μ → Prop} {E : Error → Prop}
    (h : Runs P x Q E v) : Runs Any x Q E v :=
  h.mono (fun _ _ => trivial) (fun _ _ _ hQ => hQ) (fun _ hE => hE)

/-- The steps on the way to the content of a file. -/
def Looking (p : Path) : Act → Prop
  | .wait => True
  | .lock q => q = p
  | _ => False

theorem Reaches.looking (h : Reaches (· = .wait) v w) (p : Path) : Reaches (Looking p) v w :=
  h.of_only trivial

/-! ### Changes of one file -/

/-- A write through a handle edits the file of the handle, if that is still there. -/
theorem reaches_written {f : φ} {k : Handle} {data : Bytes} {offset : Nat}
    (h : tree f = v.memory.written k data offset)
    (hfits : data.isEmpty = true ∨ v.memory.fileOf? k = none ∨ offset + data.length ≤ maxLength) :
    Reaches Any v (v.withFiles f) := by
  unfold written at h
  split at h
  · exact reaches_withFiles trivial h
  · rename_i hdata
    split at h
    · rename_i d hd
      have hfits : offset + data.length ≤ maxLength :=
        (hfits.resolve_left hdata).resolve_left (by rw [hd]; simp)
      exact .single trivial (.edit (fileOf?_eq_some_iff.1 hd).1 h (length_overwrite_le hfits))
    · exact reaches_withFiles trivial h

omit [LinkMap μ] in
/-- A cold file is not locked. -/
theorem Sound.not_locked (h : v.Sound) (hp : v.handles.get? p = none) : ¬ v.memory.isLocked p = true := by
  rw [h.handles.unlocked hp]
  simp

/-- Through a handle a file is read without any change. -/
theorem runs_readThrough (hP : P .wait) (k : FileStore.Handle φ) (length offset : Nat) (v : Vfs φ μ) :
    Runs P (onFiles ((FileStore.channel k).readExactAt length offset)) (fun _ _ => True) (Error.Calm φ) v := by
  refine .look hP (T := fun _ => True) ((treeWp_readExactAt k v.memory length offset).imp ?_)
    (fun _ _ _ _ => trivial) (fun _ => id)
  rintro data m ⟨hm, -⟩
  exact ⟨hm, trivial⟩

theorem runs_size (hP : P .wait) (k : FileStore.Handle φ) (v : Vfs φ μ) :
    Runs P (onFiles (FileStore.size k)) (fun _ _ => True) (Error.Calm φ) v := by
  refine .look hP (T := fun _ => True) ((treeWp_size k v.memory).imp ?_)
    (fun _ _ _ _ => trivial) (fun _ => id)
  rintro data m ⟨hm, -⟩
  exact ⟨hm, trivial⟩

theorem runs_noteSize (p : Path) (size : Nat) (v : Vfs φ μ) :
    Runs Any (noteSize p size) (fun _ _ => True) (Error.Calm φ) v :=
  .modify (.single trivial .note) trivial

/-! ### Handles -/

/-- A path becomes warm, once no writes to it are queued. -/
theorem runs_acquire (hidle : v.detached.hasPending p = false ∨ v.background.queue = []) :
    Runs (Looking p) (acquire p) (fun k w => w.handles.get? p = some k) (Error.Calm φ) v := by
  refine .get_bind ?_
  cases hcold : v.handles.get? p with
  | some k => exact .pure hcold
  | none =>
    unfold call
    simp only [bind_assoc]
    refine .bind (Q := fun _ w => Waited v w) (.modify ?_ ?_) ?_
    · exact (reaches_runDue v).looking p
    · exact (reaches_runDue v).waited
    -- The lock and the handle are one step.
    · intro _ w _ hw _
      have hcold' : w.handles.get? p = none := by rw [hw.handles, hcold]
      have hidle' : w.detached.hasPending p = false ∨ w.background.queue = [] :=
        hidle.imp (hw.cold p) fun hq => (hw.idle hq).1
      rw [wp_bind]
      refine wp_onFiles ((Request.treeWp_openHandle p w.memory).mono ?_ ?_)
      · rintro r m ⟨k, d, rfl, hfile, hfree, hk, rfl⟩ f hf
        refine ⟨.single (a := .lock p) rfl (.lock hcold' hidle' hfile hfree hk hf), ?_⟩
        exact Table.get?_insert_self _ _ _
      · rintro e m ⟨rfl, hb⟩ f hf
        exact ⟨reaches_withFiles trivial hf, fun hs => Error.calm_storage (hb.mono (hs.not_locked hcold'))⟩

/-- The handle to use for a path, if one is to be used. -/
theorem runs_handleFor (p : Path) (v : Vfs φ μ) :
    Runs (Looking p) (handleFor p) (fun r w => w.handles.get? p = r) (Error.Calm φ) v := by
  have hacquire : ∀ w : Vfs φ μ, w.isWarm p = true ∨ w.detached.hasPending p = false ∨ w.background.queue = [] →
      Runs (Looking p) (do return some (← acquire p)) (fun r w => w.handles.get? p = r) (Error.Calm φ) w := by
    intro w hw
    refine .bind ?_ fun _ _ _ hk => .pure hk
    rcases hw with hwarm | hidle
    · obtain ⟨k, hk⟩ := Table.contains_eq_true_iff.1 hwarm
      refine .get_bind ?_
      rw [hk]
      exact .pure hk
    · exact runs_acquire hidle
  -- A cold path is served by a request or made warm.
  have hcold : ∀ w, w.handles.get? p = none → w.detached.hasPending p = false ∨ w.background.queue = [] →
      Runs (Looking p) (if v.coldPath = .direct then pure none else do return some (← acquire p))
        (fun r w => w.handles.get? p = r) (Error.Calm φ) w :=
    fun w hw hidle => .ite (fun _ => .pure hw) fun _ => hacquire w (Or.inr hidle)
  refine .get_bind (.ite (fun hw => ?_) fun hw => hacquire v (Or.inl (by simpa using hw)))
  have hnone : v.handles.get? p = none := by
    rw [← Table.contains_eq_false_iff]
    simpa [isWarm] using hw
  refine .ite (fun hp => ?_) fun hp => hcold v hnone (Or.inl (by simpa using hp))
  refine .bind (Q := fun _ w => w = v.drain) (.modify ?_ rfl) ?_
  · exact (reaches_runJobs _ v).looking p
  · rintro - w - rfl
    refine hcold _ ?_ (Or.inr (queue_drain v))
    rw [show v.drain.handles = v.handles from (reaches_runJobs _ v).waited.handles, hnone]

/-! ### Reading and writing -/

variable (d : Descriptor)

theorem runs_requireFile (v : Vfs φ μ) : Runs P (requireFile d) (fun _ _ => True) (Error.Calm φ) v :=
  .ite (fun _ => .throw fun h => nomatch h) fun _ => .pure trivial

theorem runs_requireWritable (v : Vfs φ μ) : Runs P (requireWritable d) (fun _ _ => True) (Error.Calm φ) v :=
  .bind (runs_requireFile d v) fun _ _ _ _ =>
    .ite (fun _ => .throw fun h => nomatch h) fun _ => .pure trivial

theorem runs_read (length offset : Nat) (v : Vfs φ μ) :
    Runs (Looking d.path) (read d length offset) (fun _ _ => True) (Error.Calm φ) v := by
  refine .bind (runs_requireFile d v) fun _ w _ _ => ?_
  refine .ite (fun _ => .throw_bind fun h => nomatch h) fun _ => ?_
  refine .bind (runs_handleFor d.path w) ?_
  rintro (_ | k) u - hk
  · refine .bind (Q := fun r _ => ∃ data n, r = .bytes data n) (.call trivial fun w hw => ?_) ?_
    · refine .look trivial
        ((Request.treeWp_readAt d.path offset length w.memory).imp ?_) (fun _ _ _ h => h) ?_
      · rintro r m ⟨hm, d, -, -, rfl⟩
        exact ⟨hm, _, _, rfl⟩
      · intro hs
        exact hs.not_locked (by rw [hw.handles, hk])
    · rintro r w - ⟨data, n, rfl⟩
      exact .bind (Q := fun _ _ => True) (.settle_ok trivial) fun _ _ _ _ => .pure trivial
  · refine .bind (runs_readThrough trivial k length offset u) fun data w _ _ => ?_
    refine .bind (runs_size trivial k w) fun n w _ _ => ?_
    exact .bind (Q := fun _ _ => True) (.pure trivial) fun _ _ _ _ => .pure trivial

theorem runs_writeThrough (k : FileStore.Handle φ) (data : Bytes) (offset : Nat) (v : Vfs φ μ) :
    Runs Any (writeThrough k data offset) (fun _ _ => True) (Error.Calm φ) v := by
  refine .bind (Q := fun _ _ => True) ?_ fun _ w _ _ => runs_size trivial k w
  refine .onFiles (fun _ => treeWp_writeAllAt k v.memory data offset) ?_ ?_
  · rintro n f - ⟨-, hf, hfits⟩
    exact ⟨reaches_written hf hfits, trivial⟩
  · rintro e f - ⟨hf, hb⟩
    exact ⟨reaches_withFiles trivial hf, fun _ => Error.calm_storage hb⟩

theorem runs_write (data : Bytes) (offset : Nat) (v : Vfs φ μ) :
    Runs Any (write d data offset) (fun _ _ => True) (Error.Calm φ) v := by
  have hnote : ∀ n (w : Vfs φ μ), Runs Any (do
      noteSize d.path n
      return data.length) (fun _ _ => True) (Error.Calm φ) w :=
    fun n w => .bind (runs_noteSize d.path n w) fun _ _ _ _ => .pure trivial
  refine .bind (runs_requireWritable d v) fun _ w _ _ => ?_
  refine .bind (runs_handleFor d.path w).toAny ?_
  rintro (_ | k) u - hk
  · refine .bind (Q := fun r _ => ∃ n, r = .size n) (.call trivial fun w hw => ?_) ?_
    · refine .onFiles (fun _ => Request.treeWp_writeAt d.path offset data w.memory) ?_ ?_
      · rintro r f - ⟨d, hd, -, rfl, hf, hfits⟩
        exact ⟨.single trivial (.edit hd hf (length_overwrite_le hfits)), _, rfl⟩
      · rintro e f - ⟨hf, hb⟩
        refine ⟨reaches_withFiles trivial hf, fun hs => Error.calm_storage (hb.mono ?_)⟩
        exact hs.not_locked (by rw [hw.handles, hk])
    · rintro r w - ⟨n, rfl⟩
      exact .bind (Q := fun _ _ => True) (.settle_ok trivial) fun n w _ _ => hnote n w
  · exact .bind (runs_writeThrough k data offset u) fun n w _ _ => hnote n w

theorem runs_fileSize (p : Path) (v : Vfs φ μ) : Runs (· = .wait) (fileSize p) (fun _ _ => True) (Error.Calm φ) v := by
  refine .get_bind ?_
  cases v.handles.get? p with
  | some k => exact runs_size (P := (· = .wait)) rfl k v
  | none => exact .bind (runs_requireEntry p v) fun _ _ _ _ => .pure trivial

theorem runs_readStream (length : Nat) (v : Vfs φ μ) :
    Runs (Looking d.path) (readStream d length) (fun _ _ => True) (Error.Calm φ) v :=
  .bind (runs_read d length d.cursor v) fun _ _ _ _ => .pure trivial

theorem runs_writeStream (data : Bytes) (v : Vfs φ μ) :
    Runs Any (writeStream d data) (fun _ _ => True) (Error.Calm φ) v := by
  have hwrite : ∀ offset (w : Vfs φ μ), Runs Any (do
      let n ← write d data offset
      return (n, { d with cursor := offset + n })) (fun _ _ => True) (Error.Calm φ) w :=
    fun offset w => .bind (runs_write d data offset w) fun _ _ _ _ => .pure trivial
  refine .ite (fun _ => ?_) fun _ => ?_
  · exact .bind (runs_fileSize d.path v).toAny fun offset w _ _ => hwrite offset w
  · exact .bind (Q := fun _ _ => True) (.pure trivial) fun offset w _ _ => hwrite offset w

theorem runs_seek (whence : Whence) (v : Vfs φ μ) : Runs (· = .wait) (seek d whence) (fun _ _ => True) (Error.Calm φ) v := by
  have hmove : ∀ (target : Int) (w : Vfs φ μ), Runs (· = .wait)
      (if 0 ≤ target ∧ target < Bytes.offsetLimit then pure (target.toNat, { d with cursor := target.toNat })
        else throw (.badSeek d.path target)) (fun _ _ => True) (Error.Calm φ) w :=
    fun target w => .ite (fun _ => .pure trivial) fun _ => .throw fun h => nomatch h
  cases whence with
  | start offset =>
    refine Runs.bind (Q := fun _ _ => True) ?_ ?_
    · exact .pure trivial
    · exact fun target w _ _ => hmove target w
  | current delta => exact .bind (Q := fun _ _ => True) (.pure trivial) fun target w _ _ => hmove target w
  | ending delta =>
    refine .bind (runs_fileSize d.path v) fun n w _ _ => ?_
    exact .bind (Q := fun _ _ => True) (.pure trivial) fun target w _ _ => hmove target w

/-! ### Writing without waiting, and new lengths -/

theorem runs_writeDetached (data : Bytes) (offset : Nat) (v : Vfs φ μ) :
    Runs Any (writeDetached d data offset) (fun _ _ => True) (Error.Calm φ) v := by
  refine .bind (runs_requireWritable d v) fun _ w _ _ => ?_
  refine .get_bind ?_
  cases hcold : w.handles.get? d.path with
  | some k => exact .bind (runs_writeThrough k data offset w) fun n u _ _ => runs_noteSize d.path n u
  | none =>
    -- The count and the job are one step.
    intro _
    exact ⟨.single trivial (.queue hcold), trivial⟩

theorem runs_truncatePath (p : Path) (length : Nat) (v : Vfs φ μ) :
    Runs Any (truncatePath p length) (fun _ _ => True) (Error.Calm φ) v := by
  refine .bind (Q := fun _ _ => True) (.modify (.single trivial .stale) trivial) fun _ w _ _ => ?_
  refine .bind (runs_handleFor p w).toAny ?_
  rintro (_ | k) u - hk
  · refine .bind (Q := fun _ _ => True) (.call trivial fun w hw => ?_) fun _ w _ _ => runs_noteSize p length w
    refine .onFiles (fun _ => Request.treeWp_truncate p length w.memory) ?_ ?_
    · rintro r f - ⟨-, d, hd, -, hf, hfits⟩
      exact ⟨.single trivial (.edit hd hf fun _ => by rwa [Bytes.length_resize]), trivial⟩
    · rintro e f - ⟨hb, hf⟩
      refine ⟨?_, fun hs => Error.calm_storage (hb.mono (hs.not_locked (by rw [hw.handles, hk])))⟩
      rcases hf with hf | ⟨-, d, hd, -, hf, hfits⟩
      · exact reaches_withFiles trivial hf
      · exact .single trivial (.edit hd hf fun _ => by rwa [Bytes.length_resize])
  · refine .bind (Q := fun _ _ => True) ?_ fun _ w _ _ => runs_noteSize p length w
    refine .onFiles (fun _ => (truncate k length).treeWp (wp_truncate _ length u.memory)) ?_ ?_
    · rintro - f - (⟨-, hf⟩ | ⟨d, hd, hf, hfits⟩)
      · exact ⟨reaches_withFiles trivial hf, trivial⟩
      · refine ⟨.single trivial (.edit (fileOf?_eq_some_iff.1 hd).1 hf fun _ => ?_), trivial⟩
        rwa [Bytes.length_resize]
    · rintro e f - ⟨hf, hb⟩
      exact ⟨reaches_withFiles trivial hf, fun _ => Error.calm_storage hb⟩

theorem runs_setSize (length : Nat) (v : Vfs φ μ) : Runs Any (setSize d length) (fun _ _ => True) (Error.Calm φ) v :=
  .bind (runs_requireWritable d v) fun _ w _ _ => runs_truncatePath d.path length w

theorem runs_sync (v : Vfs φ μ) : Runs (· = .wait) (sync d) (fun _ _ => True) (Error.Calm φ) v := by
  refine .get_bind ?_
  cases v.handles.get? d.path with
  | none => exact .pure trivial
  | some k =>
    have hflush : wp (pure () : StoreM Memory Unit) (fun _ m => m = v.memory ∧ True)
        (fun e m => m = v.memory ∧ (e.kind = .resourceBusy → False)) v.memory := ⟨rfl, trivial⟩
    exact .look rfl ((flush k).treeWp hflush) (fun _ _ _ _ => trivial) (fun _ => id)

/-- Closing a handle takes its lock away, whatever comes of it. -/
theorem tree_closeQuietly (k : FileStore.Handle φ) (host : Host) (f : φ) : (Handles.closeQuietly k (host, f)).1 = host ∧
      tree (Handles.closeQuietly k (host, f)).2 = (tree f).release (memoryHandle k) :=
  wp.state
    ((close k host f).mono (fun _ _ h => h) fun _ _ h => ⟨h.1, h.2.1⟩)

theorem runs_release (v : Vfs φ μ) : Runs (· = .unlock d.path) (release d) (fun _ _ => True) (Error.Calm φ) v := by
  refine .get_bind ?_
  unfold Handles.release
  cases hk : v.handles.get? d.path with
  | none => exact .bind (Q := fun _ _ => True) (.modify .refl trivial) fun _ _ _ _ => .pure trivial
  | some k =>
    obtain ⟨hhost, htree⟩ := tree_closeQuietly k v.world.host v.world.files
    simp only [hhost]
    exact .bind (Q := fun _ _ => True)
      (.modify
        (.single rfl (.unlock hk htree)) trivial) fun _ _ _ _ => .pure trivial

end Filespace.Vfs
