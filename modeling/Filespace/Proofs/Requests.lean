import Filespace.Proofs.Backed

/-!
# What requests do

One statement for each request but copying: what it replies and what the tree is afterwards. Failed requests have
changed nothing, with one exception: a new length stays when closing the handle is refused afterwards. A
request is busy only if a file that it has to touch is locked (`NoEffect`).
-/

namespace Filespace

open Storage Memory Backed

variable {φ : Type} [FileStore φ] [Backed φ] {m : Memory} {d : FileData}

/-! ### Channels -/

namespace Storage

/-- What is at a path. -/
theorem treeWp_entry (p : Path) (m : Memory) :
    treeWp (FileStore.entry (φ := φ) p) (fun r m' => m' = m ∧ r = (m.node? p).map Node.stat)
      (NoEffect φ m False) m :=
  (Backed.entry p).treeWp (wp_entry p m _)

/-- The length of a file through a handle. -/
theorem treeWp_size (h : FileStore.Handle φ) (m : Memory) :
    treeWp (FileStore.size h) (fun n m' => m' = m ∧ n = (m.contentOf (memoryHandle h)).length)
      (NoEffect φ m False) m :=
  (size h).treeWp (wp_size _ m _)

/-- Reading on after what was read so far gives what one long read would have given. -/
theorem slice_append_slice (b : Bytes) (pos n : Nat) :
    b.slice pos n ++ b.slice (pos + (b.slice pos n).length) (n - (b.slice pos n).length) = b.slice pos n := by
  have hrest : b.slice (pos + (b.slice pos n).length) (n - (b.slice pos n).length) = [] := by
    rw [← List.length_eq_zero_iff, Bytes.length_slice, Bytes.length_slice]
    omega
  rw [hrest, List.append_nil]

/-- Reading in pieces through a handle gives what one read would have given. -/
theorem treeWp_gather (h : FileStore.Handle φ) (m : Memory) (fuel pos want : Nat) (hw : want ≤ fuel) :
    treeWp ((FileStore.channel h).gather fuel pos want)
      (fun r m' => m' = m ∧ r = (m.contentOf (memoryHandle h)).slice pos want) (NoEffect φ m False) m := by
  induction fuel generalizing pos want with
  | zero =>
    obtain rfl : want = 0 := by omega
    exact treeWp_pure ⟨rfl, by simp [Bytes.slice]⟩
  | succ fuel ih =>
    refine treeWp_ite (fun h0 => treeWp_pure ⟨rfl, by simp [Bytes.slice, h0]⟩) fun h0 => treeWp_bind ?_
    refine ((read h pos want).treeWp (wp_read _ pos want m _)).imp ?_
    rintro bytes m' ⟨rfl, rfl⟩
    refine treeWp_ite (fun hnil => treeWp_pure ⟨rfl, (List.isEmpty_iff.1 hnil).symm⟩) fun hne => treeWp_bind ?_
    have hpos : 0 < ((m'.contentOf (memoryHandle h)).slice pos want).length := by
      rw [List.length_pos_iff]
      exact fun e => hne (List.isEmpty_iff.2 e)
    refine (ih (pos + _) (want - _) (by omega)).imp ?_
    rintro rest m'' ⟨rfl, rfl⟩
    exact treeWp_pure ⟨rfl, slice_append_slice _ _ _⟩

/-- Reading a whole file through a handle. -/
theorem treeWp_readAll (h : FileStore.Handle φ) (m : Memory) :
    treeWp (FileStore.channel h).readAll (fun r m' => m' = m ∧ r = m.contentOf (memoryHandle h))
      (NoEffect φ m False) m := by
  refine treeWp_bind ((treeWp_size h m).imp ?_)
  rintro n m' ⟨rfl, hn⟩
  refine (treeWp_gather h m' n 0 n (Nat.le_refl n)).imp ?_
  rw [hn]
  simp [Bytes.slice]

/-- Reading a stretch of a file through a handle. -/
theorem treeWp_readExactAt (h : FileStore.Handle φ) (m : Memory) (length offset : Nat) :
    treeWp ((FileStore.channel h).readExactAt length offset)
      (fun r m' => m' = m ∧ r = (m.contentOf (memoryHandle h)).slice offset length)
      (NoEffect φ m False) m := by
  refine treeWp_bind ((treeWp_size h m).imp ?_)
  rintro n m' ⟨rfl, hn⟩
  refine (treeWp_gather h m' _ offset _ (Nat.le_refl _)).imp ?_
  rintro r m'' ⟨rfl, rfl⟩
  refine ⟨rfl, ?_⟩
  rw [hn]
  unfold Bytes.slice
  rw [List.take_eq_take_iff, List.length_drop]
  omega

/-- The tree after a write through a handle. Writing nothing changes nothing. -/
def Memory.written (m : Memory) (h : Handle) (data : Bytes) (offset : Nat) : Memory :=
  if data.isEmpty then m
  else match m.fileOf? h with
    | some d => m.revised h.path d (d.bytes.overwrite offset data)
    | none => m

/-- The store takes all bytes at once, so there is one write at most. -/
theorem treeWp_writeAllAt (h : FileStore.Handle φ) (m : Memory) (data : Bytes) (offset : Nat) :
    treeWp ((FileStore.channel h).writeAllAt data offset)
      (fun n m' => n = data.length ∧ m' = m.written (memoryHandle h) data offset ∧
        (data.isEmpty = true ∨ m.fileOf? (memoryHandle h) = none ∨ offset + data.length ≤ maxLength))
      (NoEffect φ m False) m := by
  unfold Channel.writeAllAt Channel.endOffset
  split
  · rename_i e he
    split at he
    · cases he
    · cases he
      exact treeWp_throw ⟨rfl, fun hb => by cases hb⟩
  · unfold written
    cases data with
    | nil => exact treeWp_pure ⟨rfl, rfl, Or.inl rfl⟩
    | cons b data =>
      refine treeWp_ite (fun hnil => absurd hnil (by simp)) fun _ => treeWp_bind ?_
      refine ((write h offset (b :: data)).treeWp (wp_write _ offset (b :: data) m)).imp ?_
      rintro n m' ⟨hn, hm⟩
      have hn : n = (b :: data).length := hn
      refine treeWp_ite (fun h0 => ?_) fun _ => treeWp_bind ?_
      · rw [hn] at h0
        cases h0
      · -- Nothing is left, so the loop ends here whatever its fuel is.
        have hdone : (b :: data).drop n = [] := by rw [hn, List.drop_length]
        have hrest : treeWp ((FileStore.channel h).scatter data.length (offset + n) ((b :: data).drop n))
            (fun k m'' => k = 0 ∧ m'' = m') (NoEffect φ m False) m' := by
          rw [hdone]
          cases data with
          | nil => exact treeWp_pure ⟨rfl, rfl⟩
          | cons _ _ => exact treeWp_ite (fun _ => treeWp_pure ⟨rfl, rfl⟩) fun hne => absurd rfl hne
        refine hrest.imp ?_
        rintro k m'' ⟨rfl, rfl⟩
        refine treeWp_pure ⟨hn, ?_⟩
        rcases hm with ⟨hf, rfl⟩ | ⟨d, hf, rfl, hfits⟩
        · rw [hf]
          exact ⟨rfl, Or.inr (Or.inl rfl)⟩
        · rw [hf]
          exact ⟨rfl, Or.inr (Or.inr hfits)⟩

end Storage

/-! ### Requests that look -/

namespace Request

variable {p : Path}

theorem treeWp_entry (p : Path) (m : Memory) :
    treeWp (execute (φ := φ) (.entry p)) (fun r m' => m' = m ∧ r = .entry p ((m.node? p).map Node.stat))
      (NoEffect φ m False) m := by
  refine treeWp_bind ((Storage.treeWp_entry p m).imp ?_)
  rintro r m' ⟨rfl, rfl⟩
  exact treeWp_pure ⟨rfl, rfl⟩

theorem treeWp_list (p : Path) (m : Memory) :
    treeWp (execute (φ := φ) (.list p))
      (fun r m' => m' = m ∧ m.node? p = some .directory ∧ r = .entries (m.children p)) (NoEffect φ m False) m := by
  refine treeWp_bind (((Backed.directory p false).treeWp (wp_directory_false p m)).imp ?_)
  rintro - m' ⟨rfl, -⟩
  refine treeWp_bind (((Backed.list p).treeWp (wp_list p m')).imp ?_)
  rintro r m'' ⟨rfl, hd, rfl⟩
  exact treeWp_pure ⟨rfl, hd, rfl⟩

/-! ### Requests that make entries -/

/-- Making a directory grows the tree to it. Without its parents the directory is made at a free path in a
directory. -/
theorem treeWp_createDirectory (hc : m.Closed) (p : Path) (parents : Bool) :
    treeWp (execute (φ := φ) (.createDirectory p parents))
      (fun r m' => r = .done ∧ m' = m.grown p ∧ (∀ q d, q ∈ p.trail → m.node? q ≠ some (.file d)) ∧
        (parents = false → m.node? p = none ∧ ∀ dir, p.parent? = some dir → m.node? dir = some .directory))
      (NoEffect φ m False) m := by
  have hmake : treeWp (FileStore.directory p true)
      (fun _ m' => m' = m.grown p ∧ ∀ q d, q ∈ p.trail → m.node? q ≠ some (.file d)) (NoEffect φ m False) m :=
    (Backed.directory p true).treeWp (hc.wp_directory_true p)
  cases parents with
  | true =>
    refine treeWp_bind (hmake.imp ?_)
    rintro - m' ⟨hm, hfree⟩
    exact treeWp_pure ⟨rfl, hm, hfree, fun h => nomatch h⟩
  | false =>
    -- The parent is looked up first, then the path itself.
    have hrest : (∀ dir, p.parent? = some dir → m.node? dir = some .directory) →
        treeWp (do
            if (← FileStore.entry p).isSome then throw (.alreadyExists p)
            FileStore.directory p true
            return .done : StoreM (Host × φ) (Reply (FileStore.Handle φ)))
          (fun r m' => r = .done ∧ m' = m.grown p ∧ (∀ q d, q ∈ p.trail → m.node? q ≠ some (.file d)) ∧
            (false = false → m.node? p = none ∧ ∀ dir, p.parent? = some dir → m.node? dir = some .directory))
          (NoEffect φ m False) m := by
      intro hparent
      refine treeWp_bind ((Storage.treeWp_entry p m).imp ?_)
      rintro r m' ⟨rfl, hr⟩
      refine treeWp_ite (fun _ => treeWp_bind (treeWp_throw ⟨rfl, fun hb => nomatch hb⟩)) fun hnone => ?_
      refine treeWp_bind (hmake.imp ?_)
      rintro - m'' ⟨hm, hfree⟩
      refine treeWp_pure ⟨rfl, hm, hfree, fun _ => ⟨?_, hparent⟩⟩
      rw [hr] at hnone
      simpa using hnone
    rw [execute]
    cases hpar : p.parent? with
    | none =>
      rw [hpar] at hrest
      exact hrest fun dir hdir => nomatch hdir
    | some parent =>
      rw [hpar] at hrest
      refine treeWp_bind (((Backed.directory parent false).treeWp (hc.wp_directory_false parent)).imp ?_)
      rintro - m' ⟨rfl, hd⟩
      refine hrest ?_
      rintro dir ⟨⟩
      exact hd

/-- Making a file finds it, or grows the tree to its directory and puts an empty file there. -/
theorem treeWp_createFile (hc : m.Closed) (p : Path) :
    treeWp (execute (φ := φ) (.createFile p))
      (fun r m' => r = .done ∧ ((m' = m ∧ ∃ d, m.node? p = some (.file d)) ∨
        ∃ dir n, p = dir.child n ∧ m.node? p = none ∧ (∀ q d, q ∈ dir.trail → m.node? q ≠ some (.file d)) ∧
          m' = (m.grown dir).made p))
      (NoEffect φ m False) m := by
  refine treeWp_bind (((Backed.file p true).treeWp (hc.wp_file_true p)).imp ?_)
  intro _ m' hm
  exact treeWp_pure ⟨rfl, hm⟩

/-! ### Requests that use handles -/

/-- Opening a handle locks a file. -/
theorem treeWp_openHandle (p : Path) (m : Memory) :
    treeWp (execute (φ := φ) (.openHandle p))
      (fun r m' => ∃ h d, r = .handle h ∧ m.node? p = some (.file d) ∧ d.locked = false ∧
        memoryHandle h = ⟨p, d.serial⟩ ∧ m' = m.put p (.file { d with locked := true }))
      (NoEffect φ m (m.isLocked p = true)) m := by
  refine treeWp_bind (((Backed.file p false).treeWp (wp_file_false p m)).mono ?_
    (fun _ _ he => he.mono False.elim))
  rintro - m' ⟨rfl, -⟩
  refine treeWp_bind (((Backed.openHandle p).treeWp (wp_openHandle p m')).imp ?_)
  rintro h m'' ⟨d, hd, hl, hh, rfl⟩
  exact treeWp_pure ⟨h, d, rfl, hd, hl, hh, rfl⟩

/-- A handle that is used and closed again: what the use leaves is released, and either the use or the closing
can fail. -/
theorem treeWp_withHandle {α : Type} {use : FileStore.Handle φ → StoreM (Host × φ) α} {Q : α → Memory → Prop}
    {E : StorageError → Memory → Prop} (hE : ∀ e m', NoEffect φ m (m.isLocked p = true) e m' → E e m')
    (hu : ∀ h d, m.node? p = some (.file d) → d.locked = false → memoryHandle h = ⟨p, d.serial⟩ →
      treeWp (use h)
        (fun a m' => Q a (m'.release ⟨p, d.serial⟩) ∧ ∀ e, refuses φ e → E e (m'.release ⟨p, d.serial⟩))
        (fun e m' => E e (m'.release ⟨p, d.serial⟩) ∧ ∀ e, refuses φ e → E e (m'.release ⟨p, d.serial⟩))
        (m.put p (.file { d with locked := true }))) :
    treeWp (withHandle p use) Q E m := by
  refine treeWp_bind (((Backed.file p false).treeWp (wp_file_false p m)).mono ?_
    (fun e m' he => hE e m' (he.mono False.elim)))
  rintro - m' ⟨rfl, -⟩
  refine treeWp_bind (((Backed.openHandle p).treeWp (wp_openHandle p m')).mono ?_ hE)
  rintro h m'' ⟨d, hd, hl, hh, rfl⟩
  refine treeWp_bind (treeWp_attempt ((hu h d hd hl hh).mono ?_ ?_))
  · rintro a m'' ⟨hQ, hrefused⟩
    refine treeWp_bind ((treeWp_close h m'').mono ?_ ?_)
    · rintro - _ rfl
      rw [hh]
      exact treeWp_settle (by rintro _ ⟨⟩; exact hQ) (fun e he => nomatch he)
    · rintro e _ ⟨rfl, hr⟩
      rw [hh]
      exact hrefused e hr
  · rintro e m'' ⟨hE', hrefused⟩
    refine treeWp_bind ((treeWp_close h m'').mono ?_ ?_)
    · rintro - _ rfl
      rw [hh]
      exact treeWp_settle (fun a ha => nomatch ha) (by rintro _ ⟨⟩; exact hE')
    · rintro e _ ⟨rfl, hr⟩
      rw [hh]
      exact hrefused e hr

/-- A handle is opened on the file at its path. -/
theorem fileOf?_locked {h : Handle} (hh : h = ⟨p, d.serial⟩) :
    (m.put p (.file { d with locked := true })).fileOf? h = some { d with locked := true } := by
  rw [hh, fileOf?_eq_some_iff]
  exact ⟨node?_put_self _ _ _, rfl⟩

/-- A file that is locked and released again is as it was. -/
theorem release_locked (hd : m.node? p = some (.file d)) (hl : d.locked = false) :
    (m.put p (.file { d with locked := true })).release ⟨p, d.serial⟩ = m := by
  rw [release_put rfl]
  refine put_eq_self ?_
  rw [hd, ← hl]

/-- A file that is locked, changed and released again differs in what was changed. -/
theorem release_revised (hl : d.locked = false) (bytes : Bytes) :
    ((m.put p (.file { d with locked := true })).revised p { d with locked := true } bytes).release ⟨p, d.serial⟩ =
      m.revised p d bytes := by
  unfold revised
  rw [release_put rfl]
  simp [← hl]

/-- Reading through a handle of its own changes nothing. -/
theorem treeWp_readAt (p : Path) (offset length : Nat) (m : Memory) :
    treeWp (execute (φ := φ) (.readAt p offset length))
      (fun r m' => m' = m ∧ ∃ d, m.node? p = some (.file d) ∧ d.locked = false ∧
        r = .bytes (d.bytes.slice offset length) d.bytes.length)
      (NoEffect φ m (m.isLocked p = true)) m := by
  refine treeWp_withHandle (fun _ _ he => he) ?_
  intro h d hd hl hh
  have hback := release_locked hd hl
  refine treeWp_bind ((treeWp_readExactAt h _ length offset).mono ?_ ?_)
  · rintro data _ ⟨rfl, rfl⟩
    refine treeWp_bind ((treeWp_size h _).mono ?_ ?_)
    · rintro n _ ⟨rfl, hn⟩
      rw [contentOf_eq (fileOf?_locked hh)] at hn ⊢
      refine treeWp_pure ⟨?_, ?_⟩
      · rw [hback]
        exact ⟨rfl, d, hd, hl, congrArg _ hn⟩
      · rw [hback]
        exact fun e hr => NoEffect.of_refused hr
    · rintro e _ ⟨rfl, hb⟩
      rw [hback]
      exact ⟨⟨rfl, hb.mono False.elim⟩, fun e hr => NoEffect.of_refused hr⟩
  · rintro e _ ⟨rfl, hb⟩
    rw [hback]
    exact ⟨⟨rfl, hb.mono False.elim⟩, fun e hr => NoEffect.of_refused hr⟩

/-- Writing without a handle changes the bytes of one file. -/
theorem treeWp_writeAt (p : Path) (offset : Nat) (data : Bytes) (m : Memory) :
    treeWp (execute (φ := φ) (.writeAt p offset data))
      (fun r m' => ∃ d, m.node? p = some (.file d) ∧ d.locked = false ∧
        r = .size (d.bytes.overwrite offset data).length ∧ m' = m.revised p d (d.bytes.overwrite offset data) ∧
          offset + data.length ≤ maxLength)
      (NoEffect φ m (m.isLocked p = true)) m := by
  refine treeWp_bind (((Backed.file p false).treeWp (wp_file_false p m)).mono ?_
    (fun _ _ he => he.mono False.elim))
  rintro - m' ⟨rfl, -⟩
  refine treeWp_bind (((Backed.writeAt p offset data).treeWp (wp_writeAt p offset data m')).imp ?_)
  rintro n m'' ⟨d, hd, hl, hn, rfl, hfits⟩
  exact treeWp_pure ⟨d, hd, hl, congrArg _ hn, rfl, hfits⟩

/-- A new length. It stays also if closing the handle is refused afterwards. -/
theorem treeWp_truncate (p : Path) (length : Nat) (m : Memory) :
    treeWp (execute (φ := φ) (.truncate p length))
      (fun r m' => r = .done ∧ ∃ d, m.node? p = some (.file d) ∧ d.locked = false ∧
        m' = m.revised p d (d.bytes.resize length) ∧ length ≤ maxLength)
      (fun e m' => BusyOnly φ (m.isLocked p = true) e ∧ (m' = m ∨ refuses φ e ∧
        ∃ d, m.node? p = some (.file d) ∧ d.locked = false ∧ m' = m.revised p d (d.bytes.resize length) ∧
          length ≤ maxLength)) m := by
  refine treeWp_withHandle (fun _ _ he => ⟨he.2, Or.inl he.1⟩) ?_
  intro h d hd hl hh
  refine treeWp_bind (((Backed.truncate h length).treeWp (wp_truncate _ length _)).mono ?_ ?_)
  · rintro - m' hm
    obtain ⟨rfl, hfits⟩ : m' = (m.put p (.file { d with locked := true })).revised p { d with locked := true }
        (d.bytes.resize length) ∧ length ≤ maxLength := by
      rcases hm with ⟨hf, -⟩ | ⟨d', hf, rfl, hfits⟩
      · rw [fileOf?_locked hh] at hf
        cases hf
      · rw [fileOf?_locked hh, Option.some.injEq] at hf
        rw [← hf, hh]
        exact ⟨rfl, hfits⟩
    refine treeWp_pure ⟨?_, ?_⟩
    · exact ⟨rfl, d, hd, hl, release_revised hl _, hfits⟩
    · exact fun e hr => ⟨fun _ => Or.inl hr, Or.inr ⟨hr, d, hd, hl, release_revised hl _, hfits⟩⟩
  · rintro e _ ⟨rfl, hb⟩
    rw [release_locked hd hl]
    exact ⟨⟨hb.mono False.elim, Or.inl rfl⟩, fun e hr => ⟨fun _ => Or.inl hr, Or.inl rfl⟩⟩

/-! ### Requests that remove and move -/

/-- Removing takes away an entry with all below it, none of which is locked. -/
theorem treeWp_remove (hc : m.Closed) (p : Path) (recursive : Bool) :
    treeWp (execute (φ := φ) (.remove p recursive))
      (fun _ m' => p ≠ .root ∧ m.node? p ≠ none ∧ m.Unlocked p ∧
        (recursive = true ∨ ∀ q, q.under p = true → q ≠ p → m.node? q = none) ∧ m' = m.prune p)
      (NoEffect φ m (∃ q, q.under p = true ∧ m.isLocked q = true)) m := by
  refine treeWp_bind (((Backed.remove p recursive).treeWp (hc.wp_remove p recursive)).imp ?_)
  intro _ m' hm
  exact treeWp_pure hm

/-- A move puts an entry with all below it at a free path in a directory. -/
theorem treeWp_move (hc : m.Closed) (source target : Path) :
    treeWp (execute (φ := φ) (.move source target))
      (fun _ m' => source ≠ .root ∧ m.node? source ≠ none ∧ target.under source = false ∧
        m.node? target = none ∧ (∃ dir, target.parent? = some dir ∧ m.node? dir = some .directory) ∧
        m.Unlocked source ∧ m' = m.graft source target)
      (NoEffect φ m (∃ q, q.under source = true ∧ m.isLocked q = true)) m := by
  refine treeWp_bind (((Backed.move source target).treeWp (hc.wp_move source target)).imp ?_)
  intro _ m' hm
  exact treeWp_pure hm

end Request

end Filespace
