import Filespace.Proofs.AlikeNamespaces

/-!
# Warm and cold files

A file is read, written or cut through a warm handle, or by a request that does all at once. On alike trees both ways give
the same bytes, lengths and failures and leave alike trees: a request first looks for the file and so fails exactly where
opening a handle fails, and it fails afterwards exactly where the handle does. The one difference is a write of no bytes,
which a handle leaves out and a request takes for a new length.

On top of this every operation of a namespace that keeps handles agrees with the same operation of one that does not.
-/

namespace Filespace

open Storage Memory

/-! ### Requests and handles -/

namespace Storage

variable {α β : Type} {m m' : Memory} {p : Path} {d d' : FileData} {k : Handle}

/-- The store in memory ignores the host. -/
theorem file_run (p : Path) (create : Bool) (host : Host) (m : Memory) :
    FileStore.file p create (host, m) = ((file p create m).1, host, (file p create m).2) := rfl

theorem openHandle_run (p : Path) (host : Host) (m : Memory) :
    FileStore.openHandle p (host, m) = ((openHandle p m).1, host, (openHandle p m).2) := rfl

/-- A request that uses a handle of its own does to the tree what the use does, and no lock is left. -/
theorem agree_withHandle {x : StoreM (Host × Memory) α} {use : Handle → StoreM (Host × Memory) β}
    {Q : α → β → Host × Memory → Host × Memory → Prop} {S : Host × Memory → Host × Memory → Prop} {s : Host × Memory}
    {host : Host} (hc : m'.Closed) (hd : m'.node? p = some (.file d')) (hl : d'.locked = false)
    (h : Agree x (use ⟨p, d'.serial⟩) (fun a b s t => Q a b s (t.1, t.2.release ⟨p, d'.serial⟩))
      (fun s t => S s (t.1, t.2.release ⟨p, d'.serial⟩)) s (host, m'.put p (.file { d' with locked := true }))) :
    Agree x (Request.withHandle p use) Q S s (host, m') := by
  have hfile : FileStore.file p false (host, m') = (.ok (), host, m') := by
    rw [file_run, hc.file_run hd]
  refine .bind_right hfile ?_
  have hrun := onHandle_run use host m' p
  rw [hd] at hrun
  simp only [hl, Bool.false_eq_true, if_false] at hrun
  obtain ⟨a, b, s', t', hx, hy, h⟩ | ⟨e, s', t', hx, hy, h⟩ := h.cases
  · rw [hy] at hrun
    exact (agree_of_ok hx hrun).2 h
  · rw [hy] at hrun
    exact (agree_of_error hx hrun).2 h

section Content

variable {host host' : Host}

/-- What relates a file with a handle and the same file without one. -/
structure SameFile (p : Path) (k : Handle) (d d' : FileData) (m m' : Memory) : Prop where
  alike : Alike m m'
  closed : m'.Closed
  path : k.path = p
  file : m.fileOf? k = some d
  file' : m'.node? p = some (.file d')
  unlocked : d'.locked = false
  bytes : d'.bytes = d.bytes

/-- Reading through a handle, or by a request. -/
theorem SameFile.read (h : SameFile p k d d' m m') (length offset : Nat) :
    Agree (do
        let data ← (FileStore.channel k).readExactAt length offset
        return (data, ← FileStore.size k))
      ((Request.readAt p offset length).execute)
      (fun a b s t => b = .bytes a.1 a.2 ∧ Alike s.2 t.2) (fun s t => Alike s.2 t.2)
      (host, m) (host', m') := by
  refine agree_withHandle h.closed h.file' h.unlocked ?_
  have hcontent : (m'.put p (.file { d' with locked := true })).contentOf ⟨p, d'.serial⟩ = m.contentOf k := by
    rw [contentOf_eq (Request.fileOf?_locked rfl), contentOf_eq h.file]
    exact h.bytes
  have hback := Request.release_locked h.file' h.unlocked
  refine .bind (Channel.parallel_readExactAt (parallel_size host host' hcontent) (parallel_read host host' hcontent)
    length offset _ _ ⟨rfl, rfl⟩) ?_ ?_
  · rintro _ _ ⟨rfl, rfl⟩
    simp only [hback]
    exact h.alike
  · rintro data _ _ _ ⟨rfl, rfl, rfl⟩
    have hsize : FileStore.size (⟨p, d'.serial⟩ : Handle) (host', m'.put p (.file { d' with locked := true })) =
        (.ok (m.contentOf k).length, host', m'.put p (.file { d' with locked := true })) := by
      rw [← hcontent]
      rfl
    refine .bind_left rfl (.bind_right hsize (.pure ⟨rfl, ?_⟩))
    simp only [hback]
    exact h.alike

/-- Without a lock that counts, trees are alike. -/
theorem alikeOn_nothing (h : Alike m m') : AlikeOn (fun _ => False) m m' :=
  ⟨h, fun _ hq => hq.elim, fun _ hq => hq.elim⟩

/-- A handle takes all bytes at once. -/
theorem writeAllAt_run {data : Bytes} (hd : m.fileOf? k = some d) (hdata : data ≠ []) (offset : Nat) (host : Host) :
    (FileStore.channel k).writeAllAt data offset (host, m) =
      ((writeInto k.path d offset data m).1.map fun _ => data.length, host,
        (writeInto k.path d offset data m).2) := by
  have hwrite : (FileStore.channel k).write offset data (host, m) =
      ((writeInto k.path d offset data m).1.map fun _ => data.length, host,
        (writeInto k.path d offset data m).2) := by
    have hmemory : write k offset data m =
        ((writeInto k.path d offset data m).1.map fun _ => data.length,
          (writeInto k.path d offset data m).2) := by
      unfold write
      rw [bind_run, show (get : StoreM Memory Memory) m = (.ok m, m) from rfl]
      dsimp only
      rw [hd]
      dsimp only
      rw [bind_run]
      rcases writeInto k.path d offset data m with ⟨_ | _, _⟩ <;> rfl
    show StoreM.onSecond (write k offset data) (host, m) = _
    simp only [StoreM.onSecond, StoreM.within, hmemory]
  unfold Channel.writeAllAt
  cases hend : Channel.endOffset offset data.length with
  | error e =>
    have hinto : writeInto k.path d offset data m = (.error e, m) := by
      unfold writeInto
      rw [hend]
      rfl
    rw [hinto]
    rfl
  | ok last =>
    obtain ⟨b, rest, rfl⟩ := List.exists_cons_of_ne_nil hdata
    show (FileStore.channel k).scatter (rest.length + 1) offset (b :: rest) (host, m) = _
    unfold Channel.scatter
    simp only [List.isEmpty_cons, Bool.false_eq_true, if_false]
    rw [bind_run]
    rw [hwrite]
    rcases writeInto k.path d offset (b :: rest) m with ⟨_ | n, m₁⟩
    · rfl
    · -- Nothing is left, so the loop ends here whatever its fuel is.
      show ((FileStore.channel k).scatter rest.length (offset + (b :: rest).length)
        ((b :: rest).drop (b :: rest).length) >>= fun r => pure ((b :: rest).length + r)) (host, m₁) = _
      rw [List.drop_length]
      cases rest <;> rfl

/-- Writing something through a handle, or by a request. -/
theorem SameFile.write (h : SameFile p k d d' m m') {data : Bytes} (hdata : data ≠ []) (offset : Nat) :
    Agree (do
        let _ ← (FileStore.channel k).writeAllAt data offset
        FileStore.size k)
      ((Request.writeAt p offset data).execute)
      (fun n b s t => b = .size n ∧ Alike s.2 t.2) (fun s t => Alike s.2 t.2) (host, m) (host', m') := by
  have hfile : FileStore.file p false (host', m') = (.ok (), host', m') := by
    rw [file_run, h.closed.file_run h.file']
  have hwrite : FileStore.writeAt p offset data (host', m') =
      ((writeInto p d' offset data m').1, host', (writeInto p d' offset data m').2) := by
    have hmemory : writeAt p offset data m' = writeInto p d' offset data m' := by
      unfold writeAt
      rw [bind_run, fileAt_run, h.file']
      simp [h.unlocked]
    show StoreM.onSecond (writeAt p offset data) (host', m') = _
    simp only [StoreM.onSecond, StoreM.within, hmemory]
    rfl
  have hrun := writeAllAt_run h.file hdata offset host
  rw [h.path] at hrun
  refine .bind_right hfile ?_
  have hinto := (parallel_writeInto offset data h.bytes False.elim m m' (alikeOn_nothing h.alike)).and_wp
    (wp_writeInto p d offset data m) (wp_writeInto p d' offset data m')
  obtain ⟨n, _, m₁, m₁', hx, hy, ⟨rfl, hm⟩, ⟨rfl, rfl, -⟩, -⟩ | ⟨e, m₁, m₁', hx, hy, hm, -⟩ := hinto.cases
  · rw [hx] at hrun
    rw [hy] at hwrite
    refine .bind_left hrun (.bind_right hwrite ?_)
    have hcontent : (m.revised p d (d.bytes.overwrite offset data)).contentOf k = d.bytes.overwrite offset data := by
      have hserial := (fileOf?_eq_some_iff.1 h.file).2
      refine contentOf_eq (d := { d with bytes := d.bytes.overwrite offset data, modified := m.clock })
        (fileOf?_eq_some_iff.2 ⟨?_, hserial⟩)
      rw [h.path]
      exact node?_put_self m p _
    exact ⟨congrArg (fun b => Reply.size (List.length b)) hcontent.symm, hm.toAlike⟩
  · rw [hx] at hrun
    rw [hy] at hwrite
    refine (agree_of_error (e := e) (u := (host, m₁)) (v := (host', m₁')) ?_ ?_).2 hm.toAlike
    · rw [bind_run, hrun]
      rfl
    · rw [bind_run, hwrite]

/-- A new length through a handle, or by a request. -/
theorem SameFile.truncate (h : SameFile p k d d' m m') (length : Nat) :
    Agree (FileStore.truncate k length) ((Request.truncate p length).execute)
      (fun _ _ s t => Memory.Alike s.2 t.2) (fun s t => Memory.Alike s.2 t.2) (host, m) (host', m') := by
  refine agree_withHandle h.closed h.file' h.unlocked ?_
  rw [← bind_pure (FileStore.truncate (φ := Memory) k length)]
  have hcut : Agree (Memory.truncate k length) (Memory.truncate ⟨p, d'.serial⟩ length)
      (fun _ _ t t' => Alike t (t'.release ⟨p, d'.serial⟩)) (fun t t' => Alike t (t'.release ⟨p, d'.serial⟩))
      m (m'.put p (.file { d' with locked := true })) := by
    unfold Memory.truncate Memory.checkLength
    rw [h.path]
    refine .bind (Q := fun _ _ t t' => t = m ∧ t' = m'.put p (.file { d' with locked := true }))
      (.ite (fun _ => .pure ⟨rfl, rfl⟩) fun _ => .throw ?_) (fun _ _ hs => hs) ?_
    · rw [Request.release_locked h.file' h.unlocked]
      exact h.alike
    · rintro - - _ _ ⟨rfl, rfl⟩
      refine .get_bind ?_
      rw [h.file, Request.fileOf?_locked rfl]
      refine .modify ?_
      have hback := Request.release_revised (m := m') (p := p) h.unlocked (d'.bytes.resize length)
      unfold revised at hback
      rw [hback]
      exact h.alike.put (by simp only [Node.content, h.bytes])
  exact .bind (agree_onSecond hcut) (fun _ _ hs => hs)
    fun _ _ _ _ hs => .pure hs

end Content

end Storage

namespace Vfs

variable {μ α : Type} [LinkMap μ] {v v' w w' : Vfs Memory μ} {p : Path} {r : Request}

/-! ### Getting at a file -/

omit [LinkMap μ] in
/-- Without writes in the queue none is waited for. -/
theorem OnlyLinkJobs.not_pending (h : v.OnlyLinkJobs) (hs : v.Sound) (p : Path) : v.detached.hasPending p = false := by
  rw [Bool.eq_false_iff]
  intro hp
  obtain ⟨j, hj, hwrites⟩ := hs.queue.hasPending_iff.1 hp
  obtain ⟨l, hl⟩ := h j hj
  rw [hl] at hwrites
  cases hwrites

theorem handleFor_run (hpending : v.detached.hasPending p = false) :
    handleFor p v =
      if v.isWarm p = false ∧ v.coldPath = .direct then (.ok none, v) else (do return some (← acquire p)) v := by
  show (if ¬ v.isWarm p = true then
      if v.detached.hasPending p = true then _ else if v.coldPath = .direct then _ else _ else _ : VfsM Memory μ _) v = _
  rw [hpending]
  cases v.isWarm p with
  | true => rfl
  | false =>
    by_cases hdirect : v.coldPath = .direct
    · rw [if_pos (by simp), if_neg (by simp), if_pos hdirect, if_pos ⟨rfl, hdirect⟩]
      rfl
    · rw [if_pos (by simp), if_neg (by simp), if_neg hdirect, if_neg fun h => hdirect h.2]

/-- The second namespace makes one request. -/
theorem Pair.handleFor_right (h : Pair v v') (p : Path) : handleFor p v' = (.ok none, v') := by
  have hcold : v'.isWarm p = false := Table.contains_eq_false_iff.2 (h.alike.cold' p)
  rw [handleFor_run (h.alike.jobs'.not_pending h.right.sound p), if_pos ⟨hcold, h.alike.policy'⟩]

theorem call_run (r : Request) (v : Vfs Memory μ) :
    call r v = ((r.execute (v.runDue.world.host, v.runDue.memory)).1.mapError .storage,
      { v.runDue with world := { v.runDue.world with
          host := (r.execute (v.runDue.world.host, v.runDue.memory)).2.1
          files := (r.execute (v.runDue.world.host, v.runDue.memory)).2.2 } }) := rfl

theorem execute_openHandle (p : Path) :
    (Request.openHandle p).execute (φ := Memory) = (do
      FileStore.file p false
      return .handle (← FileStore.openHandle p)) := rfl

theorem acquire_run (p : Path) (v : Vfs Memory μ) :
    acquire p v = match v.handles.get? p with
      | some k => (.ok k, v)
      | none => (do
        let reply ← call (.openHandle p)
        let h ← settle reply.toHandle
        modify fun v => { v with handles := v.handles.insert p h }
        return h : VfsM Memory μ Handle) v := by
  unfold acquire
  rw [bind_run, show (get : VfsM Memory μ _) v = (.ok v, v) from rfl]
  simp only
  cases v.handles.get? p <;> rfl

/-- The first namespace has a handle on a file that the second finds as well, or it fails where the second will. -/
theorem Pair.handleFor_left (h : Pair v v') (p : Path) :
    (∃ e w, handleFor p v = (.error (.storage e), w) ∧ AlikeBy Alike w v' ∧
        file p false v'.memory = (.error e, v'.memory)) ∨
      ∃ k w d d', handleFor p v = (.ok (some k), w) ∧ AlikeBy Alike w v' ∧
        Storage.SameFile p k d d' w.memory v'.memory := by
  have hunlocked : ∀ d', v'.memory.node? p = some (.file d') → d'.locked = false :=
    isLocked_eq_false_iff.1 (h.right.sound.handles.unlocked (h.alike.cold' p))
  have hrun := handleFor_run (h.alike.jobs.not_pending h.left.sound p)
  rw [if_neg (by rw [h.alike.policy]; simp), bind_run, acquire_run] at hrun
  cases hk : v.handles.get? p with
  | some k =>
    rw [hk] at hrun
    obtain ⟨d, hd, -, hserial⟩ := h.left.sound.handles.held p k hk
    have hserial : k = ⟨p, d.serial⟩ := hserial
    have hfile : v.memory.fileOf? k = some d := by
      rw [hserial]
      exact fileOf?_eq_some_iff.2 ⟨hd, rfl⟩
    obtain ⟨d', hd', hb⟩ := h.alike.trees.file hd
    refine Or.inr ⟨k, v, d, d', hrun, h.alike, ?_⟩
    exact ⟨h.alike.trees, h.right.closed, by rw [hserial], hfile, hd', hunlocked d' hd', hb⟩
  | none =>
    rw [hk] at hrun
    have hdue := h.alike.due_left
    have hfind := (parallel_file p false _ _ (alikeOn_nothing hdue.trees)).and_wp
      (wp_file_false p v.runDue.memory) (wp_file_false p v'.memory)
    obtain ⟨_, _, _, _, hx, hy, -, ⟨rfl, d, hd⟩, -⟩ | ⟨e, _, _, hx, hy, -, ⟨_, rfl, -⟩, _, rfl, -⟩ := hfind.cases
    · -- The file is found, and since it is cold it is not locked.
      obtain ⟨d', hd', hb⟩ := hdue.trees.file hd
      have hcold : v.runDue.handles.get? p = none := by rw [(reaches_runDue v).waited.handles, hk]
      have hsound := (reaches_runDue v).sound h.left.closed h.left.sound
      have hl := isLocked_eq_false_iff.1 (hsound.handles.unlocked hcold) d hd
      have hopen : call (.openHandle p) v = (.ok (.handle ⟨p, d.serial⟩),
          v.runDue.withFiles (v.runDue.memory.put p (.file { d with locked := true }))) := by
        have hexecute : (Request.openHandle p).execute (v.runDue.world.host, v.runDue.memory) =
            (.ok (.handle ⟨p, d.serial⟩), v.runDue.world.host, v.runDue.memory.put p (.file { d with locked := true })) := by
          rw [execute_openHandle, bind_run, file_run, hx]
          simp only
          rw [bind_run, Storage.openHandle_run, Memory.openHandle_run, hd]
          simp only [hl, Bool.false_eq_true, if_false]
          rfl
        rw [call_run, hexecute]
        rfl
      rw [bind_run, hopen] at hrun
      have halike : Alike (v.runDue.memory.put p (.file { d with locked := true })) v'.memory :=
        (alike_locked hd).symm.trans hdue.trees
      refine Or.inr ⟨_, _, { d with locked := true }, d', hrun, { hdue with trees := halike }, ?_⟩
      exact ⟨halike, h.right.closed, rfl, Request.fileOf?_locked rfl, hd', hunlocked d' hd', hb⟩
    · have hopen : call (.openHandle p) v = (.error (.storage e), v.runDue) := by
        have hexecute : (Request.openHandle p).execute (v.runDue.world.host, v.runDue.memory) =
            (.error e, v.runDue.world.host, v.runDue.memory) := by
          rw [execute_openHandle, bind_run, file_run, hx]
        rw [call_run, hexecute]
        rfl
      rw [bind_run, hopen] at hrun
      exact Or.inl ⟨e, v.runDue, hrun, hdue, hy⟩

/-- A request that looks for a file fails where there is none. -/
theorem call_error {e : StorageError} {f : Unit → StoreM (Host × Memory) (Reply Handle)}
    (hr : r.execute = FileStore.file p false >>= f) (hjobs : v.OnlyLinkJobs)
    (he : file p false v.memory = (.error e, v.memory)) : call r v = (.error (.storage e), v.runDue) := by
  have hexecute : r.execute (v.runDue.world.host, v.runDue.memory) =
      (.error e, v.runDue.world.host, v.runDue.memory) := by
    rw [hr, bind_run, file_run, hjobs.runDue.1, he]
  rw [call_run, hexecute]
  rfl

/-- A file is used through its handle in the first namespace and by a request in the second. Where the file is not to be
had, both fail alike, so only the use has to be compared. -/
theorem Pair.agree_access {f : Option Handle → VfsM Memory μ α}
    {g : Reply Handle → VfsM Memory μ α} {k : Unit → StoreM (Host × Memory) (Reply Handle)}
    {R : α → α → Prop} (h : Pair v v') (hf : f none = call r >>= g)
    (hr : r.execute = FileStore.file p false >>= k)
    (huse : ∀ k w d d', AlikeBy Alike w v' → Storage.SameFile p k d d' w.memory v'.memory →
      Agree (f (some k)) (call r >>= g) (fun a b w w' => R a b ∧ AlikeBy Alike w w') (AlikeBy Alike) w v') :
    Agree (handleFor p >>= f) (handleFor p >>= f) (fun a b w w' => R a b ∧ AlikeBy Alike w w')
      (AlikeBy Alike) v v' := by
  obtain ⟨e, w, hx, hw, he⟩ | ⟨k, w, d, d', hx, hw, hfile⟩ := h.handleFor_left p
  · refine (agree_of_error (e := .storage e) ?_ ?_).2 hw.due_right
    · rw [bind_run, hx]
    · rw [bind_run, h.handleFor_right p]
      simp only
      rw [hf, bind_run, call_error hr h.alike.jobs' he]
  · refine .bind_left hx (.bind_right (h.handleFor_right p) ?_)
    rw [hf]
    exact huse k w d d' hw hfile

/-- The call on the store through the handle, against one request. -/
theorem agree_onFiles_call {T S : Memory → Memory → Prop} {x : StoreM (Host × Memory) α}
    {R : α → Reply Handle → Prop} (h : AlikeBy Alike v v')
    (hx : ∀ host host', Agree x r.execute (fun a b s t => R a b ∧ T s.2 t.2) (fun s t => S s.2 t.2)
      (host, v.memory) (host', v'.memory)) :
    Agree (onFiles x) (call r) (fun a b w w' => R a b ∧ AlikeBy T w w') (AlikeBy S) v v' := by
  refine agree_onFiles h.due_right ?_
  rw [h.jobs'.runDue.1]
  exact hx _ _

omit [LinkMap μ] in
/-- Calls on the store in a row are one call. -/
theorem onFiles_bind {β : Type} (x : StoreM (Host × Memory) α) (f : α → StoreM (Host × Memory) β) :
    onFiles (μ := μ) (x >>= f) = onFiles x >>= fun a => onFiles (f a) := by
  funext v
  rw [bind_run]
  unfold onFiles
  rw [bind_run]
  rcases x (v.world.host, v.world.files) with ⟨_ | a, s⟩ <;> rfl

/-! ### Reading and writing -/

theorem leadsTo_read (d : Descriptor) (length offset : Nat) :
    LeadsTo (Pair (μ := μ)) (AlikeBy Alike) Eq (read d length offset) (read d length offset) := by
  intro _ v v' h
  refine .bind (Q := fun _ _ => Pair)
    (.ite (fun _ => .throw h.alike) fun _ => .pure h) (fun _ _ hs => hs) fun _ _ w w' hw => ?_
  refine .ite (fun _ => .throw_bind hw.alike) fun _ => ?_
  refine hw.agree_access rfl rfl fun k u f f' hu hfile => ?_
  have hread := agree_onFiles_call hu
    fun host host' => hfile.read length offset
  simp only [onFiles_bind] at hread
  have hall := hread.bind (R := fun a b w w' => a = b ∧ AlikeBy Alike w w')
    (f := fun x => pure (x.1, decide (offset + x.1.length ≥ x.2))) (g := fun reply => do
      let x ← settle reply.toBytes
      pure (x.1, decide (offset + x.1.length ≥ x.2))) (fun _ _ hs => hs) ?_
  · simp only [bind_assoc] at hall
    exact hall
  · rintro x _ z z' ⟨rfl, hz⟩
    exact .pure ⟨rfl, hz⟩

/-- Something must be written. -/
theorem leadsTo_write (d : Descriptor) {data : Bytes} (hdata : data ≠ []) (offset : Nat) :
    LeadsTo (Pair (μ := μ)) (AlikeBy Alike) Eq (write d data offset) (write d data offset) := by
  have hwritable : Parallel (Pair (μ := μ)) Eq (requireWritable d) (requireWritable d) :=
    .bind_eq (.ite (fun _ => .throw) fun _ => .pure rfl) fun _ => .ite (fun _ => .throw) fun _ => .pure rfl
  refine .look hwritable fun _ _ _ _ w w' hw => ?_
  refine hw.agree_access rfl rfl fun k u f f' hu hfile => ?_
  have hwrite : Agree (writeThrough k data offset) (call (.writeAt d.path offset data))
      (fun n b z z' => b = .size n ∧ AlikeBy Alike z z') (AlikeBy Alike) u w' := by
    unfold writeThrough
    rw [← onFiles_bind]
    exact agree_onFiles_call hu fun _ _ => hfile.write hdata offset
  refine .bind hwrite (fun _ _ hs => hs) ?_
  rintro n _ z z' ⟨rfl, hz⟩
  refine .bind_right rfl (.bind (parallel_noteSize d.path n z z' hz) (fun _ _ hs => hs) ?_)
  rintro - - y y' ⟨-, hy⟩
  exact .pure ⟨rfl, hy⟩

/-- A path that is warm has no link, so both namespaces tell the length of its file. -/
theorem parallel_fileSize (p : Path) : Parallel (Pair (μ := μ)) Eq (fileSize p) (fileSize p) := by
  refine Pair.parallel (fun v v' h => ?_) (runs_fileSize p) (runs_fileSize p)
  refine .get_bind ?_
  rw [h.alike.cold']
  cases hk : v.handles.get? p with
  | none =>
    refine .bind (parallel_requireEntry (parallel_lookup p) v v' h) (fun _ _ hs => hs.alike) ?_
    rintro e e' w w' ⟨he, hw⟩
    refine .pure ⟨?_, hw.alike⟩
    rw [← Entry.size_timeless e, ← he, Entry.size_timeless]
  | some k =>
    obtain ⟨f, hf, -, -⟩ := h.left.sound.handles.held p k hk
    obtain ⟨f', hf', hb⟩ := h.alike.trees.file hf
    have hlink : v'.links.get? p = none := by
      rw [h.alike.links]
      cases ht : v.links.get? p with
      | none => rfl
      | some t =>
        have hnone := h.left.consistent.apart p t ht
        rw [hf] at hnone
        cases hnone
    have hroot : ¬ p.isRoot = true := by
      intro hroot
      have hdirectory := h.left.closed.root
      rw [← Path.isRoot_iff.1 hroot, kind?_eq_directory_iff, hf] at hdirectory
      cases hdirectory
    have hentry : call (.entry p) v' = (.ok (.entry p (some (.file f'.bytes.length f'.modified))), v'.runDue) := by
      rw [call_entry_run, h.alike.jobs'.runDue.1, hf']
      rfl
    have hright : wp (do return (← requireEntry p).size) (fun n w => n = f'.bytes.length ∧ w = v'.runDue)
        (fun _ _ => False) v' := by
      unfold requireEntry lookup
      rw [wp_bind, wp_bind, wp_bind, wp_get, hlink]
      rw [if_neg hroot, wp_bind, wp_of_ok hentry, wp_bind]
      refine (wp_of_ok rfl).2 ?_
      rw [wp_bind, wp_get, (reaches_runDue v').waited.handles, h.alike.cold']
      exact ⟨rfl, rfl⟩
    refine (agree_of_ok (h.left.sound.size_run hk hf) (eq_ok_of_wp hright)).2 ⟨?_, h.alike.due_right⟩
    rw [hb]

/-- The writes that wait lose their place in both namespaces, which have none. -/
theorem leadsTo_truncatePath (p : Path) (length : Nat) :
    LeadsTo (Pair (μ := μ)) (AlikeBy Alike) Eq (truncatePath p length) (truncatePath p length) := by
  intro _ v v' h
  have hstale : ∀ u : Vfs Memory μ, Reaches Any u { u with detached := u.detached.invalidateUnder p } :=
    fun u => .single trivial .stale
  refine .bind (Q := fun _ _ => Pair)
    (.modify ⟨(hstale v).fit h.left, (hstale v').fit h.right, { h.alike with }⟩) (fun _ _ hs => hs) fun _ _ w w' hw => ?_
  refine hw.agree_access rfl rfl fun k u f f' hu hfile => ?_
  have hcut : Agree (onFiles (FileStore.truncate k length)) (call (.truncate p length))
      (fun _ _ z z' => True ∧ AlikeBy Alike z z') (AlikeBy Alike) u w' :=
    agree_onFiles_call hu fun host host' =>
      (hfile.truncate length).imp fun _ _ _ _ ht => ⟨trivial, ht⟩
  refine .bind hcut (fun _ _ hs => hs) ?_
  rintro - - z z' ⟨-, hz⟩
  exact parallel_noteSize p length z z' hz

omit [LinkMap μ] in
/-- To flush is to do nothing. -/
theorem parallel_sync (d : Descriptor) : Parallel (Pair (μ := μ)) Eq (sync d) (sync d) := by
  intro v v' h
  refine .get_bind ?_
  rw [h.alike.cold']
  cases v.handles.get? d.path with
  | none => exact .pure ⟨rfl, h⟩
  | some k => exact (agree_of_ok rfl rfl).2 ⟨rfl, h⟩

/-! ### All else -/

/-- One request that changes the tree is answered alike. -/
theorem leadsTo_call {R : Reply Handle → Reply Handle → Prop}
    (hr : ∀ U, Parallel (fun s t : Host × Memory => AlikeOn U s.2 t.2) R r.execute r.execute) :
    LeadsTo (Pair (μ := μ)) (AlikeBy Alike) R (call r) (call r) :=
  fun _ _ _ h => (agree_call h.free (hr _)).mono (fun _ _ _ _ hq => ⟨hq.1, hq.2.shown⟩) fun _ _ hs => hs.shown

/-- The namespaces are used alike, but for what tells warm files from cold ones. -/
theorem likeness_pair : Likeness Entry.timeless (· ≠ []) (Pair (μ := μ)) (AlikeBy Alike) where
  weaken _ _ h := h.alike
  kind := Entry.kind_of_timeless
  links h := h.links
  resolver h := h.resolver
  knownSize h p := h.knownSize p
  now _ _ := rfl
  clearListings := parallel_clearListings
  noteSize := parallel_noteSize
  setLinks := parallel_setLinks
  enter p h := { h with resolver := by rw [h.resolver] }
  lookup := parallel_lookup
  fileSize := parallel_fileSize
  read := leadsTo_read
  write d _ hdata offset := leadsTo_write d hdata offset
  truncatePath := leadsTo_truncatePath
  sync d := (parallel_sync d).leadsTo
  makeDirectory {p r} _ := leadsTo_call fun _ => Request.parallel_createDirectory p r
  makeFile p := leadsTo_call fun _ => Request.parallel_createFile p
  remove p r _ _ hnext _ _ _ h := agree_remove h p r hnext

theorem leadsTo_renameAt {b b' c c' : Option Descriptor}
    (hb : b'.map (Descriptor.through Entry.timeless) = b.map (Descriptor.through Entry.timeless))
    (hc : c'.map (Descriptor.through Entry.timeless) = c.map (Descriptor.through Entry.timeless)) (raw toRaw : String) :
    LeadsTo (Pair (μ := μ)) (AlikeBy Alike) Eq (renameAt b raw c toRaw) (renameAt b' raw c' toRaw) := by
  intro _ v v' h
  have hplan := (likeness_pair.renamePlan hb hc raw toRaw v v' h).and_wp (runs_renamePlan b raw c toRaw v h.left.closed)
    (runs_renamePlan b' raw c' toRaw v' h.right.closed)
  refine .bind hplan (fun _ _ hs => hs.1.alike) ?_
  rintro _ _ w w' ⟨⟨⟨rfl, rfl⟩ | ⟨source, target, e, e', rfl, rfl, he, -⟩, hw⟩, ⟨-, hplanned⟩, -⟩
  · exact .pure ⟨rfl, hw.alike⟩
  · exact (agree_relocate hw (hplanned _ _ e rfl).1 he).imp fun _ _ _ _ h => ⟨rfl, h⟩

end Vfs

end Filespace
