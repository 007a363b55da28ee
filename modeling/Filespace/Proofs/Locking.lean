import Filespace.Proofs.Steps

/-!
# Warm handles, locks and queued writes

A file of the store is locked exactly while the namespace keeps a handle on it (`HandlesAgree`), the writes in the queue
are those that are counted (`QueueAgrees`), and no path has both a handle and a queued write. Together this is `Sound`,
and every step keeps it (`Step.sound`).

It is why nobody ever meets a lock: a queued write finds its file unlocked, since a locked file is warm and a warm
file has no queued writes.
-/

namespace Filespace

open Storage Memory Backed Detached

/-! ### Labels -/

/-- What a queued write to a path is for. -/
def Work.writeLabel (p : Path) : String := "detached write " ++ p.display

/-- What a piece of work is for. -/
def Work.label : Work → String
  | link job => job.label
  | write p _ _ _ => writeLabel p

/-- Does a piece of work write to a path? -/
def Work.writesTo (p : Path) : Work → Bool
  | link _ => false
  | write q _ _ _ => q = p

/-- No change of the records is taken for a write. -/
theorem LinkJob.label_ne_writeLabel (l : LinkJob) (p : Path) : l.label ≠ Work.writeLabel p := by
  intro h
  have h := congrArg (fun s => s.toList.take 3) h
  cases l with
  | put q t =>
    change ("persist symlink " ++ q.display).toList.take 3 = ("detached write " ++ p.display).toList.take 3 at h
    simp at h
  | delete q =>
    change ("delete symlink " ++ q.display).toList.take 3 = ("detached write " ++ p.display).toList.take 3 at h
    simp at h

/-- The number of writes to a path that are counted. -/
def Detached.pending (d : Detached) (p : Path) : Nat := ((d.paths.get? p).map PathWrites.pending).getD 0

/-- A failure is of the class "busy" only if the store refused a call with it. -/
def Error.Calm (φ : Type) [FileStore φ] [Backed φ] (e : Error) : Prop :=
  e.code = .busy → ∃ s, e = .storage s ∧ refuses φ s

namespace Vfs

variable {φ μ : Type} [FileStore φ] [Backed φ] {rest : List (Job Work)} {j : Job Work}

/-- The locked files of a tree are those with a handle, and the handles are on them. -/
structure HandlesAgree (handles : Handles φ) (m : Memory) : Prop where
  /-- A handle is on a locked file at its path. -/
  held : ∀ p h, handles.get? p = some h →
    ∃ d, m.node? p = some (.file d) ∧ d.locked = true ∧ memoryHandle h = ⟨p, d.serial⟩
  /-- A locked file has a handle. -/
  known : ∀ p, m.isLocked p = true → ∃ h, handles.get? p = some h

/-- The queue and what is counted of it. -/
structure QueueAgrees (φ : Type) [FileStore φ] [Backed φ] (b : Background Work) (d : Detached) : Prop where
  /-- Each write in the queue is counted. -/
  counted : ∀ p, b.queue.countP (fun j => j.work.writesTo p) = d.pending p
  /-- Only paths with queued writes are known. -/
  positive : ∀ p w, d.paths.get? p = some w → 0 < w.pending
  /-- Each job says what it is for. -/
  labelled : ∀ j ∈ b.queue, j.label = j.work.label
  /-- No write has met a lock. -/
  quiet : ∀ r ∈ b.reports, ∀ p e, r.label = Work.writeLabel p → r.outcome = .error e → e.Calm φ

/-- Handles, locks and queued writes of a namespace agree. -/
structure Sound (v : Vfs φ μ) : Prop where
  handles : HandlesAgree v.handles v.memory
  queue : QueueAgrees φ v.background v.detached
  /-- A path with a handle has no queued writes. -/
  cold : ∀ p h, v.handles.get? p = some h → v.detached.hasPending p = false

/-! ### Handles and locks -/

section Handles

variable {handles : Handles φ} {m m' : Memory} {p target : Path}

variable (h : HandlesAgree handles m)

include h

/-- A path with no handle is not locked. -/
theorem HandlesAgree.unlocked (hp : handles.get? p = none) : m.isLocked p = false := by
  rw [Bool.eq_false_iff]
  intro hl
  obtain ⟨k, hk⟩ := h.known p hl
  rw [hp] at hk
  cases hk

/-- A path that is not locked has no handle. -/
theorem HandlesAgree.noHandle (hp : m.isLocked p = false) : handles.get? p = none := by
  cases hk : handles.get? p with
  | none => rfl
  | some k =>
    obtain ⟨d, hd, hl, -⟩ := h.held p k hk
    rw [isLocked_eq_true_iff.2 ⟨d, hd, hl⟩] at hp
    cases hp

/-- Handles do not care what the bytes of a file are. -/
theorem HandlesAgree.congr (ho : ∀ p, m'.outline? p = m.outline? p) : HandlesAgree handles m' := by
  refine ⟨?_, ?_⟩
  · intro p k hk
    obtain ⟨d, hd, hl, hh⟩ := h.held p k hk
    have hkind : m'.kind? p = some .file := by
      rw [kind?_of_outline? (ho p), kind?_eq_file_iff]
      exact ⟨d, hd⟩
    obtain ⟨d', hd'⟩ := kind?_eq_file_iff.1 hkind
    have hout := ho p
    unfold outline? at hout
    rw [hd, hd'] at hout
    simp only [Option.map_some, Node.outline, Option.some.injEq, Node.file.injEq,
      FileData.mk.injEq] at hout
    exact ⟨d', hd', by rw [hout.2.2.1, hl], by rw [hh, hout.1]⟩
  · intro p hl
    rw [isLocked_of_outline? (ho p)] at hl
    exact h.known p hl

/-- Where the tree changes there are no handles before, and no locks after. -/
theorem HandlesAgree.of_changed
    (hchanged : ∀ q, m'.node? q = m.node? q ∨ m.isLocked q = false ∧ m'.isLocked q = false) :
    HandlesAgree handles m' := by
  refine ⟨?_, ?_⟩
  · intro q k hk
    obtain ⟨d, hd, hl, hh⟩ := h.held q k hk
    rcases hchanged q with hsame | ⟨hfree, -⟩
    · exact ⟨d, by rw [hsame, hd], hl, hh⟩
    · rw [isLocked_eq_true_iff.2 ⟨d, hd, hl⟩] at hfree
      cases hfree
  · intro q hl
    rcases hchanged q with hsame | ⟨-, hfree⟩
    · unfold isLocked at hl
      rw [hsame] at hl
      exact h.known q hl
    · rw [hfree] at hl
      cases hl

theorem HandlesAgree.pruned (hfree : m.Unlocked p) : HandlesAgree handles (m.prune p) := by
  refine h.of_changed fun q => ?_
  rw [node?_prune]
  split
  · rename_i hu
    refine Or.inr ⟨hfree q hu, ?_⟩
    unfold isLocked
    rw [node?_prune, if_pos hu]
  · exact Or.inl rfl

theorem HandlesAgree.moved {source : Path} (hm : Moved source target m m') : HandlesAgree handles m' := by
  refine h.of_changed fun q => ?_
  cases hs : q.under source with
  | true =>
    refine Or.inr ⟨hm.unlocked q (Or.inl hs), ?_⟩
    unfold isLocked
    rw [hm.gone q hs]
  | false =>
    cases ht : q.under target with
    | true => exact Or.inr ⟨hm.unlocked q (Or.inr ht), hm.unlocked' q ht⟩
    | false => exact Or.inl (hm.same q hs ht)

theorem HandlesAgree.lock {d : FileData} {k : FileStore.Handle φ} (hk : memoryHandle k = ⟨p, d.serial⟩) :
    HandlesAgree (handles.insert p k) (m.put p (.file { d with locked := true })) := by
  refine ⟨?_, ?_⟩
  · intro q k' hq
    rw [Table.get?_insert] at hq
    rw [node?_put]
    split at hq
    · rename_i e
      cases hq
      rw [if_pos e, e]
      exact ⟨_, rfl, rfl, hk⟩
    · rename_i e
      rw [if_neg e]
      exact h.held q k' hq
  · intro q hl
    rw [Table.get?_insert]
    split
    · exact ⟨k, rfl⟩
    · rename_i e
      unfold isLocked at hl
      rw [node?_put_of_ne _ _ e] at hl
      exact h.known q hl

theorem HandlesAgree.unlock {k : FileStore.Handle φ} (hp : handles.get? p = some k) :
    HandlesAgree (handles.erase p) (m.release (memoryHandle k)) := by
  obtain ⟨d, hd, -, hk⟩ := h.held p k hp
  have hfile : m.fileOf? (memoryHandle k) = some d := by
    rw [hk, fileOf?_eq_some_iff]
    exact ⟨hd, rfl⟩
  have hnode : ∀ q, (m.release (memoryHandle k)).node? q =
      if q = p then some (.file { d with locked := false }) else m.node? q := by
    intro q
    rw [node?_release, hfile, hk]
  refine ⟨?_, ?_⟩
  · intro q k' hq
    rw [Table.get?_erase] at hq
    split at hq
    · cases hq
    · rename_i e
      rw [hnode, if_neg e]
      exact h.held q k' hq
  · intro q hl
    rw [Table.get?_erase]
    unfold isLocked at hl
    rw [hnode] at hl
    split at hl
    · rename_i n hn
      split at hn
      · cases hn
        cases hl
      · rename_i e
        rw [if_neg e]
        refine h.known q ?_
        unfold isLocked
        rw [hn]
        exact hl
    · cases hl

end Handles

/-! ### The queue -/

section Queue

variable {b : Background Work} {d : Detached} {p : Path}

/-- A path is known exactly if a write to it is in the queue. -/
theorem QueueAgrees.hasPending_iff (h : QueueAgrees φ b d) :
    d.hasPending p = true ↔ ∃ j ∈ b.queue, j.work.writesTo p = true := by
  have hpos : 0 < d.pending p ↔ ∃ j ∈ b.queue, j.work.writesTo p = true := by
    rw [← h.counted]
    exact List.countP_pos_iff
  rw [← hpos]
  unfold hasPending pending
  rw [Table.contains_eq_true_iff]
  constructor
  · rintro ⟨w, hw⟩
    rw [hw]
    exact h.positive p w hw
  · intro hpos
    cases hw : d.paths.get? p with
    | none =>
      rw [hw] at hpos
      cases hpos
    | some w => exact ⟨w, rfl⟩

/-- With an empty queue no path is known. -/
theorem QueueAgrees.hasPending_of_nil (h : QueueAgrees φ b d) (hq : b.queue = []) : d.hasPending p = false := by
  rw [Bool.eq_false_iff]
  intro hp
  obtain ⟨j, hj, -⟩ := h.hasPending_iff.1 hp
  rw [hq] at hj
  cases hj

theorem Detached.pending_finish (d : Detached) (p q : Path) :
    (d.finish p).pending q = if q = p then d.pending p - 1 else d.pending q := by
  unfold pending
  rw [get?_finish]
  split
  · cases d.paths.get? p with
    | none => rfl
    | some w =>
      simp only [Option.bind_some, Option.map_some, Option.getD_some]
      split
      · simp only [Option.map_none, Option.getD_none]
        omega
      · rfl
  · rfl

theorem Detached.pending_enter (d : Detached) (p q : Path) :
    (d.enter p).2.pending q = if q = p then d.pending p + 1 else d.pending q := by
  unfold pending
  rw [get?_enter]
  split <;> rfl

theorem Detached.pending_invalidateUnder (d : Detached) (p q : Path) :
    (d.invalidateUnder p).pending q = d.pending q := by
  unfold pending
  rw [get?_invalidateUnder]
  cases d.paths.get? q with
  | none => rfl
  | some w =>
    split <;> rfl

theorem Detached.hasPending_invalidateUnder (d : Detached) (p q : Path) :
    (d.invalidateUnder p).hasPending q = d.hasPending q := by
  unfold hasPending Table.contains
  rw [get?_invalidateUnder, Option.isSome_map]

/-- Making writes meaningless leaves them in the queue. -/
theorem QueueAgrees.stale (h : QueueAgrees φ b d) (p : Path) : QueueAgrees φ b (d.invalidateUnder p) where
  counted q := by rw [h.counted, Detached.pending_invalidateUnder]
  positive q w hw := by
    rw [get?_invalidateUnder, Option.map_eq_some_iff] at hw
    obtain ⟨w', hw', rfl⟩ := hw
    have := h.positive q w' hw'
    split
    · exact this
    · exact this
  labelled := h.labelled
  quiet := h.quiet

/-- One more write is queued. -/
theorem QueueAgrees.enter (h : QueueAgrees φ b d) (p : Path) (generation offset : Nat) (data : Bytes) :
    QueueAgrees φ (b.submit (Work.writeLabel p) (.write p generation offset data)).2 (d.enter p).2 where
  counted q := by
    rw [Detached.pending_enter, Background.submit, List.countP_append, h.counted]
    by_cases e : q = p
    · simp [Work.writesTo, e]
    · simp [Work.writesTo, e, Ne.symm e]
  positive q w hw := by
    rw [get?_enter] at hw
    split at hw
    · cases hw
      exact Nat.succ_pos _
    · exact h.positive q w hw
  labelled j hj := by
    rcases List.mem_append.1 hj with hj | hj
    · exact h.labelled j hj
    · rw [List.mem_singleton.1 hj]
      rfl
  quiet := h.quiet

/-- Queued changes of the records are no writes. -/
theorem QueueAgrees.links (h : QueueAgrees φ b d) (jobs : List LinkJob) :
    QueueAgrees φ (jobs.foldl (fun b j => (b.submit j.label (.link j)).2) b) d := by
  induction jobs generalizing b with
  | nil => exact h
  | cons job jobs ih =>
    refine ih ⟨?_, h.positive, ?_, h.quiet⟩
    · intro q
      show List.countP _ (b.queue ++ [_]) = _
      rw [List.countP_append, h.counted]
      simp [Work.writesTo]
    · intro j hj
      rcases List.mem_append.1 hj with hj | hj
      · exact h.labelled j hj
      · rw [List.mem_singleton.1 hj]
        rfl

/-- The first job leaves the queue. Its outcome is reported, so it must not be a write that met a lock. -/
theorem QueueAgrees.finish (h : QueueAgrees φ b d) {d' : Detached}
    (hq : b.queue = j :: rest) {r : Except StorageError Unit}
    (hd : ∀ q, d'.pending q = if j.work.writesTo q = true then d.pending q - 1 else d.pending q)
    (hpos : ∀ q w, d'.paths.get? q = some w → 0 < w.pending)
    (hr : ∀ p e, j.work.label = Work.writeLabel p → r = .error e → (Error.storage e).Calm φ) :
    QueueAgrees φ { b.finish j r with queue := rest } d' where
  counted q := by
    have := h.counted q
    rw [hq, List.countP_cons] at this
    rw [hd]
    split
    · rename_i hw
      rw [if_pos hw] at this
      show List.countP _ rest = _
      omega
    · rename_i hw
      rw [if_neg hw] at this
      exact this
  positive := hpos
  labelled k hk := h.labelled k (by rw [hq]; exact List.mem_cons_of_mem _ hk)
  quiet k hk p e hlabel hout := by
    unfold Background.finish at hk
    split at hk
    · rcases List.mem_cons.1 hk with rfl | hk
      · cases r with
        | ok a => cases hout
        | error s =>
          cases hout
          refine hr p s ?_ rfl
          rw [← h.labelled j (by rw [hq]; exact List.mem_cons_self)]
          exact hlabel
      · exact h.quiet k hk p e hlabel hout
    · exact h.quiet k hk p e hlabel hout

end Queue

/-! ### All steps -/

variable [LinkMap μ] {v w : Vfs φ μ} {a : Act} {P : Act → Prop}

/-- Only the kind "busy" becomes the class "busy". -/
theorem Error.calm_storage {e : StorageError} (h : BusyOnly φ False e) : (Error.storage e).Calm φ := by
  intro hcode
  have hkind : e.kind = .resourceBusy := by
    have hcode : Code.ofKind e.kind = .busy := hcode
    generalize e.kind = k at hcode ⊢
    cases k <;> first | rfl | cases hcode
  rcases h hkind with hr | hf
  · exact ⟨e, rfl, hr⟩
  · exact hf.elim

/-- A write whose turn has come meets no lock: a locked file is warm, and then no write to it is in the queue. -/
theorem Sound.not_busy (h : Sound v) (hq : v.background.queue = j :: rest)
    {p : Path} {generation offset : Nat} {data : Bytes} (hw : j.work = .write p generation offset data)
    {e : StorageError} (he : (perform j.work (v.world, v.detached)).1 = .error e) : (Error.storage e).Calm φ := by
  rw [hw] at he
  refine Error.calm_storage (((perform_write p generation offset data (v.world, v.detached)).2.2 e he).mono ?_)
  intro hl
  obtain ⟨k, hk⟩ := h.handles.known p hl
  have hpending : v.detached.hasPending p = true := by
    refine h.queue.hasPending_iff.2 ⟨j, by rw [hq]; exact List.mem_cons_self, ?_⟩
    rw [hw]
    simp [Work.writesTo]
  rw [h.cold p k hk] at hpending
  cases hpending

/-- A job keeps handles, locks and queue in agreement. -/
theorem Sound.finished (h : Sound v) (hq : v.background.queue = j :: rest) : Sound (v.finished j rest) := by
  have hcold : ∀ p k, v.handles.get? p = some k → (v.finished j rest).detached.hasPending p = false :=
    fun p k hk => (Step.job hq).waited.cold p (h.cold p k hk)
  refine ⟨h.handles.congr (outline?_finished v j rest), ?_, hcold⟩
  unfold Vfs.finished
  cases hw : j.work with
  | link job =>
    refine h.queue.finish hq (fun q => ?_) h.queue.positive ?_
    · rw [hw]
      rfl
    · intro p e hlabel _
      rw [hw] at hlabel
      exact absurd hlabel (job.label_ne_writeLabel p)
  | write p generation offset data =>
    rw [(perform_write p generation offset data (v.world, v.detached)).1]
    refine h.queue.finish hq (fun q => ?_) ?_ ?_
    · rw [hw, Detached.pending_finish]
      by_cases e : q = p
      · simp [Work.writesTo, e]
      · simp [Work.writesTo, e, Ne.symm e]
    · intro q w hqw
      rw [get?_finish] at hqw
      split at hqw
      · obtain ⟨w', -, hw'⟩ := Option.bind_eq_some_iff.1 hqw
        split at hw'
        · cases hw'
        · cases hw'
          show 0 < w'.pending - 1
          omega
      · exact h.queue.positive q w hqw
    · intro _ e _ he
      exact h.not_busy hq hw (by rw [hw]; exact he)

/-- Every step keeps handles, locks and queue in agreement. -/
theorem Step.sound (hs : Step a v w) (hc : v.memory.Closed) (h : Sound v) : Sound w := by
  cases hs with
  | job hq => exact h.finished hq
  | @pass _ f l htree =>
    refine ⟨?_, h.queue, h.cold⟩
    show HandlesAgree v.handles (tree f)
    rw [htree]
    exact h.handles
  | note => exact ⟨h.handles, h.queue, h.cold⟩
  | @lock _ p f k d hcold hidle hfile hfree hk htree =>
    refine ⟨?_, h.queue, ?_⟩
    · show HandlesAgree (v.handles.insert p k) (tree f)
      rw [htree]
      exact h.handles.lock hk
    · intro q k' hq
      rw [Table.get?_insert] at hq
      split at hq
      · rename_i e
        rw [e]
        exact hidle.elim id h.queue.hasPending_of_nil
      · exact h.cold q k' hq
  | @unlock _ p f k hwarm htree =>
    refine ⟨?_, h.queue, ?_⟩
    · show HandlesAgree (v.handles.erase p) (tree f)
      rw [htree]
      exact h.handles.unlock hwarm
    · intro q k' hq
      rw [Table.get?_erase] at hq
      split at hq
      · cases hq
      · exact h.cold q k' hq
  | @stale _ p =>
    refine ⟨h.handles, h.queue.stale p, ?_⟩
    intro q k hq
    rw [Detached.hasPending_invalidateUnder]
    exact h.cold q k hq
  | @queue _ p offset data hcold =>
    refine ⟨h.handles, h.queue.enter p _ offset data, ?_⟩
    intro q k (hq : v.handles.get? q = some k)
    show (v.detached.enter p).2.hasPending q = false
    rw [hasPending_eq_false_iff, get?_enter, if_neg]
    · exact hasPending_eq_false_iff.1 (h.cold q k hq)
    · rintro rfl
      rw [hcold] at hq
      cases hq
  | @edit _ p f d bytes hfile htree _ =>
    refine ⟨h.handles.congr fun q => ?_, h.queue, h.cold⟩
    show (tree f).outline? q = _
    rw [htree, outline?_revised hfile]
  | @make _ p f _ hg =>
    refine ⟨h.handles.of_changed fun q => ?_, h.queue, h.cold⟩
    by_cases hq : v.memory.node? q = none
    · refine Or.inr ⟨?_, hg.unlocked q hq⟩
      unfold isLocked
      rw [hq]
    · exact Or.inl (hg.old q hq)
  | link | unlink | relink => exact ⟨h.handles, h.queue.links _, h.cold⟩
  | @dropFile _ p f d _ _ hfree htree =>
    refine ⟨?_, h.queue, h.cold⟩
    show HandlesAgree v.handles (tree f)
    rw [htree]
    exact h.handles.pruned hfree
  | @dropTree _ p f _ hfree htree =>
    refine ⟨?_, h.queue.links _, h.cold⟩
    show HandlesAgree v.handles (tree f)
    rw [htree]
    exact h.handles.pruned hfree
  | @copy _ source target f hfree _ _ hcopy =>
    refine ⟨h.handles.of_changed fun q => ?_, h.queue, h.cold⟩
    cases hu : q.under target with
    | false => exact Or.inl (hcopy.same q hu)
    | true =>
      refine Or.inr ⟨?_, hcopy.unlocked q hu⟩
      unfold isLocked
      rw [hc.nothing_under hfree hu]
  | moveFile _ _ hm => exact ⟨h.handles.moved hm, h.queue, h.cold⟩
  | moveTree _ hm => exact ⟨h.handles.moved hm, h.queue.links _, h.cold⟩

theorem Reaches.sound (hr : Reaches P v w) (hc : v.memory.Closed) (h : Sound v) : Sound w :=
  (hr.keeps (I := fun u => u.memory.Closed ∧ Sound u)
    (fun _ _ _ _ hs hu => ⟨hs.closed hu.1, hs.sound hu.1 hu.2⟩) ⟨hc, h⟩).2

end Vfs

end Filespace
