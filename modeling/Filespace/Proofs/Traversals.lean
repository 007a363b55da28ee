import Filespace.Proofs.Outlines
import Filespace.Proofs.Sessions

/-!
# Operations that look for files or use them

Most operations look for entries, use the content of a file, or both. They are put together from a few calls, and
a relation that bears these calls (`Bears`) bears the operations: each of them ends, well or not, in a state that the
relation has to the first one. A relation that bears the others as well (`Carries`) holds along every use of a session.
-/

namespace Filespace.Vfs

open Storage FileStore

variable {φ μ α : Type} [FileStore φ] [LinkMap μ] {R : Vfs φ μ → Vfs φ μ → Prop}

/-- A relation of a namespace to what becomes of it when entries are looked for and files are used. -/
structure Bears (R : Vfs φ μ → Vfs φ μ → Prop) : Prop where
  /-- Waiting for the queue. -/
  waitIdle : Stays R (waitIdle : VfsM φ μ Unit)
  /-- Requests that look, or use the content of a file. -/
  look : ∀ {r : Request}, r.Looks → Stays R (call r)
  /-- Reading through a handle. -/
  readExactAt : ∀ (h : Handle φ) (length offset : Nat),
    Stays R (onFiles ((channel h).readExactAt length offset))
  /-- Writing through a handle. -/
  writeAllAt : ∀ (h : Handle φ) (data : Bytes) (offset : Nat),
    Stays R (onFiles ((channel h).writeAllAt data offset))
  /-- The length by a handle. -/
  size : ∀ h : Handle φ, Stays R (onFiles (size h))
  /-- Giving a new length by a handle. -/
  truncate : ∀ (h : Handle φ) (length : Nat), Stays R (onFiles (truncate h length))
  /-- Flushing a handle. -/
  flush : ∀ h : Handle φ, Stays R (onFiles (flush h))
  /-- Keeping handles and sizes. -/
  note : ∀ (v : Vfs φ μ) (handles : Handles φ) (sizes : Table Path FileMeta),
    R v { v with handles := handles, sizes := sizes }
  /-- Queued writes losing their meaning. -/
  stale : ∀ (v : Vfs φ μ) (p : Path), R v { v with detached := v.detached.invalidateUnder p }

section Preorders

variable [IsPreorder (Vfs φ μ) R]

/-- Doing jobs is a chain of single ones. -/
theorem related_runJobs (hjob : ∀ v j rest, v.background.queue = j :: rest → R v (v.finished j rest)) (n : Nat)
    (v : Vfs φ μ) : R v (v.runJobs n) := by
  induction n generalizing v with
  | zero =>
    exact refl_of R v
  | succ n ih =>
    cases hq : v.background.queue with
    | nil =>
      rw [runJobs_nil _ hq]
      exact refl_of R v
    | cons j rest =>
      rw [runJobs_succ n hq]
      exact trans_of R (hjob v j rest hq) (ih _)

theorem related_runDue (hjob : ∀ v j rest, v.background.queue = j :: rest → R v (v.finished j rest))
    (hpace : ∀ v l, R v { v with pace := l }) (v : Vfs φ μ) : R v v.runDue := by
  unfold runDue
  cases v.pace with
  | nil => exact related_runJobs hjob _ v
  | cons n rest => exact trans_of R (related_runJobs hjob n v) (hpace _ rest)

omit [LinkMap μ]

theorem stays_settle (r : Except StorageError α) : Stays R (settle r) := by
  refine stays_iff.2 fun v => ?_
  exact refl_of R v

/-- Finding the path changes nothing. -/
theorem stays_resolve (base : Option Descriptor) (raw : String) (follow : Bool) :
    Stays R (resolve base raw follow) := by
  have hfrom : ∀ base, Stays R (resolveFrom base raw follow) := by
    refine fun base => .get_bind fun v => ?_
    cases v.resolver.relative base raw with
    | error f => exact .throw
    | ok p =>
      dsimp only
      cases v.resolver.resolveLinks v.links p follow with
      | error e => exact .throw
      | ok q => exact .pure
  cases base with
  | none => exact hfrom none
  | some d => exact .guard (hfrom (some d.path))

theorem resolve_run {v : Vfs φ μ} {base : Option Descriptor} {raw : String} {follow : Bool} {p : Path}
    (h : (resolve base raw follow v).1 = .ok p) : resolve base raw follow v = (.ok p, v) :=
  Prod.ext h (stays_iff.1 (stays_resolve (R := Eq) base raw follow) v).symm

theorem stays_requireFile (d : Descriptor) : Stays R (requireFile d) :=
  .ite (fun _ => .throw) fun _ => .pure

theorem stays_requireWritable (d : Descriptor) : Stays R (requireWritable d) :=
  .bind (stays_requireFile d) fun _ => .ite (fun _ => .throw) fun _ => .pure

end Preorders

namespace Bears

theorem mono {R' : Vfs φ μ → Vfs φ μ → Prop} (hR : Bears R) (h : ∀ v w, R v w → R' v w) : Bears R' where
  waitIdle := hR.waitIdle.mono h
  look hr := (hR.look hr).mono h
  readExactAt k length offset := (hR.readExactAt k length offset).mono h
  writeAllAt k data offset := (hR.writeAllAt k data offset).mono h
  size k := (hR.size k).mono h
  truncate k length := (hR.truncate k length).mono h
  flush k := (hR.flush k).mono h
  note v handles sizes := h _ _ (hR.note v handles sizes)
  stale v p := h _ _ (hR.stale v p)

variable (hR : Bears R)

include hR

theorem noteSize (p : Path) (size : Nat) : Stays R (noteSize p size) :=
  .modify fun v => hR.note v v.handles _

variable [IsPreorder (Vfs φ μ) R]

/-! ### Looking -/

theorem lookup (p : Path) : Stays R (lookup p) := by
  refine .get_bind fun v => ?_
  split
  · exact .pure
  · refine .ite (fun _ => .pure) fun _ => .bind (hR.look trivial) fun reply => .bind (stays_settle _) fun found => ?_
    split
    · exact .pure
    · exact .pure
    · refine .get_bind fun w => ?_
      split
      · exact .bind (hR.size _) fun _ => .pure
      · exact .pure

theorem requireEntry (p : Path) : Stays R (requireEntry p) := by
  refine .bind (hR.lookup p) fun found => ?_
  cases found with
  | some e => exact .pure
  | none => exact .throw

theorem requireParent (p : Path) : Stays R (requireParent p) := by
  unfold Vfs.requireParent
  split
  · exact .pure
  · refine .bind (hR.lookup _) fun found => ?_
    split
    · exact .pure
    · exact .throw
    · exact .throw

theorem requireFree (p : Path) : Stays R (requireFree p) :=
  .guard (.bind (hR.lookup p) fun _ => .guard (hR.requireParent p))

theorem statAt (base : Option Descriptor) (raw : String) (follow : Bool) : Stays R (statAt base raw follow) :=
  .bind (stays_resolve base raw follow) fun p => hR.requireEntry p

theorem readlinkAt (base : Option Descriptor) (raw : String) : Stays R (readlinkAt base raw) := by
  refine .bind (stays_resolve base raw false) fun p => .get_bind fun v => ?_
  split
  · exact .pure
  · exact .bind (hR.requireEntry p) fun _ => .throw

theorem renamePlan (base : Option Descriptor) (raw : String) (toBase : Option Descriptor)
    (toRaw : String) : Stays R (renamePlan base raw toBase toRaw) := by
  refine .bind (stays_resolve base raw false) fun source => .bind (stays_resolve toBase toRaw false) fun target => ?_
  refine .guard (.bind (hR.requireEntry source) fun entry => .ite (fun _ => .pure) fun _ => ?_)
  refine .bind (hR.lookup target) fun _ => .guard (.guard ?_)
  exact .bind (hR.requireParent target) fun _ => .pure

/-! ### Using the content of files -/

theorem acquire (p : Path) : Stays R (acquire p) := by
  refine .get_bind fun v => ?_
  split
  · exact .pure
  · refine .bind (hR.look trivial) fun reply => .bind (stays_settle _) fun h => ?_
    exact .bind (.modify fun v => hR.note v _ v.sizes) fun _ => .pure

theorem handleFor (p : Path) : Stays R (handleFor p) := by
  have hacquire : Stays R (do return some (← Vfs.acquire p)) :=
    .bind (hR.acquire p) fun _ => .pure
  refine .get_bind fun v => .ite (fun _ => ?_) fun _ => hacquire
  have hcold : Stays R (do
      if v.coldPath = .direct then return none
      return some (← Vfs.acquire p)) :=
    .ite (fun _ => .pure) fun _ => hacquire
  exact .ite (fun _ => .bind hR.waitIdle fun _ => hcold) fun _ => hcold

variable (d : Descriptor)

theorem read (length offset : Nat) : Stays R (read d length offset) := by
  refine .bind (stays_requireFile d) fun _ => .guard (.bind (hR.handleFor d.path) fun handle => ?_)
  split
  · exact .bind (hR.readExactAt _ length offset) fun _ => .bind (hR.size _) fun _ => .pure
  · exact .bind (hR.look trivial) fun _ => .bind (stays_settle _) fun _ => .pure

theorem writeThrough (h : Handle φ) (data : Bytes) (offset : Nat) : Stays R (writeThrough h data offset) :=
  .bind (hR.writeAllAt h data offset) fun _ => hR.size h

theorem write (data : Bytes) (offset : Nat) : Stays R (write d data offset) := by
  refine .bind (stays_requireWritable d) fun _ => .bind (hR.handleFor d.path) fun handle => ?_
  split
  · exact .bind (hR.writeThrough _ data offset) fun n => .bind (hR.noteSize d.path n) fun _ => .pure
  · exact .bind (hR.look trivial) fun _ => .bind (stays_settle _) fun n => .bind (hR.noteSize d.path n) fun _ => .pure

theorem fileSize (p : Path) : Stays R (fileSize p) := by
  refine .get_bind fun v => ?_
  split
  · exact hR.size _
  · exact .bind (hR.requireEntry p) fun _ => .pure

theorem readStream (length : Nat) : Stays R (readStream d length) :=
  .bind (hR.read d length d.cursor) fun _ => .pure

theorem writeStream (data : Bytes) : Stays R (writeStream d data) := by
  have hrest : ∀ offset, Stays R (do
      let n ← Vfs.write d data offset
      return (n, { d with cursor := offset + n })) :=
    fun offset => .bind (hR.write d data offset) fun _ => .pure
  exact .ite (fun _ => .bind (hR.fileSize d.path) hrest) fun _ => hrest _

theorem seek (whence : Whence) : Stays R (seek d whence) := by
  have hmove : ∀ target : Int, Stays R (if 0 ≤ target ∧ target < Bytes.offsetLimit
      then pure (target.toNat, { d with cursor := target.toNat })
      else throw (.badSeek d.path target) : VfsM φ μ (Nat × Descriptor)) := by
    intro target
    split
    · exact .pure
    · exact .throw
  unfold Vfs.seek
  cases whence with
  | start offset =>
    simp only [pure_bind]
    -- The offset is given as a number, and the bound on it must not be computed.
    generalize (offset : Int) = target
    exact hmove target
  | current delta => exact .bind .pure hmove
  | ending delta => exact .bind (hR.fileSize d.path) fun _ => .bind .pure hmove

/-- What is left to do of a new length when the queued writes are out of the way. -/
theorem resize (p : Path) (length : Nat) : Stays R (do
    match ← Vfs.handleFor p with
    | some h => onFiles (FileStore.truncate h length)
    | none => do
      let _ ← call (.truncate p length)
    Vfs.noteSize p length : VfsM φ μ Unit) := by
  refine .bind (hR.handleFor p) fun handle => ?_
  split
  · exact .bind (hR.truncate _ length) fun _ => hR.noteSize p length
  · exact .bind (hR.look trivial) fun _ => hR.noteSize p length

theorem truncatePath (p : Path) (length : Nat) : Stays R (truncatePath p length) :=
  .bind (.modify fun v => hR.stale v p) fun _ => hR.resize p length

theorem setSize (length : Nat) : Stays R (setSize d length) :=
  .bind (stays_requireWritable d) fun _ => hR.truncatePath d.path length

theorem sync : Stays R (sync d) := by
  refine .get_bind fun v => ?_
  split
  · exact hR.flush _
  · exact .pure

theorem openExisting (p : Path) (flags : Flags) (e : Entry) : Stays R (openExisting p flags e) :=
  .guard (.guard (.guard (.ite (fun _ => .bind (hR.truncatePath p 0) fun _ => .get_bind fun _ => .pure) fun _ => .pure)))

/-- A relation that bears the making of entries bears their opening. -/
theorem openAt {flags : Flags} (hnew : ∀ p, Stays R (openNew p flags))
    (base : Option Descriptor) (raw : String) : Stays R (openAt base raw flags) := by
  refine .bind (stays_resolve base raw flags.follow) fun p => .bind (hR.lookup p) fun found => ?_
  split
  · exact .throw_bind
  · exact .bind (hR.openExisting p flags _) fun _ => .pure
  · exact .bind (hnew p) fun _ => .pure

end Bears

/-! ### Sessions -/

namespace Session

omit [LinkMap μ]

/-- A relation between namespaces, for sessions on them. -/
def Across (R : Vfs φ μ → Vfs φ μ → Prop) (s t : Session φ μ) : Prop := R s.space t.space

instance {R : Vfs φ μ → Vfs φ μ → Prop} [IsPreorder (Vfs φ μ) R] : IsPreorder (Session φ μ) (Across R) where
  refl s := refl_of R s.space
  trans _ _ _ := trans_of R

theorem stays_onSpace {x : VfsM φ μ α} (hx : Stays R x) : Stays (Across R) (onSpace x) :=
  fun s => wp_onSpace.2 (hx s.space)

variable {R : Session φ μ → Session φ μ → Prop} [IsPreorder (Session φ μ) R]

/-- Descriptors are looked up without a change. -/
theorem stays_descriptor (name : String) : Stays R (descriptor name) := by
  refine .get_bind fun s => ?_
  split
  · exact .pure
  · exact .throw

theorem stays_base (name : Option String) : Stays R (base name) := by
  cases name with
  | none => exact .pure
  | some n => exact (stays_descriptor n).map

theorem stays_path (raw : String) : Stays R (path raw) := by
  unfold path
  split
  · exact .pure
  · exact .throw

section Across

variable {R : Vfs φ μ → Vfs φ μ → Prop} [IsPreorder (Vfs φ μ) R]

theorem stays_keep (name : String) (d : Descriptor) : Stays (Across R) (keep name d) :=
  .modify fun s => refl_of R s.space

/-- A descriptor is used and then the namespace. -/
theorem stays_onDescriptor {fd : String} {x : Descriptor → VfsM φ μ α} {k : α → SessionM φ μ Value}
    (hx : ∀ d, Stays R (x d)) (hk : ∀ a, Stays (Across R) (k a)) :
    Stays (Across R) (descriptor fd >>= fun d => onSpace (x d) >>= k) :=
  .bind (stays_descriptor fd) fun d => .bind (stays_onSpace (hx d)) hk

theorem stays_onBase {b : Option String} {x : Option Descriptor → VfsM φ μ α} {k : α → SessionM φ μ Value}
    (hx : ∀ d, Stays R (x d)) (hk : ∀ a, Stays (Across R) (k a)) :
    Stays (Across R) (base b >>= fun d => onSpace (x d) >>= k) :=
  .bind (stays_base b) fun d => .bind (stays_onSpace (hx d)) hk

end Across

end Session

open Session

/-- A relation of a namespace to what becomes of it when it is used. Opening is left out: it may be borne in some cases
only. -/
structure Carries (R : Vfs φ μ → Vfs φ μ → Prop) : Prop extends Bears R where
  /-- Going to another directory. -/
  goTo : ∀ (v : Vfs φ μ) (resolver : Resolver), R v { v with resolver := resolver }
  /-- Queueing a write. -/
  queue : ∀ (v : Vfs φ μ) (p : Path) (offset : Nat) (data : Bytes), R v (v.queued p offset data)
  release : ∀ d : Descriptor, Stays R (release d : VfsM φ μ Bool)
  list : ∀ dir : Path, Stays R (list dir : VfsM φ μ (List DirEntry))
  createDirectoryAt : ∀ (base : Option Descriptor) (raw : String), Stays R (createDirectoryAt base raw : VfsM φ μ Unit)
  removeDirectoryAt : ∀ (base : Option Descriptor) (raw : String), Stays R (removeDirectoryAt base raw : VfsM φ μ Unit)
  unlinkAt : ∀ (base : Option Descriptor) (raw : String), Stays R (unlinkAt base raw : VfsM φ μ Unit)
  renameAt : ∀ (base : Option Descriptor) (raw : String) (toBase : Option Descriptor) (toRaw : String),
    Stays R (renameAt base raw toBase toRaw : VfsM φ μ Unit)
  symlinkAt : ∀ (base : Option Descriptor) (target raw : String), Stays R (symlinkAt base target raw : VfsM φ μ Unit)

section Carries

variable [IsPreorder (Vfs φ μ) R]

theorem Carries.setWorkingDirectory (hR : Carries R) (raw : String) : Stays R (Vfs.setWorkingDirectory raw) := by
  refine .bind (stays_resolve none raw true) fun p => .bind (hR.lookup p) fun found => ?_
  split
  · exact .modify fun v => hR.goTo v _
  · exact .throw
  · exact .throw

theorem Carries.writeDetached (hR : Carries R) (d : Descriptor) (data : Bytes) (offset : Nat) :
    Stays R (Vfs.writeDetached d data offset) := by
  refine .bind (stays_requireWritable d) fun _ => stays_iff.2 fun v => ?_
  cases hwarm : v.handles.get? d.path with
  | some h =>
    have hthrough : Stays R (do
        let size ← Vfs.writeThrough h data offset
        Vfs.noteSize d.path size) :=
      .bind (hR.writeThrough h data offset) fun n => hR.noteSize d.path n
    have hrun := stays_iff.1 hthrough v
    rw [bind_run]
    simp only [show (get : VfsM φ μ _) v = (.ok v, v) from rfl, hwarm]
    exact hrun
  | none =>
    rw [bind_run]
    simp only [show (get : VfsM φ μ _) v = (.ok v, v) from rfl, hwarm]
    exact hR.queue v d.path offset data

theorem Carries.run (hR : Carries R) (op : Operation)
    (hopen : ∀ b p flags name, op = .openAt b p flags name →
      ∀ base, Stays R (openAt base p flags)) :
    Stays (Across R) op.run := by
  cases op with
  | openAt b p flags name =>
    refine stays_onBase (fun d => hopen b p flags name rfl d) fun d => ?_
    cases name with
    | none => exact .pure
    | some n => exact .bind (stays_keep n d) fun _ => .pure
  | preopens name =>
    cases name with
    | none => exact .pure
    | some n => exact .bind (stays_keep n _) fun _ => .pure
  | inspect fd => exact .bind (stays_descriptor fd) fun _ => .pure
  | read fd length offset => exact stays_onDescriptor (fun d => hR.read d length offset) fun _ => .pure
  | write fd data offset => exact stays_onDescriptor (fun d => hR.write d data offset) fun _ => .pure
  | readStream fd length =>
    exact stays_onDescriptor (fun d => hR.readStream d length) fun a => .bind (stays_keep fd a.2) fun _ => .pure
  | writeStream fd data =>
    exact stays_onDescriptor (fun d => hR.writeStream d data) fun a => .bind (stays_keep fd a.2) fun _ => .pure
  | seek fd whence =>
    exact stays_onDescriptor (fun d => hR.seek d whence) fun a => .bind (stays_keep fd a.2) fun _ => .pure
  | writeDetached fd data offset => exact stays_onDescriptor (fun d => hR.writeDetached d data offset) fun _ => .pure
  | setSize fd length => exact stays_onDescriptor (fun d => hR.setSize d length) fun _ => .pure
  | sync fd => exact stays_onDescriptor (fun d => hR.sync d) fun _ => .pure
  | release fd => exact stays_onDescriptor (fun d => hR.release d) fun _ => .pure
  | stat fd => exact stays_onDescriptor (fun d => hR.requireEntry d.path) fun _ => .pure
  | statAt b p follow => exact stays_onBase (fun d => hR.statAt d p follow) fun _ => .pure
  | readDirectory fd => exact stays_onDescriptor (fun d => .guard (hR.list d.path)) fun _ => .pure
  | readDirectoryAt b p =>
    exact stays_onBase (fun d => .bind (stays_resolve d p true) fun dir => hR.list dir) fun _ => .pure
  | createDirectoryAt b p => exact stays_onBase (fun d => hR.createDirectoryAt d p) fun _ => .pure
  | removeDirectoryAt b p => exact stays_onBase (fun d => hR.removeDirectoryAt d p) fun _ => .pure
  | unlinkAt b p => exact stays_onBase (fun d => hR.unlinkAt d p) fun _ => .pure
  | renameAt b p c q =>
    exact .bind (stays_base b) fun d => stays_onBase (fun e => hR.renameAt d p e q) fun _ => .pure
  | symlinkAt b target p => exact stays_onBase (fun d => hR.symlinkAt d target p) fun _ => .pure
  | readlinkAt b p => exact stays_onBase (fun d => hR.readlinkAt d p) fun _ => .pure
  | linkAt b old new => exact stays_onBase (fun _ => .throw) fun _ => .pure
  | workingDirectory => exact .get_bind fun _ => .pure
  | setWorkingDirectory p => exact .bind (stays_onSpace (hR.setWorkingDirectory p)) fun _ => .pure
  | knownSize p | isWarm p => exact .bind (stays_path p) fun _ => .get_bind fun _ => .pure

end Carries

end Filespace.Vfs
