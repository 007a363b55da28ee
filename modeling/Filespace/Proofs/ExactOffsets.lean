import Filespace.Proofs.OffsetsInWords
import Filespace.Proofs.ShellWrites
import Mathlib.Algebra.Group.Int.Defs

/-!
# Offsets at the edge

Any word is taken for an offset, and what comes of it is decided by where the call would end, counted exactly. A read is
cut short to what there is. A write of some bytes, or a new length, is taken exactly if it ends within the longest file,
and is an invalid argument otherwise (`TakenUpTo`); of a queued write this is what the report of its job says. A cursor is
moved exactly if it comes to a word.

Cursors are moved in no other way than by these operations, so the cursors of a session always are words
(`Session.words_played`), and with them no sum that is computed leaves the words (`InRange`).
-/

namespace Filespace

open Storage Memory Session

variable {μ α : Type} {rest : List (Job Work)}

/-! ### Calls that are limited -/

namespace Storage

variable {m : Memory} {p : Path} {d : FileData} {k : Handle} {x : StoreM (Host × Memory) α} {last : Nat}

/-- A call on a store in memory that is taken if it ends within the longest file, and fails for an argument otherwise. -/
def Limited (last : Nat) (x : StoreM (Host × Memory) α) (m : Memory) : Prop :=
  treeWp x (fun _ _ => last ≤ maxLength) (fun e _ => maxLength < last ∧ e.kind = .invalidInput) m

/-- The first call does not fail. -/
theorem Limited.run_bind {β : Type} {y : StoreM Memory α} {a : α} {m' : Memory} {f : α → StoreM (Host × Memory) β}
    (h : y m = (.ok a, m')) (hf : Limited last (f a) m') : Limited last (StoreM.onSecond y >>= f) m := by
  refine treeWp_bind ((treeWp_of_run h).mono ?_ fun _ _ hfalse => hfalse.elim)
  rintro _ _ ⟨rfl, rfl⟩
  exact hf

/-- Nothing is done after the call. -/
theorem Limited.pure {β : Type} (h : Limited last x m) (f : α → β) : Limited last (x >>= fun a => pure (f a)) m :=
  treeWp_bind (h.imp fun _ _ hlast => treeWp_pure hlast)

theorem Memory.wp_writeInto_limited (p : Path) (d : FileData) (pos : Nat) (data : Bytes) (m : Memory) :
    wp (writeInto p d pos data) (fun _ _ => pos + data.length ≤ maxLength)
      (fun e _ => maxLength < pos + data.length ∧ e.kind = .invalidInput) m := by
  refine wp_bind.2 (wp_settle.2 ⟨fun last hlast => ?_, fun e he => ?_⟩)
  · obtain ⟨rfl, -⟩ := InWords.endOffset_eq_ok_iff.1 hlast
    exact wp_bind.2 (wp_ite.2 ⟨fun hfits => hfits, fun hlong => ⟨Nat.lt_of_not_le hlong, rfl⟩⟩)
  · unfold Channel.endOffset at he
    split at he
    · cases he
    · rename_i hlong
      cases he
      exact ⟨Nat.lt_of_lt_of_le (by decide) (Nat.le_of_not_lt hlong), rfl⟩

theorem limited_writeAllAt (hd : m.fileOf? k = some d) {data : Bytes} (hdata : data ≠ []) (offset : Nat) :
    Limited (offset + data.length) ((FileStore.channel k).writeAllAt data offset) m := by
  rintro host s (rfl : s = m)
  have hrun := writeAllAt_run hd hdata offset host
  have hinto := wp_writeInto_limited k.path d offset data s
  rcases hresult : writeInto k.path d offset data s with ⟨e | n, m'⟩ <;> rw [hresult] at hrun
  · exact (wp_of_error hrun).2 ⟨rfl, hinto.error hresult⟩
  · exact (wp_of_ok hrun).2 ⟨rfl, hinto.ok hresult⟩

/-- A write to a file that is there and not locked. -/
theorem limited_writeAt (hc : m.Closed) (hd : m.node? p = some (.file d)) (hl : d.locked = false) (offset : Nat) (data : Bytes)
    (f : Nat → α) : Limited (offset + data.length) (do
      FileStore.file p false
      return f (← FileStore.writeAt p offset data)) m := by
  refine .run_bind (hc.file_run hd) (.pure (treeWp_onSecond (wp_bind.2 (wp_fileAt.2 ⟨fun d' hd' => ?_, fun hdir => ?_,
    fun hnone => ?_⟩))) f)
  · obtain rfl : d = d' := by simpa [hd] using hd'
    rw [hl]
    exact wp_writeInto_limited p d offset data m
  · rw [hd] at hdir
    cases hdir
  · rw [hd] at hnone
    cases hnone

theorem limited_truncate (k : Handle) (length : Nat) (m : Memory) :
    Limited length (FileStore.truncate k length) m := by
  refine treeWp_onSecond (wp_bind.2 (wp_ite.2 ⟨fun hfits => wp_pure.2 (wp_bind.2 (wp_get.2 ?_)), fun hlong =>
    ⟨Nat.lt_of_not_le hlong, rfl⟩⟩))
  cases m.fileOf? k with
  | none | some => exact hfits

theorem limited_withHandle (hc : m.Closed) (hd : m.node? p = some (.file d)) (hl : d.locked = false)
    {use : Handle → StoreM (Host × Memory) α}
    (hu : Limited last (use ⟨p, d.serial⟩) (m.put p (.file { d with locked := true }))) :
    Limited last (Request.withHandle p use) m := by
  refine .run_bind (hc.file_run hd) (.run_bind (openHandle_free_run hd hl) (treeWp_bind (treeWp_attempt ?_)))
  -- Closing the handle does not fail, so the use decides.
  have hclose : ∀ (r : Except StorageError α) m', (∀ a, r = .ok a → last ≤ maxLength) →
      (∀ e, r = .error e → maxLength < last ∧ e.kind = .invalidInput) →
      Limited last (do
        FileStore.close (φ := Memory) (⟨p, d.serial⟩)
        StoreM.settle r) m' := by
    intro r m' hok herror
    refine treeWp_bind ((treeWp_close _ m').mono (fun _ _ _ => treeWp_settle hok herror) ?_)
    rintro e _ ⟨-, hrefused⟩
    exact hrefused.elim
  refine hu.mono (fun a m' hlast => hclose (.ok a) m' (fun _ _ => hlast) fun _ he => by cases he) fun e m' he => ?_
  exact hclose (.error e) m' (fun _ ha => by cases ha) fun _ he' => Except.error.inj he' ▸ he

end Storage

namespace Vfs

variable [LinkMap μ] {v w : Vfs Memory μ} {d : Descriptor} {p : Path} {data : Bytes} {offset generation last : Nat}

/-! ### Writes and new lengths -/

/-- What an operation comes to that is taken if it ends within the longest file, and fails for an argument otherwise. -/
def TakenUpTo (last : Nat) (r : Except Error α) : Prop :=
  (r.isOk = true ↔ last ≤ maxLength) ∧ ∀ e, r = .error e → e.code = .invalidArgument

omit [LinkMap μ] in
theorem TakenUpTo.of_wp {x : VfsM Memory μ α}
    (h : wp x (fun _ _ => last ≤ maxLength) (fun e _ => maxLength < last ∧ e.code = .invalidArgument) v) :
    TakenUpTo last (x v).1 := by
  rcases hrun : x v with ⟨e | a, w⟩
  · obtain ⟨hlong, hcode⟩ := h.error hrun
    refine ⟨by simp [Except.isOk, Except.toBool, hlong], fun e' he' => ?_⟩
    cases he'
    exact hcode
  · exact ⟨by simp [Except.isOk, Except.toBool, h.ok hrun], fun e he => by cases he⟩

/-- A descriptor for reading and writing a file that is there. -/
structure Live (d : Descriptor) (v : Vfs Memory μ) : Prop where
  healthy : v.Healthy
  file : d.isDirectory = false
  readable : d.flags.read = true
  writable : d.flags.writable = true
  there : v.kindAt d.path = some .file

/-- What the store refuses for an argument is an invalid argument. -/
theorem code_storage {e : StorageError} (h : e.kind = .invalidInput) : (Error.storage e).code = .invalidArgument := by
  rw [Error.code, h]
  rfl

omit [LinkMap μ] in
theorem wp_onFiles_limited {x : StoreM (Host × Memory) α} (h : Limited last x v.memory) :
    wp (onFiles x) (fun _ _ => last ≤ maxLength)
      (fun e _ => maxLength < last ∧ e.code = .invalidArgument) v :=
  wp_onFiles (h.mono (fun _ _ hlast _ _ => hlast) fun _ _ he _ _ => ⟨he.1, code_storage he.2⟩)

omit [LinkMap μ] in
/-- A write of some bytes through a handle. -/
theorem Healthy.wp_writeThrough_limited (hv : v.Healthy) {k : Handle} (hk : v.handles.get? p = some k)
    (hdata : data ≠ []) (offset : Nat) :
    wp (writeThrough k data offset) (fun _ _ => offset + data.length ≤ maxLength)
      (fun e _ => maxLength < offset + data.length ∧ e.code = .invalidArgument) v := by
  obtain ⟨f, -, hfile, -⟩ := hv.sound.fileOf? hk
  exact wp_bind.2 ((wp_onFiles_limited (limited_writeAllAt hfile hdata offset)).imp fun _ _ hlast => hlast)

/-- The file is found, with a handle or without. -/
theorem Healthy.wp_handleFor (hv : v.Healthy) (hkind : v.memory.kind? p = some .file)
    {f : Option Handle → VfsM Memory μ α} {Q : α → Vfs Memory μ → Prop} {E : Error → Vfs Memory μ → Prop}
    (hf : ∀ k u, u.Healthy → u.handles.get? p = k → u.memory.kind? p = some .file → wp (f k) Q E u) :
    wp (handleFor p >>= f) Q E v := by
  refine wp_bind.2 ((ends_handleFor p v hv).mono ?_ fun _ _ he => absurd hkind he.2)
  rintro k u ⟨hr, hk, -⟩
  refine hf k u (hr.healthy hv) hk ?_
  rw [← hkind]
  exact (hr.mono fun a ha => Looking.quiet ha fun _ => True).kept.kind p trivial

/-- A request that uses the file without a handle. -/
theorem Healthy.wp_call_limited (hv : v.Healthy) (hcold : v.handles.get? p = none) (hkind : v.memory.kind? p = some .file)
    {r : Request}
    (hr : ∀ m f, m.Closed → m.node? p = some (.file f) → f.locked = false → Limited last (r.execute) m) :
    wp (call r) (fun _ _ => last ≤ maxLength)
      (fun e _ => maxLength < last ∧ e.code = .invalidArgument) v := by
  have hdue := reaches_runDue v
  have hdue' := hdue.healthy hv
  obtain ⟨f, hf⟩ := kind?_eq_file_iff.1 ((hdue.waited.kind? p).trans hkind)
  have hcold : v.runDue.handles.get? p = none := by rw [hdue.waited.handles, hcold]
  exact wp_bind.2 (wp_modify.2 (wp_onFiles_limited (hr _ f hdue'.closed hf (hdue'.sound.unlocked_of_cold hcold hf))))

/-- A job that is done leaves the writes behind it meant. -/
theorem Sound.isCurrent_finished (hv : v.Sound) {i j : Job Work}
    (hq : v.background.queue = i :: rest) (hj : j ∈ rest) (hwork : j.work = .write p generation offset data) :
    (v.finished i rest).detached.isCurrent p generation = v.detached.isCurrent p generation := by
  show (perform i.work (v.world, v.detached)).2.2.isCurrent p generation = _
  cases hi : i.work with
  | link job => rfl
  | write q generation' offset' data' =>
    rw [(perform_write q generation' offset' data' (v.world, v.detached)).1]
    by_cases hp : p = q
    · subst hp
      -- Both are counted among the writes of the path.
      have hfirst : i.work.writesTo p = true := by rw [hi]; exact decide_eq_true rfl
      have hsecond : j.work.writesTo p = true := by rw [hwork]; exact decide_eq_true rfl
      have hrest : 0 < rest.countP fun j => j.work.writesTo p := List.countP_pos_iff.2 ⟨j, hj, hsecond⟩
      have hcount := hv.queue.counted p
      simp only [hq, List.countP_cons, hfirst, if_true] at hcount
      have hpending : 1 < v.detached.pending p := by omega
      exact Detached.isCurrent_finish hpending generation
    · simp only [Detached.isCurrent, Detached.get?_finish, if_neg hp]

namespace Live

variable (h : Live d v)

include h

/-- Waiting changes nothing in this. -/
theorem waited (hw : Reaches (· = .wait) v w) : Live d w :=
  ⟨hw.healthy h.healthy, h.file, h.readable, h.writable, (hw.waited.kindAt d.path).trans h.there⟩

omit [LinkMap μ] in
theorem kind : v.memory.kind? d.path = some .file :=
  kind?_eq_file_iff.2 (kindAt_eq_file_iff.1 h.there).2

/-- The descriptor can be written through. -/
theorem wp_requireWritable {x : VfsM Memory μ α} {Q : α → Vfs Memory μ → Prop}
    {E : Error → Vfs Memory μ → Prop} (hx : wp x Q E v) : wp (requireWritable d >>= fun _ => x) Q E v := by
  refine wp_bind.2 ((ends_requireWritable (F := Any) d v h.healthy).mono ?_ fun _ _ he => absurd ⟨h.file, h.writable⟩ he.2.2)
  rintro - _ ⟨rfl, -⟩
  exact hx

/-- A write of some bytes is taken exactly if it ends within the longest file. -/
theorem wp_write (hdata : data ≠ []) (offset : Nat) : wp (write d data offset) (fun _ _ => offset + data.length ≤ maxLength)
      (fun e _ => maxLength < offset + data.length ∧ e.code = .invalidArgument) v := by
  refine h.wp_requireWritable (h.healthy.wp_handleFor h.kind fun k u hu hk hkind => ?_)
  cases k with
  | none =>
    have hreply := wp_call_of (v := u) fun x _ =>
      (Request.treeWp_writeAt d.path offset data x.memory).mono (fun _ _ h => h) fun _ _ he => ⟨he.1, trivial⟩
    have hcall := hu.wp_call_limited hk hkind (r := .writeAt d.path offset data)
      fun m f hc hf hl => limited_writeAt hc hf hl offset data _
    refine wp_bind.2 ((hcall.and hreply).mono ?_ fun _ _ he => he.1)
    rintro _ _ ⟨hlast, _, _, -, -, _, -, -, rfl, -⟩
    exact hlast
  | some k => exact wp_bind.2 ((hu.wp_writeThrough_limited hk hdata offset).imp fun _ _ hlast => hlast)

theorem takenUpTo_setSize (length : Nat) : TakenUpTo length (setSize d length v).1 := by
  -- The queued writes are given up first, which changes nothing that counts here.
  have hstale : Reaches (· = .stale d.path) v { v with detached := v.detached.invalidateUnder d.path } := .single rfl .stale
  refine .of_wp (h.wp_requireWritable (wp_bind.2 (wp_modify.2 ((hstale.healthy h.healthy).wp_handleFor h.kind
    fun k u hu hk hkind => ?_))))
  cases k with
  | none =>
    refine wp_bind.2 ((hu.wp_call_limited hk hkind fun m f hc hf hl => ?_).imp fun _ _ hlast => hlast)
    exact limited_withHandle hc hf hl (.pure (limited_truncate _ length _) _)
  | some k =>
    exact wp_bind.2 ((wp_onFiles_limited (limited_truncate k length u.memory)).imp fun _ _ hlast => hlast)

/-- A write that nobody waits for is done at once if the file has a handle. -/
theorem takenUpTo_writeDetached (hwarm : v.isWarm d.path = true) (hdata : data ≠ []) (offset : Nat) :
    TakenUpTo (offset + data.length) (writeDetached d data offset v).1 := by
  obtain ⟨k, hk⟩ := Table.contains_eq_true_iff.1 hwarm
  refine .of_wp (h.wp_requireWritable (wp_bind.2 (wp_get.2 ?_)))
  simp only [hk]
  exact wp_bind.2 ((h.healthy.wp_writeThrough_limited hk hdata offset).imp fun _ _ hlast => hlast)

/-- Without a handle it is queued, wherever it ends. -/
theorem queued_writeDetached (hcold : v.isWarm d.path = false) (data : Bytes) (offset : Nat) :
    writeDetached d data offset v = (.ok (), v.queued d.path offset data) := by
  refine eq_ok_of_wp (h.wp_requireWritable (wp_bind.2 (wp_get.2 ?_)))
  simp only [Table.contains_eq_false_iff.1 hcold]
  exact ⟨trivial, rfl⟩

/-- The report of a queued write says whether it ended within the longest file. -/
theorem report {j : Job Work} (hq : v.background.queue = j :: rest) (hwork : j.work = .write d.path generation offset data)
    (hcurrent : v.detached.isCurrent d.path generation = true) (hreported : j.reported = true) :
    ∃ r, (v.runJobs 1).background.reports = ⟨j.id, j.label, r⟩ :: v.background.reports ∧
      TakenUpTo (offset + data.length) r := by
  obtain ⟨f, hf⟩ := kind?_eq_file_iff.1 h.kind
  have hcold : v.handles.get? d.path = none := by
    refine h.healthy.sound.cold_of_queued (by rw [hq]; exact List.mem_cons_self) ?_
    rw [hwork]
    exact decide_eq_true rfl
  have hl := h.healthy.sound.unlocked_of_cold hcold hf
  have hjob := limited_writeAt h.healthy.closed hf hl offset data fun _ => ()
  refine ⟨_, ?_, .of_wp (wp_onFiles_limited hjob)⟩
  rw [runJobs_succ 0 hq]
  simp only [finished, Background.finish, hreported, hwork, perform, hcurrent, if_true]
  rfl

/-- So it is with every write that waits, when the jobs before it are done. -/
theorem report_of_queued {j : Job Work} {before : List (Job Work)}
    (hq : v.background.queue = before ++ j :: rest) (hwork : j.work = .write d.path generation offset data)
    (hcurrent : v.detached.isCurrent d.path generation = true) (hreported : j.reported = true) :
    ∃ r, ⟨j.id, j.label, r⟩ ∈ (v.runJobs (before.length + 1)).background.reports ∧
      TakenUpTo (offset + data.length) r := by
  induction before generalizing v with
  | nil =>
    obtain ⟨r, hreports, hr⟩ := h.report hq hwork hcurrent hreported
    exact ⟨r, by simp [hreports], hr⟩
  | cons i before ih =>
    rw [runJobs_succ _ hq]
    refine ih (h.waited (.single rfl (.job hq))) rfl ?_
    rw [h.healthy.sound.isCurrent_finished hq (by simp) hwork, hcurrent]

/-- The length of the file is told. -/
theorem exists_fileSize : ∃ b, (v.whenAsked d.path).memory.content? d.path = some (.file b) ∧ b.length ≤ maxLength ∧
      fileSize d.path v = (.ok b.length, v.whenAsked d.path) := by
  have hreach := reaches_whenAsked v d.path
  obtain ⟨f, hf⟩ := kind?_eq_file_iff.1 ((hreach.waited.kind? d.path).trans h.kind)
  have hb : (v.whenAsked d.path).memory.content? d.path = some (.file f.bytes) := content?_eq_file_iff.2 ⟨f, hf, rfl⟩
  exact ⟨f.bytes, hb, (hreach.healthy h.healthy).short.bytes hf,
    h.healthy.fileSize_run (Or.inr (kindAt_eq_file_iff.1 h.there).1) hb⟩

/-- A write in sequence starts at the cursor, or where the file ends. -/
theorem takenUpTo_writeStream {n : Nat} (hsize : fileSize d.path v = (.ok n, v.whenAsked d.path)) (hdata : data ≠ []) :
    TakenUpTo ((if d.flags.append then n else d.cursor) + data.length) (writeStream d data v).1 := by
  have hwrite : ∀ {u : Vfs Memory μ} offset, Live d u →
      wp (do
        let n ← write d data offset
        return (n, { d with cursor := offset + n })) (fun _ _ => offset + data.length ≤ maxLength)
        (fun e _ => maxLength < offset + data.length ∧ e.code = .invalidArgument) u :=
    fun offset hu => wp_bind.2 ((hu.wp_write hdata offset).imp fun _ _ hw => hw)
  refine .of_wp ?_
  unfold writeStream
  split
  · exact wp_bind.2 ((wp_of_ok hsize).2 (hwrite n (h.waited (reaches_whenAsked v d.path))))
  · exact hwrite d.cursor h

end Live

/-- Where a position is, counted exactly. -/
def Whence.target (cursor size : Nat) : Whence → Int
  | .start offset => offset
  | .current delta => cursor + delta
  | .ending delta => size + delta

/-- Positions are words, and distances are signed words. -/
def Whence.IsWord : Whence → Prop
  | .start offset => offset < Bytes.offsetLimit
  | .current delta | .ending delta => -2 ^ 63 ≤ delta ∧ delta < 2 ^ 63

/-- What is counted then is a signed number of 128 bits. -/
theorem Whence.IsWord.target {cursor size : Nat} {whence : Whence} (h : whence.IsWord) (hcursor : cursor < Bytes.offsetLimit)
    (hsize : size < Bytes.offsetLimit) : -2 ^ 127 ≤ whence.target cursor size ∧ whence.target cursor size < 2 ^ 127 := by
  have hlimit : Bytes.offsetLimit = 2 ^ 64 := rfl
  cases whence <;> simp only [Whence.IsWord, Whence.target] at h ⊢ <;> omega

/-- A cursor is moved exactly if it comes to a word. -/
theorem seek_run {n : Nat} (hsize : (fileSize d.path v).1 = .ok n) (whence : Whence) :
    (seek d whence v).1 =
      if 0 ≤ whence.target d.cursor n ∧ whence.target d.cursor n < Bytes.offsetLimit then
        .ok ((whence.target d.cursor n).toNat, { d with cursor := (whence.target d.cursor n).toNat })
      else .error (.badSeek d.path (whence.target d.cursor n)) := by
  have htail : ∀ (target : Int) w,
      ((if 0 ≤ target ∧ target < Bytes.offsetLimit then pure (target.toNat, { d with cursor := target.toNat })
        else throw (Error.badSeek d.path target) : VfsM Memory μ (Nat × Descriptor)) w).1 =
      if 0 ≤ target ∧ target < Bytes.offsetLimit then .ok (target.toNat, { d with cursor := target.toNat })
      else .error (.badSeek d.path target) := by
    intro target w
    split
    · rfl
    · rfl
  rcases hrun : fileSize d.path v with ⟨r, w⟩
  rw [hrun] at hsize
  cases whence with
  | start offset =>
    simp only [seek, Whence.target, pure_bind]
    exact htail offset v
  | current delta =>
    exact htail (d.cursor + delta) v
  | ending delta =>
    obtain rfl : r = .ok n := hsize
    simp only [seek, Whence.target, pure_bind]
    rw [bind_run, hrun]
    exact htail (n + delta) w

/-! ### Cursors -/

/-- All cursors are words. -/
def Session.Words (s : Session Memory μ) : Prop := ∀ name d, s.descriptors.get? name = some d → d.cursor < Bytes.offsetLimit

variable {s t : Session Memory μ}

omit [LinkMap μ] in
theorem Session.Words.keep (h : s.Words) (hcursor : d.cursor < Bytes.offsetLimit) (name : String) (v : Vfs Memory μ) :
    Words { space := v, descriptors := s.descriptors.insert name d } := by
  intro n d' hd'
  rw [Table.get?_insert] at hd'
  split at hd'
  · cases hd'
    exact hcursor
  · exact h n d' hd'

/-- The open descriptors are the same. -/
def Session.SameDescriptors (s t : Session Memory μ) : Prop := s.descriptors = t.descriptors

instance : IsPreorder (Session Memory μ) Session.SameDescriptors where
  refl _ := rfl
  trans _ _ _ := Eq.trans

omit [LinkMap μ] in
theorem Session.Words.congr (h : s.Words) (ht : s.SameDescriptors t) : t.Words := fun name d hd => h name d (by rwa [ht])

omit [LinkMap μ] in
/-- Descriptors belong to the session, not to the namespace. -/
theorem Session.sameDescriptors_onSpace (x : VfsM Memory μ α) : Stays SameDescriptors (onSpace x) :=
  stays_iff.2 fun _ => rfl

omit [LinkMap μ] in
theorem Session.sameDescriptors_onDescriptor {fd : String} {x : Descriptor → VfsM Memory μ α} {k : α → Value} :
    Stays SameDescriptors (descriptor fd >>= fun d => onSpace (x d) >>= fun a => pure (k a)) :=
  .bind (stays_descriptor fd) fun d => .bind (sameDescriptors_onSpace (x d)) fun _ => .pure

omit [LinkMap μ] in
theorem Session.sameDescriptors_onBase {b : Option String} {x : Option Descriptor → VfsM Memory μ α} {k : α → Value} :
    Stays SameDescriptors (base b >>= fun d => onSpace (x d) >>= fun a => pure (k a)) :=
  .bind (stays_base b) fun d => .bind (sameDescriptors_onSpace (x d)) fun _ => .pure

/-- A request reads from a short file and tells its length. -/
theorem wp_call_readAt (hv : v.Healthy) (p : Path) (offset length : Nat) :
    wp (call (.readAt p offset length))
      (fun reply _ => ∃ b : Bytes, b.length ≤ maxLength ∧ reply = .bytes (b.slice offset length) b.length)
      (fun _ _ => True) v := by
  refine (wp_call_of fun u _ => (Request.treeWp_readAt p offset length u.memory).mono
    (fun _ _ h => h) fun _ _ he => ⟨he.1, trivial⟩).mono ?_ fun _ _ _ => trivial
  rintro reply w ⟨u, -, hu, -, -, f, hf, -, rfl⟩
  exact ⟨f.bytes, (hu.healthy hv).short.bytes hf, rfl⟩

/-- What is read ends within the longest file. -/
theorem wp_read_end (hv : v.Healthy) (d : Descriptor) (length offset : Nat) :
    wp (read d length offset) (fun r _ => r.1 = [] ∨ offset + r.1.length ≤ maxLength) (fun _ _ => True) v := by
  have hslice : ∀ {b : Bytes}, b.length ≤ maxLength →
      b.slice offset length = [] ∨ offset + (b.slice offset length).length ≤ maxLength := by
    intro b hb
    rw [← List.length_eq_zero_iff, Bytes.length_slice]
    omega
  refine wp_bind.2 ((wp_iff.2 ⟨fun _ w hw => ?_, fun _ _ _ => trivial⟩))
  obtain rfl : v = w := by
    have hsame := stays_iff.1 (stays_requireFile (R := Eq) d) v
    rwa [hw] at hsame
  refine wp_ite.2 ⟨fun _ => trivial, fun _ => wp_bind.2 ?_⟩
  refine (ends_handleFor d.path v hv).mono ?_ fun _ _ _ => trivial
  rintro (_ | k) u ⟨hr, -⟩
  · refine wp_bind.2 ((wp_call_readAt (hr.healthy hv) d.path offset length).mono ?_ fun _ _ _ => trivial)
    rintro reply w ⟨b, hb, rfl⟩
    exact hslice hb
  · refine wp_bind.2 (wp_onFiles ((treeWp_readExactAt k u.memory length offset).mono ?_ fun _ _ _ _ _ => trivial))
    rintro data m ⟨-, rfl⟩ f -
    exact hslice (InWords.length_contentOf_le (hr.healthy hv).short k)

/-- What is written ends at a word. -/
theorem wp_write_end (d : Descriptor) (data : Bytes) (offset : Nat) (v : Vfs Memory μ) :
    wp (write d data offset) (fun n _ => offset + n < Bytes.offsetLimit) (fun _ _ => True) v := by
  refine wp_bind.2 (wp_iff.2 ⟨fun _ w _ => wp_bind.2 (wp_iff.2 ⟨fun k u _ => ?_, fun _ _ _ => trivial⟩),
    fun _ _ _ => trivial⟩)
  cases k with
  | some k =>
    by_cases hlast : offset + data.length < Bytes.offsetLimit
    · exact wp_bind.2 (wp_iff.2 ⟨fun _ _ _ => hlast, fun _ _ _ => trivial⟩)
    · have hrefused : (FileStore.channel k).writeAllAt data offset = throw (.overflow data.length offset) := by
        unfold Channel.writeAllAt Channel.endOffset
        rw [if_neg hlast]
      refine wp_bind.2 (wp_bind.2 ?_)
      rw [hrefused]
      trivial
  | none =>
    have hcall := wp_call_of (v := u) fun x _ =>
      (Request.treeWp_writeAt d.path offset data x.memory).mono (fun _ _ h => h) fun _ _ he => ⟨he.1, trivial⟩
    refine wp_bind.2 (hcall.mono ?_ fun _ _ _ => trivial)
    rintro reply w ⟨x, m, -, -, f, -, -, rfl, -, hfits⟩
    exact InWords.lt_offsetLimit hfits

/-- Reading and writing in sequence and moving the cursor bring it to words. -/
theorem Healthy.wp_readStream_cursor (hv : v.Healthy) (hcursor : d.cursor < Bytes.offsetLimit) (length : Nat) :
    wp (readStream d length) (fun r _ => r.2.cursor < Bytes.offsetLimit) (fun _ _ => True) v := by
  refine wp_bind.2 ((wp_read_end hv d length d.cursor).imp ?_)
  rintro r w (hnone | hend)
  · show d.cursor + r.1.length < Bytes.offsetLimit
    rwa [hnone]
  · exact InWords.lt_offsetLimit hend

theorem wp_writeStream_cursor (d : Descriptor) (data : Bytes) (v : Vfs Memory μ) :
    wp (writeStream d data) (fun r _ => r.2.cursor < Bytes.offsetLimit) (fun _ _ => True) v := by
  have hwrite : ∀ offset (w : Vfs Memory μ), wp (do
        let n ← write d data offset
        return (n, { d with cursor := offset + n })) (fun r _ => r.2.cursor < Bytes.offsetLimit) (fun _ _ => True) w :=
    fun offset w => wp_bind.2 ((wp_write_end d data offset w).imp fun _ _ h => h)
  unfold writeStream
  split
  · exact wp_bind.2 (wp_iff.2 ⟨fun offset w _ => hwrite offset w, fun _ _ _ => trivial⟩)
  · exact hwrite d.cursor v

theorem wp_seek_cursor (d : Descriptor) (whence : Whence) (v : Vfs Memory μ) :
    wp (seek d whence) (fun r _ => r.2.cursor < Bytes.offsetLimit) (fun _ _ => True) v := by
  have htail : ∀ (target : Int) w,
      wp (if 0 ≤ target ∧ target < Bytes.offsetLimit then pure (target.toNat, { d with cursor := target.toNat })
        else throw (Error.badSeek d.path target) : VfsM Memory μ (Nat × Descriptor))
        (fun r _ => r.2.cursor < Bytes.offsetLimit) (fun _ _ => True) w := by
    refine fun target w => wp_ite.2 ⟨fun hword => ?_, fun _ => trivial⟩
    show target.toNat < Bytes.offsetLimit
    omega
  cases whence with
  | start offset =>
    simp only [seek, pure_bind]
    exact htail _ v
  | current delta =>
    exact htail _ v
  | ending delta =>
    exact wp_bind.2 (wp_iff.2 ⟨fun n w _ => htail _ w, fun _ _ _ => trivial⟩)

/-- What an operation does to descriptors keeps their cursors words. -/
theorem Operation.wp_run_words (op : Operation) (hs : s.space.Healthy) (h : s.Words) :
    wp op.run (fun _ t => t.Words) (fun _ t => t.Words) s := by
  have hquiet : ∀ {x : SessionM Memory μ Value}, Stays Session.SameDescriptors x →
      wp x (fun _ t => t.Words) (fun _ t => t.Words) s :=
    fun hx => (hx s).mono (fun _ _ hk => h.congr hk) fun _ _ hk => h.congr hk
  cases op with
  | openAt b raw flags name =>
    refine wp_bind.2 ((Session.wp_base b s).mono ?_ ?_)
    · rintro base _ ⟨rfl, -⟩
      refine wp_bind.2 (Session.wp_onSpace.2 ((wp_openAt_descriptor base raw flags _).mono ?_ fun _ _ _ => h))
      rintro d w ⟨-, hcursor⟩
      cases name with
      | none => exact h
      | some n => exact h.keep (by rw [hcursor]; decide) n w
    · rintro _ _ ⟨rfl, -⟩
      exact h
  | preopens name =>
    cases name with
    | none => exact h
    | some n => exact h.keep (show 0 < Bytes.offsetLimit by decide) n s.space
  | readStream fd length =>
    refine Session.wp_onDescriptor (fun d hd => ?_) h
    exact (hs.wp_readStream_cursor (h fd d hd) length).mono (fun _ w hcursor => h.keep hcursor fd w) fun _ _ _ => h
  | writeStream fd data =>
    refine Session.wp_onDescriptor (fun d _ => ?_) h
    exact (wp_writeStream_cursor d data s.space).mono (fun _ w hcursor => h.keep hcursor fd w) fun _ _ _ => h
  | seek fd whence =>
    refine Session.wp_onDescriptor (fun d _ => ?_) h
    exact (wp_seek_cursor d whence s.space).mono (fun _ w hcursor => h.keep hcursor fd w) fun _ _ _ => h
  | inspect fd => exact hquiet (.bind (Session.stays_descriptor fd) fun _ => .pure)
  | read | write | writeDetached | setSize | sync | release | stat | readDirectory =>
    exact hquiet Session.sameDescriptors_onDescriptor
  | statAt | readDirectoryAt | createDirectoryAt | removeDirectoryAt | unlinkAt | symlinkAt | readlinkAt | linkAt =>
    exact hquiet Session.sameDescriptors_onBase
  | renameAt b => exact hquiet (.bind (Session.stays_base b) fun _ => Session.sameDescriptors_onBase)
  | workingDirectory => exact h
  | setWorkingDirectory => exact hquiet (.bind (Session.sameDescriptors_onSpace _) fun _ => .pure)
  | knownSize raw | isWarm raw => exact hquiet (.bind (Session.stays_path raw) fun _ => .get_bind fun _ => .pure)

/-- The cursors of a session are words after every run. -/
theorem Session.words_played (run : List Moment) (hs : s.space.Healthy) (h : s.Words) : (s.played run).Words := by
  refine (played_induction (I := fun s => s.space.Healthy ∧ s.Words) ?_ ?_ run ⟨hs, h⟩).2
  · rintro e s ⟨hs, h⟩
    refine ⟨healthy_after [e] hs, ?_⟩
    cases e with
    | use op =>
      have hwp := op.wp_run_words hs h
      show ((op.run s).2).Words
      rcases hrun : op.run s with ⟨r | a, t⟩
      · exact hwp.error hrun
      · exact hwp.ok hrun
    | work | pace => exact h
  · rintro host store s ⟨hs, h⟩
    exact ⟨hs.clocked host store, h⟩

/-! ### Any offset -/

/-- No sum that is computed for an operation through a descriptor leaves its range. -/
structure InRange (d : Descriptor) (v : Vfs Memory μ) : Prop where
  cursor : d.cursor < Bytes.offsetLimit
  /-- The cursor comes to words, -/
  readStream : ∀ length, wp (readStream d length) (fun r _ => r.2.cursor < Bytes.offsetLimit) (fun _ _ => True) v
  writeStream : ∀ data, wp (writeStream d data) (fun r _ => r.2.cursor < Bytes.offsetLimit) (fun _ _ => True) v
  /-- and where it is sent is counted in signed numbers of 128 bits. -/
  seek : ∀ whence : Whence, whence.IsWord → ∀ n w, fileSize d.path v = (.ok n, w) →
    -2 ^ 127 ≤ whence.target d.cursor n ∧ whence.target d.cursor n < 2 ^ 127
  /-- All files are short, however far an operation has come, -/
  short : ∀ w, Reaches Any v w → w.memory.Short
  /-- and done in words, the calls that read and write them come to their ends, and to the same as with numbers. -/
  readExactAt : ∀ s : Host × Memory, s.2.Short → ∀ k length offset,
    Faithful (InWords.readExactAt k length offset) ((FileStore.channel (φ := Memory) k).readExactAt length offset) s
  writeAllAt : ∀ (s : Host × Memory) k data offset,
    Faithful (InWords.writeAllAt k data offset) ((FileStore.channel (φ := Memory) k).writeAllAt data offset) s
  writeAt : ∀ m p offset data, Faithful (InWords.writeAt p offset data) (writeAt p offset data) m

/-- What every operation through a descriptor comes to, at whatever offset, where the settled bytes of the file are `c`
and `b` are those that it is asked for its length with. -/
structure Exact (c b : Bytes) (d : Descriptor) (v : Vfs Memory μ) : Prop where
  /-- A read is cut short. -/
  read : ∀ length offset, (Vfs.read d length offset v).1 = .ok ((c.piece offset length).bytes, (c.piece offset length).ended)
  readStream : ∀ length, (Vfs.readStream d length v).1 =
    .ok (((c.piece d.cursor length).bytes, (c.piece d.cursor length).ended), { d with cursor := (c.piece d.cursor length).cursor })
  write : ∀ data offset, data ≠ [] → TakenUpTo (offset + data.length) (Vfs.write d data offset v).1
  writeStream : ∀ data, data ≠ [] →
    TakenUpTo ((if d.flags.append then b.length else d.cursor) + data.length) (Vfs.writeStream d data v).1
  setSize : ∀ length, TakenUpTo length (Vfs.setSize d length v).1
  seek : ∀ whence : Whence, (Vfs.seek d whence v).1 =
    if 0 ≤ whence.target d.cursor b.length ∧ whence.target d.cursor b.length < Bytes.offsetLimit then
      .ok ((whence.target d.cursor b.length).toNat, { d with cursor := (whence.target d.cursor b.length).toNat })
    else .error (.badSeek d.path (whence.target d.cursor b.length))
  /-- With a handle a write that nobody waits for is done at once. -/
  atOnce : v.isWarm d.path = true → ∀ data offset, data ≠ [] →
    TakenUpTo (offset + data.length) (Vfs.writeDetached d data offset v).1
  /-- Without one it is queued, and meant. -/
  queued : v.isWarm d.path = false → ∀ data offset, ∃ w j generation, Vfs.writeDetached d data offset v = (.ok (), w) ∧
    w.background.queue = v.background.queue ++ [j] ∧ j.work = .write d.path generation offset data ∧
    j.reported = v.background.hook ∧ w.detached.isCurrent d.path generation = true
  /-- A queued write that is still meant and of which a report is wanted is reported when its turn has come. -/
  reported : ∀ before j rest generation offset data, v.background.queue = before ++ j :: rest →
    j.work = .write d.path generation offset data → v.detached.isCurrent d.path generation = true → j.reported = true →
    ∃ r : Except Error Unit, ⟨j.id, j.label, r⟩ ∈ (v.runJobs (before.length + 1)).background.reports ∧
      TakenUpTo (offset + data.length) r

theorem Live.inRange (h : Live d v) (hcursor : d.cursor < Bytes.offsetLimit) : InRange d v where
  cursor := hcursor
  readStream := h.healthy.wp_readStream_cursor hcursor
  writeStream data := wp_writeStream_cursor d data v
  seek whence hword n w hn := by
    obtain ⟨b, -, hb, hsize⟩ := h.exists_fileSize
    rw [hsize] at hn
    cases hn
    exact hword.target hcursor (InWords.lt_offsetLimit hb)
  short w hw := (hw.healthy h.healthy).short
  readExactAt s hs k := InWords.faithful_readExactAt hs k
  writeAllAt s k data offset := InWords.faithful_writeAllAt k data offset s
  writeAt m p offset data := InWords.faithful_writeAt p offset data m

theorem Live.exact (h : Live d v) {c b : Bytes} (hc : v.Settles d.path c)
    (hsize : fileSize d.path v = (.ok b.length, v.whenAsked d.path)) : Exact c b d v where
  read length offset := by
    have hread := h.healthy.wp_read hc h.file h.readable length offset
    rcases hrun : Vfs.read d length offset v with ⟨e | r, w⟩
    · exact (hread.error hrun).elim
    · rw [(hread.ok hrun).1]
  readStream length := by
    have hread : wp (Vfs.readStream d length) (fun r _ => r = (((c.piece d.cursor length).bytes, (c.piece d.cursor length).ended),
        { d with cursor := (c.piece d.cursor length).cursor })) (fun _ _ => False) v := by
      refine wp_bind.2 ((h.healthy.wp_read hc h.file h.readable length d.cursor).imp ?_)
      rintro r w ⟨rfl, -⟩
      rfl
    rcases hrun : Vfs.readStream d length v with ⟨e | r, w⟩
    · exact (hread.error hrun).elim
    · rw [hread.ok hrun]
  write _ offset hdata := .of_wp (h.wp_write hdata offset)
  writeStream _ hdata := h.takenUpTo_writeStream hsize hdata
  setSize := h.takenUpTo_setSize
  seek := seek_run (by rw [hsize])
  atOnce hwarm _ offset hdata := h.takenUpTo_writeDetached hwarm hdata offset
  queued hcold data offset :=
    ⟨_, _, _, h.queued_writeDetached hcold data offset, rfl, rfl, rfl, Detached.isCurrent_enter_self _ _⟩
  reported _ _ _ _ _ _ hq hwork hcurrent hreported := h.report_of_queued hq hwork hcurrent hreported

/-- Offsets are computed exactly. Let a file be there that a descriptor of a session is open on for reading and writing,
with a cursor that was moved in any manner. At whatever offset an operation through it is done, no sum that it computes
leaves the words and no stretch of a buffer is taken that is not there; a read is cut short; a write of some bytes, or a
new length, is taken exactly if it ends within the longest file; and the cursor is moved exactly if it comes to a word. -/
theorem offsets_are_computed_exactly {μ : Type} [LinkMap μ] {o : Options} {w w' : World Memory μ} {v : Vfs Memory μ}
    (hstart : start o w = (.ok v, w')) (hstore : w.files.Reachable) (hfree : ∀ p, w.files.isLocked p = false)
    (run : List Moment) {s : Session Memory μ} (hplayed : Session.played ⟨v, ∅⟩ run = s) {fd : String} {d : Descriptor}
    (hd : s.descriptors.get? fd = some d) (hfile : d.isDirectory = false) (hread : d.flags.read = true)
    (hwritable : d.flags.writable = true) (hthere : s.space.kindAt d.path = some .file) :
    InRange d s.space ∧ ∃ c b, s.space.Settles d.path c ∧
      (s.space.whenAsked d.path).memory.content? d.path = some (.file b) ∧ Exact c b d s.space := by
  have hv := healthy_of_start hstart hstore hfree
  have hwords : s.Words := by
    rw [← hplayed]
    exact Session.words_played run hv fun name d hnone => by cases hnone
  have hlive : Live d s.space := by
    refine ⟨?_, hfile, hread, hwritable, hthere⟩
    rw [← hplayed]
    exact Session.healthy_played run hv
  obtain ⟨c, hc⟩ := exists_settles hlive.kind
  obtain ⟨b, hb, -, hsize⟩ := hlive.exists_fileSize
  exact ⟨hlive.inRange (hwords fd d hd), c, b, hc, hb, hlive.exact hc hsize⟩

/-- The empty namespace in memory, of whose jobs reports are wanted. -/
def aLagoon : Vfs Memory Records := fresh { hook := true } {} ⟨{}, {}, {}⟩

/-- A cursor goes as far as it can, and a write is queued that ends one byte too far. -/
def sailing : List Moment :=
  [.event (.use (.openAt none "reef" .createFile (some "reef"))),
    .event (.use (.seek "reef" (.start 18446744073709551615))),
    .event (.use (.writeDetached "reef" [1] 4294967296))]

def reef : Descriptor := ⟨⟨[⟨"reef", by decide⟩]⟩, .file 0 0, .createFile, 18446744073709551615⟩

def reefJob : Job Work := ⟨1, "detached write /reef", true, .write reef.path 0 4294967296 [1]⟩

/-- The cursor is at the last word and cannot go on, and the byte behind the longest file is not written. -/
theorem offsets_are_computed_exactly_on_reef :
    let s : Session Memory Records := Session.played ⟨aLagoon, ∅⟩ sailing
    s.descriptors.get? "reef" = some reef ∧ InRange reef s.space ∧
      (seek reef (.current 1) s.space).1 = .error (.badSeek reef.path 18446744073709551616) ∧
      (write reef [1] 4294967295 s.space).1.isOk = true ∧ (write reef [1] 4294967296 s.space).1.isOk = false ∧
      ∃ e, e.code = .invalidArgument ∧ ⟨1, "detached write /reef", .error e⟩ ∈ (s.space.runJobs 1).background.reports := by
  intro s
  have hstart : start { hook := true } (⟨{}, {}, {}⟩ : World Memory Records) = (.ok aLagoon, ⟨{}, {}, {}⟩) := rfl
  obtain ⟨-, hstore, hfree⟩ := inMemory_started
  have hd : s.descriptors.get? "reef" = some reef := by decide +kernel
  obtain ⟨hrange, c, b, -, -, hexact⟩ :=
    offsets_are_computed_exactly hstart hstore hfree sailing rfl hd rfl rfl rfl (by decide +kernel)
  have hqueue : s.space.background.queue = [reefJob] := by rfl
  obtain ⟨r, hr, htaken, hcode⟩ := hexact.reported [] reefJob [] 0 4294967296 [1] hqueue rfl (by decide +kernel) rfl
  have htarget : Whence.target reef.cursor b.length (.current 1) = 18446744073709551616 :=
    show ((18446744073709551615 : Nat) : Int) + 1 = 18446744073709551616 by decide
  have hseek := hexact.seek (.current 1)
  rw [htarget, if_neg (by decide)] at hseek
  refine ⟨hd, hrange, hseek, (hexact.write [1] 4294967295 (by decide)).1.2 (by decide), ?_, ?_⟩
  · exact Bool.eq_false_iff.2 fun hok => absurd ((hexact.write [1] 4294967296 (by decide)).1.1 hok) (by decide)
  · cases r with
    | ok => exact absurd (htaken.1 rfl) (by decide)
    | error e => exact ⟨e, hcode e rfl, hr⟩

end Vfs

end Filespace
