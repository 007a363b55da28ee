import Filespace.Proofs.HealthyNamespaces
import Filespace.Proofs.Sessions

/-!
# What each operation can change

In a session over a healthy namespace an operation makes at most one change. Which one it can be is known from the
operation and the path that its arguments stand for (`Operation.Changes`), and so is what comes before it
(`Operation.Prepares`); after it only caches are noted. An operation that fails has only looked (`Operation.Tries`), but
for a change of length, which gives up the queued writes of its file before the length is looked at.
-/

namespace Filespace.Vfs

open Storage Session

variable {μ α : Type} [LinkMap μ] {v w u : Vfs Memory μ} {s : Session Memory μ} {k : α → SessionM Memory μ Value}
  {b : Option String} {fd : String}

/-! ### At most one change -/

/-- Preparations of the kinds in `P`, and then perhaps a change of a kind in `M` and notes. -/
def Did (P M : Act → Prop) (v w : Vfs Memory μ) : Prop :=
  Reaches P v w ∨ After P (fun u x => ∃ a, M a ∧ Step a u x) v w

section Did

variable {P P' M M' : Act → Prop}

theorem Did.of_after {a : Act} (h : After P' (Step a) v w) (hP : ∀ b, P' b → P b) (ha : M a) : Did P M v w :=
  Or.inr (h.mono hP fun _ _ hx => ⟨a, ha, hx⟩)

/-- A write of bytes is a change of a file, or nothing. -/
theorem Did.of_patched {p : Path} {b : Patch} (h : After P' (Patched p b) v w) (hP : ∀ b, P' b → P b) (hnote : P .note)
    (ha : M (.edit p)) : Did P M v w := by
  obtain ⟨u, x, hu, ⟨-, d, hd, ⟨rfl, -⟩ | ⟨rfl, hshort⟩⟩, hw⟩ := h
  · exact Or.inl ((hu.mono hP).trans (hw.of_only hnote))
  · exact Or.inr ⟨u, _, hu.mono hP, ⟨_, ha, .edit hd rfl hshort⟩, hw⟩

/-- Steps are steps, whatever they are for. -/
theorem Did.reaches (h : Did P M v w) (hP : ∀ a, P a → P' a) (hM : ∀ a, M a → P' a) (hnote : P' .note) :
    Reaches P' v w := by
  rcases h with h | ⟨u, x, hu, ⟨a, ha, hx⟩, hw⟩
  · exact h.mono hP
  · exact (hu.mono hP).trans (.trans (.single (hM a ha) hx) (hw.mono fun b hb => by rw [hb]; exact hnote))

end Did

/-! ### The steps of operations -/

/-- The path that the arguments of an operation stand for. -/
def Names (b : Option String) (raw : String) (follow : Bool) (s : Session Memory μ) (p : Path) : Prop :=
  ∃ d, (base b s).1 = .ok d ∧ (resolve d raw follow s.space).1 = .ok p

omit [LinkMap μ] in
theorem Names.unique {raw : String} {follow : Bool} {p q : Path} (h : Names b raw follow s p)
    (k : Names b raw follow s q) : p = q := by
  obtain ⟨d, hd, hp⟩ := h
  obtain ⟨d', hd', hq⟩ := k
  rw [hd] at hd'
  cases hd'
  rw [hp] at hq
  cases hq
  rfl

/-- What an operation can do before its change. -/
inductive Operation.Prepares (s : Session Memory μ) : Operation → Act → Prop
  | wait {op : Operation} : Prepares s op .wait
  | note {op : Operation} : Prepares s op .note
  | lock {op : Operation} {p : Path} : Prepares s op (.lock p)
  | unlock {op : Operation} {p : Path} : Prepares s op (.unlock p)
  | cut {b : Option String} {raw : String} {flags : Flags} {name : Option String} {p : Path}
      (truncate : flags.truncate = true) (file : s.space.kindAt p = some .file) (names : Names b raw flags.follow s p) :
      Prepares s (.openAt b raw flags name) (.stale p)
  | setSize {fd : String} {length : Nat} {d : Descriptor} (open_ : s.descriptors.get? fd = some d)
      (file : d.isDirectory = false) (writable : d.flags.writable = true) : Prepares s (.setSize fd length) (.stale d.path)
  | removeDirectory {b : Option String} {raw : String} {p : Path} (names : Names b raw false s p) :
      Prepares s (.removeDirectoryAt b raw) (.stale p)
  | unlink {b : Option String} {raw : String} {p : Path} (names : Names b raw false s p) :
      Prepares s (.unlinkAt b raw) (.stale p)
  | rename {b c : Option String} {raw toRaw : String} {source : Path} (names : Names b raw false s source)
      (other : ¬ Names c toRaw false s source) : Prepares s (.renameAt b raw c toRaw) (.stale source)
  | copy {b c : Option String} {raw toRaw : String} {source target : Path} (names : Names b raw false s source)
      (toNames : Names c toRaw false s target) (free : s.space.kindAt target = none) :
      Prepares s (.renameAt b raw c toRaw) (.copy source target)

/-- The changes that an operation can make. -/
inductive Operation.Changes (s : Session Memory μ) : Operation → Act → Prop
  | write {fd : String} {data : Bytes} {offset : Nat} {d : Descriptor} (open_ : s.descriptors.get? fd = some d) :
      Changes s (.write fd data offset) (.edit d.path)
  | writeStream {fd : String} {data : Bytes} {d : Descriptor} (open_ : s.descriptors.get? fd = some d) :
      Changes s (.writeStream fd data) (.edit d.path)
  | writeDetached {fd : String} {data : Bytes} {offset : Nat} {d : Descriptor} (open_ : s.descriptors.get? fd = some d) :
      Changes s (.writeDetached fd data offset) (.edit d.path)
  | queue {fd : String} {data : Bytes} {offset : Nat} {d : Descriptor} (open_ : s.descriptors.get? fd = some d) :
      Changes s (.writeDetached fd data offset) (.queue d.path)
  | setSize {fd : String} {length : Nat} {d : Descriptor} (open_ : s.descriptors.get? fd = some d)
      (file : d.isDirectory = false) (writable : d.flags.writable = true) : Changes s (.setSize fd length) (.edit d.path)
  | cut {b : Option String} {raw : String} {flags : Flags} {name : Option String} {p : Path}
      (truncate : flags.truncate = true) (names : Names b raw flags.follow s p) :
      Changes s (.openAt b raw flags name) (.edit p)
  | create {b : Option String} {raw : String} {flags : Flags} {name : Option String} {p : Path}
      (create : flags.create = true) (names : Names b raw flags.follow s p) :
      Changes s (.openAt b raw flags name) (.make p)
  | createDirectory {b : Option String} {raw : String} {p : Path} (names : Names b raw false s p) :
      Changes s (.createDirectoryAt b raw) (.make p)
  | removeDirectory {b : Option String} {raw : String} {p : Path} (names : Names b raw false s p) :
      Changes s (.removeDirectoryAt b raw) (.drop p)
  | unlink {b : Option String} {raw : String} {p : Path} (names : Names b raw false s p) :
      Changes s (.unlinkAt b raw) (.unlink p)
  | removeFile {b : Option String} {raw : String} {p : Path} (names : Names b raw false s p) :
      Changes s (.unlinkAt b raw) (.drop p)
  | relink {b c : Option String} {raw toRaw : String} {source target : Path} (names : Names b raw false s source)
      (toNames : Names c toRaw false s target) : Changes s (.renameAt b raw c toRaw) (.relink source target)
  | move {b c : Option String} {raw toRaw : String} {source target : Path} (names : Names b raw false s source)
      (toNames : Names c toRaw false s target) (other : ¬ Names c toRaw false s source)
      (free : s.space.kindAt target = none) : Changes s (.renameAt b raw c toRaw) (.move source target)
  | symlink {b : Option String} {text raw : String} {p : Path} (names : Names b raw false s p) :
      Changes s (.symlinkAt b text raw) (.link p)

/-- What an operation can have done when it fails. -/
inductive Operation.Tries (s : Session Memory μ) : Operation → Act → Prop
  | wait {op : Operation} : Tries s op .wait
  | lock {op : Operation} {p : Path} : Tries s op (.lock p)
  | setSize {fd : String} {length : Nat} {d : Descriptor} (open_ : s.descriptors.get? fd = some d)
      (file : d.isDirectory = false) (writable : d.flags.writable = true) : Tries s (.setSize fd length) (.stale d.path)

omit [LinkMap μ] in
theorem Operation.Tries.prepares {op : Operation} {a : Act} (h : op.Tries s a) : op.Prepares s a := by
  cases h with
  | wait => exact .wait
  | lock => exact .lock
  | setSize hd hfile hwritable => exact .setSize hd hfile hwritable

/-- Operations that have looked at everything before they ask the store for a change. -/
def Operation.guarded : Operation → Bool
  | createDirectoryAt _ _ | removeDirectoryAt _ _ | unlinkAt _ _ | renameAt _ _ _ _ => true
  | _ => false

/-! ### Operations in a session -/

/-- How an operation of a session ends: in `D`, or by a failure in `E` after steps of the kinds in `F`, with all
descriptors as they were. -/
def Ended (D : Vfs Memory μ → Prop) (F : Act → Prop) (E : Error → Prop) (x : SessionM Memory μ α)
    (s : Session Memory μ) : Prop :=
  wp x (fun _ t => D t.space)
    (fun r t => Reaches F s.space t.space ∧ t.descriptors = s.descriptors ∧ ∀ e, r = .failed e → E e) s

section Rules

variable {D : Vfs Memory μ → Prop} {F : Act → Prop} {E : Error → Prop}

theorem Ended.onSpace {x : VfsM Memory μ α} (hs : s.space.Healthy) (hx : Ends F x (fun _ w => D w) E s.space)
    (hk : ∀ a t, wp (k a) (fun _ u => u.space = t.space) (fun _ _ => False) t) :
    Ended D F E (onSpace x >>= k) s := by
  refine wp_bind.2 (wp_onSpace.2 ((hx hs).mono (fun a w hw => ?_) fun e w he => ?_))
  · refine (hk a _).mono (fun _ u hu => ?_) fun _ _ hfalse => hfalse.elim
    rw [hu]
    exact hw
  · refine ⟨he.1, rfl, ?_⟩
    rintro _ ⟨⟩
    exact he.2

theorem Ended.bind_descriptor {f : Descriptor → SessionM Memory μ Value}
    (h : ∀ d, s.descriptors.get? fd = some d → Ended D F E (f d) s) : Ended D F E (descriptor fd >>= f) s := by
  refine wp_bind.2 ((wp_descriptor fd s).mono ?_ ?_)
  · rintro d t ⟨rfl, hd⟩
    exact h d hd
  · rintro r t ⟨rfl, rfl⟩
    exact ⟨.refl, rfl, fun _ h => nomatch h⟩

theorem Ended.onDescriptor {x : Descriptor → VfsM Memory μ α}
    (hs : s.space.Healthy) (hx : ∀ d, s.descriptors.get? fd = some d → Ends F (x d) (fun _ w => D w) E s.space)
    (hk : ∀ a t, wp (k a) (fun _ u => u.space = t.space) (fun _ _ => False) t) :
    Ended D F E (Session.descriptor fd >>= fun d => Session.onSpace (x d) >>= k) s :=
  .bind_descriptor fun d hd => .onSpace hs (hx d hd) hk

theorem Ended.bind_base {f : Option Descriptor → SessionM Memory μ Value}
    (h : ∀ d, (base b s).1 = .ok d → Ended D F E (f d) s) : Ended D F E (base b >>= f) s := by
  refine wp_bind.2 ((wp_base b s).mono ?_ ?_)
  · rintro d t ⟨rfl, hd⟩
    exact h d hd
  · rintro r t ⟨rfl, rfl⟩
    exact ⟨.refl, rfl, fun _ h => nomatch h⟩

theorem Ended.onBase {x : Option Descriptor → VfsM Memory μ α}
    (hs : s.space.Healthy) (hx : ∀ d, (base b s).1 = .ok d → Ends F (x d) (fun _ w => D w) E s.space)
    (hk : ∀ a t, wp (k a) (fun _ u => u.space = t.space) (fun _ _ => False) t) :
    Ended D F E (Session.base b >>= fun d => Session.onSpace (x d) >>= k) s :=
  .bind_base fun d hd => .onSpace hs (hx d hd) hk

theorem Ended.path {raw : String} {f : Path → SessionM Memory μ Value} (hE : ∀ e, E e)
    (h : ∀ p, Ended D F E (f p) s) : Ended D F E (path raw >>= f) s := by
  refine wp_bind.2 ?_
  rcases path_run raw s with ⟨p, hp⟩ | ⟨e, he⟩
  · exact (wp_of_ok hp).2 (h p)
  · exact (wp_of_error he).2 ⟨.refl, rfl, fun _ _ => hE _⟩

end Rules

section Kinds

omit [LinkMap μ]

variable {op : Operation} {a : Act} {p : Path} {d : Descriptor}

theorem Operation.Tries.of_wait (h : a = .wait) : op.Tries s a := by
  rw [h]
  exact .wait

theorem Operation.Tries.of_looking (h : Looking p a) : op.Tries s a := by
  cases a with
  | wait => exact .wait
  | lock q => exact .lock
  | _ => exact h.elim

theorem Operation.Tries.of_resizing {length : Nat} (hd : s.descriptors.get? fd = some d)
    (h : Resizing d a) : (Operation.setSize fd length).Tries s a := by
  cases a with
  | wait => exact .wait
  | lock q => exact .lock
  | stale q =>
    obtain rfl : q = d.path := h.1
    obtain ⟨hfile, hwritable⟩ := h.2 rfl
    exact .setSize hd hfile hwritable
  | _ => exact h.1.elim

theorem Operation.Prepares.of_noting (h : Noting a) : op.Prepares s a := by
  rcases h with rfl | rfl
  · exact .wait
  · exact .note

theorem Operation.Prepares.of_cutting (h : Cutting p a) (hp : op.Prepares s (.stale p)) : op.Prepares s a := by
  cases a with
  | wait => exact .wait
  | lock q => exact .lock
  | stale q => exact (show q = p from h) ▸ hp
  | _ => exact h.elim

theorem Operation.Prepares.of_clearing (h : Clearing p a) (hp : op.Prepares s (.stale p)) : op.Prepares s a := by
  cases a with
  | wait => exact .wait
  | note => exact .note
  | unlock q => exact .unlock
  | stale q => exact (show q = p from h) ▸ hp
  | _ => exact h.elim

end Kinds

/-- Every operation makes at most one change, and one that fails has only looked. -/
theorem Operation.ended (op : Operation) (hs : s.space.Healthy) :
    Ended (Did (op.Prepares s) (op.Changes s) s.space) (op.Tries s) (fun e => op.guarded = true → e.Own) op.run s := by
  have hnames : ∀ {b : Option String} {d : Option Descriptor} {raw : String} {follow : Bool} {p : Path},
      (base b s).1 = .ok d → resolve d raw follow s.space = (.ok p, s.space) → Names b raw follow s p :=
    fun hd hres => ⟨_, hd, by rw [hres]⟩
  -- Most operations only look, and there is nothing to know of their failures.
  have reads : ∀ {α : Type} {x : VfsM Memory μ α} {P : Act → Prop} {Q : α → Vfs Memory μ → Prop} {C : Error → Prop},
      Runs P x Q C s.space → (∀ a, P a → op.Tries s a) → op.guarded = false →
      Ends (op.Tries s) x (fun _ w => Did (op.Prepares s) (op.Changes s) s.space w) (fun e => op.guarded = true → e.Own)
        s.space := by
    intro α x P Q C hx hP hop
    refine hx.ends.mono hP (fun _ w hw => Or.inl (hw.1.mono fun a ha => (hP a ha).prepares)) fun _ _ h => ?_
    rw [hop] at h
    cases h
  have notes : ∀ {α : Type} {x : VfsM Memory μ α},
      Ends (· = .wait) x (fun _ w => Noted s.space w) (fun _ => True) s.space → op.guarded = false →
      Ends (op.Tries s) x (fun _ w => Did (op.Prepares s) (op.Changes s) s.space w) (fun e => op.guarded = true → e.Own)
        s.space := by
    intro α x hx hop
    refine hx.mono (fun _ => .of_wait) (fun _ w hw => Or.inl (hw.noting.mono fun _ => .of_noting)) fun _ _ h => ?_
    rw [hop] at h
    cases h
  cases op with
  | openAt b raw flags name =>
    refine .onBase hs (fun d hd => (ends_openAt d raw flags s.space).mono (fun _ => .of_wait) ?_ fun _ _ h => nomatch h)
      fun d t => ?_
    · rintro - w ⟨p, hres, h | ⟨⟨hcut, hfile⟩, h⟩ | ⟨hcreate, h⟩⟩
      · exact Or.inl (h.mono fun _ => .of_noting)
      · have hp := hnames hd hres
        exact .of_after h (fun _ ha => .of_cutting ha (.cut hcut hfile hp)) (.cut hcut hp)
      · exact .of_after h (fun _ ha => .of_noting (Or.inl ha)) (.create hcreate (hnames hd hres))
    · cases name with
      | none | some => rfl
  | preopens name =>
    cases name with
    | none | some => exact Or.inl .refl
  | inspect fd => exact .bind_descriptor fun d _ => Or.inl .refl
  | read fd length offset =>
    exact .onDescriptor hs (fun d _ => reads (runs_read d length offset s.space) (fun _ => .of_looking) rfl) fun _ _ => rfl
  | write fd data offset =>
    refine .onDescriptor hs (fun d hd => (ends_write d data offset s.space).mono (fun _ => .of_looking) ?_
      fun _ _ h => nomatch h) fun _ _ => rfl
    rintro n w ⟨-, hw⟩
    exact .of_patched hw.after (fun _ ha => (Tries.of_looking ha).prepares) .note (.write hd)
  | readStream fd length =>
    exact .onDescriptor hs (fun d _ => reads (runs_readStream d length s.space) (fun _ => .of_looking) rfl) fun _ _ => rfl
  | writeStream fd data =>
    refine .onDescriptor hs (fun d hd => (ends_writeStream d data s.space).mono (fun _ => .of_looking) ?_
      fun _ _ h => nomatch h) fun _ _ => rfl
    rintro r w ⟨offset, -, hw⟩
    exact .of_patched hw.after (fun _ ha => (Tries.of_looking ha).prepares) .note (.writeStream hd)
  | seek fd whence =>
    exact .onDescriptor hs (fun d _ => reads (runs_seek d whence s.space) (fun _ => .of_wait) rfl) fun _ _ => rfl
  | writeDetached fd data offset =>
    refine .onDescriptor hs (fun d hd => (ends_writeDetached d data offset s.space).mono (fun _ h => h) ?_
      fun _ _ h => nomatch h) fun _ _ => rfl
    rintro - w (⟨-, hw⟩ | ⟨hcold, rfl⟩)
    · exact .of_patched hw.after (fun _ ha => ha.prepares) .note (.writeDetached hd)
    · exact .of_after (.of_step (.queue hcold)) (fun _ ha => ha) (.queue hd)
  | setSize fd length =>
    refine .onDescriptor hs (fun d hd => (ends_setSize d length s.space).mono (fun _ => .of_resizing hd)
      ?_ fun _ _ h => nomatch h) fun _ _ => rfl
    rintro - w ⟨⟨hfile, hwritable⟩, hw⟩
    exact .of_after hw (fun _ ha => (Tries.of_resizing hd ha).prepares) (.setSize hd hfile hwritable)
  | sync fd => exact .onDescriptor hs (fun d _ => reads (runs_sync d s.space) (fun _ => .of_wait) rfl) fun _ _ => rfl
  | release fd =>
    refine .onDescriptor hs (fun d _ => (ends_release d s.space).mono (fun _ h => h) (fun _ w hw => Or.inl ?_)
      fun _ h => h) fun _ _ => rfl
    exact hw.of_only .unlock
  | stat fd =>
    exact .onDescriptor hs (fun d _ => reads (runs_requireEntry d.path s.space) (fun _ => .of_wait) rfl) fun _ _ => rfl
  | statAt b raw follow =>
    exact .onBase hs (fun d _ => reads (runs_statAt d raw follow s.space) (fun _ => .of_wait) rfl) fun _ _ => rfl
  | readDirectory fd => exact .onDescriptor hs (fun d _ => notes (ends_readDirectory d s.space) rfl) fun _ _ => rfl
  | readDirectoryAt b raw => exact .onBase hs (fun d _ => notes (ends_readDirectoryAt d raw s.space) rfl) fun _ _ => rfl
  | createDirectoryAt b raw =>
    refine .onBase hs (fun d hd => (ends_createDirectoryAt d raw s.space).mono (fun _ => .of_wait) ?_ fun _ h _ => h)
      fun _ _ => rfl
    rintro - w ⟨p, hres, h⟩
    exact .of_after h (fun _ ha => .of_noting (Or.inl ha)) (.createDirectory (hnames hd hres))
  | removeDirectoryAt b raw =>
    refine .onBase hs (fun d hd => (ends_removeDirectoryAt d raw s.space).mono (fun _ => .of_wait) ?_ fun _ h _ => h)
      fun _ _ => rfl
    rintro - w ⟨p, hres, h⟩
    have hp := hnames hd hres
    exact .of_after h (fun _ ha => .of_clearing ha (.removeDirectory hp)) (.removeDirectory hp)
  | unlinkAt b raw =>
    refine .onBase hs (fun d hd => (ends_unlinkAt d raw s.space).mono (fun _ => .of_wait) ?_ fun _ h _ => h) fun _ _ => rfl
    rintro - w ⟨p, hres, h⟩
    have hp := hnames hd hres
    refine Or.inr (h.mono (fun _ ha => .of_clearing ha (.unlink hp)) fun u x hx => ?_)
    rcases hx with ⟨-, hx⟩ | hx
    · exact ⟨_, .unlink hp, hx⟩
    · exact ⟨_, .removeFile hp, hx⟩
  | renameAt b raw c toRaw =>
    refine .bind_base fun d hd => .onBase hs (fun d' hd' => (ends_renameAt d raw d' toRaw s.space).mono
      (fun _ => .of_wait) ?_ fun _ h _ => h) fun _ _ => rfl
    rintro - w ⟨source, target, hsource, htarget, ⟨-, h⟩ | ⟨⟨hne, hfree⟩, h⟩⟩
    · exact Or.inl (h.mono fun _ ha => .of_noting (Or.inl ha))
    · have hp := hnames hd hsource
      have hq := hnames hd' htarget
      -- Nothing moves unless the two paths differ.
      have hother : ¬ Names c toRaw false s source := fun k => hne (k.unique hq)
      refine Or.inr (h.mono (fun a ha => ?_) fun u x hx => ?_)
      · rcases ha with ha | rfl
        · exact .of_clearing ha (.rename hp hother)
        · exact .copy hp hq hfree
      · rcases hx with hx | hx
        · exact ⟨_, .relink hp hq, hx⟩
        · exact ⟨_, .move hp hq hother hfree, hx⟩
  | symlinkAt b text raw =>
    refine .onBase hs (fun d hd => (ends_symlinkAt d text raw s.space).mono (fun _ => .of_wait) ?_ fun _ h _ => h)
      fun _ _ => rfl
    rintro - w ⟨p, hres, h⟩
    exact .of_after h (fun _ ha => .of_noting (Or.inl ha)) (.symlink (hnames hd hres))
  | readlinkAt b raw =>
    exact .onBase hs (fun d _ => reads (runs_readlinkAt d raw s.space) (fun _ => .of_wait) rfl) fun _ _ => rfl
  | linkAt b old new => exact .onBase hs (fun d _ => .throw fun h => nomatch h) fun _ _ => rfl
  | workingDirectory => exact Or.inl .refl
  | setWorkingDirectory raw => exact .onSpace hs (notes (ends_setWorkingDirectory raw s.space) rfl) fun _ _ => rfl
  | knownSize | isWarm => exact .path (fun _ h => nomatch h) fun p => Or.inl .refl

/-! ### Healthy sessions -/

/-- A namespace that was just started on a store without locks is healthy. -/
theorem healthy_of_start {o : Options} {w w' : World Memory μ} (hstart : start o w = (.ok v, w'))
    (hstore : w.files.Reachable) (hfree : ∀ p, w.files.isLocked p = false) : v.Healthy := by
  obtain ⟨hclosed, hsound⟩ := sound_of_start hstart hstore.closed hfree
  refine ⟨hclosed, ?_, hsound⟩
  unfold start at hstart
  split at hstart
  · cases hstart
  · rcases enter_cases hstart rfl rfl hstore.closed with rfl | ⟨p, f, rfl, -, hgrown⟩
    · exact hstore.short
    · exact hgrown.short hstore.short

theorem Session.healthy_after (run : List Event) (hs : s.space.Healthy) : (s.after run).space.Healthy :=
  (reaches_after run hs.closed).healthy hs

end Filespace.Vfs
