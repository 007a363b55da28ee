import Filespace.Proofs.HealthyFiles
import Filespace.Proofs.Renaming

/-!
# Changes of a healthy namespace

An operation that changes the namespace looks, prepares and then makes one change, after which only caches are noted. If
it fails, it has only looked. The preparations of a removal or a move drop what is held of an entry, so they must not be
followed by a failure: on a healthy namespace the call of the store that comes next cannot fail, since all that could
stop it was looked at before.
-/

namespace Filespace.Vfs

open Storage Memory

variable {μ : Type} [LinkMap μ] {v w u : Vfs Memory μ} {p source target : Path} {a : Act}

/-! ### Kinds of preparations -/

/-- Waiting, and notes in caches. -/
def Noting (a : Act) : Prop := a = .wait ∨ a = .note

theorem Reaches.noting (h : Reaches (· = .wait) v w) : Reaches Noting v w := h.mono fun _ => Or.inl

/-! ### Opening -/

/-- What opening an entry can do: it cuts the file, or it makes the entry, or it only looks. -/
def Opened (p : Path) (flags : Flags) (v w : Vfs Memory μ) : Prop :=
  Reaches Noting v w ∨
    (flags.truncate = true ∧ v.kindAt p = some .file) ∧ After (Cutting p) (Step (.edit p)) v w ∨
    flags.create = true ∧ After (· = .wait) (Step (.make p)) v w

/-- The store has made something new where no link is on the way. -/
def Made (p : Path) (x : Content) (v w : Vfs Memory μ) : Prop :=
  ∃ u m, Reaches (· = .wait) v u ∧ (∀ q ∈ p.trail, u.links.get? q = none) ∧ Added p x u.memory m ∧ w = u.withFiles m

theorem Made.of_waited {x : Content} (hr : Reaches (· = .wait) v w) (h : Made p x w u) : Made p x v u := by
  obtain ⟨y, m, hy, h⟩ := h
  exact ⟨y, m, hr.trans hy, h⟩

theorem Made.after {x : Content} (h : Made p x v w) (k : Reaches (· = .note) w u) : After (· = .wait) (Step (.make p)) v u := by
  obtain ⟨y, m, hy, hlinks, hadded, rfl⟩ := h
  exact ⟨y, _, hy, .make hlinks hadded.grown, k⟩

/-- A request that makes something at a free path, whatever it waits for. -/
theorem Healthy.wp_make {r : Request} {x : Content} {U : StorageError → Prop} (hv : v.Healthy)
    (hlinks : ∀ q ∈ p.trail, v.links.get? q = none) (hfree : v.memory.node? p = none)
    (h : ∀ u, Waited v u → u.memory.Closed → u.memory.node? p = none →
      treeWp (φ := Memory) r.execute (fun _ m => Added p x u.memory m) (fun e m => m = u.memory ∧ U e) u.memory) :
    wp (call r) (fun _ w => Made p x v w) (fun e w => Reaches (· = .wait) v w ∧ ∃ s, e = .storage s ∧ U s) v := by
  refine (wp_call_of fun u hu => h u hu.waited (hu.closed hv.closed) (kind?_eq_none_iff.1 ?_)).imp ?_
  · rw [hu.waited.kind?, kind?_eq_none_iff.2 hfree]
  · rintro - _ ⟨u, m, hu, rfl, hadded⟩
    exact ⟨u, m, hu, by rwa [hu.waited.links], hadded, rfl⟩

/-- How an entry is opened: it is there and stays as it is, or it is a file and is cut, or it is made. -/
inductive Opens (p : Path) (flags : Flags) (v : Vfs Memory μ) : Entry → Vfs Memory μ → Prop
  | look {e : Entry} {w : Vfs Memory μ} : flags.truncate = false → Reaches (· = .wait) v w → w.entryAt p = some e →
      Opens p flags v e w
  | cut {size modified : Nat} {w : Vfs Memory μ} : flags.truncate = true → v.kindAt p = some .file → Trimmed p 0 v w →
      Opens p flags v (.file size modified) w
  | makeDirectory {u : Vfs Memory μ} : flags.create = true → flags.directory = true → Made p .directory v u →
      Opens p flags v .directory { u with listings := u.listings.clear }
  | makeFile {u : Vfs Memory μ} {modified : Nat} : flags.create = true → flags.directory = false → Made p (.file []) v u →
      Opens p flags v (.file 0 modified) { u with listings := u.listings.clear, sizes := u.sizes.insert p ⟨0, u.now⟩ }

namespace Opens

variable {flags : Flags} {e : Entry}

theorem of_waited (hr : Reaches (· = .wait) v w) (h : Opens p flags w e u) : Opens p flags v e u := by
  cases h with
  | look hflag hu he => exact .look hflag (hr.trans hu) he
  | cut hflag hkind hu =>
    obtain ⟨y, x, hy, hx⟩ := hu
    refine .cut hflag (by rwa [← hr.waited.kindAt]) ⟨y, x, .trans (hr.mono fun a ha => ?_) hy, hx⟩
    rw [ha]
    trivial
  | makeDirectory hcreate hdir hu => exact .makeDirectory hcreate hdir (.of_waited hr hu)
  | makeFile hcreate hdir hu => exact .makeFile hcreate hdir (.of_waited hr hu)

theorem opened (h : Opens p flags v e w) : Opened p flags v w := by
  cases h with
  | look _ hw _ => exact Or.inl hw.noting
  | cut hflag hkind hw => exact Or.inr (Or.inl ⟨⟨hflag, hkind⟩, hw.after.mono (fun _ ha => ha) fun _ _ hx => hx.step⟩)
  | makeDirectory hcreate _ hu => exact Or.inr (Or.inr ⟨hcreate, hu.after (.single rfl .note)⟩)
  | makeFile hcreate _ hu => exact Or.inr (Or.inr ⟨hcreate, hu.after (.trans (.single rfl .note) (.single rfl .note))⟩)

end Opens

/-- A file that is there can be cut. A directory is refused then, and a link is not opened. -/
theorem ends_openExisting (flags : Flags) {e : Entry} (he : v.entryAt p = some e) (hlink : e.isLink = false) :
    Ends (· = .wait) (openExisting p flags e) (fun e w => Opens p flags v e w) (fun _ => True) v := by
  refine .ite (fun _ => .throw_bind trivial) fun _ => ?_
  refine .ite (fun _ => .throw_bind trivial) fun _ => ?_
  refine .ite (fun _ => .throw_bind trivial) fun hdir => ?_
  refine .ite (fun hcut => ?_) fun hcut => .pure (.look ?_ .refl he)
  · have hkind : v.kindAt p = some .file := by
      rw [← kind_entryAt, he]
      exact congrArg some (of_decide_eq_true hcut.2)
    have hfile : v.memory.kind? p = some .file := kind?_eq_file_iff.2 (kindAt_eq_file_iff.1 hkind).2
    intro hv
    rw [wp_bind]
    refine (ends_truncatePath p 0 v hv).mono (fun _ w hw => .cut hcut.1 hkind hw) ?_
    rintro e w ⟨-, hnot | hlong⟩
    · exact absurd hfile hnot
    · exact absurd hlong (by omega)
  · rw [Bool.eq_false_iff]
    intro hflag
    cases e with
    | directory => exact hdir ⟨rfl, Or.inr hflag⟩
    | file size modified => exact hcut ⟨hflag, rfl⟩
    | link t => cases hlink

/-- A new entry is made where no link is on the way. -/
theorem ends_openNew (flags : Flags) (hroot : p ≠ .root) (hlinks : ∀ q ∈ p.trail, v.links.get? q = none)
    (hfree : v.memory.node? p = none) :
    Ends (· = .wait) (openNew p flags) (fun e w => Opens p flags v e w) (fun _ => True) v := by
  refine .ite (fun _ => .throw_bind trivial) fun hcreate => ?_
  have hcreate : flags.create = true := by simpa using hcreate
  refine .ite (fun hdir hv => ?_) fun hdir hv => ?_
  · rw [wp_bind]
    refine (hv.wp_make (x := .directory) (U := fun _ => True) hlinks hfree fun u _ hc hnone =>
      (Request.treeWp_createDirectory hc p true).mono ?_ fun _ _ he => ⟨he.1, trivial⟩).mono
      (fun _ w hw => .makeDirectory hcreate hdir hw) fun _ _ he => ⟨he.1, trivial⟩
    rintro - m ⟨-, rfl, hclear, -⟩
    exact hc.added_directory hroot hnone hclear
  · rw [wp_bind]
    refine (hv.wp_make (x := .file []) (U := fun _ => True) hlinks hfree fun u _ hc hnone =>
      (Request.treeWp_createFile hc p).mono ?_ fun _ _ he => ⟨he.1, trivial⟩).mono
      (fun _ w hw => .makeFile (u := w) hcreate (by simpa using hdir) hw) fun _ _ he => ⟨he.1, trivial⟩
    rintro - m ⟨-, ⟨-, d, hd⟩ | ⟨dir, n, rfl, -, hclear, rfl⟩⟩
    · rw [hnone] at hd
      cases hd
    · exact hc.added_file hnone hclear

variable (base : Option Descriptor) (raw : String)

/-- Opening looks, and then it opens what is there or makes what is not. -/
theorem ends_opensAt (flags : Flags) (v : Vfs Memory μ) : Ends (· = .wait) (openAt base raw flags)
      (fun d w => resolve base raw flags.follow v = (.ok d.path, v) ∧ v.links.get? d.path = none ∧
        (∀ q ∈ d.path.trail, v.links.get? q = none) ∧ Opens d.path flags v d.entry w) (fun _ => True) v := by
  refine .bind_here ((ends_resolve base raw flags.follow v).imp_error fun _ _ => trivial) ?_
  rintro p ⟨hres, htrail⟩
  have hopened : ∀ {x : VfsM Memory μ Entry} {w : Vfs Memory μ}, Reaches (· = .wait) v w → w.links.get? p = none →
      Ends (· = .wait) x (fun e u => Opens p flags w e u) (fun _ => True) w →
      Ends (· = .wait) (do return { path := p, entry := ← x, flags := flags } : VfsM Memory μ Descriptor)
        (fun d w => resolve base raw flags.follow v = (.ok d.path, v) ∧ v.links.get? d.path = none ∧
          (∀ q ∈ d.path.trail, v.links.get? q = none) ∧ Opens d.path flags v d.entry w) (fun _ => True) w := by
    intro x w hr hlink hx hw
    rw [wp_bind]
    rw [hr.waited.links] at hlink
    exact (hx hw).imp fun _ u hu => ⟨hres, hlink, Links.none_on_trail htrail hlink, .of_waited hr hu⟩
  refine .bind (ends_lookup p v) (fun _ h => h) ?_
  rintro (_ | (_ | ⟨size, modified⟩ | t)) w hr hentry hw
  all_goals
    have hkind := kind_entryAt w p
    rw [← hentry] at hkind
  · obtain ⟨hlink, hnode⟩ := kindAt_eq_none_iff.1 hkind.symm
    have hroot : p ≠ .root := by
      rintro rfl
      rw [kind?_eq_directory_iff.1 hw.closed.root] at hnode
      cases hnode
    refine hopened hr hlink (ends_openNew flags hroot ?_ hnode) hw
    rw [hr.waited.links] at hlink ⊢
    exact Links.none_on_trail htrail hlink
  · exact hopened hr (kindAt_eq_directory_iff.1 hkind.symm).1 (ends_openExisting flags hentry.symm rfl) hw
  · exact hopened hr (kindAt_eq_file_iff.1 hkind.symm).1 (ends_openExisting flags hentry.symm rfl) hw
  · exact ⟨.refl, trivial⟩

theorem ends_openAt (flags : Flags) (v : Vfs Memory μ) : Ends (· = .wait) (openAt base raw flags)
      (fun _ w => ∃ p, resolve base raw flags.follow v = (.ok p, v) ∧ Opened p flags v w) (fun _ => True) v :=
  (ends_opensAt base raw flags v).imp fun d _ hw => ⟨d.path, hw.1, hw.2.2.2.opened⟩

/-! ### Looking -/

/-- After some waiting, only a listing or the working directory has changed. -/
def Noted (v w : Vfs Memory μ) : Prop :=
  ∃ u l r, Reaches (· = .wait) v u ∧ w = { u with listings := l, resolver := r }

theorem Noted.of_wait (h : Reaches (· = .wait) v w) : Noted v w := ⟨w, w.listings, w.resolver, h, rfl⟩

theorem Noted.noting (h : Noted v w) : Reaches Noting v w := by
  obtain ⟨u, l, r, hu, rfl⟩ := h
  exact hu.noting.trans (.single (Or.inr rfl) .note)

/-- A listing is remembered. -/
theorem ends_list (dir : Path) (v : Vfs Memory μ) :
    Ends (· = .wait) (list dir) (fun _ w => Noted v w) (fun _ => True) v := by
  intro hv
  unfold list
  rw [wp_bind, wp_get]
  cases v.listings.get? dir with
  | some entries => exact .of_wait .refl
  | none =>
    rw [wp_bind]
    refine (wp_call_of (T := fun u r m => m = u.memory ∧ r = .entries (u.memory.children dir))
      fun u _ => (Request.treeWp_list dir u.memory).mono (fun _ _ h => ⟨h.1, h.2.2⟩) fun _ _ he => ⟨he.1, trivial⟩).mono
      ?_ fun _ _ he => ⟨he.1, trivial⟩
    rintro r w ⟨u, m, hu, rfl, rfl, rfl⟩
    exact ⟨u, _, _, hu, rfl⟩

theorem ends_readDirectory (d : Descriptor) (v : Vfs Memory μ) :
    Ends (· = .wait) (readDirectory d) (fun _ w => Noted v w) (fun _ => True) v :=
  .ite (fun _ => .throw_bind trivial) fun _ => ends_list d.path v

theorem ends_readDirectoryAt (v : Vfs Memory μ) :
    Ends (· = .wait) (readDirectoryAt base raw) (fun _ w => Noted v w) (fun _ => True) v :=
  .bind_here ((ends_resolve base raw true v).imp_error fun _ _ => trivial) fun p _ =>
    ends_list p v

theorem ends_setWorkingDirectory (v : Vfs Memory μ) :
    Ends (· = .wait) (setWorkingDirectory raw) (fun _ w => Noted v w) (fun _ => True) v := by
  refine .bind_here ((ends_resolve none raw true v).imp_error fun _ _ => trivial) fun p _ => ?_
  refine .bind (ends_lookup p v) (fun _ h => h) ?_
  rintro (_ | (_ | ⟨size, modified⟩ | t)) w hr -
  · exact .throw trivial
  · exact .modify ⟨w, _, _, hr, rfl⟩
  · exact .throw trivial
  · exact .throw trivial

/-! ### Making -/

/-- A directory is made where nothing is. -/
theorem ends_makeDirectoryAt (v : Vfs Memory μ) : Ends (· = .wait) (createDirectoryAt base raw)
      (fun _ w => ∃ p u, resolve base raw false v = (.ok p, v) ∧ HasParent v.memory p ∧ Made p .directory v u ∧
        w = { u with listings := u.listings.clear }) Error.Own v := by
  refine .bind_here (ends_resolve base raw false v) ?_
  rintro p ⟨hres, htrail⟩
  refine .bind (ends_requireFree p v) (fun _ h => h) ?_
  rintro - w hr ⟨hroot, hlink, hfree, dir, hp, hdir⟩ hw
  have hdir : v.memory.kind? dir = some .directory := (hr.waited.kind? dir).symm.trans (kind?_eq_directory_iff.2 hdir)
  have hlinks : ∀ q ∈ p.trail, w.links.get? q = none := by
    rw [hr.waited.links] at hlink ⊢
    exact Links.none_on_trail htrail hlink
  rw [wp_bind]
  refine (hw.wp_make (x := .directory) (U := fun _ => False) hlinks hfree fun u hu hc hnone => ?_).mono ?_ ?_
  · obtain ⟨n, rfl⟩ := Path.parent?_eq_some_iff.1 hp
    rw [← hr.waited.kind?, ← hu.kind?] at hdir
    refine ((Request.sure_createDirectory hc (kind?_eq_directory_iff.1 hdir) hnone).and
      (Request.treeWp_createDirectory hc (dir.child n) false)).mono ?_ fun _ _ he => he.elim
    rintro - m ⟨-, rfl, hclear, -⟩
    exact hc.added_directory hroot hnone hclear
  · exact fun _ u hu => ⟨p, u, hres, ⟨dir, hp, kind?_eq_directory_iff.1 hdir⟩, .of_waited hr hu, rfl⟩
  · rintro e u ⟨-, s, -, hfalse⟩
    exact hfalse.elim

theorem ends_createDirectoryAt (v : Vfs Memory μ) : Ends (· = .wait) (createDirectoryAt base raw)
      (fun _ w => ∃ p, resolve base raw false v = (.ok p, v) ∧ After (· = .wait) (Step (.make p)) v w) Error.Own v := by
  refine (ends_makeDirectoryAt base raw v).imp ?_
  rintro - _ ⟨p, u, hres, -, hu, rfl⟩
  exact ⟨p, hres, hu.after (.single rfl .note)⟩

/-- A link is made where nothing is. -/
theorem ends_makeLinkAt (text raw : String) (v : Vfs Memory μ) : Ends (· = .wait) (symlinkAt base text raw)
      (fun _ w => ∃ p u, resolve base raw false v = (.ok p, v) ∧ Reaches (· = .wait) v u ∧ u.kindAt p = none ∧
        HasParent u.memory p ∧ w = { u.relinked (u.links.insert p text).1 (u.links.insert p text).2 with
          listings := u.listings.clear }) Error.Own v := by
  refine .ite (fun _ => .throw_bind fun _ h => nomatch h) fun _ => ?_
  refine .bind_here (ends_resolve base raw false v) ?_
  rintro p ⟨hres, -⟩
  refine .bind (ends_requireFree p v) (fun _ h => h) ?_
  rintro - w hr ⟨-, hlink, hfree, hparent⟩ -
  exact ⟨p, w, hres, hr, kindAt_eq_none_iff.2 ⟨hlink, hfree⟩, hparent, rfl⟩

theorem ends_symlinkAt (text raw : String) (v : Vfs Memory μ) : Ends (· = .wait) (symlinkAt base text raw)
      (fun _ w => ∃ p, resolve base raw false v = (.ok p, v) ∧ After (· = .wait) (Step (.link p)) v w) Error.Own v := by
  refine (ends_makeLinkAt base text raw v).imp ?_
  rintro - _ ⟨p, u, hres, hu, hfree, hparent, rfl⟩
  exact ⟨p, hres, u, _, hu, .link (kindAt_eq_none_iff.1 hfree).2 hparent, .single rfl .note⟩

/-! ### Removing -/

omit [LinkMap μ] in
/-- Where all is cold, nothing is locked. -/
theorem Healthy.unlocked (hv : v.Healthy) (hcold : v.ColdBelow p) : v.memory.Unlocked p :=
  fun q hq => hv.sound.handles.unlocked (hcold q hq)

/-- What is cold can be removed. -/
theorem Healthy.wp_remove (hv : v.Healthy) (hroot : p ≠ .root) (recursive : Bool) (hp : v.memory.kind? p ≠ none)
    (hrec : recursive = true ∨ v.memory.kind? p = some .file) (hcold : v.ColdBelow p) :
    wp (call (.remove p recursive))
      (fun _ w => ∃ u m, Reaches (· = .wait) v u ∧ w = u.withFiles m ∧
        u.memory.Unlocked p ∧ m = u.memory.prune p) (fun _ _ => False) v := by
  have hlocks : ∀ u, Reaches (· = .wait) v u → u.memory.Unlocked p :=
    fun u hu => (hu.healthy hv).unlocked (hcold.waited hu.waited)
  refine (wp_call_sure (fun u hu => ?_) fun u hu => Request.treeWp_remove (hu.closed hv.closed) p recursive).imp ?_
  · have hkind := hu.waited.kind? p
    refine Request.sure_remove (hu.closed hv.closed) hroot (fun hnone => hp ?_) (hlocks u hu) (hrec.imp_right fun h => ?_)
    · rw [← hkind, kind?_eq_none_iff.2 hnone]
    · exact kind?_eq_file_iff.1 (hkind.trans h)
  · rintro r w ⟨u, m, hu, rfl, -, -, hfree, -, hm⟩
    exact ⟨u, m, hu, rfl, hfree, hm⟩

/-- All that is held of an entry is dropped, and then the store removes it. -/
theorem Healthy.wp_removing (hv : v.Healthy) (hroot : p ≠ .root) {recursive : Bool} (hp : v.memory.kind? p ≠ none)
    (hrec : recursive = true ∨ v.memory.kind? p = some .file) {x : Reply Handle → VfsM Memory μ Unit}
    {Q : Unit → Vfs Memory μ → Prop} {E : Error → Vfs Memory μ → Prop}
    (h : ∀ r u, Dropped p v u → u.memory.Unlocked p →
      wp (x r) Q E (u.withFiles (u.memory.prune p))) :
    wp (do forget p; clearListings; let r ← call (.remove p recursive); x r) Q E v := by
  rw [wp_bind]
  refine (wp_forgetting p v).imp ?_
  intro _ w hw
  have hcleared : Dropped p v { w with listings := w.listings.clear } :=
    ⟨hw.reaches.trans (.single (a := .note) trivial .note), hw.handles, hw.sizes⟩
  rw [wp_bind]
  show wp (call (.remove p recursive) >>= x) Q E { w with listings := w.listings.clear }
  rw [wp_bind]
  refine ((hcleared.reaches.healthy hv).wp_remove hroot recursive ?_ ?_ fun _ => hcleared.cold).mono ?_ fun _ _ he => he.elim
  · rwa [hcleared.kept.kind p trivial]
  · rwa [hcleared.kept.kind p trivial]
  · rintro r _ ⟨u, m, hu, rfl, hfree, rfl⟩
    exact h r u (hcleared.waited hu) hfree

/-- The states in which a directory is removed with all below it. -/
def TreeRemoved (p : Path) (v w : Vfs Memory μ) : Prop :=
  p ≠ .root ∧ ∃ u, Dropped p v u ∧ u.memory.Unlocked p ∧
    w = (u.withFiles (u.memory.prune p)).relinked (u.links.removeUnder p).2.1 (u.links.removeUnder p).2.2

theorem ends_removeTree (v : Vfs Memory μ) : Ends (· = .wait) (removeDirectoryAt base raw)
      (fun _ w => ∃ p, resolve base raw false v = (.ok p, v) ∧ TreeRemoved p v w) Error.Own v := by
  refine .bind_here (ends_resolve base raw false v) ?_
  rintro p ⟨hres, -⟩
  refine .ite (fun _ => .throw_bind fun _ h => nomatch h) fun hroot => ?_
  have hroot : p ≠ .root := fun e => hroot (Path.isRoot_iff.2 e)
  refine .bind (ends_lookup p v) (fun _ h => h) ?_
  rintro (_ | (_ | ⟨size, modified⟩ | t)) w hr hentry
  · exact .throw_bind fun _ h => nomatch h
  · intro hw
    have hkind : w.kindAt p = some .directory := by rw [← kind_entryAt, ← hentry]; rfl
    have hdir := kind?_eq_directory_iff.2 (kindAt_eq_directory_iff.1 hkind).2
    refine hw.wp_removing hroot (by rw [hdir]; simp) (Or.inl rfl) fun r u hu hfree => ?_
    rw [wp_bind, wp_get]
    exact (wp_of_ok (setLinks_run _ _ _)).2 ⟨p, hres, hroot, u, .of_waited hr hu, hfree, rfl⟩
  · exact .throw_bind fun _ h => nomatch h
  · exact .throw_bind fun _ h => nomatch h

/-- A directory goes with all below it. -/
theorem ends_removeDirectoryAt (v : Vfs Memory μ) : Ends (· = .wait) (removeDirectoryAt base raw)
      (fun _ w => ∃ p, resolve base raw false v = (.ok p, v) ∧ After (Clearing p) (Step (.drop p)) v w) Error.Own v := by
  refine (ends_removeTree base raw v).imp ?_
  rintro - _ ⟨p, hres, hroot, u, hu, hfree, rfl⟩
  exact ⟨p, hres, u, _, hu.reaches, .dropTree hroot hfree rfl, .refl⟩

/-- The states in which a file is removed, or a link. -/
def LeafRemoved (p : Path) (v w : Vfs Memory μ) : Prop :=
  (∃ u, p ≠ .root ∧ Dropped p v u ∧ u.kindAt p = some .file ∧ u.memory.Unlocked p ∧
    w = { u.withFiles (u.memory.prune p) with listings := u.listings.clear }) ∨
  ∃ u t, Reaches (· = .wait) v u ∧ u.links.get? p = some t ∧
    w = { u.relinked (u.links.remove p).2.1 (u.links.remove p).2.2 with listings := u.listings.clear }

theorem ends_removeLeaf (v : Vfs Memory μ) : Ends (· = .wait) (unlinkAt base raw)
      (fun _ w => ∃ p, resolve base raw false v = (.ok p, v) ∧ LeafRemoved p v w) Error.Own v := by
  refine .bind_here (ends_resolve base raw false v) ?_
  rintro p ⟨hres, -⟩
  refine .bind (ends_lookup p v) (fun _ h => h) ?_
  rintro (_ | (_ | ⟨size, modified⟩ | t)) w hr hentry
  · exact .throw_bind fun _ h => nomatch h
  · exact .throw_bind fun _ h => nomatch h
  · intro hw
    have hkind : w.kindAt p = some .file := by rw [← kind_entryAt, ← hentry]; rfl
    have hfile := kind?_eq_file_iff.2 (kindAt_eq_file_iff.1 hkind).2
    have hroot : p ≠ .root := by
      rintro rfl
      rw [hw.closed.root] at hfile
      cases hfile
    refine hw.wp_removing hroot (by rw [hfile]; simp) (Or.inr hfile) fun r u hu hfree => ?_
    exact ⟨p, hres, Or.inl ⟨u, hroot, .of_waited hr hu, (hu.kindAt p).trans hkind, hfree, rfl⟩⟩
  · intro _
    have hkind : w.kindAt p = some .link := by rw [← kind_entryAt, ← hentry]; rfl
    obtain ⟨t, ht⟩ := kindAt_eq_link_iff.1 hkind
    rw [wp_bind, wp_get, wp_bind]
    exact (wp_of_ok (setLinks_run _ _ w)).2 ⟨p, hres, Or.inr ⟨w, t, hr, ht, rfl⟩⟩

/-- A file or a link goes alone. -/
theorem ends_unlinkAt (v : Vfs Memory μ) : Ends (· = .wait) (unlinkAt base raw)
      (fun _ w => ∃ p, resolve base raw false v = (.ok p, v) ∧
        After (Clearing p) (fun u x => (∃ t, u.links.get? p = some t) ∧ Step (.unlink p) u x ∨ Step (.drop p) u x) v w)
      Error.Own v := by
  refine (ends_removeLeaf base raw v).imp ?_
  rintro - _ ⟨p, hres, ⟨u, hroot, hu, hkind, hfree, rfl⟩ | ⟨u, t, hu, ht, rfl⟩⟩
  · obtain ⟨-, d, hd⟩ := kindAt_eq_file_iff.1 hkind
    exact ⟨p, hres, u, _, hu.reaches, Or.inr (.dropFile hd hroot hfree rfl), .single rfl .note⟩
  · exact ⟨p, hres, u, _, hu.clearing, Or.inl ⟨⟨t, ht⟩, .unlink⟩, .single rfl .note⟩

/-! ### Renaming -/

/-- A move to a free path fails only for want of means. -/
theorem Healthy.wp_move (hv : v.Healthy) (h : Movable source target v) (hcold : v.ColdBelow source) :
    wp (call (.move source target)) (fun _ _ => True) (fun e _ => e = .storage .noNativeMove) v := by
  refine wp_call fun w hr => wp_onFiles ?_
  have hw := h.waited hr
  obtain ⟨dir, hp, hdir⟩ := hw.hasParent
  obtain ⟨n, rfl⟩ := Path.parent?_eq_some_iff.1 hp
  refine (Request.treeWp_move_free hw.closed (fun e => hw.present (kind?_eq_none_iff.2 e))
    ((hr.healthy hv).unlocked (hcold.waited hr.waited)) hdir (kind?_eq_none_iff.1 hw.free) hw.outside hw.root).mono ?_ ?_
  · exact fun _ _ _ _ _ => trivial
  · rintro e m rfl f -
    rfl

/-- A copy to a free path does not fail. -/
theorem Healthy.wp_copy (hv : v.Healthy) (h : Movable source target v) (hcold : v.ColdBelow source) :
    wp (call (.copy source target)) (fun _ _ => True) (fun _ _ => False) v := by
  refine wp_call fun w hr => wp_onFiles ?_
  have hw := h.waited hr
  obtain ⟨dir, hp, hdir⟩ := hw.hasParent
  obtain ⟨n, rfl⟩ := Path.parent?_eq_some_iff.1 hp
  have hw' := hr.healthy hv
  refine (Request.sure_copy hw'.closed (fun e => hw.present (kind?_eq_none_iff.2 e))
    (hw'.unlocked (hcold.waited hr.waited)) hdir (kind?_eq_none_iff.1 hw.free) hw.outside hw'.short).mono ?_ ?_
  · exact fun _ _ _ _ _ => trivial
  · exact fun _ _ hfalse _ _ => hfalse

/-- An entry that can be moved is moved, if need be by copying. -/
theorem Healthy.wp_moveEntry (hv : v.Healthy) (h : Movable source target v) (hcold : v.ColdBelow source) :
    wp (moveEntry source target) (fun _ w => ∃ u, Reaches (Copying source target) v u ∧ MovedBy source target u w)
      (fun _ _ => False) v := by
  have hsure : wp (moveEntry source target) (fun _ _ => True) (fun _ _ => False) v := by
    unfold moveEntry
    rw [wp_bind, wp_tryCatch, wp_bind]
    refine ((h.wp_move hcold).and (hv.wp_move h hcold)).mono (fun _ _ _ => trivial) ?_
    rintro e w ⟨⟨hr, -⟩, rfl⟩
    -- The store had no means to move; it has done nothing, and the entry can still be copied and removed.
    have hcold' := hcold.waited hr.waited
    have hw := hr.healthy hv
    have hmovable := h.waited hr
    show wp (copyThenDelete source target) _ _ w
    unfold copyThenDelete
    rw [wp_bind]
    refine ((hmovable.wp_copy hcold').and (hw.wp_copy hmovable hcold')).mono ?_ fun _ _ he => he.2
    rintro r x ⟨⟨hx, hhandles, hcopied⟩, -⟩
    rw [wp_bind]
    refine ((hx.healthy hw).wp_remove h.root true ?_ (Or.inl rfl) fun q hq => ?_).imp fun _ _ _ => trivial
    · rw [(hx.mono fun _ => Copying.quiet).kept.kind source hmovable.beside.1]
      exact hmovable.present
    · rw [hhandles, hcold' q hq]
  exact ((h.wp_moveEntry hcold).and hsure).mono (fun _ _ hw => hw.1) fun _ _ he => he.2

/-- A planned move is made: the last step moves a link, or an entry of the store with the links below it. -/
theorem ends_relocate {F : Act → Prop} {entry : Entry} (h : Planned source target entry v) :
    Ends F (relocate source target entry)
      (fun _ w => After (Moving source target)
        (fun u x => Step (.relink source target) u x ∨ Step (.move source target) u x) v w) (fun _ => False) v := by
  intro hv
  -- The handles below the source are gone, so what was planned can be moved without a failure.
  have hsure : wp (relocate source target entry) (fun _ _ => True) (fun _ _ => False) v :=
    h.wp_course (M := fun _ _ => True) hv.closed (fun _ _ => trivial) (fun w hw hmovable =>
      ((hw.reaches.healthy hv).wp_moveEntry hmovable fun _ => hw.cold).imp fun _ _ _ => trivial)
      (fun _ _ _ _ => trivial) fun _ _ _ _ _ => trivial
  refine ((h.wp_relocate hv.closed).and hsure).mono ?_ fun _ _ he => he.2.elim
  rintro - w ⟨⟨u, hu, hw⟩, -⟩
  exact ⟨u, w, hu, hw, .refl⟩

/-- A rename finds out what there is to do. -/
theorem ends_renamePlan (toBase : Option Descriptor) (toRaw : String) (v : Vfs Memory μ) :
    Ends (· = .wait) (renamePlan base raw toBase toRaw)
      (fun r w => Reaches (· = .wait) v w ∧ ∃ source target, resolve base raw false v = (.ok source, v) ∧
        resolve toBase toRaw false v = (.ok target, v) ∧
        (r = none ∧ source = target ∨ ∃ entry, r = some (source, target, entry) ∧ Planned source target entry w))
      Error.Own v := by
  -- This gives the failures and the resolved paths. That the plan can be carried out is `runs_renamePlan`.
  have hlook : Ends (· = .wait) (renamePlan base raw toBase toRaw)
      (fun r _ => ∃ source target, resolve base raw false v = (.ok source, v) ∧
        resolve toBase toRaw false v = (.ok target, v) ∧
        (r = none ∧ source = target ∨ ∃ entry, r = some (source, target, entry))) Error.Own v := by
    refine .bind_here (ends_resolve base raw false v) ?_
    rintro source ⟨hsource, -⟩
    refine .bind_here (ends_resolve toBase toRaw false v) ?_
    rintro target ⟨htarget, -⟩
    refine .ite (fun _ => .throw_bind fun _ h => nomatch h) fun _ => ?_
    refine .bind (ends_requireEntry source v) (fun _ h => h) fun entry w _ _ => ?_
    refine .ite (fun e => .pure ⟨source, target, hsource, htarget, Or.inl ⟨rfl, e⟩⟩) fun _ => ?_
    refine .bind (ends_lookup target w) (fun _ h => h) ?_
    rintro (_ | e) u - -
    · refine .ite (fun h => absurd h (by simp)) fun _ => ?_
      refine .ite (fun _ => .throw_bind fun _ h => nomatch h) fun _ => ?_
      refine .bind (ends_requireParent target u) (fun _ h => h) fun _ x _ _ => ?_
      exact .pure ⟨source, target, hsource, htarget, Or.inr ⟨entry, rfl⟩⟩
    · exact .ite (fun _ => .throw_bind fun _ h => nomatch h) fun h => absurd rfl h
  refine ((runs_renamePlan base raw toBase toRaw v).ends.and hlook).mono (fun _ h => h) ?_ fun _ h => h.2
  rintro r w ⟨⟨hr, hplan⟩, source, target, hsource, htarget, hnone | ⟨entry, rfl⟩⟩
  · exact ⟨hr, source, target, hsource, htarget, Or.inl hnone⟩
  · exact ⟨hr, source, target, hsource, htarget, Or.inr ⟨entry, rfl, (hplan source target entry rfl).1⟩⟩

/-- What a rename has found it moves. -/
theorem ends_renameAt (toBase : Option Descriptor) (toRaw : String) (v : Vfs Memory μ) :
    Ends (· = .wait) (renameAt base raw toBase toRaw)
      (fun _ w => ∃ source target, resolve base raw false v = (.ok source, v) ∧
        resolve toBase toRaw false v = (.ok target, v) ∧
        (source = target ∧ Reaches (· = .wait) v w ∨ (source ≠ target ∧ v.kindAt target = none) ∧
          After (Moving source target) (fun u x => Step (.relink source target) u x ∨ Step (.move source target) u x) v w))
      Error.Own v := by
  refine .bind (ends_renamePlan base raw toBase toRaw v) (fun _ h => h) ?_
  rintro r w hr ⟨source, target, hsource, htarget, ⟨rfl, e⟩ | ⟨entry, rfl, hplan⟩⟩
  · exact .pure ⟨source, target, hsource, htarget, Or.inl ⟨e, hr⟩⟩
  · have hne : source ≠ target := by
      rintro rfl
      have hfound := hplan.found
      rw [hplan.free] at hfound
      cases hfound
    refine .of_sure ((ends_relocate (F := (· = .wait)) hplan).imp fun _ u hu => ?_)
    have hfree := hplan.free
    rw [hr.waited.kindAt] at hfree
    exact ⟨source, target, hsource, htarget, Or.inr ⟨⟨hne, hfree⟩, (hr.copying.moving).after hu⟩⟩

end Filespace.Vfs
