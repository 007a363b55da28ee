import Filespace.Proofs.HealthyNamespaces

/-!
# What is known of remembered sizes

A namespace remembers the sizes of files that it has written. It notes a size only after a call by which it knows how long
the file is (`KnowsBut.noteSize`), and before a file is removed its size is forgotten (`Knows.pruned`). What is true of the
sizes that are remembered (`Knows I`) is therefore kept by the operations, if the truth `I` outlasts the jobs of the queue and
whatever leaves the bytes of the file alone (`Lasting`). The first such truth is that sizes are remembered of files only
(`KnowsFiles`). So where nothing is, no size is remembered.

The statements are of operations that succeed. One that fails has only looked, and no step of it changes what is
remembered.
-/

namespace Filespace.Vfs

open Storage Memory

variable {μ α : Type} {v w u : Vfs Memory μ} {p q : Path} {m : FileMeta} {a : Act} {P : Act → Prop}

/-! ### Files that are left alone -/

/-- A file has the same bytes in two states, and no more writes to it are queued in the second. -/
def SameFile (q : Path) (v w : Vfs Memory μ) : Prop :=
  w.memory.content? q = v.memory.content? q ∧ ∃ more, w.works = v.works ++ more ∧ ∀ x ∈ more, x.writesTo q = false

theorem SameFile.of_content (hcontent : w.memory.content? q = v.memory.content? q) (hworks : w.works = v.works) :
    SameFile q v w :=
  ⟨hcontent, [], hworks.trans (List.append_nil _).symm, fun _ h => absurd h List.not_mem_nil⟩

theorem SameFile.trans (h : SameFile q u v) (k : SameFile q v w) : SameFile q u w := by
  obtain ⟨hcontent, more, hworks, hmore⟩ := h
  obtain ⟨hcontent', more', hworks', hmore'⟩ := k
  refine ⟨hcontent'.trans hcontent, more ++ more', ?_, fun x hx => ?_⟩
  · rw [hworks', hworks, List.append_assoc]
  · rcases List.mem_append.1 hx with hx | hx
    · exact hmore x hx
    · exact hmore' x hx

/-- Changes of the link records are no writes. -/
theorem sameFile_relinked (v : Vfs Memory μ) (l : Links) (jobs : List LinkJob) (q : Path) :
    SameFile q v (v.relinked l jobs) := by
  refine ⟨rfl, jobs.map .link, works_relinked v l jobs, fun x hx => ?_⟩
  obtain ⟨job, -, rfl⟩ := List.mem_map.1 hx
  rfl

/-- A tree that has grown has the files that it had. -/
theorem SameFile.grown {m : Memory} (hq : v.memory.kind? q = some .file) (h : Grown p v.memory m) :
    SameFile q v (v.withFiles m) := by
  obtain ⟨d, hd⟩ := kind?_eq_file_iff.1 hq
  refine .of_content ?_ rfl
  exact congrArg (Option.map Node.content) (h.old q (by rw [hd]; simp))

theorem SameFile.kind? (h : SameFile q v w) : w.memory.kind? q = v.memory.kind? q := kind?_of_content? h.1

/-! ### Truths about remembered sizes -/

/-- Something is true of all sizes that are remembered. -/
def Knows (I : Vfs Memory μ → Path → FileMeta → Prop) (v : Vfs Memory μ) : Prop :=
  ∀ q m, v.sizes.get? q = some m → I v q m

/-- It is true of all but the size at one path. -/
def KnowsBut (I : Vfs Memory μ → Path → FileMeta → Prop) (p : Path) (v : Vfs Memory μ) : Prop :=
  ∀ q m, q ≠ p → v.sizes.get? q = some m → I v q m

variable {I J : Vfs Memory μ → Path → FileMeta → Prop}

theorem Knows.but (hv : v.Knows I) (p : Path) : v.KnowsBut I p := fun q m _ hq => hv q m hq

variable [LinkMap μ]

/-- A truth `I` about the size of a file that lasts while the file is left alone, and what follows from it or from the
right length, `J`. -/
structure Lasting (I J : Vfs Memory μ → Path → FileMeta → Prop) : Prop where
  /-- It is about files. -/
  file : ∀ {v q m}, I v q m → v.memory.kind? q = some .file
  /-- It depends on the bytes of the file and the writes to it. -/
  same : ∀ {v w q m}, I v q m → SameFile q v w → I w q m
  /-- It outlasts the jobs of the queue. -/
  job : ∀ {v q m j rest}, v.background.queue = j :: rest → I v q m → I (v.finished j rest) q m
  weaken : ∀ {v q m}, I v q m → J v q m
  /-- It is enough to know the length of the file. -/
  noted : ∀ {v q b t}, v.memory.content? q = some (.file b) → J v q ⟨b.length, t⟩

theorem Knows.weaken (hv : v.Knows I) (hI : Lasting I J) : v.Knows J := fun q m hq => hI.weaken (hv q m hq)

theorem Knows.same (hv : v.Knows I) (hI : Lasting I J) (hsizes : w.sizes = v.sizes) (h : ∀ q, SameFile q v w) :
    w.Knows I := by
  intro q m hq
  rw [hsizes] at hq
  exact hI.same (hv q m hq) (h q)

/-- Listings and the working directory do not matter. -/
theorem Knows.noted (hv : v.Knows I) (hI : Lasting I J) (listings : Listings) (resolver : Resolver) :
    Knows I { v with listings := listings, resolver := resolver } :=
  hv.same hI rfl fun _ => .of_content rfl rfl

theorem Knows.relinked (hv : v.Knows I) (hI : Lasting I J) (l : Links) (jobs : List LinkJob) : (v.relinked l jobs).Knows I :=
  hv.same hI rfl fun q => sameFile_relinked v l jobs q

/-- Steps by which nothing but the jobs changes files or queues writes. -/
def Still : Act → Prop
  | .wait => True
  | .note => True
  | .lock _ => True
  | .unlock _ => True
  | .stale _ => True
  | _ => False

/-- Of these, the steps that change nothing of what is remembered. -/
def Tame (a : Act) : Prop := Still a ∧ a ≠ .note

theorem Step.lasting (h : Step a v w) (ha : Still a) (hI : Lasting I J) (hv : I v q m) : I w q m := by
  cases h with
  | job hq => exact hI.job hq hv
  | pass htree => exact hI.same hv (.of_content (congrArg (content? · q) htree) rfl)
  | note => exact hI.same hv (.of_content rfl rfl)
  | @lock _ p f k d _ _ hfile _ _ htree =>
    refine hI.same hv (.of_content (content?_of_atRest? ?_) rfl)
    exact (congrArg (atRest? · q) htree).trans (atRest?_put_locked hfile true q)
  | @unlock _ p f k _ htree =>
    refine hI.same hv (.of_content (content?_of_atRest? ?_) rfl)
    exact (congrArg (atRest? · q) htree).trans (atRest?_release _ _ q)
  | stale => exact hI.same hv (.of_content rfl rfl)
  | _ => exact ha.elim

theorem Reaches.lasting (h : Reaches P v w) (hP : ∀ a, P a → Still a) (hI : Lasting I J) (hv : I v q m) : I w q m :=
  h.keeps (fun a _ _ ha hs => hs.lasting (hP a ha) hI) hv

theorem Step.sizes (h : Step a v w) (ha : Tame a) : w.sizes = v.sizes := by
  cases h with
  | note => exact absurd rfl ha.2
  | job | pass | lock | unlock | stale => rfl
  | _ => exact ha.1.elim

theorem Reaches.sizes (h : Reaches P v w) (hP : ∀ a, P a → Tame a) : w.sizes = v.sizes :=
  h.keeps (fun a _ _ ha hs hu => (hs.sizes (hP a ha)).trans hu) rfl

theorem Reaches.knows (h : Reaches P v w) (hP : ∀ a, P a → Tame a) (hI : Lasting I J) (hv : v.Knows I) : w.Knows I := by
  intro q m hq
  rw [h.sizes hP] at hq
  exact h.lasting (fun a ha => (hP a ha).1) hI (hv q m hq)

theorem Runs.knows {x : VfsM Memory μ α} {Q : α → Vfs Memory μ → Prop} {E : Error → Prop} (h : Runs P x Q E v)
    (hP : ∀ a, P a → Tame a) (hI : Lasting I J) (hv : v.Knows I) :
    Ends Any x (fun a w => Reaches Any v w ∧ w.Knows I ∧ Q a w) (fun _ => True) v :=
  h.ends.any.imp fun _ _ hw => ⟨hw.1.mono fun _ _ => trivial, hw.1.knows hP hI hv, hw.2⟩

theorem Looking.tame (h : Looking p a) : Tame a := by
  cases a with
  | wait | lock => exact ⟨trivial, by simp⟩
  | _ => exact h.elim

theorem Cutting.tame (h : Cutting p a) : Tame a := by
  cases a with
  | wait | lock | stale => exact ⟨trivial, by simp⟩
  | _ => exact h.elim

theorem Clearing.still (h : Clearing p a) : Still a := by
  cases a with
  | wait | note | unlock | stale => trivial
  | _ => exact h.elim

theorem tame_of_wait (h : a = .wait) : Tame a := by
  rw [h]
  exact ⟨trivial, by simp⟩

/-- A size is noted when the length of the file is known. -/
theorem KnowsBut.noteSize (hv : v.KnowsBut I p) (hI : Lasting I J) {b : Bytes}
    (hb : v.memory.content? p = some (.file b)) (t : Nat) :
    Knows J { v with sizes := v.sizes.insert p ⟨b.length, t⟩ } := by
  intro q m hq
  by_cases hqp : q = p
  · rw [hqp] at hq ⊢
    rw [Table.get?_insert_self] at hq
    cases hq
    exact hI.noted hb
  · rw [Table.get?_insert_of_ne _ _ hqp] at hq
    exact hI.weaken (hI.same (hv q m hqp hq) (.of_content rfl rfl))

/-! ### Sizes of files -/

/-- Sizes are remembered of files only. -/
def KnowsFiles (v : Vfs Memory μ) : Prop := ∀ q, v.sizes.get? q ≠ none → v.memory.kind? q = some .file

/-- There is a file. -/
def IsFile (v : Vfs Memory μ) (q : Path) (_ : FileMeta) : Prop := v.memory.kind? q = some .file

omit [LinkMap μ] in
theorem knowsFiles_iff : v.KnowsFiles ↔ v.Knows IsFile := by
  constructor
  · intro h q m hq
    exact h q (by rw [hq]; simp)
  · intro h q hq
    obtain ⟨m, hm⟩ := Option.ne_none_iff_exists'.1 hq
    exact h q m hm

theorem lasting_isFile : Lasting (μ := μ) IsFile IsFile where
  file h := h
  same hv h := h.kind?.trans hv
  job _ hv := (kind?_of_outline? (outline?_finished _ _ _ _)).trans hv
  weaken h := h
  noted h := by
    obtain ⟨d, hd, -⟩ := content?_eq_file_iff.1 h
    exact kind?_eq_file_iff.2 ⟨d, hd⟩

omit [LinkMap μ] in
theorem KnowsFiles.of_kinds (hv : v.KnowsFiles) (hsizes : w.sizes = v.sizes)
    (hkind : ∀ q, w.memory.kind? q = v.memory.kind? q) : w.KnowsFiles := by
  intro q hq
  rw [hsizes] at hq
  exact (hkind q).trans (hv q hq)

theorem Reaches.knowsFiles (h : Reaches P v w) (hP : ∀ a, P a → Tame a) (hv : v.KnowsFiles) : w.KnowsFiles :=
  knowsFiles_iff.2 (h.knows hP lasting_isFile (knowsFiles_iff.1 hv))

/-! ### Files -/

omit [LinkMap μ] in
theorem content?_edited {d : FileData} (bytes : Bytes) :
    (v.withFiles (v.memory.revised p d bytes)).memory.content? p = some (.file bytes) :=
  (content?_revised v.memory p d bytes p).trans (if_pos rfl)

theorem KnowsBut.edited (hv : v.KnowsBut I p) (hI : Lasting I J) {d : FileData} (bytes : Bytes) :
    (v.withFiles (v.memory.revised p d bytes)).KnowsBut I p := by
  intro q m hqp hq
  refine hI.same (hv q m hqp hq) (.of_content ?_ rfl)
  exact (content?_revised v.memory p d bytes q).trans (if_neg hqp)

variable (hv : v.Knows I) (hI : Lasting I J)

include hv hI

/-- A size is noted when the file has been written. -/
theorem Knows.written {x : Patch} (hP : ∀ a, P a → Tame a) (h : Written P p x v w) : w.Knows J := by
  obtain ⟨u, y, b, hu, hpatched, hb, rfl⟩ := h
  have hu := (hu.knows hP hI hv).but p
  have hy : y.KnowsBut I p := by
    obtain ⟨-, d, -, ⟨rfl, -⟩ | ⟨rfl, -⟩⟩ := hpatched
    · exact hu
    · exact hu.edited hI _
  exact hy.noteSize hI hb y.now

theorem Knows.trimmed {length : Nat} (h : Trimmed p length v w) : w.Knows J := by
  obtain ⟨u, x, hu, ⟨d, hd, rfl, -⟩, rfl⟩ := h
  have hknown := (hu.knows (fun _ => Cutting.tame) hI hv).but p
  have hnoted := (hknown.edited hI (d := d) (d.bytes.resize length)).noteSize hI (content?_edited _) u.now
  rw [Bytes.length_resize] at hnoted
  exact hnoted

theorem Knows.setSize (d : Descriptor) (length : Nat) :
    Ends Any (setSize d length) (fun _ w => w.Knows J) (fun _ => True) v := by
  refine .bind ((runs_requireWritable d v).knows (fun _ => tame_of_wait) hI hv) (fun _ h => h) ?_
  rintro - w - ⟨hw, -⟩
  exact (ends_truncatePath d.path length w).any.imp fun _ _ hu => hw.trimmed hI hu

/-! ### Making entries -/

theorem Knows.grown {m : Memory} (h : Grown p v.memory m) : (v.withFiles m).Knows I := by
  intro q m hq
  have hq := hv q m hq
  exact hI.same hq (.grown (hI.file hq) h)

theorem Knows.made {x : Content} (h : Made p x v w) : w.Knows I := by
  obtain ⟨u, m, hu, -, hadded, rfl⟩ := h
  exact (hu.knows (fun _ => tame_of_wait) hI hv).grown hI hadded.grown

variable (base : Option Descriptor) (raw : String)

theorem Knows.createDirectoryAt : Ends Any (createDirectoryAt base raw) (fun _ w => w.Knows J) (fun _ => True) v := by
  refine (ends_makeDirectoryAt base raw v).any.imp ?_
  rintro - _ ⟨p, u, -, -, hu, rfl⟩
  exact ((hv.made hI hu).noted hI u.listings.clear u.resolver).weaken hI

theorem Knows.symlinkAt (target raw : String) :
    Ends Any (symlinkAt base target raw) (fun _ w => w.Knows J) (fun _ => True) v := by
  refine (ends_makeLinkAt base target raw v).any.imp ?_
  rintro - _ ⟨p, u, -, hu, -, -, rfl⟩
  have hknown := hu.knows (fun _ => tame_of_wait) hI hv
  exact ((hknown.relinked hI _ _).noted hI u.listings.clear u.resolver).weaken hI

/-- A file that is made is empty. -/
theorem Knows.opens {flags : Flags} {e : Entry} (h : Opens p flags v e w) : w.Knows J := by
  cases h with
  | look _ hw _ => exact (hw.knows (fun _ => tame_of_wait) hI hv).weaken hI
  | cut _ _ hw => exact hv.trimmed hI hw
  | @makeDirectory u _ _ hu => exact ((hv.made hI hu).noted hI u.listings.clear u.resolver).weaken hI
  | @makeFile u _ _ _ hu =>
    have hempty : u.memory.content? p = some (.file []) := by
      obtain ⟨y, m, -, -, hadded, rfl⟩ := hu
      exact hadded.new
    exact (((hv.made hI hu).noted hI u.listings.clear u.resolver).but p).noteSize hI hempty u.now

theorem Knows.openAt (flags : Flags) : Ends Any (openAt base raw flags) (fun _ w => w.Knows J) (fun _ => True) v :=
  (ends_opensAt base raw flags v).any.imp fun _ _ hw => hv.opens hI hw.2.2.2

/-! ### Looking -/

theorem Knows.looked (h : Noted v w) : w.Knows J := by
  obtain ⟨u, l, r, hu, rfl⟩ := h
  exact ((hu.knows (fun _ => tame_of_wait) hI hv).noted hI l r).weaken hI

/-! ### Removing -/

/-- An entry is forgotten with all below it before it is removed. -/
theorem Knows.pruned (h : Dropped p v u) : (u.withFiles (u.memory.prune p)).Knows I := by
  intro q m hq
  rw [show (u.withFiles (u.memory.prune p)).sizes = _ from h.sizes] at hq
  cases hunder : q.under p with
  | true =>
    rw [Table.get?_filter_of_false fun _ => by rw [hunder]; rfl] at hq
    cases hq
  | false =>
    rw [Table.get?_filter_of_true fun _ => by rw [hunder]; rfl] at hq
    refine hI.same (h.reaches.lasting (fun _ => Clearing.still) hI (hv q m hq)) (.of_content ?_ rfl)
    exact congrArg (Option.map Node.content) ((node?_prune ..).trans (if_neg (by rw [hunder]; simp)))

theorem Knows.removeDirectoryAt : Ends Any (removeDirectoryAt base raw) (fun _ w => w.Knows J) (fun _ => True) v := by
  refine (ends_removeTree base raw v).any.imp ?_
  rintro - _ ⟨p, -, -, u, hu, -, rfl⟩
  exact ((hv.pruned hI hu).relinked hI _ _).weaken hI

theorem Knows.unlinkAt : Ends Any (unlinkAt base raw) (fun _ w => w.Knows J) (fun _ => True) v := by
  refine (ends_removeLeaf base raw v).any.imp ?_
  rintro - _ ⟨p, -, ⟨u, -, hu, -, -, rfl⟩ | ⟨u, t, hu, -, rfl⟩⟩
  · exact ((hv.pruned hI hu).noted hI u.listings.clear u.resolver).weaken hI
  · have hknown := hu.knows (fun _ => tame_of_wait) hI hv
    exact ((hknown.relinked hI _ _).noted hI u.listings.clear u.resolver).weaken hI

end Filespace.Vfs
