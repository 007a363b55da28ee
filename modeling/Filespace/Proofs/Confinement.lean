import Filespace.Proofs.HostMoves
import Filespace.Proofs.MirroredHosts
import Filespace.Proofs.Turns

/-!
# A store stays in its directory

A store keeps its entries in a host directory `R`. If no links are at or below `R`, a namespace over the store changes
nothing outside `R`, and nothing outside `R` shows in what its operations give (`local_store_confined`).

Links inside break both: the store looks up an entry at the location that its path spells, and the host replaces links on
the way (`escapes_through_link`).
-/

namespace Filespace

open Storage Host Path

variable {r : Rooted} {R p : Path} {n : Name} {P : Pairing r R}

namespace Pairing

/-! ### Calls of the store -/

theorem parallel_find? (p : Path) (n : Name) :
    Parallel P.Mirrored (fun a b => b = a.map (Node.renumbered P.partner)) (Rooted.find? (r.location (p.child n)))
      (Rooted.find? (r.location (p.child n))) := by
  refine .bind (parallel_attempt (parallel_lstat p n)) fun a b hab => ?_
  obtain ⟨x, _, rfl, rfl, rfl⟩ | ⟨e, rfl, rfl⟩ := hab
  · exact .pure rfl
  · exact .ite (fun _ => .pure rfl) fun _ => .throw

theorem parallel_stepTo (create : Bool) (p : Path) (n : Name) :
    Parallel P.Mirrored Eq (r.stepTo create (p.child n)) (r.stepTo create (p.child n)) := by
  refine .bind (parallel_attempt (parallel_lstat p n)) fun a b hab => ?_
  obtain ⟨x, _, rfl, rfl, rfl⟩ | ⟨e, rfl, rfl⟩ := hab
  · cases x with
    | directory => exact .pure rfl
    | file | link => exact .throw
  · refine .ite (fun _ => .bind (parallel_attempt (parallel_makeDirectory p n)) fun a b hab => ?_) fun _ => .throw
    obtain ⟨_, _, rfl, rfl, -⟩ | ⟨e, rfl, rfl⟩ := hab
    · exact .pure rfl
    · exact .ite (fun _ => .pure rfl) fun _ => .throw

theorem parallel_directory (p : Path) (create : Bool) :
    Parallel P.Mirrored Eq (r.directory p create) (r.directory p create) := by
  induction p using induction_child with
  | base => exact .pure rfl
  | step p n ih =>
    rw [Rooted.directory_child]
    exact .bind_eq ih fun _ => parallel_stepTo create p n

theorem parallel_file (p : Path) (create : Bool) : Parallel P.Mirrored Eq (r.file p create) (r.file p create) := by
  obtain rfl | ⟨p, n, rfl⟩ := eq_root_or_child p
  · exact .throw
  unfold Rooted.file
  rw [parent?_eq_some_iff.2 ⟨n, rfl⟩]
  refine .bind_eq (parallel_directory p create) fun _ => .bind (parallel_attempt (parallel_lstat p n)) fun a b hab => ?_
  obtain ⟨x, _, rfl, rfl, rfl⟩ | ⟨e, rfl, rfl⟩ := hab
  · cases x with
    | directory => exact .throw
    | file | link => exact .pure rfl
  · exact .ite (fun _ => .bind (parallel_openFile p n true) fun _ _ _ => .pure rfl) fun _ => .throw

theorem parallel_remove (p : Path) (recursive : Bool) :
    Parallel P.Mirrored Eq (r.remove p recursive) (r.remove p recursive) := by
  obtain rfl | ⟨p, n, rfl⟩ := eq_root_or_child p
  · exact .throw
  refine .ite (fun _ => .throw) fun _ => .bind (parallel_lstat p n) ?_
  rintro x _ rfl
  cases x with
  | directory => exact .ite (fun _ => parallel_removeTree p n) fun _ => parallel_removeDirectory p n
  | file | link => exact parallel_unlink p n

theorem parallel_move {source target : Path} (hsource : source ≠ .root) (htarget : target ≠ .root) :
    Parallel P.Mirrored Eq (r.move source target) (r.move source target) := by
  obtain rfl | ⟨p, m, rfl⟩ := eq_root_or_child source
  · exact absurd rfl hsource
  obtain rfl | ⟨q, n, rfl⟩ := eq_root_or_child target
  · exact absurd rfl htarget
  refine .ite (fun _ => .throw) fun _ => .bind (parallel_find? p m) ?_
  rintro found _ rfl
  cases found with
  | none => exact .throw
  | some x =>
    refine .bind (parallel_find? q n) ?_
    rintro taken _ rfl
    cases taken with
    | some y => exact .throw
    | none =>
      rw [parent?_eq_some_iff.2 ⟨n, rfl⟩]
      exact .bind_eq (parallel_directory q false) fun _ => parallel_rename p q m n

theorem parallel_list (p : Path) : Parallel P.Mirrored Eq (r.list p) (r.list p) := by
  refine .bind (parallel_readDirectory p) ?_
  rintro entries _ rfl
  refine .pure ?_
  rw [List.filterMap_map]
  refine List.filterMap_congr fun x _ => ?_
  obtain ⟨n, _ | d | t⟩ := x <;> rfl

theorem parallel_entry (p : Path) (n : Name) : Parallel P.Mirrored Eq (r.entry (p.child n)) (r.entry (p.child n)) := by
  refine .bind (parallel_find? p n) ?_
  rintro found _ rfl
  refine .pure ?_
  rcases found with _ | (_ | d | t) <;> rfl

theorem parallel_writeAt (p : Path) (n : Name) (offset : Nat) (data : Bytes) :
    Parallel P.Mirrored Eq (r.writeAt (p.child n) offset data) (r.writeAt (p.child n) offset data) := by
  refine .bind_eq (parallel_settle _) fun _ => .bind (parallel_openFile p n false) ?_
  rintro k _ ⟨rfl, hk⟩
  exact .bind_eq (parallel_writeTo hk offset data) fun _ => .bind_eq (parallel_content hk) fun _ => .pure rfl

/-! ### The store on both hosts -/

/-- The store on two hosts that are mirrored. -/
def simulation (P : Pairing r R) : Simulation Rooted where
  Rel s t := (s.2 = r ∧ t.2 = r) ∧ P.Mirrored s.1 t.1
  Held := P.left.own
  partner := P.partner

theorem parallel_onHost {α β : Type} {Q : α → β → Prop} {f : Rooted → StoreM Host α} {g : Rooted → StoreM Host β}
    (hfg : Parallel P.Mirrored Q (f r) (g r)) : Parallel P.simulation.Rel Q (Rooted.onHost f) (Rooted.onHost g) := by
  rintro ⟨h, _⟩ ⟨h', _⟩ ⟨⟨rfl, rfl⟩, hm⟩
  obtain ⟨a, b, s, t, hx, hy, hab, hst⟩ | ⟨e, s, t, hx, hy, hst⟩ := (hfg h h' hm).cases
  · exact (agree_of_ok (Rooted.onHost_run hx) (Rooted.onHost_run hy)).2 ⟨hab, ⟨rfl, rfl⟩, hst⟩
  · exact (agree_of_error (Rooted.onHost_run hx) (Rooted.onHost_run hy)).2 ⟨⟨rfl, rfl⟩, hst⟩

theorem simulation_lawful (P : Pairing r R) : P.simulation.Lawful where
  clock _ _ hst := hst.2.clock
  directory p create := parallel_onHost (parallel_directory p create)
  file p create := parallel_onHost (parallel_file p create)
  file_root create s t _ a s' hrun := by cases hrun
  openHandle p hp := by
    obtain rfl | ⟨p, n, rfl⟩ := eq_root_or_child p
    · cases hp
    · exact parallel_onHost (parallel_openFile p n false)
  remove p recursive := parallel_onHost (parallel_remove p recursive)
  move source target hsource htarget := by
    refine parallel_onHost (parallel_move ?_ ?_)
    · rintro rfl
      cases hsource
    · rintro rfl
      cases htarget
  list p := parallel_onHost (parallel_list p)
  entry p hp := by
    obtain rfl | ⟨p, n, rfl⟩ := eq_root_or_child p
    · cases hp
    · exact parallel_onHost (parallel_entry p n)
  writeAt p offset data hp := by
    obtain rfl | ⟨p, n, rfl⟩ := eq_root_or_child p
    · cases hp
    · exact parallel_onHost (parallel_writeAt p n offset data)
  read k pos length hk := parallel_onHost (parallel_readFrom hk pos length)
  write k pos data hk := parallel_onHost (parallel_writeTo hk pos data)
  truncate k length hk := parallel_onHost (parallel_setLength hk length)
  flush _ _ := .pure rfl
  size k hk := parallel_onHost (.bind_eq (parallel_content hk) fun _ => .pure rfl)
  close _ _ := .pure rfl
  fallback := by
    refine Or.inr fun source target s e t hrun => ?_
    have hmove : s.2.move source target s.1 = (.error e, t.1) := by
      have hresult : (s.2.move source target s.1).1 = .error e := congrArg Prod.fst hrun
      have hafter : (s.2.move source target s.1).2 = t.1 := congrArg (fun x => x.2.1) hrun
      exact Prod.ext hresult hafter
    have hkind : e.kind ≠ .unsupported := (Rooted.supported_move source target s.1).error hmove
    show Code.ofKind e.kind ≠ .unsupported
    cases hk : e.kind <;> simp_all [Code.ofKind]

end Pairing

/-! ### Two hosts that look alike inside -/

/-- A store's directory `R` on a host: the location of the store leads there, whatever is inside; no link is inside, and
no file is at two places. -/
structure Storage.Rooted.Sealed (r : Rooted) (R : Path) (h : Host) : Prop where
  directory : h.node? R = some .directory
  leads : ∀ g : Host, g.workingDirectory = h.workingDirectory → (∀ q, q.below R = false → g.node? q = h.node? q) →
    g.resolve r.root .follow = .ok (.found R .directory)
  linkless : ∀ p t, h.node? (R.join p) ≠ some (.link t)
  single : ∀ p q d e, h.node? p = some (.file d) → h.node? q = some (.file e) → d.serial = e.serial → p = q
  closed : h.Closed
  numbered : h.Numbered

/-- The hosts have the same entries inside `R`, up to the numbers of files. -/
def Host.AlikeIn (R : Path) (h h' : Host) : Prop :=
  ∀ p, (h'.node? (R.join p)).map (Node.renumbered fun _ => 0) = (h.node? (R.join p)).map (Node.renumbered fun _ => 0)

variable {h h' : Host}

theorem Host.AlikeIn.file (hsame : h.AlikeIn R h') {d : FileData} (hd : h.node? (R.join p) = some (.file d)) :
    ∃ k, h'.node? (R.join p) = some (.file (d.renumbered fun _ => k)) := by
  have hp := hsame p
  rw [hd] at hp
  obtain ⟨x, hx, hxd⟩ := Option.map_eq_some_iff.1 hp
  cases x with
  | file e =>
    obtain ⟨k, content, modified⟩ := e
    cases hxd
    exact ⟨k, hx⟩
  | directory | link => cases hxd

/-- It can be read off the rows of two hosts that they are alike. -/
theorem Host.AlikeIn.of_rows (hR : R ≠ .root)
    (hrows : ((h'.nodes.filter fun q _ => q.under R).map fun _ => Node.renumbered fun _ => 0) =
      (h.nodes.filter fun q _ => q.under R).map fun _ => Node.renumbered fun _ => 0) : h.AlikeIn R h' := by
  intro p
  have hp : R.join p ≠ .root := fun hp => hR (root_under_iff.1 (hp ▸ under_join R p))
  have hget : ∀ g : Host, ((g.nodes.filter fun q _ => q.under R).map fun _ => Node.renumbered fun _ => 0).get? (R.join p) =
      (g.node? (R.join p)).map (Node.renumbered fun _ => 0) := by
    intro g
    rw [Table.get?_map, Table.get?_filter_of_true fun _ => under_join R p, node?_of_ne_root g hp]
  rw [← hget, ← hget, hrows]

/-- The number of a file. -/
def Host.Node.serial? : Node → Option Nat
  | .file d => some d.serial
  | _ => none

namespace Storage.Rooted

/-- A location that spells a real path leads there. -/
theorem resolve_real {g : Host} (hdirs : ∀ q, R.under q = true → g.node? q = some .directory)
    (hshort : ∀ n ∈ R.names, isLong n = false) (hcheck : checkLocation (location ⟨"/"⟩ R) = .ok ()) :
    g.resolve (location ⟨"/"⟩ R) .follow = .ok (.found R .directory) := by
  have hreach : ∀ p, R.under p = true → (Rooted.mk "/").reach g p = .ok (p, maxLinks) := by
    intro p
    induction p using induction_child with
    | base => exact fun _ => rfl
    | step p n ih =>
      intro hu
      have hnode := hdirs (p.child n) hu
      have hn : n ∈ R.names := (under_iff_prefix_names.1 hu).subset (by simp)
      rw [reach_child, ih (under_trans hu (under_child p n))]
      dsimp only
      rw [reach_plain (by simp [hnode]), hshort n hn, hnode]
      rfl
  have hwalk := walk_of_reach (hreach R (under_refl R)) (Route.of (location ⟨"/"⟩ R)).slash
  rw [← moves_location] at hwalk
  rw [resolve_eq, hcheck, startOf_location]
  rw [hwalk]
  rfl

/-- It can be read off the rows of a host that a store whose location spells the real path of its directory is sealed. -/
theorem Sealed.of_rows (hroot : r.root = location ⟨"/"⟩ R) (hcheck : checkLocation r.root = .ok ())
    (hshort : ∀ n ∈ R.names, isLong n = false) (hdir : h.node? R = some .directory) (hremoved : h.removed = [])
    (hparent : ∀ x ∈ h.nodes.rows, h.node? (x.1.parent?.getD .root) = some .directory)
    (hinside : ∀ x ∈ h.nodes.rows, x.1.under R = true → x.2 = .directory ∨ x.2.serial? ≠ none)
    (hserial : ∀ x ∈ h.nodes.rows, ∀ y ∈ h.nodes.rows, x.2.serial? = y.2.serial? → x.2.serial? = none ∨ x = y)
    (hused : ∀ x ∈ h.nodes.rows, ∀ k ∈ x.2.serial?, k < h.nextSerial) : r.Sealed R h := by
  have hrow : ∀ p x, h.nodes.get? p = some x → (p, x) ∈ h.nodes.rows := fun _ _ => Table.get?_eq_some_iff.1
  have hnode : ∀ p x, h.node? p = some x → x = .directory ∨ (p, x) ∈ h.nodes.rows := by
    intro p x hx
    by_cases hp : p = .root
    · rw [hp] at hx
      exact Or.inl (Option.some.inj hx).symm
    · exact Or.inr (hrow p x (node?_of_ne_root h hp ▸ hx))
  have hfile : ∀ p d, h.node? p = some (.file d) → (p, .file d) ∈ h.nodes.rows :=
    fun p d hd => (hnode p _ hd).resolve_left nofun
  have hhas : ∀ d, h.Has d → ∃ p, (p, .file d) ∈ h.nodes.rows := by
    rintro d (⟨p, hp⟩ | hd)
    · exact ⟨p, hrow p _ hp⟩
    · rw [hremoved] at hd
      cases hd
  have hone : ∀ p q d e, (p, .file d) ∈ h.nodes.rows → (q, .file e) ∈ h.nodes.rows → d.serial = e.serial →
      (p, Node.file d) = (q, .file e) :=
    fun p q d e hd he hde => (hserial _ hd _ he (congrArg some hde)).resolve_left nofun
  have hclosed : h.Closed := by
    intro p n hp
    obtain ⟨x, hx⟩ := Option.ne_none_iff_exists'.1 hp
    rw [node?_of_ne_root h child_ne_root] at hx
    simpa using hparent _ (hrow _ x hx)
  rw [hroot] at hcheck
  refine ⟨hdir, fun g _ hout => hroot ▸ resolve_real (fun q hq => ?_) hshort hcheck, fun p t ht => ?_, ?_, hclosed, ?_, ?_⟩
  · have hfrozen : q.below R = false := by
      by_cases hself : q = R
      · simp [Path.below, hself]
      · have hu : q.under R = false := Bool.eq_false_iff.2 fun hu => hself (under_antisymm hu hq)
        simp [Path.below, hu]
    rw [hout q hfrozen]
    by_cases hself : R = q
    · rw [← hself, hdir]
    · exact hclosed.above (by simp [hdir]) hq hself
  · obtain hx | hmem := hnode _ _ ht
    · cases hx
    · obtain hx | hx := hinside _ hmem (under_join R p)
      · cases hx
      · exact hx rfl
  · exact fun p q d e hd he hde => congrArg Prod.fst (hone p q d e (hfile p d hd) (hfile q e he) hde)
  · intro d e hd he hde
    obtain ⟨p, hp⟩ := hhas d hd
    obtain ⟨q, hq⟩ := hhas e he
    exact Node.file.inj (congrArg Prod.snd (hone p q d e hp hq hde))
  · intro d hd
    obtain ⟨p, hp⟩ := hhas d hd
    exact hused _ hp _ rfl

end Storage.Rooted

namespace Storage.Rooted.Sealed

variable (hs : r.Sealed R h)

include hs

/-- The store's directory on the host. -/
def enclosure : Enclosure r R where
  first := h
  own k := h.nextSerial ≤ k ∨ ∃ p d, h.node? (R.join p) = some (.file d) ∧ d.serial = k
  directory := hs.directory
  leads g hstart hout := by
    have hresolve := hs.leads g hstart hout
    rw [resolve_eq] at hresolve
    cases hcheck : checkLocation r.root with
    | error e =>
      rw [hcheck] at hresolve
      cases hresolve
    | ok =>
      rw [hcheck] at hresolve
      dsimp only at hresolve
      cases hwalk : walk g .follow maxLinks (g.startOf r.root) (.of r.root) with
      | error e =>
        rw [hwalk] at hresolve
        cases hresolve
      | ok spot =>
        rw [hwalk] at hresolve
        cases hresolve
        have hreach := reach_of_walk hwalk
        unfold Rooted.reach
        simpa using hreach
  apart q d hq hd := by
    rintro (hnext | ⟨p, e, he, hserial⟩)
    · exact absurd (hs.numbered.used d (has_of_node? hd)) (Nat.not_lt.2 hnext)
    · obtain rfl : R.join p = q := hs.single _ _ e d he hd hserial
      have hp : p ≠ .root := by
        rintro rfl
        rw [join_root, hs.directory] at hd
        cases hd
      exact Bool.false_ne_true (hq.symm.trans (below_of_under_join hp (under_refl _)))

theorem holds : hs.enclosure.Holds h where
  frozen _ _ := rfl
  start := rfl
  closed := hs.closed
  linkless := hs.linkless
  numbered := hs.numbered
  inside p d hd := Or.inr ⟨p, d, hd, rfl⟩
  fresh i := Or.inl (Nat.le_add_right _ i)

end Storage.Rooted.Sealed

/-- What numbers the files inside have on the second host: a file has that of the file at its place, and new files get
theirs in order. -/
structure Partners (R : Path) (h h' : Host) (f : Nat → Nat) : Prop where
  next : ∀ i, f (h.nextSerial + i) = h'.nextSerial + i
  file : ∀ p d, h.node? (R.join p) = some (.file d) → h'.node? (R.join p) = some (.file (d.renumbered f))

namespace Partners

variable {f : Nat → Nat} (hs : r.Sealed R h) (hs' : r.Sealed R h')

include hs in
/-- Hosts that are alike inside have such numbers, for no file is at two places. -/
theorem exists_of_alikeIn (hsame : h.AlikeIn R h') : ∃ f, Partners R h h' f := by
  have hone : ∀ k, ∃ k', (∀ i, k = h.nextSerial + i → k' = h'.nextSerial + i) ∧
      ∀ p d, h.node? (R.join p) = some (.file d) → d.serial = k →
        h'.node? (R.join p) = some (.file (d.renumbered fun _ => k')) := by
    intro k
    by_cases hnext : h.nextSerial ≤ k
    · refine ⟨h'.nextSerial + (k - h.nextSerial), fun i hi => by omega, fun p d hd hserial => ?_⟩
      exact absurd (hs.numbered.used d (has_of_node? hd)) (by omega)
    by_cases hfile : ∃ p d, h.node? (R.join p) = some (.file d) ∧ d.serial = k
    · obtain ⟨p, d, hd, hserial⟩ := hfile
      obtain ⟨k', hk'⟩ := hsame.file hd
      refine ⟨k', fun i hi => by omega, fun q e he hserial' => ?_⟩
      have hplace : R.join q = R.join p := hs.single _ _ e d he hd (hserial'.trans hserial.symm)
      rw [hplace] at he ⊢
      obtain rfl : d = e := Node.file.inj (Option.some.inj (hd.symm.trans he))
      exact hk'
    · exact ⟨0, fun i hi => by omega, fun p d hd hserial => absurd ⟨p, d, hd, hserial⟩ hfile⟩
  choose f hnext hfile using hone
  exact ⟨f, fun i => hnext _ i rfl, fun p d hd => hfile d.serial p d hd rfl⟩

variable (hf : Partners R h h' f)

include hs' hf in
/-- A file that is there has a smaller number than those that come. -/
theorem file_ne_next {d : FileData} (hd : h.node? (R.join p) = some (.file d)) (i : Nat) :
    f d.serial ≠ h'.nextSerial + i := by
  have hused : f d.serial < h'.nextSerial := hs'.numbered.used _ (has_of_node? (hf.file p d hd))
  omega

include hs' hf in
theorem injective {j k : Nat} (hj : hs.enclosure.own j) (hk : hs.enclosure.own k) (hjk : f j = f k) : j = k := by
  obtain hj | ⟨p, d, hd, rfl⟩ := hj <;> obtain hk | ⟨q, e, he, rfl⟩ := hk
  · obtain ⟨i, rfl⟩ := Nat.exists_eq_add_of_le hj
    obtain ⟨i', rfl⟩ := Nat.exists_eq_add_of_le hk
    rw [hf.next, hf.next] at hjk
    omega
  · obtain ⟨i, rfl⟩ := Nat.exists_eq_add_of_le hj
    rw [hf.next] at hjk
    exact absurd hjk.symm (hf.file_ne_next hs' he i)
  · obtain ⟨i, rfl⟩ := Nat.exists_eq_add_of_le hk
    rw [hf.next] at hjk
    exact absurd hjk (hf.file_ne_next hs' hd i)
  · have hplace : R.join p = R.join q := hs'.single _ _ _ _ (hf.file p d hd) (hf.file q e he) hjk
    rw [hplace, he] at hd
    cases hd
    rfl

/-- The store on both hosts. -/
def pairing : Pairing r R where
  left := hs.enclosure
  right := hs'.enclosure
  partner := f
  injective _ _ := hf.injective hs hs'
  owned := by
    rintro k (hk | ⟨p, d, hd, rfl⟩)
    · obtain ⟨i, rfl⟩ := Nat.exists_eq_add_of_le hk
      exact Or.inl (by rw [hf.next]; omega)
    · exact Or.inr ⟨p, _, hf.file p d hd, rfl⟩

/-- The hosts are mirrored at the beginning. -/
theorem mirrored (hsame : h.AlikeIn R h') (hclock : h'.clock = h.clock) : (hf.pairing hs hs').Mirrored h h' where
  left := hs.holds
  right := hs'.holds
  clock := hclock
  entries p := by
    have hp := hsame p
    cases hnode : h.node? (R.join p) with
    | none =>
      rw [hnode] at hp
      exact Option.map_eq_none_iff.1 hp
    | some x =>
      cases x with
      | file d => exact hf.file p d hnode
      | link t => exact absurd hnode (hs.linkless p t)
      | directory =>
        rw [hnode] at hp
        obtain ⟨x, hx, hdir⟩ := Option.map_eq_some_iff.1 hp
        cases x <;> cases hdir
        exact hx
  files := by
    rintro k (hk | ⟨p, d, hd, rfl⟩)
    · obtain ⟨i, rfl⟩ := Nat.exists_eq_add_of_le hk
      show h'.fileData? (f (h.nextSerial + i)) = (h.fileData? (h.nextSerial + i)).map (FileData.renumbered f)
      rw [hf.next, fileData?_next hs.numbered, fileData?_next hs'.numbered]
      rfl
    · rw [(fileData?_eq_some_iff hs.numbered).2 ⟨has_of_node? hd, rfl⟩]
      exact (fileData?_eq_some_iff hs'.numbered).2 ⟨has_of_node? (hf.file p d hd), rfl⟩
  next := hf.next

end Partners

namespace Vfs

variable {μ : Type} [LinkMap μ]

/-- A store stays in its directory. A namespace is started on a store in a host directory `R` without links, with its link
records kept elsewhere, and used in turns. What is on the host outside `R` is then as it was, and another
host that differs only there would have given the same: starting fails for the same reason, or each operation gives the
same value or fails with the same error. -/
theorem local_store_confined (hμ : LinkMap.OffHost μ) (hs : r.Sealed R h) (hs' : r.Sealed R h') (hsame : h.AlikeIn R h')
    (hclock : h'.clock = h.clock) (m : μ) (o : Options) (descriptors : Table String Descriptor) (run : List Turn) :
    (start o ⟨h', r, m⟩).1.map (fun v => Session.results (fun _ r => r) ⟨v, descriptors⟩ run) =
        (start o ⟨h, r, m⟩).1.map (fun v => Session.results (fun _ r => r) ⟨v, descriptors⟩ run) ∧
      ∀ q, q.below R = false → (start o ⟨h, r, m⟩).2.host.node? q = h.node? q ∧
        ∀ v, (start o ⟨h, r, m⟩).1 = .ok v →
          (Session.atEnd (fun _ r => r) ⟨v, descriptors⟩ run).space.world.host.node? q = h.node? q := by
  obtain ⟨f, hf⟩ := Partners.exists_of_alikeIn hs hsame
  have hS := (hf.pairing hs hs').simulation_lawful
  have hapart := hμ.apart (hf.pairing hs hs').simulation
  have hw : (hf.pairing hs hs').simulation.Rel (h, r) (h', r) := ⟨⟨rfl, rfl⟩, hf.mirrored hs hs' hsame hclock⟩
  have htick : ∀ (n : Nat) (s t : Host × Rooted), (hf.pairing hs hs').simulation.Rel s t →
      (hf.pairing hs hs').simulation.Rel ({ s.1 with clock := n }, s.2) ({ t.1 with clock := n }, t.2) :=
    fun n _ _ hst => ⟨hst.1, hst.2.atTime n⟩
  have hmap : World.map (φ := Rooted) ⟨h', r, m⟩ = World.map (φ := Rooted) ⟨h, r, m⟩ := rfl
  have hstart : StartedAlike (hf.pairing hs hs').simulation Eq (start o ⟨h, r, m⟩) (start o ⟨h', r, m⟩) :=
    .start hS hapart hw hmap o.cacheListings o.cacheListings rfl o
  obtain ⟨v, v', hv, hv', htwin⟩ | ⟨e, hv, hv'⟩ := hstart.outcome
  · have htwin : Session.Twin (hf.pairing hs hs').simulation Eq ⟨v, descriptors⟩ ⟨v', descriptors⟩ := ⟨htwin, rfl⟩
    refine ⟨?_, fun q hq => ⟨hstart.behind.2.left.frozen q hq, fun u hu => ?_⟩⟩
    · rw [hv, hv']
      exact congrArg Except.ok (htwin.results hS hapart htick run)
    · obtain rfl : v = u := Except.ok.inj (hv.symm.trans hu)
      exact (htwin.atEnd hS hapart htick run).space.behind.2.left.frozen q hq
  · refine ⟨?_, fun q hq => ⟨hstart.behind.2.left.frozen q hq, fun u hu => ?_⟩⟩
    · rw [hv, hv']
    · rw [hv] at hu
      cases hu

/-- The name of the store's directory. -/
def nameStore : Name := ⟨"store", by decide⟩

/-- A host with a file in the store's directory. -/
def plainHost : Host :=
  { nodes := .ofList [(⟨[nameStore]⟩, .directory), (⟨[nameStore, ⟨"c", by decide⟩]⟩, .file ⟨0, .ofBytes [7, 8], 5⟩)]
    nextSerial := 1 }

/-- The same with another file beside the directory. -/
def secretHost : Host :=
  { nodes := .ofList [(⟨[nameStore]⟩, .directory), (⟨[nameStore, ⟨"c", by decide⟩]⟩, .file ⟨1, .ofBytes [7, 8], 5⟩),
      (⟨[⟨"s", by decide⟩]⟩, .file ⟨0, .ofBytes [1, 2, 3], 4⟩)]
    nextSerial := 2 }

theorem sealed_plainHost : Rooted.Sealed ⟨"/store"⟩ ⟨[nameStore]⟩ plainHost :=
  .of_rows rfl rfl (by decide +kernel) (by decide +kernel) rfl (by decide +kernel) (by decide +kernel)
    (by decide +kernel) (by decide +kernel)

theorem sealed_secretHost : Rooted.Sealed ⟨"/store"⟩ ⟨[nameStore]⟩ secretHost :=
  .of_rows rfl rfl (by decide +kernel) (by decide +kernel) rfl (by decide +kernel) (by decide +kernel)
    (by decide +kernel) (by decide +kernel)

theorem alikeIn_secretHost : plainHost.AlikeIn ⟨[nameStore]⟩ secretHost := .of_rows (by decide) (by rfl)

/-- A file is made and written to. Another one is given the name of the file beside the directory, and that name is looked
up from the root and above. -/
theorem local_store_confined_besideSecret :
    let run : List Turn := [⟨.openAt none "g" { create := true } (some "d"), [], 6⟩, ⟨.write "d" [9] 3, [], 7⟩,
      ⟨.renameAt none "c" none "/s", [], 8⟩, ⟨.statAt none "../s" true, [], 9⟩]
    ((Rooted.Sealed ⟨"/store"⟩ ⟨[nameStore]⟩ plainHost ∧ Rooted.Sealed ⟨"/store"⟩ ⟨[nameStore]⟩ secretHost) ∧
      plainHost.AlikeIn ⟨[nameStore]⟩ secretHost ∧ secretHost.clock = plainHost.clock) ∧
    (start {} (⟨secretHost, ⟨"/store"⟩, {}⟩ : World Rooted Records)).1.map
        (fun v => Session.results (fun _ r => r) ⟨v, ∅⟩ run) =
      (start {} (⟨plainHost, ⟨"/store"⟩, {}⟩ : World Rooted Records)).1.map
        (fun v => Session.results (fun _ r => r) ⟨v, ∅⟩ run) ∧
    ∀ q, q.below ⟨[nameStore]⟩ = false →
      (start {} (⟨plainHost, ⟨"/store"⟩, {}⟩ : World Rooted Records)).2.host.node? q = plainHost.node? q ∧
      ∀ v, (start {} (⟨plainHost, ⟨"/store"⟩, {}⟩ : World Rooted Records)).1 = .ok v →
        (Session.atEnd (fun _ r => r) ⟨v, ∅⟩ run).space.world.host.node? q = plainHost.node? q := by
  intro run
  exact ⟨⟨⟨sealed_plainHost, sealed_secretHost⟩, alikeIn_secretHost, rfl⟩,
    local_store_confined Records.offHost sealed_plainHost sealed_secretHost alikeIn_secretHost rfl {} {} ∅ run⟩

/-! ### A link inside -/

/-- A host with a link in the store's directory. It leads to another directory, where the given files are. -/
def linkedHost (files : List (Path × Node)) : World Rooted Records :=
  ⟨{ nodes := .ofList ([(⟨[nameStore]⟩, .directory), (⟨[nameStore, ⟨"k", by decide⟩]⟩, .link "/o"),
      (⟨[⟨"o", by decide⟩]⟩, .directory)] ++ files), nextSerial := 1 }, ⟨"/store"⟩, {}⟩

/-- A file in the other directory. -/
def outsideFile : Path := ⟨[⟨"o", by decide⟩, ⟨"s", by decide⟩]⟩

/-- A namespace that was started there. -/
def throughLink (files : List (Path × Node)) : Vfs Rooted Records := fresh {} {} (linkedHost files)

/-- A link leads out of the store's directory. A file there is seen through it, and whoever removes it removes it from the
host. -/
theorem escapes_through_link :
    let files : List (Path × Node) := [(outsideFile, .file ⟨0, .ofBytes [1, 2, 3], 4⟩)]
    ((start {} (linkedHost files)).1 = .ok (throughLink files) ∧ (start {} (linkedHost [])).1 = .ok (throughLink [])) ∧
    (Session.results (fun _ r => r) ⟨throughLink files, ∅⟩ [⟨.statAt none "k/s" true, [], 5⟩] = [.ok (.entry (.file 3 4))] ∧
      Session.results (fun _ r => r) ⟨throughLink [], ∅⟩ [⟨.statAt none "k/s" true, [], 5⟩] ≠ [.ok (.entry (.file 3 4))]) ∧
    (linkedHost files).host.node? outsideFile ≠ none ∧
    (Session.atEnd (fun _ r => r) ⟨throughLink files, ∅⟩
      [⟨.unlinkAt none "k/s", [], 5⟩]).space.world.host.node? outsideFile = none := by
  refine ⟨⟨rfl, rfl⟩, ⟨?_, ?_⟩, ?_, ?_⟩ <;> decide +kernel

end Vfs

end Filespace
