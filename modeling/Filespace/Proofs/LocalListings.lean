import Filespace.Proofs.RootedCalls
import Filespace.Proofs.Turns

/-!
# Remembered listings of a host directory

A namespace over a host directory remembers what it has listed. Nobody else changes the host meanwhile. What it remembers
is right after each operation of a run, except for one case (`local_listings_coherent`): an open that makes what is
missing makes directory after directory, and when it then comes to a name that is too long for the host it fails with
all of them made. The listings are forgotten only when it succeeds, so one that was remembered stays as it was
(`stale_after_overlong`).

What a way through the host finds does not depend on the content of files: it is the same on the host without it
(`Host.blank`). This is what listings depend on, too.
-/

namespace Filespace.Host

open Storage

variable {h : Host} {here : Path} {links : Nat} {slash : Bool} {ending : Ending} {ms : List Path.Move}

/-! ### The host without contents -/

/-- The entry without the data of a file. -/
def Node.blank : Node → Node
  | .file _ => .file ⟨0, {}, 0⟩
  | x => x

/-- The spot without the data of a file. -/
def Spot.blank : Spot → Spot
  | .found p x => .found p x.blank
  | .free p n => .free p n

/-- The stop without the data of a file. -/
def Stop.blank : Stop → Stop
  | .done r => .done (r.map Spot.blank)
  | .link p t ms => .link p t ms

/-- The directories, files and links of a host, whatever is in the files. -/
def blank (h : Host) : Host :=
  { nodes := h.nodes.map fun _ => Node.blank, workingDirectory := h.workingDirectory }

theorem node?_blank (h : Host) (p : Path) : h.blank.node? p = (h.node? p).map Node.blank := by
  by_cases hp : p = .root
  · subst hp
    rfl
  · rw [node?_of_ne_root _ hp, node?_of_ne_root _ hp]
    exact Table.get?_map ..

theorem go_blank : go h.blank ending slash here ms = (go h ending slash here ms).blank := by
  induction ms generalizing here with
  | nil => rfl
  | cons m ms ih =>
    cases m with
    | stay | up => exact ih
    | down n =>
      simp only [go, node?_blank]
      split
      · rfl
      split
      · rfl
      rcases h.node? (here.child n) with _ | (_ | d | t)
      · dsimp only [Option.map_none]
        split <;> rfl
      · exact ih
      · dsimp only [Option.map_some, Node.blank]
        split <;> rfl
      · dsimp only [Option.map_some, Node.blank]
        split <;> rfl

theorem walk_blank (way : Route) : walk h.blank ending links here way = (walk h ending links here way).map Spot.blank := by
  fun_induction walk h ending links here way with
  | case1 _ _ _ _ hgo | case2 _ _ _ _ _ hgo => rw [walk.eq_def, go_blank, hgo]; rfl
  | case3 here way dir target rest hgo n inner ih =>
    rw [walk.eq_def, go_blank, hgo]
    exact ih

theorem resolve_blank (location : String) : h.blank.resolve location ending = (h.resolve location ending).map Spot.blank := by
  rw [resolve_eq, resolve_eq]
  cases checkLocation location with
  | error e => rfl
  | ok =>
    rw [show h.blank.startOf location = h.startOf location from rfl, walk_blank]
    cases walk h ending maxLinks (h.startOf location) (.of location) <;> rfl

theorem lstat_blank (location : String) : (lstat location h.blank).1 = (lstat location h).1.map Node.blank := by
  rw [lstat_run, lstat_run, resolve_blank]
  rcases h.resolve location .keep with _ | (_ | _) <;> rfl

/-- The entries of a directory without the data of files. -/
theorem children_blank (p : Path) : h.blank.children p = (h.children p).map fun (n, x) => (n, x.blank) := by
  unfold children blank Table.map
  rw [List.filterMap_map, List.map_filterMap]
  refine List.filterMap_congr fun x _ => ?_
  obtain ⟨q, x⟩ := x
  by_cases hq : q.parent? = some p
  · simp only [hq, if_true, Function.comp]
    cases q.name? <;> rfl
  · simp only [hq, if_false, Function.comp]
    rfl

theorem readDirectory_blank (location : String) : (readDirectory location h.blank).1 =
    (readDirectory location h).1.map fun l => l.map fun (n, x) => (n, x.blank) := by
  rw [readDirectory_run, readDirectory_run, resolve_blank]
  rcases h.resolve location .follow with _ | (⟨p, _ | _ | _⟩ | _)
  · rfl
  · exact congrArg Except.ok (children_blank p)
  · rfl
  · rfl
  · rfl

/-- Writing to a file changes no more than its data. -/
theorem blank_updated (h : Host) (serial : Nat) (f : Sparse → Sparse) : (h.updated serial f).blank = h.blank := by
  have hnode : ∀ x : Node, (x.changed h.clock serial f).blank = x.blank := by
    intro x
    cases x <;> rfl
  have hnodes : ((h.updated serial f).nodes.map fun _ => Node.blank) = h.nodes.map fun _ => Node.blank := by
    refine Table.ext_get? fun q => ?_
    show ((h.nodes.map fun _ => Node.changed h.clock serial f).map fun _ => Node.blank).get? q = _
    rw [Table.get?_map, Table.get?_map, Table.get?_map, Option.map_map]
    congr
    funext x
    exact hnode x
  unfold blank
  rw [hnodes]
  rfl

/-- The tree is as closed as before and looks the same without contents. -/
def SameBlank (h h' : Host) : Prop := h.Closed → h'.Closed ∧ h'.blank = h.blank

instance : IsPreorder Host SameBlank where
  refl _ hc := ⟨hc, rfl⟩
  trans _ _ _ hst htu hc := ⟨(htu (hst hc).1).1, (htu (hst hc).1).2.trans (hst hc).2⟩

theorem sameBlank_updateFile (serial : Nat) (f : Sparse → Sparse) : Stays SameBlank (updateFile serial f) :=
  stays_iff.2 fun h hc => by
    exact ⟨hc.updated serial f, blank_updated h serial f⟩

theorem sameBlank_writeTo (serial pos : Nat) (data : Bytes) : Stays SameBlank (writeTo serial pos data) :=
  .bind (stays_seek pos _) fun _ => .ite (fun _ => .pure) fun _ => .bind (sameBlank_updateFile serial _) fun _ => .pure

theorem sameBlank_setLength (serial length : Nat) : Stays SameBlank (setLength serial length) :=
  .ite (fun _ => .throw) fun _ => sameBlank_updateFile serial _

end Filespace.Host

namespace Filespace.Storage.Rooted

open Host

variable {r : Rooted} {h : Host} {p : Path} {α : Type} {f : Rooted → StoreM Host α}

/-! ### The outline of a host directory -/

/-- Directories, files and links of the host. A name that is too long can be noticed late. -/
def outline : Outline Rooted where
  Shape := Host × Rooted
  shape s := (s.1.blank, s.2)
  Fit s := s.1.Closed
  Late e := e = .host .nameTooLong

theorem stays_onHost (hf : ∀ r, Stays SameBlank (f r)) : Stays outline.Same (onHost f) :=
  stays_iff.2 fun s hs => by
    obtain ⟨hc, hblank⟩ := stays_iff.1 (hf s.2) s.1 hs
    exact ⟨hc, Prod.ext hblank rfl⟩

theorem asFit_onHost (hf : ∀ r, Stays AsClosed (f r)) : Stays outline.AsFit (onHost f) :=
  stays_iff.2 fun s hs => stays_iff.1 (hf s.2) s.1 hs

theorem makes_onHost (hf : ∀ r, Stays AsClosed (f r))
    (hlate : ∀ r h e, h.Closed → (f r h).1 = .error e → (f r h).2 = h ∨ e = .host .nameTooLong) :
    outline.Makes (onHost f) := by
  refine ⟨asFit_onHost hf, fun s e t hrun => ?_⟩
  by_cases hs : s.1.Closed
  · have ht : t = ((f s.2 s.1).2, s.2) := (congrArg Prod.snd hrun).symm
    obtain hsame | hlong := hlate s.2 s.1 e hs (congrArg Prod.fst hrun)
    · rw [ht, hsame]
      exact Or.inr (refl_of outline.Same s)
    · exact Or.inl hlong
  · exact Or.inr fun hfit => absurd hfit hs

theorem stays_find? {R : Host → Host → Prop} [IsPreorder Host R] (location : String) : Stays R (find? location) := by
  refine .bind (.attempt (stays_lstat location)) fun found => ?_
  match found with
  | .ok x => exact .pure
  | .error e => exact .ite (fun _ => .pure) fun _ => .throw

theorem stays_file_false {R : Host → Host → Prop} [IsPreorder Host R] (p : Path) : Stays R (r.file p false) := by
  unfold file
  cases p.parent? with
  | none => exact .throw
  | some parent =>
    refine .bind (stays_directory_false parent) fun _ => .bind (.attempt (stays_lstat _)) fun found => ?_
    match found with
    | .ok .directory => exact .throw
    | .ok (.file _) | .ok (.link _) => exact .pure
    | .error e => exact .ite (fun hcreate => absurd hcreate.2 Bool.false_ne_true) fun _ => .throw

theorem asClosed_file (p : Path) (create : Bool) : Stays AsClosed (r.file p create) := by
  unfold file
  cases p.parent? with
  | none => exact .throw
  | some parent =>
    refine .bind (asClosed_directory create parent) fun _ => .bind (.attempt (stays_lstat _)) fun found => ?_
    match found with
    | .ok .directory => exact .throw
    | .ok (.file _) | .ok (.link _) => exact .pure
    | .error e => exact .ite (fun _ => .bind (asClosed_openFile _ true) fun _ => .pure) fun _ => .throw

theorem asClosed_remove (p : Path) (recursive : Bool) : Stays AsClosed (r.remove p recursive) := by
  refine .ite (fun _ => .throw) fun _ => .bind (stays_lstat _) fun x => ?_
  match x with
  | .directory => exact .ite (fun _ => asClosed_removeTree _) fun _ => asClosed_removeDirectory _
  | .file _ | .link _ => exact asClosed_unlink _

theorem asClosed_move (source target : Path) : Stays AsClosed (r.move source target) := by
  refine .ite (fun _ => .throw) fun _ => .bind (stays_find? _) fun found => .ite (fun _ => .throw) fun _ =>
    .bind (stays_find? _) fun taken => .ite (fun _ => .throw) fun _ => ?_
  cases target.parent? with
  | none => exact asClosed_rename _ _
  | some parent => exact .bind (stays_directory_false parent) fun _ => asClosed_rename _ _

/-- A file is made in a directory that is there or was made; then only the length of a name can be in the way. -/
theorem file_true (hc : h.Closed) {e : StorageError} (hrefused : (r.file p true h).1 = .error e) :
    (r.file p true h).2 = h ∨ e = .host .nameTooLong := by
  obtain rfl | ⟨p, n, rfl⟩ := Path.eq_root_or_child p
  · exact Or.inl rfl
  rw [file_child_run] at hrefused ⊢
  have hparent := directory_true (r := r) hc p
  rcases hrun : r.directory p true h with ⟨e' | u, h'⟩
  · rw [hrun] at hrefused hparent
    obtain hsame | ⟨hok, -⟩ | hlong := hparent
    · exact Or.inl hsame
    · cases hok
    · exact Or.inr (Except.error.inj (hrefused.symm.trans hlong))
  · rw [hrun] at hrefused hparent
    dsimp only at hrefused hparent ⊢
    obtain rfl | ⟨-, hempty⟩ | hlong := hparent
    · left
      cases hlook : (lstat (r.location (p.child n)) h').1 with
      | ok x => cases x <;> rfl
      | error e' =>
        rw [hlook] at hrefused
        dsimp only at hrefused ⊢
        by_cases hmissing : e'.kind = .notFound ∧ true = true
        · rw [if_pos hmissing] at hrefused ⊢
          cases hopen : (openFile (r.location (p.child n)) true h').1 with
          | error e => exact openFile_refused hopen
          | ok serial =>
            rw [hopen] at hrefused
            cases hrefused
        · rw [if_neg hmissing]
    · right
      rw [lstat_location] at hrefused
      obtain hlong | ⟨dir, k, hspot, hdir, hfree⟩ := hempty.spot n
      · rw [hlong] at hrefused
        exact (Except.error.inj hrefused).symm
      · rw [hspot, openFile_free hspot hfree, createFile_run, if_pos hdir] at hrefused
        simp only [Except.bind, hfree] at hrefused
        cases hrefused
    · cases hlong

/-- What is asked of an entry on the way to another. -/
def passable (location : String) : Node → Except StorageError Unit
  | .directory => .ok ()
  | _ => .error (.notADirectory location)

theorem directory_blank : (r.directory p false h.blank).1 = (r.directory p false h).1 := by
  induction p using Path.induction_child with
  | base => rfl
  | step p n ih =>
    have hkept : ∀ h, h = (r.directory p false h).2 := stays_iff.1 (stays_directory_false p)
    have hrun : ∀ h, (r.directory (p.child n) false h).1 = (r.directory p false h).1.bind fun _ =>
        (lstat (r.location (p.child n)) h).1.bind (passable (r.location (p.child n))) := by
      intro h
      have hkept := hkept h
      rw [directory_child, bind_run]
      rcases hdir : r.directory p false h with ⟨_ | _, h'⟩
      · rfl
      · rw [hdir] at hkept
        obtain rfl : h = h' := hkept
        dsimp only
        rw [stepTo_run]
        rcases (lstat (r.location (p.child n)) h).1 with _ | (_ | _ | _) <;> simp [Except.bind, passable]
    rw [hrun, hrun, ih, lstat_blank]
    rcases (lstat (r.location (p.child n)) h).1 with _ | (_ | _ | _) <;> rfl

theorem list_blank : (r.list p h.blank).1.map shown = (r.list p h).1.map shown := by
  have hrun : ∀ h, (r.list p h).1 =
      (readDirectory (r.location p) h).1.map fun l => l.filterMap fun (n, x) => (stat? x).map (n, ·) := by
    intro h
    unfold list
    rw [bind_run]
    rcases readDirectory (r.location p) h with ⟨_ | _, h'⟩ <;> rfl
  rw [hrun, hrun, readDirectory_blank]
  cases (readDirectory (r.location p) h).1 with
  | error e => rfl
  | ok l =>
    refine congrArg Except.ok ?_
    unfold shown
    dsimp only
    rw [List.filterMap_map, List.map_filterMap, List.map_filterMap]
    refine List.filterMap_congr fun x _ => ?_
    obtain ⟨n, _ | d | t⟩ := x <;> rfl

theorem outline_lawful : outline.Lawful where
  directory p := stays_onHost fun _ => stays_directory_false p
  file p := stays_onHost fun _ => stays_file_false p
  makeDirectory p := makes_onHost (fun _ => asClosed_directory true p) fun r h e hc hrefused => by
    obtain hsame | ⟨hok, -⟩ | hlong := directory_true hc p
    · exact Or.inl hsame
    · rw [hok] at hrefused
      cases hrefused
    · exact Or.inr (Except.error.inj (hrefused.symm.trans hlong))
  makeFile p := makes_onHost (fun _ => asClosed_file p true) fun _ _ _ hc hrefused => file_true hc hrefused
  openHandle p := stays_onHost fun _ => stays_openFile_false _
  remove p recursive := asFit_onHost fun _ => asClosed_remove p recursive
  move source target := asFit_onHost fun _ => asClosed_move source target
  list p := stays_onHost fun _ => .bind (stays_readDirectory _) fun _ => .pure
  entry p := stays_onHost fun _ => .bind (stays_find? _) fun _ => .pure
  writeAt p offset data := stays_onHost fun _ => .bind .settle fun _ => .bind (stays_openFile_false _) fun serial =>
    .bind (sameBlank_writeTo serial offset data) fun _ => .bind (stays_content serial) fun _ => .pure
  read handle pos length := stays_onHost fun _ => stays_readFrom handle pos length
  write handle pos data := stays_onHost fun _ => sameBlank_writeTo handle pos data
  truncate handle length := stays_onHost fun _ => sameBlank_setLength handle length
  flush _ := .pure
  size handle := stays_onHost fun _ => .bind (stays_content handle) fun _ => .pure
  close _ := .pure
  makeIn parent p s e t hp hfound hrun := by
    obtain ⟨n, rfl⟩ := Path.parent?_eq_some_iff.1 hp
    have hstep : s.2.directory (parent.child n) true s.1 = s.2.stepTo true (parent.child n) s.1 := by
      rw [directory_child, bind_run, directory_found hfound]
    obtain hsame | ⟨h', hmade, -⟩ := stepTo_cases s.2 s.1 parent n
    · have ht : t = ((s.2.directory (parent.child n) true s.1).2, s.2) := (congrArg Prod.snd hrun).symm
      rw [hstep, hsame] at ht
      rw [ht]
      exact refl_of outline.Same s
    · have hok : (s.2.directory (parent.child n) true s.1).1 = .error e := congrArg Prod.fst hrun
      rw [hstep, hmade] at hok
      cases hok
  found p s t _ _ hshape := by
    obtain ⟨hhost, hstore⟩ : t.1.blank = s.1.blank ∧ t.2 = s.2 := Prod.mk.inj hshape
    show (t.2.directory p false t.1).1 = (s.2.directory p false s.1).1
    rw [← directory_blank, hhost, hstore, directory_blank]
  listed p s t _ _ hshape := by
    obtain ⟨hhost, hstore⟩ : t.1.blank = s.1.blank ∧ t.2 = s.2 := Prod.mk.inj hshape
    show (t.2.list p t.1).1.map shown = (s.2.list p s.1).1.map shown
    rw [← list_blank, hhost, hstore, list_blank]

end Filespace.Storage.Rooted

namespace Filespace.Vfs

open Storage Host Rooted

variable {μ : Type} [LinkMap μ]

/-! ### Namespaces over a host directory -/

/-- Remembered listings of a host directory are right. A namespace is started on a host directory, with its link records
kept elsewhere, and used in turns. After each turn every listing that it remembers is the one that would be read now,
unless an open that was to make an entry has been refused because a name or a location is too long. -/
theorem local_listings_coherent (hμ : LinkMap.OffHost μ) {o : Options} {w w' : World Rooted μ} {v : Vfs Rooted μ}
    (hclosed : w.host.Closed) (hstart : start o w = (.ok v, w')) (descriptors : Table String Descriptor) (run : List Turn)
    (hlong : ∀ t, (t, .error (.failed (.storage (.host .nameTooLong)))) ∈
      run.zip (Session.results (fun _ r => r) ⟨v, descriptors⟩ run) → ¬ t.operation.Creates) :
    (Session.atEnd (fun _ r => r) ⟨v, descriptors⟩ run).space.Coherent := by
  have hfresh : Fresh Rooted.outline v := fresh_of_start Rooted.outline_lawful (hμ.hides _) hclosed hstart
  have hclock : ∀ (n : Nat) (s : Host × Rooted), Rooted.outline.Same s ({ s.1 with clock := n }, s.2) :=
    fun _ _ hs => ⟨hs, rfl⟩
  refine (Fresh.atEnd (s := ⟨v, descriptors⟩) Rooted.outline_lawful (hμ.hides _) hclock hfresh run ?_).coherent
  rintro t e he hop ⟨_, rfl, rfl⟩
  exact hlong t he hop

/-- A host with one directory, in which a store keeps its entries. -/
def hostDirectory : World Rooted Records :=
  ⟨{ nodes := .ofList [(⟨[⟨"root", by decide⟩]⟩, .directory)] }, ⟨"/root"⟩, {}⟩

theorem closed_hostDirectory : hostDirectory.host.Closed := by
  intro p n hp
  rw [node?_of_ne_root _ Path.child_ne_root] at hp
  obtain ⟨x, hx⟩ := Option.ne_none_iff_exists'.1 hp
  have hrow : (p.child n, x) ∈ [(Path.child .root ⟨"root", by decide⟩, Node.directory)] := Table.get?_eq_some_iff.1 hx
  obtain ⟨rfl, -⟩ := Path.child_inj.1 (Prod.mk.inj (List.mem_singleton.1 hrow)).1
  rfl

/-- A namespace that was started there. -/
def inHostDirectory : Vfs Rooted Records := fresh { cacheListings := true } {} hostDirectory

/-- A file is made, its directory is listed, and then an entry in the file is to be made, which fails. -/
theorem local_listings_coherent_refusedOpen :
    start { cacheListings := true } hostDirectory = (.ok inHostDirectory, hostDirectory) ∧
      (Session.atEnd (fun _ r => r) ⟨inHostDirectory, ∅⟩
        [⟨.openAt none "f" { create := true } none, [], 1⟩, ⟨.readDirectoryAt none "/", [], 2⟩,
          ⟨.openAt none "f/g" { create := true } none, [], 3⟩]).space.Coherent := by
  have hstart : start { cacheListings := true } hostDirectory = (.ok inHostDirectory, hostDirectory) := by rfl
  refine ⟨hstart, local_listings_coherent Records.offHost closed_hostDirectory hstart ∅ _ fun t ht => ?_⟩
  have hlong : .error (.failed (.storage (.host .nameTooLong))) ∉ Session.results (fun _ r => r) ⟨inHostDirectory, ∅⟩
      [⟨.openAt none "f" { create := true } none, [], 1⟩, ⟨.readDirectoryAt none "/", [], 2⟩,
        ⟨.openAt none "f/g" { create := true } none, [], 3⟩] := by decide +kernel
  exact absurd (List.of_mem_zip ht).2 hlong

/-! ### A name that is too long -/

/-- A request at which no job is due. -/
theorem call_of_execute {φ μ : Type} [FileStore φ] [LinkMap μ] {v : Vfs φ μ} {r : Request} (hdue : v.runDue = v)
    {x : Except StorageError (Reply (FileStore.Handle φ))} {s : Host × φ} (hrun : r.execute v.behind = (x, s)) :
    call r v = (x.mapError .storage, { v with world := { v.world with host := s.1, files := s.2 } }) := by
  show onFiles r.execute v.runDue = _
  rw [hdue]
  show (let (x, s) := r.execute v.behind
    (x.mapError Error.storage, { v with world := { v.world with host := s.1, files := s.2 } })) = _
  rw [hrun]

/-- The name of a directory. -/
def nameD : Name := ⟨"d", by decide⟩

theorem parse_inD (n : Name) : Path.parse ("/d/" ++ n.text) = .ok (.child ⟨[nameD]⟩ n) := by
  have hchars : ("/d/" ++ n.text).toList = ['/', 'd'] ++ '/' :: n.chars := by
    rw [String.toList_append]
    rfl
  have hmoves : (pieces ("/d/" ++ n.text).toList).mapM Path.Move.ofPiece? = some [.stay, .down nameD, .down n] := by
    rw [hchars, pieces_snoc _ n.slash_notMem]
    simp [Path.Move.ofPiece?_chars, List.mapM_cons, List.mapM_nil]
    rfl
  unfold Path.parse Path.parseFrom
  rw [hmoves]
  rfl

/-- A namespace over a host directory that has listed its root. -/
def rootListed : Vfs Rooted Records :=
  { inHostDirectory with listings := ⟨true, .ofList [(.root, [])]⟩ }

/-- The same after a directory was made. -/
def rootOutdated : Vfs Rooted Records :=
  { rootListed with world := { hostDirectory with
      host := hostDirectory.host.placed (.child ⟨[⟨"root", by decide⟩]⟩ nameD) .directory } }

section Overlong

variable {n : Name} (hcheck : checkLocation (Location.join "/root/d" n.text) = .ok ())

include hcheck

/-- Nothing is found in a directory that is not there. -/
theorem lookup_inD : lookup (.child ⟨[nameD]⟩ n) rootListed = (.ok none, rootListed) := by
  have hspot : hostDirectory.files.spot hostDirectory.host ⟨[nameD]⟩ n = .error (.host .noEntry) := by
    unfold Rooted.spot
    rw [show hostDirectory.files.location (.child ⟨[nameD]⟩ n) = Location.join "/root/d" n.text from rfl, hcheck]
    rfl
  have hentry : hostDirectory.files.entry (.child ⟨[nameD]⟩ n) hostDirectory.host = (.ok none, hostDirectory.host) := by
    unfold Rooted.entry Rooted.find?
    rw [bind_run, bind_run, attempt_lstat, Rooted.lstat_location, hspot]
    rfl
  have hexecute : (Request.entry (.child ⟨[nameD]⟩ n)).execute rootListed.behind =
      (.ok (.entry (.child ⟨[nameD]⟩ n) none), rootListed.behind) := by
    show (FileStore.entry (.child ⟨[nameD]⟩ n) >>= fun found => pure (Reply.entry (.child ⟨[nameD]⟩ n) found)) rootListed.behind = _
    have hfiles : FileStore.entry (.child ⟨[nameD]⟩ n) rootListed.behind = (.ok none, rootListed.behind) :=
      onHost_run hentry
    rw [bind_run, hfiles]
    rfl
  unfold lookup
  rw [bind_run, show (get : VfsM Rooted Records _) rootListed = (.ok rootListed, rootListed) from rfl]
  dsimp only
  rw [show rootListed.links.get? (.child ⟨[nameD]⟩ n) = none from rfl]
  dsimp only
  rw [if_neg (by simp), bind_run, call_of_execute rfl hexecute]
  rfl

/-- The directory is made, and then the name is too long. -/
theorem createDirectory_inD (hlong : isLong n = true) :
    call (.createDirectory (.child ⟨[nameD]⟩ n) true) rootListed =
      (.error (.storage (.host .nameTooLong)), rootOutdated) := by
  have hspot : hostDirectory.files.spot rootOutdated.world.host ⟨[nameD]⟩ n = .error (.host .nameTooLong) := by
    unfold Rooted.spot
    rw [show hostDirectory.files.location (.child ⟨[nameD]⟩ n) = Location.join "/root/d" n.text from rfl, hcheck]
    exact if_pos hlong
  have hdirectory : hostDirectory.files.directory (.child ⟨[nameD]⟩ n) true hostDirectory.host =
      (.error (.host .nameTooLong), rootOutdated.world.host) := by
    rw [Rooted.directory_child, bind_run, show hostDirectory.files.directory ⟨[nameD]⟩ true hostDirectory.host =
      (.ok (), rootOutdated.world.host) from rfl]
    dsimp only
    rw [Rooted.stepTo_run, Rooted.lstat_location, hspot]
    rfl
  have hexecute : (Request.createDirectory (.child ⟨[nameD]⟩ n) true).execute rootListed.behind =
      (.error (.host .nameTooLong), rootOutdated.behind) := by
    show (FileStore.directory (.child ⟨[nameD]⟩ n) true >>= fun _ => pure Reply.done) rootListed.behind = _
    have hfiles : FileStore.directory (.child ⟨[nameD]⟩ n) true rootListed.behind =
      (.error (.host .nameTooLong), rootOutdated.behind) := onHost_run hdirectory
    rw [bind_run, hfiles]
  exact call_of_execute rfl hexecute

theorem openAt_inD (hlong : isLong n = true) :
    openAt none ("/d/" ++ n.text) { create := true, directory := true } rootListed =
      (.error (.storage (.host .nameTooLong)), rootOutdated) := by
  have hrelative : rootListed.resolver.relative none ("/d/" ++ n.text) = .ok (.child ⟨[nameD]⟩ n) := by
    have habsolute : Resolver.isAbsolute ("/d/" ++ n.text) = true := by
      unfold Resolver.isAbsolute
      rw [String.toList_append]
      rfl
    unfold Resolver.relative
    rw [if_pos habsolute, parse_inD]
  have hresolve : resolve none ("/d/" ++ n.text) true rootListed = (.ok (.child ⟨[nameD]⟩ n), rootListed) := by
    unfold resolve
    dsimp only
    rw [bind_run, show (get : VfsM Rooted Records _) rootListed = (.ok rootListed, rootListed) from rfl]
    dsimp only
    rw [show none.map Descriptor.path = none from rfl, hrelative]
    rfl
  unfold openAt
  rw [bind_run, hresolve]
  dsimp only
  rw [bind_run, lookup_inD hcheck]
  dsimp only
  rw [bind_run]
  unfold openNew
  dsimp only
  rw [if_neg (by simp), if_pos rfl, bind_run, createDirectory_inD hcheck hlong]

/-- What the open leaves behind. -/
theorem play_inD (hlong : isLong n = true) : (Turn.play (fun _ r => r)
    ⟨.openAt none ("/d/" ++ n.text) { create := true, directory := true } none, [], 0⟩ ⟨rootListed, ∅⟩).2.space =
      rootOutdated := by
  have hrun : (Operation.openAt none ("/d/" ++ n.text) { create := true, directory := true } none).run
      (⟨rootListed, ∅⟩) =
      (.error (.failed (.storage (.host .nameTooLong))), ⟨rootOutdated, ∅⟩) := by
    show (Session.onSpace (openAt none ("/d/" ++ n.text) { create := true, directory := true }) >>= fun d =>
      pure (Value.descriptor d)) ⟨rootListed, ∅⟩ = _
    have hspace : Session.onSpace (openAt none ("/d/" ++ n.text) { create := true, directory := true })
        (⟨rootListed, ∅⟩) = (.error (.failed (.storage (.host .nameTooLong))), ⟨rootOutdated, ∅⟩) := by
      unfold Session.onSpace
      rw [openAt_inD hcheck hlong]
      rfl
    rw [bind_run, hspace]
  unfold Turn.play
  rw [show rootListed.atTurn (fun _ r => r) ⟨.openAt none ("/d/" ++ n.text) { create := true, directory := true } none, [], 0⟩ =
    rootListed from rfl, hrun]
  rfl

theorem atEnd_inD (hlong : isLong n = true) : (Session.atEnd (fun _ r => r)
    ⟨inHostDirectory, ∅⟩ [⟨.readDirectoryAt none "/", [], 0⟩,
      ⟨.openAt none ("/d/" ++ n.text) { create := true, directory := true } none, [], 0⟩]).space = rootOutdated :=
  play_inD hcheck hlong

/-- The listing that is remembered has nothing in it. -/
theorem outdated_inD (hlong : isLong n = true) : ¬ (Session.atEnd (fun _ r => r)
    ⟨inHostDirectory, ∅⟩ [⟨.readDirectoryAt none "/", [], 0⟩,
      ⟨.openAt none ("/d/" ++ n.text) { create := true, directory := true } none, [], 0⟩]).space.Coherent := by
  intro hcoherent
  rw [atEnd_inD hcheck hlong] at hcoherent
  have hlisted : (.ok [⟨"d", .directory⟩] : Except Error (List DirEntry)) = .ok [] := hcoherent .root [] rfl
  cases hlisted

end Overlong

/-- A name that is too long for the host. -/
def overlong : Name := ⟨.ofList (List.replicate 256 'A'), by rw [String.toList_ofList]; decide +kernel⟩

theorem isLong_overlong : isLong overlong = true := by decide +kernel

theorem checkLocation_overlong : checkLocation (Location.join "/root/d" overlong.text) = .ok () := by
  have hjoin : Location.join "/root/d" overlong.text = "/root/d" ++ "/" ++ overlong.text := by
    unfold Location.join
    rw [isAbsolute_name]
    rfl
  have hsize : ¬ ("/root/d" ++ "/" ++ overlong.text).utf8ByteSize ≥ maxLocation := by decide +kernel
  have hbase : checkLocation "/root/d" = .ok () := rfl
  obtain hok | hlong := checkLocation_join hbase overlong
  · exact hok
  · unfold checkLocation at hlong
    rw [hjoin] at hlong
    split at hlong
    · cases hlong
    · split at hlong <;> cases hlong

/-- The root is listed, and then a directory with a name that is too long is to be made in a new one. That fails, but the
new directory is there, and not in the listing that is remembered. -/
theorem stale_after_overlong :
    start { cacheListings := true } hostDirectory = (.ok inHostDirectory, hostDirectory) ∧
      ¬ (Session.atEnd (fun _ r => r) ⟨inHostDirectory, ∅⟩ [⟨.readDirectoryAt none "/", [], 0⟩,
        ⟨.openAt none ("/d/" ++ overlong.text) { create := true, directory := true } none, [], 0⟩]).space.Coherent :=
  ⟨by rfl, outdated_inD checkLocation_overlong isLong_overlong⟩

end Filespace.Vfs
