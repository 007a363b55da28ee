import Filespace.Proofs.HostTrees

/-!
# Calls of a store in a host directory

A store in a host directory names the entries of the host by locations below its own. What a call of the host does at
such a location is decided in one directory of the host, the one that holds the entry (`Rooted.spot`): the calls that
look at an entry, make one or remove one are described by what is there under the last name.

Making a directory with all around it is a sequence of such calls. Once it has made one, only the length of a name or
a location can stop it (`directory_true`), because a new directory is empty.
-/

namespace Filespace.Host

variable {h h' : Host} {p here dir : Path} {n : Name} {links k : Nat} {slash : Bool} {ms : List Path.Move}

/-- Entries that are added do not change a way that came to an end. -/
theorem reach_grown (hgrown : ∀ q x, h.node? q = some x → h'.node? q = some x)
    (hreach : reach h links here ms = .ok (dir, k)) : reach h' links here ms = .ok (dir, k) := by
  fun_induction reach h links here ms with
  | case1 links here ms dir' node hgo =>
    rw [reach.eq_def, go_grown hgrown hgo (by simp)]
    exact hreach
  | case2 | case3 | case4 => cases hreach
  | case5 here ms dir' target rest hgo n ih =>
    rw [reach.eq_def, go_grown hgrown hgo (by simp)]
    exact ih hreach

/-- One more name, under which there is no link. -/
theorem reach_plain (hplain : ∀ t, h.node? (dir.child n) ≠ some (.link t)) : reach h k dir [.down n] =
    if isLong n then .error .nameTooLong else match h.node? (dir.child n) with
      | none => .error .noEntry
      | some .directory => .ok (dir.child n, k)
      | some _ => .error .notDirectory := by
  rw [reach.eq_def]
  simp only [go]
  by_cases hlong : isLong n = true
  · simp [hlong]
  · cases hnode : h.node? (dir.child n) with
    | none => simp [hlong]
    | some x =>
      cases x with
      | directory | file => simp [hlong]
      | link t => exact absurd hnode (hplain t)

/-- The last name of a location, under which there is no link. -/
theorem walk_plain {ending : Ending} (hplain : ∀ t, h.node? (dir.child n) ≠ some (.link t)) :
    walk h ending k dir ⟨[.down n], false⟩ = if isLong n then .error .nameTooLong else match h.node? (dir.child n) with
      | none => .ok (.free dir n)
      | some x => .ok (.found (dir.child n) x) := by
  rw [walk.eq_def]
  simp only [go]
  by_cases hlong : isLong n = true
  · simp [hlong]
  · cases hnode : h.node? (dir.child n) with
    | none => simp [hlong]
    | some x =>
      cases x with
      | directory | file => simp [hlong]
      | link t => exact absurd hnode (hplain t)

theorem lstat_run (location : String) (h : Host) : lstat location h = ((h.resolve location .keep).bind fun
    | .found _ x => .ok x
    | .free _ _ => .error (.host .noEntry), h) := by
  unfold lstat
  rw [bind_run, show locate location .keep h = (h.resolve location .keep, h) from rfl]
  rcases h.resolve location .keep with _ | (_ | _) <;> rfl

theorem attempt_lstat (location : String) (h : Host) : (lstat location).attempt h = (.ok (lstat location h).1, h) := by
  show (Except.ok (lstat location h).1, (lstat location h).2) = _
  rw [lstat_run]

theorem readDirectory_run (location : String) (h : Host) : readDirectory location h =
    ((h.resolve location .follow).bind fun
      | .found p .directory => .ok (h.children p)
      | .found _ _ => .error (.host .notDirectory)
      | .free _ _ => .error (.host .noEntry), h) := by
  unfold readDirectory
  rw [bind_run, show locate location .follow h = (h.resolve location .follow, h) from rfl]
  rcases h.resolve location .follow with _ | (⟨_, _ | _ | _⟩ | _) <;> rfl

theorem removeTree_run (location : String) (h : Host) : removeTree location h = match h.resolve location .keep with
    | .error e => (.error e, h)
    | .ok (.free _ _) => (.error (.host .noEntry), h)
    | .ok (.found p _) => if p.isRoot then (.error (.host .busy), h) else detach p h := by
  unfold removeTree
  rw [bind_run, show locate location .keep h = (h.resolve location .keep, h) from rfl]
  rcases h.resolve location .keep with _ | (⟨p, _⟩ | _)
  · rfl
  · dsimp only
    split <;> rfl
  · rfl

theorem openFile_run (location : String) (create : Bool) (h : Host) : openFile location create h =
    match h.resolve location (if create then .make else .follow) with
    | .error e => (.error e, h)
    | .ok (.found _ (.file f)) => (.ok f.serial, h)
    | .ok (.found _ .directory) => (.error (.host .isDirectory), h)
    | .ok (.found _ (.link _)) => (.error (.host .loop), h)
    | .ok (.free dir n) => if create then createFile dir n h else (.error (.host .noEntry), h) := by
  unfold openFile
  rw [bind_run, show ∀ ending, locate location ending h = (h.resolve location ending, h) from fun _ => rfl]
  rcases h.resolve location (if create then .make else .follow) with e | (⟨p, _ | d | t⟩ | ⟨dir, n⟩)
  · rfl
  · rfl
  · rfl
  · rfl
  · cases create <;> rfl

/-- A file that is not opened is not made. -/
theorem openFile_refused {location : String} {e : Storage.StorageError} {create : Bool}
    (hrefused : (openFile location create h).1 = .error e) : (openFile location create h).2 = h := by
  rw [openFile_run] at hrefused ⊢
  match h.resolve location (if create then .make else .follow), hrefused with
  | .error _, _ | .ok (.found _ (.file _)), _ | .ok (.found _ .directory), _ | .ok (.found _ (.link _)), _ => rfl
  | .ok (.free dir n), hrefused =>
    dsimp only at hrefused ⊢
    rw [createFile_run] at hrefused ⊢
    split at hrefused
    · rename_i hcreate
      rw [if_pos hcreate]
      split at hrefused
      · cases hrefused
      · rename_i hdir
        rw [if_neg hdir]
    · rename_i hcreate
      rw [if_neg hcreate]

end Filespace.Host

namespace Filespace.Storage.Rooted

open Host

variable {r : Rooted} {h h' : Host} {p q dir : Path} {n : Name} {k : Nat} {create : Bool}

/-! ### Where the store's entries are -/

/-- The directory of the host that holds a name of a directory of the store, and how many links can still be replaced
there. -/
def spot (r : Rooted) (h : Host) (p : Path) (n : Name) : Except StorageError (Path × Nat) :=
  match checkLocation (r.location (p.child n)), r.reach h p with
  | .error e, _ => .error e
  | .ok _, .error e => .error (.host e)
  | .ok _, .ok x => if isLong n then .error (.host .nameTooLong) else .ok x

theorem spot_eq_ok_iff : r.spot h p n = .ok (dir, k) ↔
    checkLocation (r.location (p.child n)) = .ok () ∧ r.reach h p = .ok (dir, k) ∧ isLong n = false := by
  unfold spot
  rcases checkLocation (r.location (p.child n)) with e | u
  · simp
  · rcases r.reach h p with e | x
    · simp
    · cases isLong n <;> simp

theorem resolve_location (ending : Ending) : h.resolve (r.location (p.child n)) ending =
    match checkLocation (r.location (p.child n)), r.reach h p with
    | .error e, _ => .error e
    | .ok _, .error e => .error (.host e)
    | .ok _, .ok (dir, k) => (walk h ending k dir ⟨[.down n], false⟩).mapError .host := by
  rw [resolve_eq, startOf_location]
  have hroute : Route.of (r.location (p.child n)) = ⟨(Route.of r.root).moves ++ p.names.map .down ++ [.down n], false⟩ := by
    rw [location_child, route_join, moves_location]
  rw [hroute, walk_append (List.cons_ne_nil _ _)]
  rw [show h.reach maxLinks (h.startOf r.root) ((Route.of r.root).moves ++ p.names.map .down) = r.reach h p from rfl]
  rcases checkLocation (r.location (p.child n)) with e | u
  · rfl
  · rcases r.reach h p with e | ⟨dir, k⟩ <;> rfl

theorem placeOf_location : h.placeOf (r.location (p.child n)) =
    match checkLocation (r.location (p.child n)), r.reach h p with
    | .error e, _ => .error e
    | .ok _, .error e => .error (.host e)
    | .ok _, .ok (dir, _) => .ok ⟨dir, some (.down n), false⟩ := by
  have hroute : Route.of (r.location (p.child n)) = ⟨(Route.of r.root).moves ++ p.names.map .down ++ [.down n], false⟩ := by
    rw [location_child, route_join, moves_location]
  unfold placeOf
  rw [startOf_location, hroute]
  simp only [List.dropLast_concat, List.getLast?_concat, walk_slash]
  rw [show h.reach maxLinks (h.startOf r.root) ((Route.of r.root).moves ++ p.names.map .down) = r.reach h p from rfl]
  rcases checkLocation (r.location (p.child n)) with e | u
  · rfl
  · rcases r.reach h p with e | ⟨dir, k⟩ <;> rfl

/-- A look at an entry of the store. -/
theorem lstat_location : lstat (r.location (p.child n)) h = ((r.spot h p n).bind fun x =>
    match h.node? (x.1.child n) with
    | none => .error (.host .noEntry)
    | some node => .ok node, h) := by
  rw [lstat_run, resolve_location]
  unfold spot
  rcases checkLocation (r.location (p.child n)) with e | u
  · rfl
  · rcases r.reach h p with e | ⟨dir, k⟩
    · rfl
    · dsimp only
      rw [walk_keep]
      cases isLong n
      · cases hnode : h.node? (dir.child n) <;> simp [Except.bind, Except.mapError, hnode]
      · rfl

/-- What is done where a name of a directory of the store is looked up, knowing what is there. -/
def atSpot {α : Type} (r : Rooted) (p : Path) (n : Name) (f : Path → Option Node → StoreM Host α) : StoreM Host α := fun h =>
  match r.spot h p n with
  | .error e => (.error e, h)
  | .ok (dir, _) => f dir (h.node? (dir.child n)) h

section AtSpot

variable {α : Type} {f : Path → Option Node → StoreM Host α}

theorem atSpot_of_error {e : StorageError} (hspot : r.spot h p n = .error e) : r.atSpot p n f h = (.error e, h) := by
  unfold atSpot
  rw [hspot]

theorem atSpot_of_ok (hspot : r.spot h p n = .ok (dir, k)) : r.atSpot p n f h = f dir (h.node? (dir.child n)) h := by
  unfold atSpot
  rw [hspot]

end AtSpot

/-- What follows the way to the place of an entry, when its name is looked at. -/
theorem place_location {α : Type} {f : Path → Option Node → StoreM Host α} {g : Place → StoreM Host α}
    (hg : ∀ dir, g ⟨dir, some (.down n), false⟩ = entryIn? dir n >>= f dir) :
    (locatePlace (r.location (p.child n)) >>= g) = r.atSpot p n f := by
  funext h
  rw [bind_run, show locatePlace (r.location (p.child n)) h = (h.placeOf (r.location (p.child n)), h) from rfl,
    placeOf_location]
  unfold atSpot spot
  rcases checkLocation (r.location (p.child n)) with e | u
  · rfl
  · rcases r.reach h p with e | ⟨dir, k⟩
    · rfl
    · dsimp only
      rw [hg, bind_run, entryIn?_run]
      cases isLong n <;> rfl

theorem makeDirectory_location : makeDirectory (r.location (p.child n)) = r.atSpot p n fun dir => fun
    | none => placeIn dir n .directory
    | some _ => fail .occupied := by
  refine place_location fun dir => congrArg (entryIn? dir n >>= ·) ?_
  funext x
  cases x <;> rfl

theorem unlink_location : unlink (r.location (p.child n)) = r.atSpot p n fun dir => fun
    | none => fail .noEntry
    | some .directory => fail .isDirectory
    | some _ => detach (dir.child n) := by
  refine place_location fun dir => congrArg (entryIn? dir n >>= ·) ?_
  funext x
  rcases x with _ | (_ | _ | _) <;> rfl

theorem removeDirectory_location : removeDirectory (r.location (p.child n)) = r.atSpot p n fun dir => fun
    | none => fail .noEntry
    | some .directory => do
      if (← get).hasChildren (dir.child n) then fail .notEmpty else detach (dir.child n)
    | some _ => fail .notDirectory := by
  refine place_location fun dir => congrArg (entryIn? dir n >>= ·) ?_
  funext x
  rcases x with _ | (_ | _ | _) <;> rfl

/-- No link is under the last name. -/
def Plain (r : Rooted) (h : Host) (p : Path) (n : Name) : Prop :=
  ∀ dir k t, r.reach h p = .ok (dir, k) → h.node? (dir.child n) ≠ some (.link t)

section Plain

variable (hplain : r.Plain h p n)

include hplain

theorem resolve_plain (ending : Ending) : h.resolve (r.location (p.child n)) ending = (r.spot h p n).map fun x =>
    match h.node? (x.1.child n) with
    | none => .free x.1 n
    | some y => .found (x.1.child n) y := by
  rw [resolve_location]
  unfold spot
  rcases checkLocation (r.location (p.child n)) with e | u
  · rfl
  · cases hreach : r.reach h p with
    | error e => rfl
    | ok x =>
      obtain ⟨dir, k⟩ := x
      dsimp only
      rw [walk_plain fun t => hplain dir k t hreach]
      cases isLong n
      · cases hnode : h.node? (dir.child n) <;> simp [Except.map, Except.mapError, hnode]
      · rfl

theorem openFile_plain (create : Bool) : openFile (r.location (p.child n)) create h = r.atSpot p n (fun dir => fun
    | none => if create then createFile dir n else fail .noEntry
    | some (.file d) => pure d.serial
    | some .directory => fail .isDirectory
    | some (.link _) => fail .loop) h := by
  rw [openFile_run, resolve_plain hplain]
  unfold atSpot
  rcases r.spot h p n with e | ⟨dir, k⟩
  · rfl
  · simp only [Except.map]
    rcases h.node? (dir.child n) with _ | (_ | _ | _)
    · cases create <;> rfl
    · rfl
    · rfl
    · rfl

theorem readDirectory_plain : readDirectory (r.location (p.child n)) h = r.atSpot p n (fun dir => fun
    | none => fail .noEntry
    | some .directory => do return (← get).children (dir.child n)
    | some _ => fail .notDirectory) h := by
  rw [readDirectory_run, resolve_plain hplain]
  unfold atSpot
  rcases r.spot h p n with e | ⟨dir, k⟩
  · rfl
  · simp only [Except.map, Except.bind]
    rcases h.node? (dir.child n) with _ | (_ | _ | _) <;> rfl

theorem removeTree_plain : removeTree (r.location (p.child n)) h = r.atSpot p n (fun dir => fun
    | none => fail .noEntry
    | some _ => detach (dir.child n)) h := by
  rw [removeTree_run, resolve_plain hplain]
  unfold atSpot
  rcases r.spot h p n with e | ⟨dir, k⟩
  · rfl
  · simp only [Except.map]
    cases h.node? (dir.child n) with
    | none => rfl
    | some x => exact if_neg (by simp)

end Plain

/-- A file is made at a free name. -/
theorem openFile_free (hspot : r.spot h p n = .ok (dir, k)) (hfree : h.node? (dir.child n) = none) :
    openFile (r.location (p.child n)) true h = createFile dir n h := by
  obtain ⟨-, hreach, -⟩ := spot_eq_ok_iff.1 hspot
  have hplain : r.Plain h p n := by
    intro dir' k' t hreach' hlink
    obtain ⟨rfl, -⟩ : dir = dir' ∧ k = k' := Prod.mk.inj (Except.ok.inj (hreach.symm.trans hreach'))
    rw [hfree] at hlink
    cases hlink
  rw [openFile_plain hplain, atSpot_of_ok hspot, hfree]
  rfl

/-! ### Going down -/

/-- Goes down to one directory, making it if asked to. -/
def stepTo (r : Rooted) (create : Bool) (p : Path) : StoreM Host Unit := do
  match ← (lstat (r.location p)).attempt with
  | .ok .directory => pure ()
  | .ok _ => throw (.notADirectory (r.location p))
  | .error e =>
    if e.kind = .notFound ∧ create then do
      match ← (makeDirectory (r.location p)).attempt with
      | .ok () => pure ()
      | .error e => if e.kind = .alreadyExists then pure () else throw e
    else throw e

theorem ensure_cons (p : Path) (l : List Path) : r.ensure create (p :: l) = r.stepTo create p >>= fun _ => r.ensure create l := by
  unfold stepTo
  rw [ensure, bind_assoc]
  congr
  funext found
  match found with
  | .ok .directory => simp
  | .ok (.file _) | .ok (.link _) => rfl
  | .error e =>
    dsimp only
    split
    · rw [bind_assoc]
      congr
      funext made
      match made with
      | .ok () => simp
      | .error e =>
        dsimp only
        split
        · simp
        · rfl
    · rfl

theorem ensure_append (l l' : List Path) : r.ensure create (l ++ l') = r.ensure create l >>= fun _ => r.ensure create l' := by
  induction l with
  | nil => simp [ensure]
  | cons p l ih => rw [List.cons_append, ensure_cons, ensure_cons, ih, bind_assoc]

/-- A directory is looked up from the one around it. -/
theorem directory_child (p : Path) (n : Name) : r.directory (p.child n) create =
    r.directory p create >>= fun _ => r.stepTo create (p.child n) := by
  unfold directory
  rw [Path.trail_child, ensure_append, ensure_cons]
  congr
  funext _
  exact bind_pure (r.stepTo create (p.child n))

theorem stepTo_run (h : Host) : r.stepTo create p h = match (lstat (r.location p) h).1 with
    | .ok .directory => (.ok (), h)
    | .ok _ => (.error (.notADirectory (r.location p)), h)
    | .error e =>
      if e.kind = .notFound ∧ create then match makeDirectory (r.location p) h with
        | (.ok (), h') => (.ok (), h')
        | (.error e, h') => if e.kind = .alreadyExists then (.ok (), h') else (.error e, h')
      else (.error e, h) := by
  unfold stepTo
  rw [bind_run, attempt_lstat]
  match (lstat (r.location p) h).1 with
  | .ok .directory | .ok (.file _) | .ok (.link _) => rfl
  | .error e =>
    dsimp only
    split
    · rw [bind_run, show (makeDirectory (r.location p)).attempt h =
        (.ok (makeDirectory (r.location p) h).1, (makeDirectory (r.location p) h).2) from rfl]
      rcases makeDirectory (r.location p) h with ⟨_ | _, h'⟩
      · dsimp only
        split <;> rfl
      · rfl
    · rfl

theorem file_child_run (h : Host) : r.file (p.child n) create h = match r.directory p create h with
    | (.error e, h') => (.error e, h')
    | (.ok _, h') => match (lstat (r.location (p.child n)) h').1 with
      | .ok .directory => (.error (.isADirectory (p.child n)), h')
      | .ok _ => (.ok (), h')
      | .error e => if e.kind = .notFound ∧ create then
          ((openFile (r.location (p.child n)) true h').1.map fun _ => (), (openFile (r.location (p.child n)) true h').2)
        else (.error e, h') := by
  have hparent : (p.child n).parent? = some p := Path.parent?_eq_some_iff.2 ⟨n, rfl⟩
  unfold file
  rw [hparent]
  dsimp only
  rw [bind_run]
  rcases r.directory p create h with ⟨_ | _, h'⟩
  · rfl
  · dsimp only
    rw [bind_run, attempt_lstat]
    match (lstat (r.location (p.child n)) h').1 with
    | .ok .directory | .ok (.file _) | .ok (.link _) => rfl
    | .error e =>
      dsimp only
      split
      · rw [bind_run]
        rcases openFile (r.location (p.child n)) true h' with ⟨_ | _, h''⟩ <;> rfl
      · rfl

/-! ### Making directories -/

/-- One new directory, at a free name of a directory of the host. -/
def MadeOne (r : Rooted) (h : Host) (p : Path) (n : Name) (h' : Host) : Prop :=
  ∃ dir k, r.spot h p n = .ok (dir, k) ∧ h.node? dir = some .directory ∧ h.node? (dir.child n) = none ∧
    h' = h.placed (dir.child n) .directory

/-- The way to a directory of the store ends in one of the host that is empty. -/
structure EndsEmpty (r : Rooted) (h : Host) (p : Path) : Prop where
  check : checkLocation (r.location p) = .ok ()
  empty : ∃ dir k, r.reach h p = .ok (dir, k) ∧ h.node? dir = some .directory ∧ ∀ n, h.node? (dir.child n) = none

/-- A step makes a directory or changes nothing. -/
theorem stepTo_cases (r : Rooted) (h : Host) (p : Path) (n : Name) :
    (r.stepTo true (p.child n) h).2 = h ∨
      ∃ h', r.stepTo true (p.child n) h = (.ok (), h') ∧ r.MadeOne h p n h' := by
  rw [stepTo_run]
  match (lstat (r.location (p.child n)) h).1 with
  | .ok .directory | .ok (.file _) | .ok (.link _) => exact Or.inl rfl
  | .error e =>
    dsimp only
    split
    · rw [makeDirectory_location]
      rcases hspot : r.spot h p n with e | ⟨dir, k⟩
      · rw [atSpot_of_error hspot]
        dsimp only
        split <;> exact Or.inl rfl
      · rw [atSpot_of_ok hspot]
        cases hfree : h.node? (dir.child n) with
        | some x => exact Or.inl rfl
        | none =>
          dsimp only
          rw [placeIn_run]
          by_cases hdir : h.node? dir = some .directory
          · rw [if_pos hdir]
            exact Or.inr ⟨_, rfl, dir, k, hspot, hdir, hfree, rfl⟩
          · rw [if_neg hdir]
            dsimp only
            split <;> exact Or.inl rfl
    · exact Or.inl rfl

theorem MadeOne.endsEmpty (hc : h.Closed) (hmade : r.MadeOne h p n h') : r.EndsEmpty h' (p.child n) := by
  obtain ⟨dir, k, hspot, hdir, hfree, rfl⟩ := hmade
  obtain ⟨hcheck, hreach, hlong⟩ := spot_eq_ok_iff.1 hspot
  have hnew : (h.placed (dir.child n) .directory).node? (dir.child n) = some .directory := by
    rw [node?_placed Path.child_ne_root, if_pos rfl]
  have hgrown : ∀ q x, h.node? q = some x → (h.placed (dir.child n) .directory).node? q = some x := by
    intro q x hq
    rw [node?_placed Path.child_ne_root, if_neg fun hself => ?_, hq]
    rw [hself, hfree] at hq
    cases hq
  refine ⟨hcheck, dir.child n, k, ?_, hnew, fun m => ?_⟩
  · have hdown : r.reach (h.placed (dir.child n) .directory) p = .ok (dir, k) := reach_grown hgrown hreach
    rw [reach_child, hdown]
    dsimp only
    rw [reach_plain (by simp [hnew]), hlong, hnew]
    rfl
  · -- Nothing is below a name that was free.
    have hne : (dir.child n).child m ≠ dir.child n := fun hself => by
      have hu := Path.not_child_under (dir.child n) m
      rw [hself, Path.under_refl] at hu
      cases hu
    rw [node?_placed Path.child_ne_root, if_neg hne]
    exact hc.nothing_under hfree (Path.under_child _ m)

/-- Below an empty directory nothing is in the way. -/
theorem EndsEmpty.spot (hempty : r.EndsEmpty h p) (n : Name) :
    r.spot h p n = .error (.host .nameTooLong) ∨
      ∃ dir k, r.spot h p n = .ok (dir, k) ∧ h.node? dir = some .directory ∧ h.node? (dir.child n) = none := by
  obtain ⟨hcheck, dir, k, hreach, hdir, hfree⟩ := hempty
  unfold Rooted.spot
  rw [hreach, location_child]
  obtain hok | hlong := checkLocation_join hcheck n
  · rw [hok]
    cases hlong : isLong n with
    | true => exact Or.inl rfl
    | false => exact Or.inr ⟨dir, k, rfl, hdir, hfree n⟩
  · rw [hlong]
    exact Or.inl rfl

theorem EndsEmpty.stepTo (hempty : r.EndsEmpty h p) (n : Name) :
    r.stepTo true (p.child n) h = (.error (.host .nameTooLong), h) ∨
      ∃ h', r.stepTo true (p.child n) h = (.ok (), h') ∧ r.MadeOne h p n h' := by
  rw [stepTo_run, lstat_location, makeDirectory_location]
  obtain hlong | ⟨dir, k, hspot, hdir, hfree⟩ := hempty.spot n
  · rw [hlong]
    exact Or.inl rfl
  · refine Or.inr ⟨h.placed (dir.child n) .directory, ?_, dir, k, hspot, hdir, hfree, rfl⟩
    rw [atSpot_of_ok hspot, hspot]
    simp only [Except.bind, hfree]
    rw [if_pos ⟨rfl, trivial⟩, placeIn_run, if_pos hdir]

theorem asClosed_stepTo (create : Bool) (p : Path) : Stays AsClosed (r.stepTo create p) := by
  refine .bind (.attempt (stays_lstat _)) fun found => ?_
  match found with
  | .ok .directory => exact .pure
  | .ok (.file _) | .ok (.link _) => exact .throw
  | .error e =>
    refine .ite (fun _ => .bind (.attempt (asClosed_makeDirectory _)) fun made => ?_) fun _ => .throw
    match made with
    | .ok () => exact .pure
    | .error e => exact .ite (fun _ => .pure) fun _ => .throw

theorem asClosed_directory (create : Bool) (p : Path) : Stays AsClosed (r.directory p create) := by
  induction p using Path.induction_child with
  | base => exact .pure
  | step p n ih =>
    rw [directory_child]
    exact .bind ih fun _ => asClosed_stepTo create (p.child n)

/-- Making a directory with all around it changes nothing, or ends well in an empty directory, unless a name or a
location is too long. -/
theorem directory_true (hc : h.Closed) (p : Path) :
    (r.directory p true h).2 = h ∨
      ((r.directory p true h).1 = .ok () ∧ r.EndsEmpty (r.directory p true h).2 p) ∨
      (r.directory p true h).1 = .error (.host .nameTooLong) := by
  induction p using Path.induction_child with
  | base => exact Or.inl rfl
  | step p n ih =>
    have hc' := stays_iff.1 (asClosed_directory (r := r) true p) h hc
    rw [directory_child, bind_run]
    rcases hrun : r.directory p true h with ⟨e | u, h'⟩
    · rw [hrun] at ih
      obtain ih | ⟨ih, -⟩ | ih := ih
      · exact Or.inl ih
      · cases ih
      · exact Or.inr (Or.inr ih)
    · rw [hrun] at ih hc'
      obtain ih | ⟨-, ih⟩ | ih := ih
      · obtain rfl : h' = h := ih
        obtain hsame | ⟨h'', hstep, hmade⟩ := stepTo_cases r h' p n
        · exact Or.inl hsame
        · dsimp only
          rw [hstep]
          exact Or.inr (Or.inl ⟨rfl, hmade.endsEmpty hc⟩)
      · dsimp only
        obtain hlong | ⟨h'', hstep, hmade⟩ := ih.stepTo n
        · rw [hlong]
          exact Or.inr (Or.inr rfl)
        · rw [hstep]
          exact Or.inr (Or.inl ⟨rfl, hmade.endsEmpty hc'⟩)
      · cases ih

theorem stays_directory_false {R : Host → Host → Prop} [IsPreorder Host R] (p : Path) : Stays R (r.directory p false) := by
  induction p using Path.induction_child with
  | base => exact .pure
  | step p n ih =>
    rw [directory_child]
    refine .bind ih fun _ => .bind (.attempt (stays_lstat _)) fun found => ?_
    match found with
    | .ok .directory => exact .pure
    | .ok (.file _) | .ok (.link _) => exact .throw
    | .error e => exact .ite (fun hcreate => absurd hcreate.2 Bool.false_ne_true) fun _ => .throw

/-- A directory that is found need not be made. -/
theorem directory_found (hfound : (r.directory p false h).1 = .ok ()) : r.directory p true h = (.ok (), h) := by
  induction p using Path.induction_child with
  | base => rfl
  | step p n ih =>
    have hkept : h = (r.directory p false h).2 := stays_iff.1 (stays_directory_false p) h
    rw [directory_child, bind_run] at hfound ⊢
    rcases hrun : r.directory p false h with ⟨e | u, h'⟩
    · rw [hrun] at hfound
      cases hfound
    · rw [hrun] at hfound hkept ih
      obtain rfl : h = h' := hkept
      rw [ih rfl]
      dsimp only at hfound ⊢
      rw [stepTo_run] at hfound ⊢
      match hlook : (lstat (r.location (p.child n)) h).1 with
      | .ok .directory => rfl
      | .ok (.file _) | .ok (.link _) | .error _ =>
        rw [hlook] at hfound
        simp at hfound

theorem onHost_run {α : Type} {f : Rooted → StoreM Host α} {x : Except StorageError α} (hf : f r h = (x, h')) :
    onHost f (h, r) = (x, (h', r)) := by
  unfold onHost
  rw [hf]

end Filespace.Storage.Rooted
