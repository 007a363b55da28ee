import Filespace.Proofs.Paths
import Filespace.Storage.Rooted

/-!
# Ways through a host

A location is a list of moves. All but the last must come to directories, and where they come is decided by the host
alone (`Host.reach`); the last move is then made in that directory (`Host.walk_append`). So two locations that differ in
their last names only go the same way, and a location below another goes through it.

The locations of a store have this form: the moves of its own location, and then one name after the other
(`Rooted.moves_location`).
-/

namespace Filespace.Host

open Path (Move)

variable {h h' : Host} {here dir : Path} {links k : Nat} {slash : Bool} {ending : Ending} {ms last : List Move}
  {n : Name}

/-! ### Going to a directory -/

/-- The directory that moves lead to, and how many links can still be replaced then. -/
def reach (h : Host) (links : Nat) (here : Path) (ms : List Move) : Except Errno (Path × Nat) :=
  match go h .follow true here ms with
  | .done (.ok (.found dir _)) => .ok (dir, links)
  | .done (.ok (.free _ _)) => .error .noEntry
  | .done (.error e) => .error e
  | .link dir target rest => match links with
    | 0 => .error .loop
    | n + 1 => reach h n (if Location.isAbsolute target then .root else dir) ((Route.of target).moves ++ rest)

@[simp] theorem node?_root (h : Host) : h.node? .root = some .directory := rfl

/-- The last moves are made where the first ones end. -/
theorem go_append (hlast : last ≠ []) :
    go h ending slash here (ms ++ last) = match go h .follow true here ms with
      | .done (.ok (.found dir _)) => go h ending slash dir last
      | .done (.ok (.free _ _)) => .done (.error .noEntry)
      | .done (.error e) => .done (.error e)
      | .link dir target rest => .link dir target (rest ++ last) := by
  induction ms generalizing here with
  | nil => rfl
  | cons m ms ih =>
    have hrest : (ms ++ last).isEmpty = false := by simp [hlast]
    cases m with
    | stay => simpa only [List.cons_append, go] using ih
    | up => simpa only [List.cons_append, go] using ih
    | down n =>
      simp only [List.cons_append, go, hrest, Bool.false_and, Bool.and_false, Bool.not_true]
      by_cases hlong : isLong n = true
      · simp [hlong]
      · cases hnode : h.node? (here.child n) with
        | none => simp [hlong]
        | some node =>
          cases node with
          | directory => simpa [hlong] using ih
          | file | link => simp [hlong]

/-- Where going along can stop. A name is free or taken by a file only if no slashes follow. -/
def Stop.Possible (h : Host) (slash : Bool) : Stop → Prop
  | .link _ _ _ | .done (.ok (.found _ .directory)) => True
  | .done (.ok (.found _ _)) => slash = false
  | .done (.ok (.free dir n)) => slash = false ∧ h.node? (dir.child n) = none
  | .done (.error e) => e.kind ≠ .unsupported

theorem go_possible : (go h ending slash here ms).Possible h slash := by
  induction ms generalizing here with
  | nil => trivial
  | cons m ms ih =>
    cases m with
    | stay | up => exact ih
    | down n =>
      simp only [go]
      split
      · exact (by decide : Errno.isDirectory.kind ≠ .unsupported)
      split
      · exact (by decide : Errno.nameTooLong.kind ≠ .unsupported)
      split
      · rename_i hnone
        split
        · rename_i hbare
          exact ⟨by simp_all, hnone⟩
        · exact (by decide : Errno.noEntry.kind ≠ .unsupported)
      · exact ih
      · split
        · rename_i hbare
          exact (by simp_all : slash = false)
        · trivial
      · split
        · rename_i hbare
          exact (by simp_all : slash = false)
        · exact (by decide : Errno.notDirectory.kind ≠ .unsupported)

/-- Where slashes follow, only a directory is found. -/
theorem go_slash {spot : Spot} (hgo : go h .follow true here ms = .done (.ok spot)) :
    ∃ dir, spot = .found dir .directory := by
  have hstop : (go h .follow true here ms).Possible h true := go_possible
  rw [hgo] at hstop
  rcases spot with ⟨dir, _ | _ | _⟩ | ⟨dir, n⟩
  · exact ⟨dir, rfl⟩
  · cases hstop
  · cases hstop
  · cases hstop.1

/-- What can come of going along to a directory. The induction is on the links that are replaced on the way. -/
theorem reach_induction (h : Host) {motive : Nat → Path → List Move → Prop}
    (found : ∀ links here ms dir, go h .follow true here ms = .done (.ok (.found dir .directory)) → motive links here ms)
    (failed : ∀ links here ms e, go h .follow true here ms = .done (.error e) → motive links here ms)
    (loop : ∀ here ms dir target rest, go h .follow true here ms = .link dir target rest → motive 0 here ms)
    (link : ∀ here ms dir target rest n, go h .follow true here ms = .link dir target rest →
      motive n (if Location.isAbsolute target then .root else dir) ((Route.of target).moves ++ rest) →
      motive (n + 1) here ms)
    (links : Nat) (here : Path) (ms : List Move) : motive links here ms := by
  fun_induction reach h links here ms with
  | case1 links here ms dir node hgo =>
    obtain ⟨dir, hspot⟩ := go_slash hgo
    cases hspot
    exact found links here ms dir hgo
  | case2 links here ms dir name hgo =>
    -- Slashes follow, so a name that is free is not found.
    obtain ⟨dir, hspot⟩ := go_slash hgo
    cases hspot
  | case3 links here ms e hgo => exact failed links here ms e hgo
  | case4 here ms dir target rest hgo => exact loop here ms dir target rest hgo
  | case5 here ms dir target rest hgo n ih => exact link here ms dir target rest n hgo ih

theorem walk_slash : walk h .follow links here ⟨ms, true⟩ = (reach h links here ms).map fun x => .found x.1 .directory := by
  induction links, here, ms using reach_induction h with
  | found links here ms dir hgo =>
    rw [walk.eq_def, reach.eq_def, hgo]
    rfl
  | failed links here ms e hgo =>
    rw [walk.eq_def, reach.eq_def, hgo]
    rfl
  | loop here ms dir target rest hgo =>
    rw [walk.eq_def, reach.eq_def, hgo]
    rfl
  | link here ms dir target rest n hgo ih =>
    rw [walk.eq_def, reach.eq_def, hgo]
    exact ih

/-- The last moves are made in the directory that the first ones lead to. -/
theorem walk_append (hlast : last ≠ []) :
    walk h ending links here ⟨ms ++ last, slash⟩ = match reach h links here ms with
      | .error e => .error e
      | .ok (dir, k) => walk h ending k dir ⟨last, slash⟩ := by
  induction links, here, ms using reach_induction h with
  | found links here ms dir hgo =>
    simp only [walk.eq_def h ending links, reach.eq_def h links, go_append hlast, hgo]
  | failed links here ms e hgo =>
    simp only [walk.eq_def h ending links, reach.eq_def h links, go_append hlast, hgo]
  | loop here ms dir target rest hgo =>
    simp only [walk.eq_def h ending 0, reach.eq_def h 0, go_append hlast, hgo]
  | link here ms dir target rest n hgo ih =>
    have hrest : (rest ++ last).isEmpty = false := by simp [hlast]
    rw [walk.eq_def, reach.eq_def]
    simp only [go_append hlast, hgo, hrest, Bool.false_and, Bool.or_false, ← List.append_assoc]
    exact ih

theorem go_append_slash : go h .follow true here (ms ++ last) = match go h .follow true here ms with
    | .done (.ok (.found dir _)) => go h .follow true dir last
    | .done (.ok (.free _ _)) => .done (.error .noEntry)
    | .done (.error e) => .done (.error e)
    | .link dir target rest => .link dir target (rest ++ last) := by
  cases last with
  | nil =>
    rw [List.append_nil]
    cases hgo : go h .follow true here ms with
    | done r =>
      cases r with
      | error e => rfl
      | ok spot =>
        obtain ⟨dir, rfl⟩ := go_slash hgo
        rfl
    | link dir target rest => simp only [List.append_nil]
  | cons m last => exact go_append (List.cons_ne_nil m last)

/-- A way can be broken off at any directory on it. -/
theorem reach_append : reach h links here (ms ++ last) = match reach h links here ms with
    | .error e => .error e
    | .ok (dir, k) => reach h k dir last := by
  induction links, here, ms using reach_induction h with
  | found links _ _ _ hgo | failed links _ _ _ hgo => simp only [reach.eq_def h links, go_append_slash, hgo]
  | loop here ms dir target rest hgo => simp only [reach.eq_def h 0, go_append_slash, hgo]
  | link here ms dir target rest n hgo ih =>
    rw [reach.eq_def, reach.eq_def h (n + 1) here ms]
    simp only [go_append_slash, hgo, ← List.append_assoc]
    exact ih

/-- Unless going along fails, neither slashes at the end nor more entries make a difference. -/
theorem go_grown (hgrown : ∀ q x, h.node? q = some x → h'.node? q = some x) {stop : Stop}
    (hgo : go h .follow true here ms = stop) (hstop : ∀ e, stop ≠ .done (.error e)) :
    go h' .follow slash here ms = stop := by
  induction ms generalizing here with
  | nil => exact hgo
  | cons m ms ih =>
    cases m with
    | stay | up => exact ih hgo
    | down n =>
      simp only [go] at hgo ⊢
      by_cases hlong : isLong n = true
      · simp [hlong] at hgo
        exact absurd hgo.symm (hstop _)
      · cases hnode : h.node? (here.child n) with
        | none =>
          simp [hlong, hnode] at hgo
          exact absurd hgo.symm (hstop _)
        | some node =>
          rw [hgrown _ _ hnode]
          cases node with
          | directory =>
            simp only [hlong, hnode, reduceCtorEq, and_false, Bool.false_eq_true, if_false] at hgo ⊢
            exact ih hgo
          | file f =>
            simp [hlong, hnode] at hgo
            exact absurd hgo.symm (hstop _)
          | link t =>
            simp [hlong, hnode] at hgo ⊢
            exact hgo

/-- A directory that is reached is found there, whether slashes follow or not. -/
theorem walk_of_reach (hreach : reach h links here ms = .ok (dir, k)) (slash : Bool) :
    walk h .follow links here ⟨ms, slash⟩ = .ok (.found dir .directory) := by
  induction links, here, ms using reach_induction h generalizing slash with
  | found links here ms dir' hgo =>
    rw [reach.eq_def, hgo] at hreach
    cases hreach
    rw [walk.eq_def, go_grown (fun _ _ hq => hq) hgo nofun]
  | failed links here ms e hgo =>
    rw [reach.eq_def, hgo] at hreach
    cases hreach
  | loop here ms dir' target rest hgo =>
    rw [reach.eq_def, hgo] at hreach
    cases hreach
  | link here ms dir' target rest n hgo ih =>
    rw [reach.eq_def, hgo] at hreach
    rw [walk.eq_def, go_grown (fun _ _ hq => hq) hgo nofun]
    exact ih hreach _

/-- Where no slashes are needed to find a directory, or a link on the way, they make no difference. -/
theorem go_slash_of_found {stop : Stop} (hgo : go h .follow slash here ms = stop)
    (hstop : (∃ dir, stop = .done (.ok (.found dir .directory))) ∨ ∃ dir target rest, stop = .link dir target rest) :
    go h .follow true here ms = stop := by
  induction ms generalizing here with
  | nil => exact hgo
  | cons m ms ih =>
    cases m with
    | stay | up => exact ih hgo
    | down n =>
      simp only [go] at hgo ⊢
      cases hnode : h.node? (here.child n) with
      | none => grind
      | some node =>
        cases node with
        | directory | file | link => grind

/-- A directory that is found is reached. -/
theorem reach_of_walk {way : Route} (hwalk : walk h .follow links here way = .ok (.found dir .directory)) :
    ∃ k, reach h links here way.moves = .ok (dir, k) := by
  fun_induction walk h .follow links here way with
  | case1 links here way r hgo =>
    rw [reach.eq_def, go_slash_of_found hgo (Or.inl ⟨dir, by rw [hwalk]⟩), hwalk]
    exact ⟨links, rfl⟩
  | case2 => cases hwalk
  | case3 here way dir' target rest hgo n inner ih =>
    rw [reach.eq_def, go_slash_of_found hgo (Or.inr ⟨dir', target, rest, rfl⟩)]
    exact ih hwalk

/-- The name at the end of a location, not followed. -/
theorem walk_keep (n : Name) : walk h .keep k dir ⟨[.down n], false⟩ =
    if isLong n then .error .nameTooLong else match h.node? (dir.child n) with
      | none => .ok (.free dir n)
      | some node => .ok (.found (dir.child n) node) := by
  rw [walk.eq_def]
  simp only [go]
  by_cases hlong : isLong n = true
  · simp [hlong]
  · cases hnode : h.node? (dir.child n) with
    | none => simp [hlong]
    | some node => cases node <;> simp [hlong]

/-- A name that was found to be free is free. -/
theorem go_free (hgo : go h ending slash here ms = .done (.ok (.free dir n))) : h.node? (dir.child n) = none := by
  have hstop : (go h ending slash here ms).Possible h slash := go_possible
  rw [hgo] at hstop
  exact hstop.2

theorem walk_free {way : Route} (hwalk : walk h ending links here way = .ok (.free dir n)) :
    h.node? (dir.child n) = none := by
  fun_induction walk h ending links here way with
  | case1 links here way r hgo =>
    subst hwalk
    exact go_free hgo
  | case2 => cases hwalk
  | case3 here way dir target rest hgo n inner ih => exact ih hwalk

theorem resolve_eq (h : Host) (location : String) (ending : Ending) : h.resolve location ending =
    match checkLocation location with
    | .error e => .error e
    | .ok _ => (walk h ending maxLinks (h.startOf location) (.of location)).mapError .host := by
  unfold resolve
  cases checkLocation location <;> rfl

theorem resolve_free {location : String} (hspot : h.resolve location ending = .ok (.free dir n)) :
    h.node? (dir.child n) = none := by
  rw [resolve_eq] at hspot
  cases hcheck : checkLocation location with
  | error e =>
    rw [hcheck] at hspot
    cases hspot
  | ok =>
    rw [hcheck] at hspot
    cases hwalk : walk h ending maxLinks (h.startOf location) (.of location) with
    | error e =>
      simp only [hwalk] at hspot
      cases hspot
    | ok spot =>
      simp only [hwalk] at hspot
      cases hspot
      exact walk_free hwalk

/-! ### Locations -/

theorem pieces_snoc (cs : List Char) {p : List Char} (hp : '/' ∉ p) : pieces (cs ++ '/' :: p) = pieces cs ++ [p] := by
  induction cs with
  | nil => simp [pieces, pieces_of_notMem hp]
  | cons c cs ih =>
    by_cases hc : c = '/'
    · simp [pieces, hc, ih]
    · rw [List.cons_append, pieces, if_neg hc, pieces, if_neg hc, ih]
      cases hcs : pieces cs with
      | nil => exact absurd hcs (pieces_ne_nil cs)
      | cons q qs => rfl

theorem isAbsolute_name (n : Name) : Location.isAbsolute n.text = false := by
  have hslash := n.slash_notMem
  unfold Name.chars at hslash
  unfold Location.isAbsolute
  cases hn : n.text.toList with
  | nil => rfl
  | cons c cs =>
    have hc : c ≠ '/' := fun hc => hslash (by simp [hn, hc])
    simpa using hc

/-- How a name is joined to a location: after a slash, unless there is one or the location is empty. -/
theorem join_cases (base : String) (n : Name) :
    (base = "" ∧ Location.join base n.text = n.text) ∨
      (∃ cs, base.toList = cs ++ ['/'] ∧ (Location.join base n.text).toList = cs ++ '/' :: n.chars) ∨
      base ≠ "" ∧ (Location.join base n.text).toList = base.toList ++ '/' :: n.chars := by
  unfold Location.join
  rw [isAbsolute_name]
  by_cases hempty : base.isEmpty = true
  · exact Or.inl ⟨String.isEmpty_iff.1 hempty, by simp [hempty]⟩
  · have hne : base ≠ "" := fun h => hempty (String.isEmpty_iff.2 h)
    by_cases hslash : base.toList.getLast? = some '/'
    · obtain ⟨cs, hcs⟩ := List.getLast?_eq_some_iff.1 hslash
      simp [hempty, hcs, Name.chars]
    · refine Or.inr (Or.inr ⟨hne, ?_⟩)
      simp [hempty, hslash, Name.chars]

/-- One more name is one more move. -/
theorem route_join (base : String) (n : Name) :
    Route.of (Location.join base n.text) = ⟨(Route.of base).moves ++ [.down n], false⟩ := by
  have hname : pieces n.text.toList = [n.chars] := pieces_of_notMem n.slash_notMem
  have hchars := n.chars_ne_nil
  obtain ⟨rfl, hjoin⟩ | ⟨cs, hbase, hjoin⟩ | ⟨-, hjoin⟩ := join_cases base n
  · rw [hjoin]
    simp [Route.of, hname, hchars, Move.ofPiece?_chars, pieces]
  · have hslash : pieces base.toList = pieces cs ++ [[]] := by
      rw [hbase]
      exact pieces_snoc cs List.not_mem_nil
    simp [Route.of, hjoin, hslash, pieces_snoc cs n.slash_notMem, hchars, Move.ofPiece?_chars]
  · simp [Route.of, hjoin, pieces_snoc _ n.slash_notMem, hchars, Move.ofPiece?_chars]

theorem isAbsolute_join (base : String) (n : Name) :
    Location.isAbsolute (Location.join base n.text) = Location.isAbsolute base := by
  obtain ⟨rfl, hjoin⟩ | ⟨cs, hbase, hjoin⟩ | ⟨hne, hjoin⟩ := join_cases base n
  · rw [hjoin, isAbsolute_name]
    rfl
  · unfold Location.isAbsolute
    rw [hjoin, hbase]
    cases cs <;> rfl
  · unfold Location.isAbsolute
    rw [hjoin]
    cases hbase : base.toList with
    | nil => exact absurd (String.toList_eq_nil_iff.1 hbase) hne
    | cons c cs => rfl

/-- A location that the host takes can get too long below, but nothing else. -/
theorem checkLocation_join {base : String} (hbase : checkLocation base = .ok ()) (n : Name) :
    checkLocation (Location.join base n.text) = .ok () ∨
      checkLocation (Location.join base n.text) = .error (.host .nameTooLong) := by
  have hnul : '\x00' ∉ n.chars := fun hn => by
    have hplain : isPlain n.chars = true := n.plain
    simp [isPlain, hn] at hplain
  have hfree : '\x00' ∉ base.toList := fun hn => by simp [checkLocation, hn] at hbase
  have hjoined : '\x00' ∉ (Location.join base n.text).toList ∧ Location.join base n.text ≠ "" := by
    obtain ⟨rfl, -⟩ | ⟨cs, hcs, hjoin⟩ | ⟨-, hjoin⟩ := join_cases base n
    · cases hbase
    · refine ⟨fun hn => ?_, fun hn => ?_⟩
      · simp_all
      · simp [hn] at hjoin
    · refine ⟨fun hn => ?_, fun hn => ?_⟩
      · simp_all
      · simp [hn] at hjoin
  unfold checkLocation
  by_cases hlong : (Location.join base n.text).utf8ByteSize ≥ maxLocation
  · simp [hjoined, hlong]
  · simp [hjoined, hlong]

end Filespace.Host

namespace Filespace.Storage.Rooted

open Host

variable (r : Rooted) (h : Host)

@[simp] theorem location_root : r.location .root = r.root := rfl

@[simp] theorem location_child (p : Path) (n : Name) : r.location (p.child n) = Location.join (r.location p) n.text := by
  simp [location, Path.segments]

theorem isAbsolute_location (p : Path) : Location.isAbsolute (r.location p) = Location.isAbsolute r.root := by
  induction p using Path.induction_child with
  | base => rfl
  | step p n ih => rw [location_child, isAbsolute_join, ih]

theorem startOf_location (p : Path) : h.startOf (r.location p) = h.startOf r.root := by
  unfold startOf
  rw [isAbsolute_location]

/-- The moves to the store, and then down to the entry. -/
theorem moves_location (p : Path) : (Route.of (r.location p)).moves = (Route.of r.root).moves ++ p.names.map .down := by
  induction p using Path.induction_child with
  | base => simp
  | step p n ih => simp [route_join, ih]

/-- The directory of the host that holds the entries of a directory of the store, and how many links can still be
replaced there. -/
def reach (p : Path) : Except Errno (Path × Nat) :=
  h.reach maxLinks (h.startOf r.root) ((Route.of r.root).moves ++ p.names.map .down)

theorem reach_child (p : Path) (n : Name) : r.reach h (p.child n) = match r.reach h p with
    | .error e => .error e
    | .ok (dir, k) => h.reach k dir [.down n] := by
  unfold reach
  rw [Path.names_child, List.map_append, ← List.append_assoc, reach_append]
  rfl

end Filespace.Storage.Rooted
