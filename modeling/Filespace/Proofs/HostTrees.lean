import Filespace.Proofs.HostWalks
import Filespace.Proofs.Outlines

/-!
# The tree of a host

What calls of a host do to its tree. A call makes an entry at a free name of a directory (`Host.placed`), takes out all at
and below a place (`Host.detached`), moves that to a free place (`Host.relocated`), or changes the content of a file
(`Host.updated`). Each of these keeps the tree closed: every entry is in a directory. So no call leaves an entry without
a directory around it, whatever its outcome.
-/

namespace Filespace.Host

open Storage Path

variable {h h' : Host} {p q dir source target : Path} {n : Name} {x : Node}

/-! ### Closed trees -/

/-- Whatever has a child is a directory. -/
def Closed (h : Host) : Prop := ∀ p n, h.node? (p.child n) ≠ none → h.node? p = some .directory

/-- Above an entry there are directories only. -/
theorem Closed.above (hc : h.Closed) (hp : h.node? p ≠ none) (hu : p.under q = true) (hne : p ≠ q) :
    h.node? q = some .directory := by
  induction p using induction_child with
  | base => exact absurd (root_under_iff.1 hu).symm hne
  | step p n ih =>
    have hdir : h.node? p = some .directory := hc p n hp
    rcases child_under_iff.1 hu with hq | hu
    · exact absurd hq hne
    · by_cases hpq : p = q
      · rw [← hpq, hdir]
      · exact ih (by simp [hdir]) hu hpq

/-- Where nothing is, nothing is below. -/
theorem Closed.nothing_under (hc : h.Closed) (hq : h.node? q = none) (hu : p.under q = true) : h.node? p = none := by
  by_contra hp
  by_cases hne : p = q
  · exact hp (hne ▸ hq)
  · have hdir := hc.above hp hu hne
    rw [hq] at hdir
    cases hdir

theorem node?_of_ne_root (h : Host) (hp : p ≠ .root) : h.node? p = h.nodes.get? p := by
  unfold node?
  rw [if_neg fun hroot => hp (isRoot_iff.1 hroot)]

/-! ### Changes -/

/-- The host with an entry at a place. -/
def placed (h : Host) (p : Path) (x : Node) : Host := { h with nodes := h.nodes.insert p x }

/-- The host without all that was at and below a place. Files that were there may still be open. -/
def detached (h : Host) (p : Path) : Host :=
  let gone := h.nodes.rows.filterMap fun
    | (q, .file f) => if q.under p then some f else none
    | _ => none
  { h with nodes := h.nodes.filter (fun q _ => !q.under p), removed := gone ++ h.removed }

/-- The host with all that was at and below a place at and below another. -/
def relocated (h : Host) (source target : Path) : Host :=
  let moved := h.nodes.rows.filterMap fun (q, n) => (q.relativeTo? source).map fun r => (target.join r, n)
  { h with nodes := (h.nodes.filter fun q _ => !q.under source).insertMany moved }

/-- A file with new content, if it has the given number. -/
def FileData.changed (clock serial : Nat) (f : Sparse → Sparse) (d : FileData) : FileData :=
  if d.serial = serial then { d with content := f d.content, modified := clock } else d

/-- An entry with new content, if it is the file with the given number. -/
def Node.changed (clock serial : Nat) (f : Sparse → Sparse) : Node → Node
  | .file d => .file (d.changed clock serial f)
  | n => n

/-- The host with new content in a file. -/
def updated (h : Host) (serial : Nat) (f : Sparse → Sparse) : Host :=
  { h with
    nodes := h.nodes.map fun _ => Node.changed h.clock serial f
    removed := h.removed.map (FileData.changed h.clock serial f) }

theorem placeIn_run (dir : Path) (n : Name) (x : Node) (h : Host) :
    placeIn dir n x h = if h.node? dir = some .directory then (.ok (), h.placed (dir.child n) x)
      else (.error (.host .noEntry), h) := by
  unfold placeIn
  rw [bind_run, show (get : StoreM Host _) h = (.ok h, h) from rfl]
  dsimp only
  split <;> rfl

theorem createFile_run (dir : Path) (n : Name) (h : Host) :
    createFile dir n h = if h.node? dir = some .directory then (.ok h.nextSerial,
        { h.placed (dir.child n) (.file ⟨h.nextSerial, {}, h.clock⟩) with nextSerial := h.nextSerial + 1 })
      else (.error (.host .noEntry), h) := by
  unfold createFile
  rw [bind_run, show (get : StoreM Host _) h = (.ok h, h) from rfl]
  dsimp only
  rw [bind_run, placeIn_run]
  by_cases hdir : h.node? dir = some .directory
  · simp only [if_pos hdir]
    rfl
  · simp only [if_neg hdir]

theorem node?_placed (hp : p ≠ .root) (q : Path) : (h.placed p x).node? q = if q = p then some x else h.node? q := by
  by_cases hq : q = .root
  · subst hq
    rw [if_neg (Ne.symm hp)]
    rfl
  · rw [node?_of_ne_root _ hq, node?_of_ne_root _ hq]
    exact Table.get?_insert ..

theorem node?_detached (hp : p ≠ .root) (q : Path) :
    (h.detached p).node? q = if q.under p = true then none else h.node? q := by
  by_cases hq : q = .root
  · subst hq
    rw [if_neg fun hu => hp (root_under_iff.1 hu)]
    rfl
  · rw [node?_of_ne_root _ hq, node?_of_ne_root _ hq]
    show (h.nodes.filter fun q _ => !q.under p).get? q = _
    cases hu : q.under p with
    | true => rw [if_pos rfl, Table.get?_filter_of_false (by simp [hu])]
    | false => rw [if_neg (by simp), Table.get?_filter_of_true (by simp [hu])]

theorem node?_relocated (hsource : source ≠ .root) (htarget : target ≠ .root)
    (hfree : ∀ r, h.node? (target.join r) = none) (q : Path) :
    (h.relocated source target).node? q = match q.relativeTo? target with
      | some r => h.node? (source.join r)
      | none => if q.under source = true then none else h.node? q := by
  have hbelow : ∀ {p : Path}, p ≠ .root → ∀ r, p.join r ≠ .root := by
    intro p hp r hr
    have hu := under_join p r
    rw [hr] at hu
    exact hp (root_under_iff.1 hu)
  by_cases hq : q = .root
  · subst hq
    have hrel : root.relativeTo? target = none := by
      rw [relativeTo?_eq_none_iff, Bool.eq_false_iff]
      exact fun hu => htarget (root_under_iff.1 hu)
    rw [hrel]
    exact (if_neg fun hu => hsource (root_under_iff.1 hu)).symm
  · have hnone : ∀ r, h.nodes.get? (target.join r) = none := fun r => by
      rw [← node?_of_ne_root h (hbelow htarget r), hfree]
    rw [node?_of_ne_root _ hq, node?_of_ne_root _ hq]
    refine (Table.get?_moved h.nodes hnone q).trans ?_
    cases q.relativeTo? target with
    | none => rfl
    | some r => exact (node?_of_ne_root h (hbelow hsource r)).symm

theorem node?_updated (h : Host) (serial : Nat) (f : Sparse → Sparse) (q : Path) :
    (h.updated serial f).node? q = (h.node? q).map (Node.changed h.clock serial f) := by
  by_cases hq : q = .root
  · subst hq
    rfl
  · rw [node?_of_ne_root _ hq, node?_of_ne_root _ hq]
    exact Table.get?_map ..

/-! ### Changes keep the tree closed -/

/-- Nothing can be below a place that is free. -/
theorem Closed.free_below (hc : h.Closed) (hfree : h.node? p = none) (r : Path) : h.node? (p.join r) = none :=
  hc.nothing_under hfree (under_join p r)

theorem Closed.placed (hc : h.Closed) (hdir : h.node? dir = some .directory) (hfree : h.node? (dir.child n) = none) :
    (h.placed (dir.child n) x).Closed := by
  intro q m hm
  rw [node?_placed child_ne_root] at hm ⊢
  by_cases hq : q = dir.child n
  · -- Nothing was below the free name.
    subst hq
    have hne : (dir.child n).child m ≠ dir.child n := fun hm => by
      have hu := not_child_under (dir.child n) m
      rw [hm, under_refl] at hu
      cases hu
    rw [if_neg hne] at hm
    exact absurd (hc.nothing_under hfree (under_child _ m)) hm
  · rw [if_neg hq]
    split at hm
    · rename_i hchild
      rw [(child_inj.1 hchild).1, hdir]
    · exact hc q m hm

theorem Closed.detached (hc : h.Closed) (hp : p ≠ .root) : (h.detached p).Closed := by
  intro q m hm
  rw [node?_detached hp] at hm ⊢
  split at hm
  · exact absurd rfl hm
  · rename_i hu
    rw [if_neg fun hq => hu (under_trans (under_child q m) hq)]
    exact hc q m hm

theorem Closed.relocated (hc : h.Closed) (hsource : source ≠ .root) (hunder : (dir.child n).under source = false)
    (hfree : h.node? (dir.child n) = none) (hdir : h.node? dir = some .directory) :
    (h.relocated source (dir.child n)).Closed := by
  have hnode := node?_relocated hsource (child_ne_root) (hc.free_below hfree)
  have hbeside : ∀ {q m}, q.under source = true → (child q m).under source = true :=
    fun hq => under_trans (under_child _ _) hq
  intro q m hm
  rw [hnode] at hm ⊢
  -- The parent is the target or below it, or it is elsewhere; then the child may still be the target.
  cases hq : q.relativeTo? (dir.child n) with
  | some r =>
    rw [relativeTo?_eq_some_iff] at hq
    subst hq
    rw [← join_child, relativeTo?_join] at hm
    exact hc (source.join r) m (join_child source r m ▸ hm)
  | none =>
    rw [relativeTo?_eq_none_iff] at hq
    cases hchild : (q.child m).relativeTo? (dir.child n) with
    | some r =>
      rw [relativeTo?_eq_some_iff] at hchild
      have hu : (q.child m).under (dir.child n) = true := hchild ▸ under_join _ r
      obtain hself | hu := child_under_iff.1 hu
      · obtain ⟨rfl, rfl⟩ := child_inj.1 hself
        rw [if_neg fun hu => Bool.false_ne_true (hunder.symm.trans (hbeside hu)), hdir]
      · rw [hq] at hu
        cases hu
    | none =>
      rw [hchild] at hm
      dsimp only at hm
      split at hm
      · exact absurd rfl hm
      · rename_i hu
        rw [if_neg fun hq => hu (hbeside hq)]
        exact hc q m hm

/-- What was at the new place may be taken away first. -/
theorem Closed.replaced (hc : h.Closed) (hsource : source ≠ .root) (hunder : (dir.child n).under source = false)
    (hdir : h.node? dir = some .directory) : ((h.detached (dir.child n)).relocated source (dir.child n)).Closed := by
  refine (hc.detached child_ne_root).relocated hsource hunder ?_ ?_
  · rw [node?_detached child_ne_root, if_pos (under_refl _)]
  · rw [node?_detached child_ne_root, if_neg (by simp [not_child_under]), hdir]

theorem Closed.updated (hc : h.Closed) (serial : Nat) (f : Sparse → Sparse) : (h.updated serial f).Closed := by
  intro q m hm
  rw [node?_updated] at hm ⊢
  rw [hc q m fun hnone => hm (by rw [hnone]; rfl)]
  rfl

/-! ### Calls -/

section Calls

variable {α : Type} {R : Host → Host → Prop}

theorem entryIn?_run (dir : Path) (n : Name) (h : Host) :
    entryIn? dir n h = if isLong n then (.error (.host .nameTooLong), h) else (.ok (h.node? (dir.child n)), h) := by
  unfold entryIn?
  split <;> rfl

variable [IsPreorder Host R]

/-- What follows a look at a name in a directory. -/
theorem entryIn_bind {f : Option Node → StoreM Host α}
    (hf : R h (f (h.node? (dir.child n)) h).2) : R h ((entryIn? dir n >>= f) h).2 := by
  rw [bind_run, entryIn?_run]
  by_cases hlong : isLong n = true
  · rw [if_pos hlong]
    exact refl_of R h
  · rw [if_neg hlong]
    exact hf

theorem stays_entryIn {f : Option Node → StoreM Host α}
    (hf : ∀ h, R h (f (h.node? (dir.child n)) h).2) : Stays R (entryIn? dir n >>= f) :=
  stays_iff.2 fun h => entryIn_bind (hf h)

/-- What follows a way through the host. -/
theorem stays_locate {location : String} {ending : Ending} {f : Spot → StoreM Host α}
    (hf : ∀ h spot, h.resolve location ending = .ok spot → R h (f spot h).2) : Stays R (locate location ending >>= f) := by
  refine stays_iff.2 fun h => ?_
  have hrun : Host.locate location ending h = (h.resolve location ending, h) := rfl
  rw [bind_run, hrun]
  cases hspot : h.resolve location ending with
  | error e => exact refl_of R h
  | ok spot => exact hf h spot hspot

theorem stays_locatePlace (location : String) : Stays R (locatePlace location) :=
  .get_bind fun _ => .settle

theorem stays_lstat (location : String) : Stays R (lstat location) := by
  refine stays_locate fun h spot _ => ?_
  cases spot <;> exact refl_of R h

theorem stays_openFile_false (location : String) : Stays R (openFile location false) := by
  refine stays_locate fun h spot _ => ?_
  match spot with
  | .found _ .directory | .found _ (.file _) | .found _ (.link _) | .free _ _ => exact refl_of R h

theorem stays_readDirectory (location : String) : Stays R (readDirectory location) := by
  refine stays_locate fun h spot _ => ?_
  match spot with
  | .found _ .directory | .found _ (.file _) | .found _ (.link _) | .free _ _ => exact refl_of R h

theorem stays_content (serial : Nat) : Stays R (content serial) := .get_bind fun _ => .pure

theorem stays_seek (pos count : Nat) : Stays R (seek pos count) :=
  .ite (fun _ => .throw) fun _ => .pure

theorem stays_readFrom (serial pos length : Nat) : Stays R (readFrom serial pos length) :=
  .bind (stays_seek pos length) fun _ => .bind (stays_content serial) fun _ => .pure

/-- The second tree is closed if the first is. -/
def AsClosed (h h' : Host) : Prop := h.Closed → h'.Closed

instance : IsPreorder Host AsClosed where
  refl _ hc := hc
  trans _ _ _ hst htu hc := htu (hst hc)

theorem asClosed_placeIn (hfree : h.node? (dir.child n) = none) (x : Node) : AsClosed h (placeIn dir n x h).2 := by
  intro hc
  rw [placeIn_run]
  split
  · exact hc.placed ‹_› hfree
  · exact hc

theorem asClosed_makeDirectory (location : String) : Stays AsClosed (makeDirectory location) := by
  refine .bind (stays_locatePlace location) fun spot => ?_
  split
  · refine stays_entryIn fun h => ?_
    cases hnode : h.node? _ with
    | some node => exact refl_of AsClosed h
    | none => exact asClosed_placeIn hnode .directory
  · exact .throw

theorem asClosed_openFile (location : String) (create : Bool) : Stays AsClosed (openFile location create) := by
  refine stays_locate fun h spot hspot => ?_
  match spot with
  | .found _ .directory | .found _ (.file _) | .found _ (.link _) => exact refl_of AsClosed h
  | .free dir n =>
    cases create with
    | false => exact refl_of AsClosed h
    | true =>
      intro hc
      have hfree : h.node? (dir.child n) = none := resolve_free hspot
      show (createFile dir n h).2.Closed
      rw [createFile_run]
      split
      · exact hc.placed ‹_› hfree
      · exact hc

theorem asClosed_detach (hp : p ≠ .root) : Stays AsClosed (detach p) := .modify fun _ hc => hc.detached hp

theorem asClosed_unlink (location : String) : Stays AsClosed (unlink location) := by
  refine .bind (stays_locatePlace location) fun spot => ?_
  split
  · refine stays_entryIn fun h => ?_
    match h.node? _ with
    | none | some .directory => exact refl_of AsClosed h
    | some (.file _) | some (.link _) =>
      exact stays_iff.1 (.ite (fun _ => .throw) fun _ => asClosed_detach child_ne_root) h
  · exact .throw

theorem asClosed_removeDirectory (location : String) : Stays AsClosed (removeDirectory location) := by
  refine .bind (stays_locatePlace location) fun spot => ?_
  split
  · refine stays_entryIn fun h => ?_
    match h.node? _ with
    | none | some (.file _) | some (.link _) => exact refl_of AsClosed h
    | some .directory =>
      refine stays_iff.1 (.get_bind fun _ => ?_) h
      exact .ite (fun _ => .throw) fun _ => asClosed_detach child_ne_root
  · exact .throw
  · exact .throw
  · exact .throw

theorem asClosed_removeTree (location : String) : Stays AsClosed (removeTree location) := by
  refine stays_locate fun h spot _ => ?_
  cases spot with
  | free dir n => exact refl_of AsClosed h
  | found p node =>
    refine stays_iff.1 (.ite (fun _ => .throw) fun hroot => asClosed_detach ?_) h
    exact fun hp => hroot (isRoot_iff.2 hp)

/-- What comes of a renaming: it is refused, has nothing to do, moves to a place that is free, or makes it free first.
Of the host it depends only on whether something is below the new place. -/
theorem replaceEntry_cases (p q : Path) (m : Node) (x : Option Node) (below : Bool) :
    (∃ e, e.kind ≠ .unsupported ∧
      ∀ h, h.hasChildren q = below → replaceEntry p q m x h = (.error (.host e), h)) ∨
    (∀ h, h.hasChildren q = below → replaceEntry p q m x h = (.ok (), h)) ∨
    (x = none ∧ (q ≠ p → q.under p = false) ∧ ∀ h, replaceEntry p q m x h = (.ok (), h.relocated p q)) ∨
    q.under p = false ∧
      ∀ h, h.hasChildren q = below → replaceEntry p q m x h = (.ok (), (h.detached q).relocated p q) := by
  unfold replaceEntry
  by_cases hbelow : q ≠ p ∧ q.under p = true
  · exact Or.inl ⟨.invalid, by decide, fun h _ => by rw [if_pos hbelow]; rfl⟩
  by_cases habove : q ≠ p ∧ p.under q = true
  · exact Or.inl ⟨.notEmpty, by decide, fun h _ => by rw [if_neg hbelow, if_pos habove]; rfl⟩
  -- Unless nothing is to be done, the new place is not below the old one.
  have hunder : q ≠ p → q.under p = false := fun hne => Bool.eq_false_iff.2 fun hu => hbelow ⟨hne, hu⟩
  simp only [if_neg hbelow, if_neg habove]
  rcases x with _ | x
  · exact Or.inr (Or.inr (Or.inl ⟨rfl, hunder, fun h => by cases m <;> rfl⟩))
  by_cases hself : p = q
  · cases m <;> cases x
    case directory.directory | file.file | file.link | link.file | link.link =>
      exact Or.inr (Or.inl fun h _ => by simp only [if_pos hself]; rfl)
    case directory.file | directory.link => exact Or.inl ⟨.notDirectory, by decide, fun _ _ => rfl⟩
    case file.directory | link.directory => exact Or.inl ⟨.isDirectory, by decide, fun _ _ => rfl⟩
  · cases m <;> cases x
    case directory.directory =>
      cases below with
      | true =>
        refine Or.inl ⟨.notEmpty, by decide, fun h hchildren => ?_⟩
        simp only [if_neg hself, bind_run, show (get : StoreM Host _) h = (.ok h, h) from rfl, hchildren]
        rfl
      | false =>
        refine Or.inr (Or.inr (Or.inr ⟨hunder (Ne.symm hself), fun h hchildren => ?_⟩))
        simp only [if_neg hself, bind_run, show (get : StoreM Host _) h = (.ok h, h) from rfl, hchildren]
        rfl
    case file.file | file.link | link.file | link.link =>
      exact Or.inr (Or.inr (Or.inr ⟨hunder (Ne.symm hself), fun h _ => by simp only [if_neg hself]; rfl⟩))
    case directory.file | directory.link => exact Or.inl ⟨.notDirectory, by decide, fun _ _ => rfl⟩
    case file.directory | link.directory => exact Or.inl ⟨.isDirectory, by decide, fun _ _ => rfl⟩

theorem asClosed_replaceEntry {m : Node} (hp : p ≠ .root) (hm : h.node? p = some m)
    (hdir : h.node? dir = some .directory) :
    AsClosed h (replaceEntry p (dir.child n) m (h.node? (dir.child n)) h).2 := by
  intro hc
  obtain ⟨e, -, hrun⟩ | hrun | ⟨hfree, hunder, hrun⟩ | ⟨hunder, hrun⟩ :=
    replaceEntry_cases p (dir.child n) m (h.node? (dir.child n)) (h.hasChildren (dir.child n))
  · rwa [hrun h rfl]
  · rwa [hrun h rfl]
  · have hne : dir.child n ≠ p := fun hself => by
      rw [hself, hm] at hfree
      cases hfree
    rw [hrun]
    exact hc.relocated hp (hunder hne) hfree hdir
  · rw [hrun h rfl]
    exact hc.replaced hp hunder hdir

theorem asClosed_rename (source target : String) : Stays AsClosed (rename source target) := by
  refine .bind (stays_locatePlace source) fun old => .bind (stays_locatePlace target) fun new => ?_
  split
  · refine stays_entryIn fun h => ?_
    cases hm : h.node? _ with
    | none => exact refl_of AsClosed h
    | some m =>
      refine entryIn_bind ?_
      split
      · exact refl_of AsClosed h
      · rw [bind_run, show (get : StoreM Host _) h = (.ok h, h) from rfl]
        dsimp only
        split
        · exact refl_of AsClosed h
        · rename_i hdir
          exact asClosed_replaceEntry child_ne_root hm (not_not.1 hdir)
  · exact .throw

end Calls

end Filespace.Host
