import Filespace.Proofs.Copying
import Mathlib.Data.List.Perm.Subperm

/-!
# Calls that cannot fail

Why a call on a store in memory fails can be seen in its tree beforehand. `Sure x m` says that the call `x` does not fail
on the tree `m`, and there is one statement for each call about when this is so. What is known of the outcome of a call
that may fail (`treeWp`) is then known of its success (`Sure.and`).

The longest of them is copying: it ends because no path of a tree has more names than the tree has entries.
-/

namespace Filespace.Storage

open Memory Path

variable {α β : Type} {m m' : Memory} {p : Path} {y : StoreM Memory α} {data : Bytes} {d : FileData} {pos : Nat}

/-- A call on a store in memory that does not fail. -/
def Sure (x : StoreM (Host × Memory) α) (m : Memory) : Prop := treeWp x (fun _ _ => True) (fun _ _ => False) m

section Rules

variable {x : StoreM (Host × Memory) α} {Q : α → Memory → Prop} {E : StorageError → Memory → Prop}

/-- What is known of a call that may fail is known of one that does not. -/
theorem Sure.and (h : Sure x m) (hx : treeWp x Q E m) : treeWp x Q (fun _ _ => False) m :=
  (treeWp.and h hx).mono (fun _ _ hQ => hQ.2) fun _ _ hfalse => hfalse.1

/-- A call that does not fail on some condition fails only if the condition does not hold. -/
theorem treeWp_of_sure_if {c : Prop} (hsure : c → Sure x m) (hx : treeWp x Q E m) :
    treeWp x Q (fun e m' => E e m' ∧ ¬ c) m := by
  by_cases hc : c
  · exact ((hsure hc).and hx).mono (fun _ _ hQ => hQ) fun _ _ hfalse => hfalse.elim
  · exact hx.mono (fun _ _ hQ => hQ) fun _ _ hE => ⟨hE, hc⟩

theorem Sure.pure (a : α) : Sure (pure a) m := treeWp_pure trivial

/-- The second call is sure where the first one ends. -/
theorem Sure.bind {f : α → StoreM (Host × Memory) β} (h : Sure x m) (hx : treeWp x Q E m)
    (hf : ∀ a m', Q a m' → Sure (f a) m') : Sure (x >>= f) m :=
  treeWp_bind ((h.and hx).imp hf)

/-- The store in memory ignores the host. -/
theorem treeWp_onSecond (h : wp y Q E m) : treeWp (StoreM.onSecond y) Q E m := by
  rintro host s rfl
  have hwp : wp y (fun a t => host = host ∧ Q a t) (fun e t => host = host ∧ E e t) s :=
    h.mono (fun _ _ hQ => ⟨rfl, hQ⟩) fun _ _ hE => ⟨rfl, hE⟩
  exact wp_within.2 hwp

theorem treeWp_of_run {a : α} (h : y m = (.ok a, m')) :
    treeWp (StoreM.onSecond y) (fun b t => b = a ∧ t = m') (fun _ _ => False) m :=
  treeWp_onSecond ((wp_of_ok h).2 ⟨rfl, rfl⟩)

theorem Sure.of_run {a : α} (h : y m = (.ok a, m')) : Sure (StoreM.onSecond y) m :=
  (treeWp_of_run h).imp fun _ _ _ => trivial

/-- A call of which the run is known comes first. -/
theorem Sure.run_bind {a : α} {f : α → StoreM (Host × Memory) β} (h : y m = (.ok a, m'))
    (hf : Sure (f a) m') : Sure (StoreM.onSecond y >>= f) m := by
  refine treeWp_bind ((treeWp_of_run h).imp ?_)
  rintro _ _ ⟨rfl, rfl⟩
  exact hf

end Rules

/-! ### Looking up and making entries -/

namespace Memory

/-- Where directories are all the way, they are found. -/
theorem ensure_run {l : List Path} (create : Bool) (h : ∀ q ∈ l, m.node? q = some .directory) :
    ensure create l m = (.ok (), m) := by
  induction l with
  | nil => rfl
  | cons p l ih =>
    rw [ensure_cons_run, h p List.mem_cons_self]
    exact ih fun q hq => h q (List.mem_cons_of_mem p hq)

/-- A directory of a closed tree is found. -/
theorem Closed.directory_run (hc : m.Closed) (create : Bool) (hp : m.node? p = some .directory) :
    directory p create m = (.ok (), m) :=
  ensure_run create (hc.trail_directories hp)

/-- A directory is made at a free path in a directory. -/
theorem Closed.directory_child_run (hc : m.Closed) {n : Name} (hp : m.node? p = some .directory)
    (hfree : m.node? (p.child n) = none) :
    directory (p.child n) true m = (.ok (), m.put (p.child n) .directory) := by
  rw [directory_child, bind_run, hc.directory_run true hp]
  simp only
  rw [ensure_cons_run, hfree]
  rfl

/-- A file of a closed tree is found. -/
theorem Closed.file_run (hc : m.Closed) (hd : m.node? p = some (.file d)) : file p false m = (.ok (), m) := by
  obtain rfl | ⟨dir, n, rfl⟩ := eq_root_or_child p
  · have hroot := hc.root
    rw [kind?_eq_directory_iff, hd] at hroot
    cases hroot
  · have hdir : m.node? dir = some .directory :=
      hc.parent_directory (by rw [hd]; simp) (parent?_child dir n)
    refine eq_ok_of_wp ?_
    unfold file
    rw [parent?_child]
    simp only
    rw [wp_bind, wp_of_ok (hc.directory_run false hdir), wp_bind, wp_get, hd]
    exact ⟨trivial, rfl⟩

/-- A file is made at a free path in a directory. -/
theorem Closed.file_child_run (hc : m.Closed) {n : Name} (hp : m.node? p = some .directory)
    (hfree : m.node? (p.child n) = none) : file (p.child n) true m = (.ok (), m.made (p.child n)) := by
  refine eq_ok_of_wp ?_
  unfold file
  rw [parent?_child]
  simp only
  rw [wp_bind, wp_of_ok (hc.directory_run true hp), wp_bind, wp_get, hfree]
  exact ⟨trivial, rfl⟩

/-- A handle can be had on a file that is not locked. -/
theorem openHandle_free_run (hd : m.node? p = some (.file d)) (hl : d.locked = false) :
    openHandle p m = (.ok ⟨p, d.serial⟩, m.put p (.file { d with locked := true })) := by
  refine eq_ok_of_wp ?_
  unfold openHandle
  rw [wp_bind, wp_fileAt]
  refine ⟨fun d' hd' => ?_, fun hdir => ?_, fun hnone => ?_⟩
  · rw [hd] at hd'
    cases hd'
    exact wp_ite.2 ⟨fun h => absurd h (by rw [hl]; simp), fun _ => ⟨rfl, rfl⟩⟩
  · rw [hd] at hdir
    cases hdir
  · rw [hd] at hnone
    cases hnone

theorem list_run (hp : m.node? p = some .directory) : list p m = (.ok (m.children p), m) := by
  refine eq_ok_of_wp ?_
  unfold list
  rw [wp_bind, wp_get, hp]
  exact ⟨rfl, rfl⟩

/-! ### Contents -/

/-- A write that ends within the longest file is taken. -/
theorem writeInto_run (p : Path) (d : FileData) (hfits : pos + data.length ≤ maxLength) : writeInto p d pos data m =
      (.ok (d.bytes.overwrite pos data).length, m.revised p d (d.bytes.overwrite pos data)) := by
  have hend : Channel.endOffset pos data.length = .ok (pos + data.length) :=
    if_pos (Nat.lt_of_le_of_lt hfits (by decide))
  refine eq_ok_of_wp ?_
  unfold writeInto checkLength
  rw [hend, wp_bind, wp_settle]
  refine ⟨fun last hlast => ?_, fun e he => nomatch he⟩
  cases hlast
  rw [wp_bind, wp_ite]
  exact ⟨fun _ => ⟨rfl, rfl⟩, fun h => absurd hfits h⟩

theorem writeAt_run {offset : Nat} (hd : m.node? p = some (.file d))
    (hl : d.locked = false) (hfits : offset + data.length ≤ maxLength) :
    writeAt p offset data m =
      (.ok (d.bytes.overwrite offset data).length, m.revised p d (d.bytes.overwrite offset data)) := by
  refine eq_ok_of_wp ?_
  unfold writeAt
  rw [wp_bind, wp_fileAt]
  refine ⟨fun d' hd' => ?_, fun hdir => ?_, fun hnone => ?_⟩
  · rw [hd] at hd'
    cases hd'
    refine wp_ite.2 ⟨fun h => absurd h (by rw [hl]; simp), fun _ => ?_⟩
    exact (wp_of_ok (writeInto_run p d hfits)).2 ⟨rfl, rfl⟩
  · rw [hd] at hdir
    cases hdir
  · rw [hd] at hnone
    cases hnone

/-- A handle takes all bytes at once, if they end within the longest file. -/
theorem write_run (h : Handle) (hfits : pos + data.length ≤ maxLength) :
    ∃ m', write h pos data m = (.ok data.length, m') := by
  have hwp : wp (write h pos data) (fun n _ => n = data.length) (fun _ _ => False) m := by
    unfold write
    rw [wp_bind, wp_get]
    cases m.fileOf? h with
    | none => rfl
    | some d =>
      rw [wp_bind]
      exact (wp_of_ok (writeInto_run h.path d hfits)).2 rfl
  rcases hx : write h pos data m with ⟨e | n, m'⟩
  · exact (hwp.error hx).elim
  · obtain rfl : n = data.length := hwp.ok hx
    exact ⟨m', rfl⟩

/-- A length within that of the longest file is taken. -/
theorem truncate_run (h : Handle) {length : Nat} (hfits : length ≤ maxLength) : ∃ m', truncate h length m = (.ok (), m') := by
  have hwp : wp (truncate h length) (fun _ _ => True) (fun _ _ => False) m := by
    unfold truncate checkLength
    rw [if_pos hfits, wp_bind, wp_pure, wp_bind, wp_get]
    cases m.fileOf? h with
    | none | some => trivial
  rcases hx : truncate h length m with ⟨e | a, m'⟩
  · exact (hwp.error hx).elim
  · exact ⟨m', rfl⟩

/-! ### Removing and moving -/

/-- An entry without locked files at or below it is removed. -/
theorem Closed.remove_run (hc : m.Closed) {recursive : Bool} (hroot : p ≠ .root) (hp : m.node? p ≠ none)
    (hfree : m.Unlocked p)
    (hrec : recursive = true ∨ ∃ d, m.node? p = some (.file d)) : remove p recursive m = (.ok (), m.prune p) := by
  refine eq_ok_of_wp ?_
  refine wp_ite.2 ⟨fun h => absurd (isRoot_iff.1 h) hroot, fun _ => ?_⟩
  rw [wp_bind, wp_get]
  rcases hn : m.node? p with _ | (_ | d)
  · exact absurd hn hp
  · have hrec : recursive = true := by
      rcases hrec with h | ⟨d, hd⟩
      · exact h
      · rw [hn] at hd
        cases hd
    refine wp_ite.2 ⟨fun h => absurd hrec h.2, fun _ => ?_⟩
    rw [firstLocked?_eq_none_iff.2 hfree]
    exact ⟨rfl, rfl⟩
  · have hl : d.locked = false := isLocked_eq_false_iff.1 (hfree p (under_refl p)) d hn
    refine wp_ite.2 ⟨fun h => absurd h (by rw [hl]; simp), fun _ => ?_⟩
    exact ⟨rfl, hc.erase_eq_prune hn⟩

/-- An entry without locked files at or below it is moved to a free path in a directory, unless the store moves entries
within one directory only. -/
theorem Closed.wp_move_free (hc : m.Closed) {source target dir : Path} (hroot : source ≠ .root)
    (hsource : m.node? source ≠ none) (houtside : target.under source = false) (hfree : m.node? target = none)
    (hparent : target.parent? = some dir) (hdir : m.node? dir = some .directory) (hunlocked : m.Unlocked source) :
    wp (move source target) (fun _ _ => True) (fun e _ => e = .noNativeMove) m := by
  have htarget : target ≠ .root := by
    rintro rfl
    cases hparent
  unfold move
  rw [wp_bind]
  refine wp_ite.2 ⟨fun h => ?_, fun _ => ?_⟩
  · rw [isRoot_iff, isRoot_iff] at h
    exact absurd h (not_or.2 ⟨hroot, htarget⟩)
  refine wp_ite.2 ⟨fun h => absurd h (by rw [houtside]; simp), fun _ => ?_⟩
  refine wp_ite.2 ⟨fun _ => rfl, fun _ => ?_⟩
  refine wp_ite.2 ⟨fun h => absurd h (by simpa using hsource), fun _ => ?_⟩
  refine wp_ite.2 ⟨fun h => absurd h (by rw [hfree]; simp), fun _ => ?_⟩
  rw [hparent, wp_bind]
  refine (wp_of_ok (hc.directory_run false hdir)).2 ?_
  rw [firstLocked?_eq_none_iff.2 hunlocked]
  exact trivial

end Memory

/-! ### Calls of the store -/

open Memory

theorem sure_size (h : Handle) (m : Memory) : Sure (FileStore.size h) m :=
  .of_run rfl

theorem sure_close (h : Handle) (m : Memory) : Sure (FileStore.close h) m := by
  rintro host s rfl
  exact ⟨rfl, trivial⟩

/-- Reading in pieces does not fail. -/
theorem sure_gather (h : Handle) (m : Memory) (fuel pos want : Nat) :
    Sure ((FileStore.channel h).gather fuel pos want) m := by
  induction fuel generalizing pos want with
  | zero => exact .pure _
  | succ fuel ih =>
    refine treeWp_ite (fun _ => Sure.pure _) fun _ => ?_
    refine Sure.run_bind (y := read h pos want) rfl (treeWp_ite (fun _ => Sure.pure _) fun _ => ?_)
    exact treeWp_bind ((ih _ _).imp fun _ _ _ => Sure.pure _)

theorem sure_readAll (h : Handle) (m : Memory) : Sure (FileStore.channel h).readAll m :=
  (sure_size h m).bind (treeWp_size (φ := Memory) h m) fun n m' _ => sure_gather h m' n 0 n

theorem sure_readExactAt (h : Handle) (m : Memory) (length offset : Nat) :
    Sure ((FileStore.channel h).readExactAt length offset) m :=
  (sure_size h m).bind (treeWp_size (φ := Memory) h m) fun _ m' _ => sure_gather h m' _ offset _

/-- Writing in pieces does not fail, if the whole ends within the longest file. -/
theorem sure_scatter (h : Handle) (m : Memory) (fuel : Nat)
    (hfits : pos + data.length ≤ maxLength) : Sure ((FileStore.channel h).scatter fuel pos data) m := by
  induction fuel generalizing pos data m with
  | zero => exact .pure _
  | succ fuel ih =>
    refine treeWp_ite (fun _ => Sure.pure _) fun hne => ?_
    obtain ⟨m', hrun⟩ := write_run h hfits
    refine Sure.run_bind (y := write h pos data) hrun (treeWp_ite (fun hzero => ?_) fun _ => ?_)
    · exact absurd (List.isEmpty_iff.2 (List.length_eq_zero_iff.1 hzero)) hne
    · have hrest : pos + data.length + (data.drop data.length).length ≤ maxLength := by
        rw [List.drop_length]
        exact hfits
      exact treeWp_bind ((ih m' hrest).imp fun _ _ _ => Sure.pure _)

theorem sure_writeAllAt (h : Handle) (m : Memory) {offset : Nat} (hfits : offset + data.length ≤ maxLength) :
    Sure ((FileStore.channel h).writeAllAt data offset) m := by
  unfold Channel.writeAllAt Channel.endOffset
  rw [if_pos (Nat.lt_of_le_of_lt hfits (by decide))]
  exact sure_scatter h m data.length hfits

/-! ### Copying -/

namespace Memory.Closed

variable {d : FileData} {source target dir : Path} {n : Name}

/-- A handle of its own can be had on a file that is not locked. -/
theorem sure_withHandle (hc : m.Closed) (hd : m.node? p = some (.file d)) (hl : d.locked = false)
    {use : Handle → StoreM (Host × Memory) α}
    (hu : Sure (use ⟨p, d.serial⟩) (m.put p (.file { d with locked := true }))) :
    Sure (Request.withHandle p use) m := by
  refine .run_bind (hc.file_run hd) (.run_bind (openHandle_free_run hd hl) ?_)
  refine treeWp_bind (treeWp_attempt (hu.mono ?_ fun _ _ hfalse => hfalse.elim))
  intro a m' _
  refine (sure_close _ m').bind (treeWp_close _ m') fun _ m'' _ => ?_
  exact treeWp_settle (fun _ _ => trivial) fun e he => nomatch he

/-- A file that is not locked is copied to a free path in a directory. -/
theorem sure_copyFile (hc : m.Closed) (hs : m.Short) (hd : m.node? source = some (.file d)) (hl : d.locked = false)
    (hdir : m.node? dir = some .directory) (hfree : m.node? (dir.child n) = none) :
    Sure (FileStore.copyFile source (dir.child n)) m := by
  rw [copyFile_eq]
  refine (hc.sure_withHandle hd hl (sure_readAll _ _)).bind (treeWp_readWhole source m) ?_
  rintro data m ⟨rfl, d', hd', rfl⟩
  rw [hd] at hd'
  cases hd'
  refine .run_bind (hc.file_child_run hdir hfree) ?_
  refine .run_bind (writeAt_run (d := ⟨m.nextSerial, [], false, m.clock⟩) ?_ rfl ?_) (.pure _)
  · rw [node?_made, if_pos rfl]
  · rw [Nat.zero_add]
    exact hs.bytes hd

/-- No path of a tree has more names than the tree has entries. -/
theorem length_le_size (hc : m.Closed) (hp : m.node? p ≠ none) : p.names.length ≤ m.nodes.size := by
  have hsub : p.trail ⊆ m.nodes.keys := by
    intro q hq
    obtain ⟨hu, -⟩ := mem_trail_iff.1 hq
    rw [Table.mem_keys, ← Option.ne_none_iff_exists']
    exact fun hnone => hp (hc.nothing_under hnone hu)
  have hlen := (List.subperm_of_subset (nodup_trail p) hsub).length_le
  rwa [length_trail, Table.keys, List.length_map] at hlen

end Memory.Closed

/-- A tree that can be copied to a free name of a directory: its paths have fewer names than `depth`, and no file in it is
locked. -/
structure Memory.Copyable (depth : Nat) (source dir : Path) (n : Name) (m : Memory) : Prop where
  closed : m.Closed
  short : m.Short
  present : m.node? source ≠ none
  deep : ∀ r, m.node? (source.join r) ≠ none → r.names.length < depth
  unlocked : ∀ q, q.under source = true → m.isLocked q = false
  directory : m.node? dir = some .directory
  free : m.node? (dir.child n) = none
  outside : (dir.child n).under source = false

namespace Memory.Copyable

variable {m m' : Memory} {source dir : Path} {n k : Name} {depth : Nat}

theorem beside (h : Copyable depth source dir n m) : source.Beside (dir.child n) :=
  h.closed.beside h.present h.free h.outside

/-- When a part of a tree has been copied, the next child can be: the copy has not touched the source. -/
theorem child (h : Copyable (depth + 1) source dir n m) {x : Stat} {rest : List (Name × Stat)}
    (hpart : PartCopied (dir.child n) m ((k, x) :: rest) m') (hk : m.node? (source.child k) ≠ none) :
    Copyable depth (source.child k) (dir.child n) k m' := by
  have hsame : ∀ q, q.under (source.child k) = true → m'.node? q = m.node? q := by
    intro q hq
    have hsource := under_trans hq (under_child source k)
    exact hpart.frame.same q (not_under_of_beside h.beside hsource)
  refine ⟨hpart.frame.closed, hpart.frame.short h.short, ?_, fun r hr => ?_, fun q hq => ?_, hpart.directory,
    hpart.free k List.mem_cons_self, ?_⟩
  · rw [hsame _ (under_refl _)]
    exact hk
  · rw [hsame _ (under_join _ r), child_join] at hr
    exact Nat.lt_of_succ_lt_succ (h.deep _ hr)
  · unfold isLocked
    rw [hsame q hq]
    exact h.unlocked q (under_trans hq (under_child source k))
  · rw [Bool.eq_false_iff]
    intro hu
    have hnot := not_under_of_beside h.beside (under_trans hu (under_child source k))
    rw [under_child] at hnot
    cases hnot

/-- Making the target does not touch the source. -/
theorem node?_put_target (h : Copyable depth source dir n m) {q : Path} (hq : q.under source = true) :
    (m.put (dir.child n) .directory).node? q = m.node? q := by
  refine node?_put_of_ne m _ ?_
  rintro rfl
  rw [h.outside] at hq
  cases hq

/-- A tree is copied by copying its children, so the induction is on the depth that is left. -/
theorem sure_copyTree (h : Copyable depth source dir n m) :
    Sure (FileStore.copyTree depth source (dir.child n)) m := by
  induction depth generalizing m source dir n with
  | zero => exact absurd (h.deep .root (by rw [join_root]; exact h.present)) (Nat.not_lt_zero _)
  | succ depth ih =>
    refine .run_bind rfl ?_
    rcases hn : m.node? source with _ | (_ | d)
    · exact absurd hn h.present
    · refine .run_bind (h.closed.directory_run false hn) (.run_bind (h.closed.directory_child_run h.directory h.free) ?_)
      refine .run_bind (list_run ((h.node?_put_target (under_refl source)).trans hn)) ?_
      -- The target lies outside of the source, so the children that are listed are those from before.
      have hnames : ∀ k, k ∈ ((m.put (dir.child n) .directory).children source).map Prod.fst ↔
          m.node? (source.child k) ≠ none := by
        intro k
        rw [mem_names_children, h.node?_put_target (under_child source k)]
      have hstart := PartCopied.start h.closed h.directory h.free
        (nodup_children (m.put (dir.child n) .directory) source)
      refine (treeWp_forM (I := fun rest m' => PartCopied (dir.child n) m rest m' ∧
        ∀ k ∈ rest.map Prod.fst, m.node? (source.child k) ≠ none) ?_ ⟨hstart, fun k hk => (hnames k).1 hk⟩).imp
        (fun _ _ _ => trivial)
      rintro ⟨k, x⟩ rest m' ⟨hpart, hthere⟩
      have hchild := h.child hpart (hthere k List.mem_cons_self)
      have hcopied := hpart.treeWp_copyChild (φ := Memory) h.beside
        (treeWp_copyTree depth hchild.closed rfl hchild.directory hchild.free hchild.beside)
      refine ((ih hchild).and hcopied).imp fun _ m'' hm => ⟨hm, fun j hj => ?_⟩
      exact hthere j (List.mem_cons_of_mem _ hj)
    · have hfree := isLocked_eq_false_iff.1 (h.unlocked source (under_refl source)) d hn
      exact h.closed.sure_copyFile h.short hn hfree h.directory h.free

end Memory.Copyable

namespace Memory.Closed

variable {m : Memory} {source dir : Path} {n : Name}

/-- An entry is copied with all below it to a free path in a directory, if no file in it is locked. -/
theorem sure_copy (hc : m.Closed) (hs : m.Short) (hsource : m.node? source ≠ none)
    (hunlocked : m.Unlocked source) (hdir : m.node? dir = some .directory)
    (hfree : m.node? (dir.child n) = none) (houtside : (dir.child n).under source = false) :
    Sure (FileStore.copy source (dir.child n)) m := by
  -- The copy is given the number of entries as its depth, and no path is longer than that.
  have hdeep : ∀ r, m.node? (source.join r) ≠ none → r.names.length < m.nodes.size + 2 := by
    intro r hr
    have hlength := hc.length_le_size hr
    rw [names_join, List.length_append] at hlength
    omega
  rintro host s rfl
  unfold FileStore.copy
  rw [wp_bind, wp_get]
  exact Copyable.sure_copyTree ⟨hc, hs, hsource, hdeep, hunlocked, hdir, hfree, houtside⟩ host s rfl

end Memory.Closed

end Filespace.Storage

/-! ### Requests -/

namespace Filespace.Request

open Storage Storage.Memory

variable {m : Memory} {p dir : Path} {n : Name} {d : FileData}

variable (hc : m.Closed)

include hc

theorem sure_list (hdir : m.node? dir = some .directory) : Sure (execute (.list dir)) m :=
  .run_bind (hc.directory_run false hdir) (.run_bind (list_run hdir) (.pure _))

theorem sure_createDirectory (hdir : m.node? dir = some .directory)
    (hfree : m.node? (dir.child n) = none) : Sure (execute (.createDirectory (dir.child n) false)) m := by
  rw [execute, Path.parent?_child]
  refine .run_bind (hc.directory_run false hdir) (.run_bind rfl ?_)
  rw [hfree]
  exact .run_bind (hc.directory_child_run hdir hfree) (.pure _)

section File

variable (hd : m.node? p = some (.file d)) (hl : d.locked = false)

include hd hl

theorem sure_openHandle : Sure (execute (.openHandle p)) m :=
  .run_bind (hc.file_run hd) (.run_bind (openHandle_free_run hd hl) (.pure _))

theorem sure_readAt (offset length : Nat) : Sure (execute (.readAt p offset length)) m := by
  refine hc.sure_withHandle hd hl ?_
  refine (sure_readExactAt _ _ length offset).bind (treeWp_readExactAt _ _ length offset) fun _ m' _ => ?_
  exact (sure_size _ m').bind (treeWp_size _ m') fun _ _ _ => Sure.pure _

theorem sure_writeAt {offset : Nat} {data : Bytes} (hfits : offset + data.length ≤ maxLength) :
    Sure (execute (.writeAt p offset data)) m :=
  .run_bind (hc.file_run hd) (.run_bind (writeAt_run hd hl hfits) (.pure _))

theorem sure_truncate {length : Nat} (hfits : length ≤ maxLength) : Sure (execute (.truncate p length)) m := by
  refine hc.sure_withHandle hd hl ?_
  obtain ⟨m', hrun⟩ := truncate_run ⟨p, d.serial⟩ hfits
  exact .run_bind hrun (.pure _)

end File

theorem sure_remove {recursive : Bool} (hroot : p ≠ .root) (hp : m.node? p ≠ none) (hfree : m.Unlocked p)
    (hrec : recursive = true ∨ ∃ d, m.node? p = some (.file d)) :
    Sure (execute (.remove p recursive)) m :=
  .run_bind (hc.remove_run hroot hp hfree hrec) (.pure _)

variable {source : Path} (hsource : m.node? source ≠ none) (hunlocked : m.Unlocked source)
  (hdir : m.node? dir = some .directory) (hfree : m.node? (dir.child n) = none)
  (houtside : (dir.child n).under source = false)

include hsource hunlocked hdir hfree houtside

theorem sure_copy (hs : m.Short) : Sure (execute (.copy source (dir.child n))) m :=
  treeWp_bind ((hc.sure_copy hs hsource hunlocked hdir hfree houtside).imp fun _ _ _ => Sure.pure _)

/-- A move to a free path in a directory fails only for want of means. -/
theorem treeWp_move_free (hroot : source ≠ .root) :
    treeWp (execute (φ := Memory) (.move source (dir.child n))) (fun _ _ => True) (fun e _ => e = .noNativeMove) m := by
  have hmove := hc.wp_move_free hroot hsource houtside hfree (Path.parent?_child dir n) hdir hunlocked
  exact treeWp_bind ((treeWp_onSecond hmove).imp fun _ _ _ => treeWp_pure trivial)

end Filespace.Request
