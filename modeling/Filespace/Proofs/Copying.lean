import Filespace.Proofs.Requests

/-!
# What copying does

A copy can stop at any of its calls. Whatever it has done by then is at and below the target
(`Memory.ChangedUnder`): the source and everything else is as before, the tree is closed, and nothing that was made
is locked. A copy that ends well has laid each entry of the source over what was at the same path below the target.

`Memory.Overlaid new target m m'` says this for any family `new` of entries below the target. Making a directory, making
a file and writing into it are cases of it, and so is a loop over the children of a directory of which some are still to
come (`without`), so that one statement goes through the whole recursion.
-/

namespace Filespace.Storage

open Memory Path

namespace Memory

/-- Between two trees, entries have changed at and below one path only, and no file there is locked. -/
structure ChangedUnder (target : Path) (m m' : Memory) : Prop where
  /-- The tree is closed. -/
  closed : m'.Closed
  /-- All else is as before. -/
  same : ∀ q, q.under target = false → m'.node? q = m.node? q
  /-- There are no handles on what was made. -/
  unlocked : ∀ q, q.under target = true → m'.isLocked q = false
  /-- No file has become too long. -/
  short : m.Short → m'.Short

variable {m m' m'' : Memory} {p q target : Path} {n : Name}

theorem ChangedUnder.refl (h : m.Closed) (ht : m.node? target = none) : ChangedUnder target m m where
  closed := h
  same _ _ := rfl
  unlocked q hq := isLocked_eq_false_iff.2 fun d hd => by
    rw [h.nothing_under ht hq] at hd
    cases hd
  short := id

/-- What changes below a child of the target changes below the target. -/
theorem ChangedUnder.child (h : ChangedUnder target m m') (hc : ChangedUnder (target.child n) m' m'') :
    ChangedUnder target m m'' where
  closed := hc.closed
  same q hq := by rw [hc.same q (not_under_child hq n), h.same q hq]
  unlocked q hq := by
    rcases hu : q.under (target.child n) with _ | _
    · unfold isLocked
      rw [hc.same q hu]
      exact h.unlocked q hq
    · exact hc.unlocked q hu
  short hs := hc.short (h.short hs)

/-- An unlocked entry that is new at a free path is the only change. -/
theorem ChangedUnder.of_new {x : Node} (h : m.Closed) (hp : m.node? p = some .directory)
    (hn : m.node? (p.child n) = none) (hx : x.isLocked = false) (hshort : m.Short → x.Short)
    (hnode : ∀ q, m'.node? q = if q = p.child n then some x else m.node? q) : ChangedUnder (p.child n) m m' where
  closed := by
    refine (h.put hp (Or.inr hn)).congr (m := m.put (p.child n) x) fun q => ?_
    unfold kind?
    rw [hnode, node?_put]
  same q hq := by
    rw [hnode, if_neg]
    rintro rfl
    rw [under_refl] at hq
    cases hq
  unlocked q hq := by
    unfold isLocked
    rw [hnode]
    split
    · rename_i hs
      split at hs
      · cases hs
        exact hx
      · rw [h.nothing_under hn hq] at hs
        cases hs
    · rfl
  short hs := hs.of_nodes fun q y hy => by
    rw [hnode] at hy
    split at hy
    · cases hy
      exact Or.inl (hshort hs)
    · exact Or.inr ⟨q, hy⟩

/-- A listing has each name once. -/
theorem nodup_children (m : Memory) (p : Path) : ((m.children p).map Prod.fst).Nodup := by
  have hrows : m.nodes.rows.Pairwise fun x y => x.1 ≠ y.1 := by
    have := m.nodes.nodup_keys
    rwa [Table.keys, List.Nodup, List.pairwise_map] at this
  rw [List.Nodup, List.pairwise_map, children, List.pairwise_filterMap]
  refine hrows.imp ?_
  rintro ⟨q, x⟩ ⟨q', x'⟩ hne a ha b hb hab
  simp only at ha hb
  split at ha
  · split at hb
    · rename_i hq hq'
      obtain ⟨k, rfl⟩ := parent?_eq_some_iff.1 hq
      obtain ⟨k', rfl⟩ := parent?_eq_some_iff.1 hq'
      rw [name?_child, Option.map_some, Option.some.injEq] at ha hb
      rw [← ha, ← hb] at hab
      exact hne (by rw [show k = k' from hab])
    · cases hb
  · cases ha

/-- The names of a listing are those of the children. -/
theorem mem_names_children : n ∈ (m.children p).map Prod.fst ↔ m.node? (p.child n) ≠ none := by
  rw [List.mem_map]
  constructor
  · rintro ⟨⟨k, s⟩, hk, rfl⟩ hnone
    rw [mem_children, hnone] at hk
    cases hk
  · intro h
    obtain ⟨x, hx⟩ := Option.ne_none_iff_exists'.1 h
    exact ⟨(n, x.stat), mem_children.2 (by rw [hx]; rfl), rfl⟩

end Memory

/-! ### One file -/

section Copy

variable {φ : Type} [FileStore φ] {m m' : Memory} {source target dir : Path} {n : Name}

/-- The source is read through a handle of its own. -/
theorem copyFile_eq (source target : Path) :
    (FileStore.copyFile source target : StoreM (Host × φ) Unit) = (do
      let data ← Request.withHandle source fun h => (FileStore.channel h).readAll
      FileStore.file target true
      let _ ← FileStore.writeAt target 0 data) := by
  simp only [FileStore.copyFile, FileStore.slurp, Request.withHandle, bind_assoc]

variable [Backed φ]

/-- Reading a whole file changes nothing. -/
theorem treeWp_readWhole (p : Path) (m : Memory) :
    treeWp (Request.withHandle (φ := φ) p fun h => (FileStore.channel h).readAll)
      (fun data m' => m' = m ∧ ∃ d, m.node? p = some (.file d) ∧ data = d.bytes)
      (NoEffect φ m (m.isLocked p = true)) m := by
  refine Request.treeWp_withHandle (fun _ _ he => he) ?_
  intro h d hd hl hh
  have hback := Request.release_locked hd hl
  refine (treeWp_readAll h _).mono ?_ ?_
  · rintro data _ ⟨rfl, rfl⟩
    rw [hback, contentOf_eq (Request.fileOf?_locked hh)]
    exact ⟨⟨rfl, d, hd, rfl⟩, fun e hr => NoEffect.of_refused hr⟩
  · rintro e _ ⟨rfl, hb⟩
    rw [hback]
    exact ⟨⟨rfl, hb.mono False.elim⟩, fun e hr => NoEffect.of_refused hr⟩

/-- Copying one file to a free path in a directory. -/
theorem treeWp_copyFile (hc : m.Closed) (ht : target = dir.child n)
    (hd : m.node? dir = some .directory) (hfree : m.node? target = none) :
    treeWp (FileStore.copyFile (φ := φ) source target)
      (fun _ m' => ChangedUnder target m m')
      (fun e m' => ChangedUnder target m m' ∧ BusyOnly φ (m.isLocked source = true) e) m := by
  subst ht
  rw [copyFile_eq]
  refine treeWp_bind ((treeWp_readWhole source m).mono ?_ ?_)
  · rintro data m ⟨rfl, d, -, rfl⟩
    refine treeWp_bind (((Backed.file _ true).treeWp (hc.wp_file_true _)).mono ?_ ?_)
    · intro _ m' hm
      -- The directory is there, so only the file is made.
      have hm : m' = m.made (dir.child n) := by
        rcases hm with ⟨-, d', hd'⟩ | ⟨dir', n', e, -, -, hm⟩
        · rw [hfree] at hd'
          cases hd'
        · obtain ⟨rfl, rfl⟩ := child_inj.1 e
          rwa [hc.grown_eq_self hd] at hm
      subst hm
      have hmade := ChangedUnder.of_new hc hd hfree rfl (fun _ => Nat.zero_le _)
        (node?_made m (dir.child n))
      refine treeWp_bind (((Backed.writeAt _ 0 d.bytes).treeWp (wp_writeAt _ 0 d.bytes _)).mono ?_ ?_)
      · rintro k m' ⟨d', hd', hl, -, rfl, hfits⟩
        have hbytes : d'.bytes = [] := by
          rw [node?_made, if_pos rfl, Option.some.injEq, Node.file.injEq] at hd'
          rw [← hd']
        let x : Node := .file { d' with bytes := d'.bytes.overwrite 0 d.bytes, modified := m.clock }
        have hshort : x.Short := by
          exact length_overwrite_le hfits (by rw [hbytes]; exact Nat.zero_le _)
        refine treeWp_pure (.of_new hc hd hfree (x := x) hl (fun _ => hshort) fun q => ?_)
        rw [revised, node?_put, node?_made]
        split <;> rfl
      · rintro e m' ⟨rfl, hb⟩
        refine ⟨hmade, hb.mono fun hl => ?_⟩
        rw [hmade.unlocked _ (under_refl _)] at hl
        cases hl
    · rintro e m ⟨rfl, hb⟩
      exact ⟨.refl hc hfree, hb.mono False.elim⟩
  · rintro e m ⟨rfl, hb⟩
    exact ⟨.refl hc hfree, hb⟩

/-! ### A tree -/

/-- Copying the children of a directory one after the other: those that are still to come are free at the target. -/
structure Memory.PartCopied (target : Path) (m : Memory) (rest : List (Name × Stat)) (m' : Memory) : Prop where
  /-- Nothing has changed elsewhere. -/
  frame : ChangedUnder target m m'
  /-- The target is a directory. -/
  directory : m'.node? target = some .directory
  /-- The children that are still to come. -/
  free : ∀ n ∈ rest.map Prod.fst, m'.node? (target.child n) = none
  /-- No child comes twice. -/
  nodup : (rest.map Prod.fst).Nodup

/-- Once the directory is made, all children are still to come. -/
theorem Memory.PartCopied.start (hc : m.Closed) {k : Name} {l : List (Name × Stat)}
    (hd : m.node? dir = some .directory) (hfree : m.node? (dir.child k) = none) (hnodup : (l.map Prod.fst).Nodup) :
    PartCopied (dir.child k) m l (m.put (dir.child k) .directory) := by
  refine ⟨.of_new hc hd hfree rfl (fun _ => Node.short_directory) (node?_put m _ · _), node?_put_self _ _ _, ?_, hnodup⟩
  intro n _
  rw [node?_put_of_ne]
  · exact hc.nothing_under hfree (under_child _ n)
  · intro e
    have := not_child_under (dir.child k) n
    rw [e, under_refl] at this
    cases this

/-- One more child is copied. -/
theorem Memory.PartCopied.next {m'' : Memory} {s : Stat} {rest : List (Name × Stat)}
    (h : PartCopied target m ((n, s) :: rest) m') (hcopy : ChangedUnder (target.child n) m' m'') :
    PartCopied target m rest m'' := by
  obtain ⟨hnot, hnodup⟩ := List.nodup_cons.1 h.nodup
  refine ⟨h.frame.child hcopy, ?_, ?_, hnodup⟩
  · rw [hcopy.same target (not_child_under target n), h.directory]
  · intro k hk
    have hne : k ≠ n := fun e => hnot (e ▸ hk)
    rw [hcopy.same _ (not_under_child_of_ne hne (under_refl _))]
    exact h.free k (List.mem_cons_of_mem _ hk)

/-- A free path that is not below an entry lies beside it. -/
theorem Memory.Closed.beside (hc : m.Closed) (hpresent : m.node? source ≠ none) (hfree : m.node? target = none)
    (houtside : target.under source = false) : source.Beside target := by
  refine ⟨?_, houtside⟩
  rw [Bool.eq_false_iff]
  intro hu
  exact hpresent (hc.nothing_under hfree hu)

/-- The step of the loop over the children, once one child can be copied. -/
theorem Memory.PartCopied.treeWp_copyChild {s : Stat} {rest : List (Name × Stat)}
    {x : StoreM (Host × φ) Unit} (hbeside : source.Beside target)
    (h : PartCopied target m ((n, s) :: rest) m')
    (hx : treeWp x (fun _ m'' => ChangedUnder (target.child n) m' m'')
      (fun e m'' => ChangedUnder (target.child n) m' m'' ∧
        BusyOnly φ (∃ q, q.under (source.child n) = true ∧ m'.isLocked q = true) e) m') :
    treeWp x (fun _ m'' => PartCopied target m rest m'')
      (fun e m'' => ChangedUnder target m m'' ∧
        BusyOnly φ (∃ q, q.under source = true ∧ m.isLocked q = true) e) m' := by
  refine hx.mono (fun _ _ => h.next) ?_
  rintro e m'' ⟨hcopy, hb⟩
  refine ⟨h.frame.child hcopy, hb.mono ?_⟩
  rintro ⟨q, hq, hl⟩
  have hsource := under_trans hq (under_child source n)
  refine ⟨q, hsource, ?_⟩
  unfold isLocked at hl ⊢
  rwa [h.frame.same q (not_under_of_beside hbeside hsource)] at hl

/-- Copying an entry to a free path in a directory, not below itself. -/
theorem treeWp_copyTree (depth : Nat) (hc : m.Closed) {k : Name} (ht : target = dir.child k)
    (hd : m.node? dir = some .directory) (hfree : m.node? target = none) (hbeside : source.Beside target) :
    treeWp (FileStore.copyTree (φ := φ) depth source target) (fun _ m' => ChangedUnder target m m')
      (fun e m' => ChangedUnder target m m' ∧
        BusyOnly φ (∃ q, q.under source = true ∧ m.isLocked q = true) e) m := by
  induction depth generalizing m source target dir k with
  | zero => exact treeWp_throw ⟨.refl hc hfree, fun hb => nomatch hb⟩
  | succ depth ih =>
    subst ht
    have hstart : ChangedUnder (dir.child k) m m := .refl hc hfree
    -- A failure before anything is made.
    have hfail : ∀ e m', NoEffect φ m False e m' → ChangedUnder (dir.child k) m m' ∧
        BusyOnly φ (∃ q, q.under source = true ∧ m.isLocked q = true) e := by
      rintro e m' ⟨rfl, hb⟩
      exact ⟨hstart, hb.mono False.elim⟩
    refine treeWp_bind ((treeWp_entry source m).mono ?_ hfail)
    rintro r m' ⟨rfl, hr⟩
    rcases hs : m'.node? source with _ | (_ | d)
    · rw [hr, hs]
      exact treeWp_throw (hfail _ _ ⟨rfl, fun hb => nomatch hb⟩)
    · rw [hr, hs]
      refine treeWp_bind (((Backed.directory source false).treeWp (hc.wp_directory_false source)).mono ?_ hfail)
      rintro - m ⟨rfl, -⟩
      refine treeWp_bind (((Backed.directory _ true).treeWp (hc.wp_directory_true _)).mono ?_ hfail)
      rintro - m' ⟨rfl, -⟩
      rw [grown_child, hc.grown_eq_self hd]
      refine treeWp_bind (((Backed.list source).treeWp (wp_list source _)).mono ?_ ?_)
      · rintro l m' ⟨rfl, -, hl⟩
        have hl : l = (m.put (dir.child k) .directory).children source := hl
        have hpart := PartCopied.start hc hd hfree (hl ▸ nodup_children _ source)
        refine (treeWp_forM ?_ hpart).imp fun _ _ h => h.frame
        rintro ⟨n, s⟩ rest m' h
        refine h.treeWp_copyChild hbeside ?_
        exact ih h.frame.closed rfl h.directory (h.free n List.mem_cons_self) (beside_children hbeside n)
      · rintro e m' ⟨rfl, hb⟩
        exact ⟨.of_new hc hd hfree rfl (fun _ => Node.short_directory) (node?_put m _ · _), hb.mono False.elim⟩
    · rw [hr, hs]
      refine (treeWp_copyFile hc rfl hd hfree).mono (fun _ _ hframe => hframe) ?_
      rintro e m ⟨hframe, hb⟩
      exact ⟨hframe, hb.mono fun hl => ⟨source, under_refl source, hl⟩⟩

end Copy

/-! ### One entry over another -/

/-- What comes of an entry, if there is one, when a new one is laid over it: the bytes of a file beyond the new ones stay. -/
def Content.over : Option Content → Content → Content
  | some (.file old), .file new => .file (new ++ old.drop new.length)
  | _, new => new

/-- What is found where a new entry is laid over an old one, each of which can be missing. -/
def overlay (old : Option Content) : Option Content → Option Content
  | none => old
  | some new => some (new.over old)

@[simp] theorem overlay_none (old : Option Content) : overlay old none = old := rfl

@[simp] theorem overlay_directory (old : Option Content) : overlay old (some .directory) = some .directory := by
  rcases old with _ | (_ | _) <;> rfl

@[simp] theorem none_overlay (new : Option Content) : overlay none new = new := by
  rcases new with _ | _ <;> rfl

/-- Writing from the start over a file that was just looked up or made. -/
theorem overlay_file {old : Option Content} {b : Bytes} (h : overlay old (some (.file [])) = some (.file b))
    (new : Bytes) : overlay old (some (.file new)) = some (.file (b.overwrite 0 new)) := by
  rcases old with _ | (_ | old) <;> simp_all [overlay, Content.over, Bytes.overwrite]

/-- The new bytes are all there is exactly if the file was not longer before. -/
theorem overlay_file_eq_iff {old : Option Content} {new : Bytes} :
    overlay old (some (.file new)) = some (.file new) ↔ ∀ b, old = some (.file b) → b.length ≤ new.length := by
  rcases old with _ | (_ | old) <;> simp [overlay, Content.over]

/-! ### Families of entries over a tree -/

namespace Memory

variable {m m' m'' : Memory} {p q source target : Path} {n : Name} {new : Path → Option Content} {c : Content}

/-- Between two trees a family of entries has been laid over what was at and below a path. -/
structure Overlaid (new : Path → Option Content) (target : Path) (m m' : Memory) : Prop where
  /-- The tree is closed. -/
  closed : m'.Closed
  /-- What is found below the path. -/
  laid : ∀ r, m'.content? (target.join r) = overlay (m.content? (target.join r)) (new r)
  /-- Elsewhere nothing has changed, but that missing directories on the way to the path were made. -/
  outside : ∀ q, q.under target = false →
    m'.node? q = m.node? q ∨ target.under q = true ∧ m.node? q = none ∧ m'.node? q = some .directory

/-- A family of one entry. -/
def only (c : Content) : Path → Option Content := fun r => if r = .root then some c else none

/-- A family without the entries at and below some of the children. -/
def without (rest : List Name) (new : Path → Option Content) : Path → Option Content :=
  fun r => if ∃ n ∈ rest, r.names.head? = some n then none else new r

@[simp] theorem without_nil (new : Path → Option Content) : without [] new = new := by
  funext r
  simp [without]

theorem content?_of_node? (h : m'.node? q = m.node? p) : m'.content? q = m.content? p := by
  simp [content?, h]

/-- An entry that is laid over another one keeps its kind. -/
theorem kind?_of_overlay {old : Option Content} (hp : m.node? p ≠ none)
    (hq : m'.content? q = overlay old (m.content? p)) : m'.kind? q = m.kind? p := by
  rcases hnode : m.node? p with _ | (_ | d)
  · exact absurd hnode hp
  · have hdir : m.content? p = some .directory := by simp [content?, hnode, Node.content]
    rw [hdir, overlay_directory, ← hdir] at hq
    exact kind?_of_content? hq
  · have hfile : ∃ b, overlay old (m.content? p) = some (.file b) := by
      rcases old with _ | (_ | old) <;> simp [content?, hnode, Node.content, overlay, Content.over]
    obtain ⟨b, hb⟩ := hfile
    obtain ⟨d', hd', -⟩ := content?_eq_file_iff.1 (hq.trans hb)
    rw [kind?_eq_file_iff.2 ⟨d', hd'⟩, kind?_eq_file_iff.2 ⟨d, hnode⟩]

/-- Below the path only the path itself is on the way to it. -/
theorem node?_grown_below {r : Path} (hr : r ≠ .root) : (m.grown target).node? (target.join r) = m.node? (target.join r) := by
  rw [node?_grown, if_neg]
  intro hmem
  have hup := (mem_trail_iff.1 hmem).1
  have heq := under_antisymm (under_join target r) hup
  exact hr (join_eq_self_iff.1 heq)

/-- The directories that are made on a way without files. -/
theorem node?_grown_way (hway : ∀ q d, q ∈ p.trail → m.node? q ≠ some (.file d)) (q : Path) :
    (m.grown p).node? q = m.node? q ∨ p.under q = true ∧ m.node? q = none ∧ (m.grown p).node? q = some .directory := by
  rw [node?_grown]
  by_cases hq : q ∈ p.trail
  · rcases hnode : m.node? q with _ | (_ | d)
    · exact Or.inr ⟨(mem_trail_iff.1 hq).1, rfl, if_pos hq⟩
    · exact Or.inl (if_pos hq)
    · exact absurd hnode (hway q d hq)
  · exact Or.inl (if_neg hq)

/-- A directory is made at the path. -/
theorem Closed.overlaid_directory (hc : m.Closed) (hway : ∀ q d, q ∈ target.trail → m.node? q ≠ some (.file d)) :
    Overlaid (only .directory) target m (m.grown target) := by
  constructor
  case closed => exact hc.grown target
  case laid =>
    intro r
    by_cases hr : r = .root
    · simp [hr, only, content?, hc.node?_grown_self target, Node.content]
    · simp [hr, only, content?_of_node? (node?_grown_below hr)]
  case outside => exact fun q _ => node?_grown_way hway q

/-- A file is found or made at the path. -/
theorem Closed.overlaid_file (hc : m.Closed)
    (hm : (m' = m ∧ ∃ d, m.node? target = some (.file d)) ∨
      ∃ dir n, target = dir.child n ∧ m.node? target = none ∧
        (∀ q d, q ∈ dir.trail → m.node? q ≠ some (.file d)) ∧ m' = (m.grown dir).made target) :
    Overlaid (only (.file [])) target m m' := by
  rcases hm with ⟨rfl, d, hd⟩ | ⟨dir, n, rfl, hnone, hway, rfl⟩
  · constructor
    case closed => exact hc
    case laid =>
      intro r
      by_cases hr : r = .root
      · simp [hr, only, content?, hd, Node.content, overlay, Content.over]
      · simp [hr, only]
    case outside => exact fun _ _ => Or.inl rfl
  · constructor
    case closed => exact (hc.grown dir).made (hc.node?_grown_self dir) (by simpa using hnone)
    case laid =>
      intro r
      by_cases hr : r = .root
      · simp [hr, only, content?, node?_made, hnone, Node.content, overlay, Content.over]
      · have hne : (dir.child n).join r ≠ dir.child n := fun e => hr (join_eq_self_iff.1 e)
        have hbelow : (m.grown (dir.child n)).node? ((dir.child n).join r) = m.node? ((dir.child n).join r) :=
          node?_grown_below hr
        rw [grown_child, node?_put_of_ne _ _ hne] at hbelow
        simp [hr, only, content?, node?_made, hne, hbelow]
    case outside =>
      intro q hq
      have hne : q ≠ dir.child n := fun e => by simp [e] at hq
      rw [node?_made, if_neg hne]
      exact (node?_grown_way hway q).imp_right fun h => ⟨under_trans (under_child dir n) h.1, h.2⟩

/-- Bytes are written from the start of the file at the path. -/
theorem Overlaid.revised {d : FileData} (h : Overlaid (only (.file [])) target m m')
    (hd : m'.node? target = some (.file d)) (data : Bytes) :
    Overlaid (only (.file data)) target m (m'.revised target d (d.bytes.overwrite 0 data)) := by
  constructor
  case closed => exact h.closed.congr fun q => kind?_of_outline? (outline?_revised hd _ q)
  case laid =>
    intro r
    by_cases hr : r = .root
    · have hfound := h.laid .root
      have hbytes : m'.content? target = some (.file d.bytes) := by simp [content?, hd, Node.content]
      rw [join_root, hbytes] at hfound
      have hover := overlay_file hfound.symm data
      simp [hr, only, content?_revised, hover]
    · have hne : target.join r ≠ target := fun e => hr (join_eq_self_iff.1 e)
      have hlaid := h.laid r
      simp [hr, only, hlaid, content?_of_node? (node?_revised_of_ne hne _)]
  case outside =>
    intro q hq
    have hne : q ≠ target := fun e => by simp [e] at hq
    rw [node?_revised_of_ne hne]
    exact h.outside q hq

/-! ### The source of a copy -/

theorem Overlaid.source_same (h : Overlaid new target m m') (hbeside : source.Beside target) (hq : q.under source = true) :
    m'.node? q = m.node? q := by
  rcases h.outside q (not_under_of_beside hbeside hq) with hsame | ⟨hup, -, -⟩
  · exact hsame
  · simp [Beside, under_trans hup hq] at hbeside

/-- Below a file there is no content. -/
theorem Closed.content?_below_file {r : Path} {b : Bytes} (hc : m.Closed) (hp : m.content? p = some (.file b))
    (hr : r ≠ .root) : m.content? (p.join r) = none := by
  have hnone : m.node? (p.join r) = none := by
    refine hc.nothing_below ?_ (under_join p r) fun e => hr (join_eq_self_iff.1 e)
    intro hk
    rw [kind?_eq_directory_iff] at hk
    unfold content? at hp
    rw [hk] at hp
    cases hp
  unfold content?
  rw [hnone]
  rfl

/-- Below a file there is only the file. -/
theorem Closed.content?_join_file (hc : m.Closed) {b : Bytes} (hs : m.content? source = some (.file b)) :
    (fun r => m.content? (source.join r)) = only (.file b) := by
  funext r
  by_cases hr : r = .root
  · simp [hr, only, hs]
  · simp [hr, only, hc.content?_below_file hs hr]

/-- Without its children a directory is only the directory. -/
theorem Closed.without_children (hc : m.Closed) (hs : m.node? source = some .directory) {names : List Name}
    (hnames : ∀ n, n ∈ names ↔ m.node? (source.child n) ≠ none) :
    without names (fun r => m.content? (source.join r)) = only .directory := by
  funext r
  obtain ⟨l⟩ := r
  cases l with
  | nil =>
    have hroot : (⟨[]⟩ : Path) = .root := rfl
    simp [without, only, hroot, content?, hs, Node.content]
  | cons n l =>
    have hne : (⟨n :: l⟩ : Path) ≠ .root := fun e => by simp [Path.root] at e
    by_cases hn : m.node? (source.child n) = none
    · have hbelow : m.node? (source.join ⟨n :: l⟩) = none := by
        have := hc.nothing_under hn (under_join (source.child n) ⟨l⟩)
        rwa [child_join] at this
      simp [without, only, hne, content?, hbelow]
    · simp [without, only, hne, (hnames n).2 hn]

/-- One more child is laid over the tree. -/
theorem Overlaid.next {rest : List Name} (h : Overlaid (without (n :: rest) new) target m m') (hn : n ∉ rest)
    (hdir : m'.node? target = some .directory)
    (hchild : Overlaid (fun r => new ⟨n :: r.names⟩) (target.child n) m' m'') :
    Overlaid (without rest new) target m m'' := by
  -- What is not below the child is as it was before the child came.
  have hsame : ∀ q, q.under (target.child n) = false → m''.node? q = m'.node? q := by
    intro q hq
    rcases hchild.outside q hq with hsame | ⟨hup, hnone, -⟩
    · exact hsame
    · -- It would be on the way to the target, which is there.
      rcases child_under_iff.1 hup with rfl | hup
      · simp at hq
      · simp [h.closed.nothing_under hnone hup] at hdir
  constructor
  case closed => exact hchild.closed
  case laid =>
    intro r
    obtain ⟨l⟩ := r
    have hlaid := h.laid ⟨l⟩
    cases l with
    | nil =>
      have hroot : (⟨[]⟩ : Path) = .root := rfl
      have hstay := content?_of_node? (hsame target (not_child_under target n))
      simpa [hroot, without, hstay] using hlaid
    | cons k l =>
      by_cases hk : k = n
      · subst hk
        have hnew := hchild.laid ⟨l⟩
        rw [child_join] at hnew
        rw [hnew, hlaid]
        simp [without, hn]
      · have hout : (target.join ⟨k :: l⟩).under (target.child n) = false := by
          rw [← child_join]
          exact not_under_child_of_ne hk (under_join _ _)
        rw [content?_of_node? (hsame _ hout), hlaid]
        simp [without, hk]
  case outside =>
    intro q hq
    rw [hsame q (not_under_child hq n)]
    exact h.outside q hq

/-- A directory that was laid over the path is there while its children come. -/
theorem Overlaid.directory {rest : List Name} (h : Overlaid (without rest new) target m m')
    (hnew : new .root = some .directory) : m'.node? target = some .directory := by
  have hlaid := h.laid .root
  have hroot : (root).names.head? = none := rfl
  simp only [without, hroot, join_root, hnew] at hlaid
  rcases hnode : m'.node? target with _ | (_ | d) <;> simp_all [content?, Node.content]

end Memory

/-! ### The recursion -/

section Overlay

variable {φ : Type} [FileStore φ] [Backed φ] {m : Memory} {source target : Path}

/-- One file is read whole before anything is written. -/
theorem treeWp_copyFile_over (hc : m.Closed) :
    treeWp (FileStore.copyFile (φ := φ) source target)
      (fun _ m' => Overlaid (fun r => m.content? (source.join r)) target m m') (fun _ _ => True) m := by
  rw [copyFile_eq]
  refine treeWp_bind ((treeWp_readWhole source m).mono ?_ fun _ _ _ => trivial)
  intro data m₁ hread
  obtain ⟨rfl, d, hd, rfl⟩ := hread
  have hsource : m₁.content? source = some (.file d.bytes) := by simp [content?, hd, Node.content]
  rw [hc.content?_join_file hsource]
  refine treeWp_bind (((Backed.file target true).treeWp (hc.wp_file_true target)).mono ?_ fun _ _ _ => trivial)
  intro _ m₂ hfile
  have hmade := hc.overlaid_file hfile
  refine treeWp_bind (((Backed.writeAt target 0 d.bytes).treeWp (wp_writeAt target 0 d.bytes m₂)).mono ?_
    fun _ _ _ => trivial)
  intro _ m₃ hwrite
  obtain ⟨d', hd', -, -, rfl, -⟩ := hwrite
  exact treeWp_pure (hmade.revised hd' d.bytes)

/-- The loop over the children of a directory, once each of them can be copied. -/
theorem Memory.Overlaid.treeWp_children {f : Name → StoreM (Host × φ) Unit} {l : List (Name × Stat)} {m₁ : Memory}
    (hs : m.node? source = some .directory) (hbeside : source.Beside target)
    (hnodup : (l.map Prod.fst).Nodup)
    (hstart : Overlaid (without (l.map Prod.fst) fun r => m.content? (source.join r)) target m m₁)
    (hcopy : ∀ n m', m'.Closed → treeWp (f n)
      (fun _ m'' => Overlaid (fun r => m'.content? ((source.child n).join r)) (target.child n) m' m'')
      (fun _ _ => True) m') :
    treeWp (l.forM fun x => f x.1) (fun _ m' => Overlaid (fun r => m.content? (source.join r)) target m m')
      (fun _ _ => True) m₁ := by
  have hloop := treeWp_forM (f := fun x => f x.1) (E := fun _ _ => True)
    (I := fun rest m' => (rest.map Prod.fst).Nodup ∧
      Overlaid (without (rest.map Prod.fst) fun r => m.content? (source.join r)) target m m') ?_ ⟨hnodup, hstart⟩
  · refine hloop.imp ?_
    intro _ m' hdone
    simpa using hdone.2
  · intro x rest m' hinv
    obtain ⟨hnodup, hlaid⟩ := hinv
    rw [List.map_cons, List.nodup_cons] at hnodup
    refine (hcopy x.1 m' hlaid.closed).imp ?_
    intro _ m'' hchild
    -- The child that was copied is the one that was there at the start.
    have hsource : (fun r => m'.content? ((source.child x.1).join r)) =
        fun r => m.content? (source.join ⟨x.1 :: r.names⟩) := by
      funext r
      have hunder := under_trans (under_join (source.child x.1) r) (under_child source x.1)
      rw [content?_of_node? (hlaid.source_same hbeside hunder), child_join]
    rw [hsource] at hchild
    have hdir := hlaid.directory (by simp [content?, hs, Node.content])
    exact ⟨hnodup.2, hlaid.next hnodup.1 hdir hchild⟩

/-- A copy that ends well has laid the source over what was at the target. -/
theorem treeWp_copyTree_over (depth : Nat) (hc : m.Closed) (hbeside : source.Beside target) :
    treeWp (FileStore.copyTree (φ := φ) depth source target)
      (fun _ m' => Overlaid (fun r => m.content? (source.join r)) target m m') (fun _ _ => True) m := by
  induction depth generalizing m source target with
  | zero => exact treeWp_throw trivial
  | succ depth ih =>
    refine treeWp_bind ((treeWp_entry source m).mono ?_ fun _ _ _ => trivial)
    intro found m₁ hentry
    obtain ⟨rfl, hfound⟩ := hentry
    rcases hs : m₁.node? source with _ | (_ | d)
    · rw [hfound, hs]
      exact treeWp_throw trivial
    · rw [hfound, hs]
      refine treeWp_bind (((Backed.directory source false).treeWp (hc.wp_directory_false source)).mono ?_
        fun _ _ _ => trivial)
      intro _ m₂ hlook
      obtain ⟨rfl, -⟩ := hlook
      refine treeWp_bind (((Backed.directory target true).treeWp (hc.wp_directory_true target)).mono ?_
        fun _ _ _ => trivial)
      intro _ m₃ hmake
      obtain ⟨rfl, hway⟩ := hmake
      have hgrown := hc.overlaid_directory hway
      refine treeWp_bind (((Backed.list source).treeWp (wp_list source _)).mono ?_ fun _ _ _ => trivial)
      intro l m₄ hlist
      obtain ⟨rfl, -, hl⟩ := hlist
      have hl : l = (m₂.grown target).children source := hl
      -- The listing is that of the source before the copy.
      have hnames : ∀ n, n ∈ l.map Prod.fst ↔ m₂.node? (source.child n) ≠ none := by
        intro n
        rw [hl, mem_names_children, hgrown.source_same hbeside (under_child source n)]
      have hnodup : (l.map Prod.fst).Nodup := hl ▸ nodup_children _ source
      have hstart := hgrown
      rw [← hc.without_children hs hnames] at hstart
      refine hstart.treeWp_children hs hbeside hnodup
        (f := fun n => FileStore.copyTree depth (source.child n) (target.child n)) ?_
      intro n m' hc'
      exact ih hc' (beside_children hbeside n)
    · rw [hfound, hs]
      exact treeWp_copyFile_over hc

theorem treeWp_copy_over (hc : m.Closed) (hbeside : source.Beside target) :
    treeWp (FileStore.copy (φ := φ) source target)
      (fun _ m' => Overlaid (fun r => m.content? (source.join r)) target m m') (fun _ _ => True) m :=
  treeWp_get_bind fun _ => treeWp_copyTree_over _ hc hbeside

end Overlay

end Filespace.Storage

namespace Filespace.Request

open Storage

variable {φ : Type} [FileStore φ] [Backed φ] {m : Memory} {source target : Path}

/-- Copying an entry to a free path in a directory, not below itself. -/
theorem treeWp_copy (hc : m.Closed) {dir : Path} (ht : target.parent? = some dir)
    (hd : m.node? dir = some .directory) (hfree : m.node? target = none) (hbeside : source.Beside target) :
    treeWp (execute (φ := φ) (.copy source target))
      (fun _ m' => Memory.ChangedUnder target m m' ∧ ∀ r, m'.content? (target.join r) = m.content? (source.join r))
      (fun e m' => Memory.ChangedUnder target m m' ∧
        BusyOnly φ (∃ q, q.under source = true ∧ m.isLocked q = true) e) m := by
  obtain ⟨k, hk⟩ := Path.parent?_eq_some_iff.1 ht
  have hframe : treeWp (FileStore.copy (φ := φ) source target) _ _ m :=
    treeWp_get_bind fun _ => treeWp_copyTree _ hc hk hd hfree hbeside
  refine treeWp_bind ((hframe.and (treeWp_copy_over hc hbeside)).mono ?_ fun _ _ he => he.1)
  rintro - m' ⟨hframe, hlaid⟩
  refine treeWp_pure ⟨hframe, fun r => ?_⟩
  have hnone : m.content? (target.join r) = none := by
    simp [Memory.content?, hc.nothing_under hfree (Path.under_join target r)]
  rw [hlaid.laid, hnone, none_overlay]

end Filespace.Request
