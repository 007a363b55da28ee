import Filespace.Proofs.HostFiles
import Filespace.Proofs.RootedCalls

/-!
# Hosts that agree inside a directory

A store keeps its entries in a host directory that holds no links. An `Enclosure` says where that directory is and which
files of the host are the store's own. As long as it `Holds`, the rest of the host is as it was, and the store finds its
directory.

Two such hosts are `Mirrored` if they have the same entries in the directory. Files can have other numbers on the second
host, and outside the directory anything can be different. Calls at the store's locations then give the same on both
hosts, and change only what is inside.
-/

namespace Filespace

open Storage Host Path

variable {α : Type} {r : Rooted} {R p q : Path} {n : Name} {h h' : Host} {k : Nat}

theorem Path.below_of_under_join (hp : p ≠ .root) (hq : q.under (R.join p) = true) : q.below R = true := by
  have hu : q.under R = true := under_trans hq (under_join R p)
  have hne : q ≠ R := by
    rintro rfl
    have hself : q.join p = q := under_antisymm (under_join q p) hq
    exact hp (join_eq_self_iff.1 hself)
  simp [below, hu, hne]

theorem Path.join_join (p q t : Path) : (p.join q).join t = p.join (q.join t) := ext (by simp)

theorem Host.hasChildren_eq_true_iff (h : Host) (p : Path) :
    h.hasChildren p = true ↔ ∃ q, q.below p = true ∧ h.node? q ≠ none := by
  have hroot : ∀ q : Path, q.below p = true → q ≠ .root := by
    rintro q hq rfl
    obtain ⟨hu, hne⟩ := Bool.and_eq_true_iff.1 hq
    exact absurd (root_under_iff.1 hu).symm (by simpa using hne)
  unfold Host.hasChildren
  rw [List.any_eq_true]
  refine exists_congr fun q => ?_
  rw [Table.mem_keys, and_comm]
  refine and_congr_right fun hq => ?_
  rw [node?_of_ne_root h (hroot q hq), Option.ne_none_iff_exists']

/-- The entries of a directory are the rows under it. -/
theorem Host.children_eq (h : Host) (p : Path) : h.children p =
    (h.nodes.filter fun q _ => decide (q.parent? = some p)).rows.filterMap fun (q, x) => q.name?.map (·, x) := by
  show _ = (h.nodes.rows.filter fun x => decide (x.1.parent? = some p)).filterMap _
  unfold Host.children
  rw [List.filterMap_filter]
  simp

/-! ### A store's directory -/

/-- A host directory `R` in which the store `r` keeps its entries. -/
structure Enclosure (r : Rooted) (R : Path) where
  /-- The host at the beginning. -/
  first : Host
  /-- The numbers of files that belong to the store: those in the directory, and all that will be made. -/
  own : Nat → Prop
  /-- It is a directory. -/
  directory : first.node? R = some .directory
  /-- The store's location leads there, whatever is inside. -/
  leads : ∀ g : Host, g.workingDirectory = first.workingDirectory →
    (∀ q, q.below R = false → g.node? q = first.node? q) → ∃ k, r.reach g .root = .ok (R, k)
  /-- No file outside is the store's. -/
  apart : ∀ q d, q.below R = false → first.node? q = some (.file d) → ¬ own d.serial

namespace Enclosure

variable {E : Enclosure r R}

/-- The store has changed nothing outside its directory, and there are no links inside. -/
structure Holds (E : Enclosure r R) (h : Host) : Prop where
  frozen : ∀ q, q.below R = false → h.node? q = E.first.node? q
  start : h.workingDirectory = E.first.workingDirectory
  closed : h.Closed
  linkless : ∀ p t, h.node? (R.join p) ≠ some (.link t)
  numbered : h.Numbered
  inside : ∀ p d, h.node? (R.join p) = some (.file d) → E.own d.serial
  fresh : ∀ i, E.own (h.nextSerial + i)

theorem Holds.reach_root (hE : E.Holds h) : ∃ k, r.reach h .root = .ok (R, k) := E.leads h hE.start hE.frozen

theorem Holds.atTime (hE : E.Holds h) (time : Nat) : E.Holds { h with clock := time } :=
  ⟨hE.frozen, hE.start, hE.closed, hE.linkless, ⟨hE.numbered.one, hE.numbered.used⟩, hE.inside, hE.fresh⟩

/-- A change inside, by which no link comes in and only the store's files do. -/
theorem Holds.change (hE : E.Holds h) (hout : ∀ q, q.below R = false → h'.node? q = h.node? q)
    (hstart : h'.workingDirectory = h.workingDirectory) (hclosed : h'.Closed) (hnumbered : h'.Numbered)
    (hin : ∀ p x, h'.node? (R.join p) = some x → x = .directory ∨ (∃ p, h.node? (R.join p) = some x) ∨
      ∃ d, x = .file d ∧ E.own d.serial)
    (hnext : ∃ i, h'.nextSerial = h.nextSerial + i) : E.Holds h' where
  frozen q hq := (hout q hq).trans (hE.frozen q hq)
  start := hstart.trans hE.start
  closed := hclosed
  linkless p t hp := by
    obtain hx | ⟨p', hp'⟩ | ⟨d, hx, -⟩ := hin p _ hp
    · cases hx
    · exact hE.linkless p' t hp'
    · cases hx
  numbered := hnumbered
  inside p d hp := by
    obtain hx | ⟨p', hp'⟩ | ⟨d', hx, hown⟩ := hin p _ hp
    · cases hx
    · exact hE.inside p' d hp'
    · cases hx
      exact hown
  fresh i := by
    obtain ⟨j, hj⟩ := hnext
    rw [hj, Nat.add_assoc]
    exact hE.fresh (j + i)

/-- Places inside are not at the root of the host. -/
theorem join_child_ne_root : R.join (p.child n) ≠ .root := by
  rw [join_child]
  exact child_ne_root

theorem join_ne_root (hp : p ≠ .root) : R.join p ≠ .root := by
  obtain rfl | ⟨p, n, rfl⟩ := eq_root_or_child p
  · exact absurd rfl hp
  · exact join_child_ne_root

theorem get?_of_free (hfree : h.node? (R.join (p.child n)) = none) : h.nodes.get? (R.join (p.child n)) = none := by
  rw [← node?_of_ne_root h join_child_ne_root, hfree]

theorem get?_of_free_below (hc : h.Closed) (hfree : h.node? (R.join (p.child n)) = none) (t : Path) :
    h.nodes.get? ((R.join (p.child n)).join t) = none := by
  have hroot : (R.join (p.child n)).join t ≠ .root := fun ht =>
    join_child_ne_root (root_under_iff.1 (ht ▸ under_join (R.join (p.child n)) t))
  rw [← node?_of_ne_root h hroot, hc.free_below hfree]

/-- A place that was not frozen. -/
theorem ne_of_frozen (hp : p ≠ .root) (hq : q.below R = false) : q.under (R.join p) = false :=
  Bool.eq_false_iff.2 fun hu => Bool.false_ne_true (hq.symm.trans (below_of_under_join hp hu))

theorem ne_join_of_frozen (hp : p ≠ .root) (hq : q.below R = false) : q ≠ R.join p := by
  rintro rfl
  exact Bool.false_ne_true ((ne_of_frozen hp hq).symm.trans (under_refl _))

theorem Holds.placed (hE : E.Holds h) (hdir : h.node? (R.join p) = some .directory)
    (hfree : h.node? (R.join (p.child n)) = none) : E.Holds (h.placed (R.join (p.child n)) .directory) := by
  have hnode := fun q => node?_placed (h := h) (x := .directory) (join_child_ne_root (R := R) (p := p) (n := n)) q
  refine hE.change (fun q hq => ?_) rfl ?_ ?_ (fun q x hx => ?_) ⟨0, rfl⟩
  · rw [hnode, if_neg (ne_join_of_frozen child_ne_root hq)]
  · rw [join_child] at hfree ⊢
    exact hE.closed.placed hdir hfree
  · refine hE.numbered.congr (fun d => ?_) rfl
    rw [has_placed (get?_of_free hfree)]
    simp
  · rw [hnode] at hx
    split at hx
    · exact Or.inl (Option.some.inj hx).symm
    · exact Or.inr (Or.inl ⟨q, hx⟩)

theorem Holds.created (hE : E.Holds h) (hdir : h.node? (R.join p) = some .directory)
    (hfree : h.node? (R.join (p.child n)) = none) : E.Holds (h.created (R.join (p.child n))) := by
  have hnode : ∀ q, (h.created (R.join (p.child n))).node? q = if q = R.join (p.child n) then
      some (.file ⟨h.nextSerial, {}, h.clock⟩) else h.node? q := node?_placed join_child_ne_root
  refine hE.change (fun q hq => ?_) rfl ?_ (hE.numbered.created (get?_of_free hfree)) (fun q x hx => ?_) ⟨1, rfl⟩
  · rw [hnode, if_neg (ne_join_of_frozen child_ne_root hq)]
  · rw [join_child] at hfree ⊢
    exact hE.closed.placed hdir hfree
  · rw [hnode] at hx
    split at hx
    · cases hx
      exact Or.inr (Or.inr ⟨_, rfl, hE.fresh 0⟩)
    · exact Or.inr (Or.inl ⟨q, hx⟩)

theorem Holds.detached (hE : E.Holds h) (hp : p ≠ .root) : E.Holds (h.detached (R.join p)) := by
  refine hE.change (fun q hq => ?_) rfl (hE.closed.detached (join_ne_root hp)) ?_ (fun q x hx => ?_) ⟨0, rfl⟩
  · rw [node?_detached (join_ne_root hp), ne_of_frozen hp hq]
    rfl
  · exact hE.numbered.congr (fun _ => has_detached) rfl
  · rw [node?_detached (join_ne_root hp)] at hx
    split at hx
    · cases hx
    · exact Or.inr (Or.inl ⟨q, hx⟩)

theorem Holds.relocated (hE : E.Holds h) (hp : p ≠ .root) (hunder : (q.child n).under p = false)
    (hdir : h.node? (R.join q) = some .directory) (hfree : h.node? (R.join (q.child n)) = none) :
    E.Holds (h.relocated (R.join p) (R.join (q.child n))) := by
  have hbelow : ∀ t, h.node? ((R.join (q.child n)).join t) = none := hE.closed.free_below hfree
  have hnode := node?_relocated (join_ne_root (R := R) hp) (join_child_ne_root) hbelow
  refine hE.change (fun q' hq' => ?_) rfl ?_ ?_ (fun q' x hx => ?_) ⟨0, rfl⟩
  · have hrel : q'.relativeTo? (R.join (q.child n)) = none :=
      relativeTo?_eq_none_iff.2 (ne_of_frozen child_ne_root hq')
    rw [hnode, hrel]
    exact if_neg (by simp [ne_of_frozen hp hq'])
  · rw [join_child] at hfree ⊢
    refine hE.closed.relocated (join_ne_root hp) ?_ hfree hdir
    rw [← join_child, join_under_join, hunder]
  · refine hE.numbered.congr (fun _ => has_relocated fun t => ?_) rfl
    exact get?_of_free_below hE.closed hfree t
  · rw [hnode] at hx
    cases hrel : (R.join q').relativeTo? (R.join (q.child n)) with
    | some t =>
      rw [hrel] at hx
      exact Or.inr (Or.inl ⟨p.join t, join_join R p t ▸ hx⟩)
    | none =>
      rw [hrel] at hx
      dsimp only at hx
      split at hx
      · cases hx
      · exact Or.inr (Or.inl ⟨q', hx⟩)

theorem Holds.updated (hE : E.Holds h) (hk : E.own k) (f : Sparse → Sparse) : E.Holds (h.updated k f) := by
  refine hE.change (fun q hq => ?_) rfl (hE.closed.updated k f) (hE.numbered.updated k f) (fun q x hx => ?_) ⟨0, rfl⟩
  · rw [node?_updated]
    have hkept : ∀ x, h.node? q = some x → x.changed h.clock k f = x := by
      intro x hx
      cases x with
      | file d =>
        have hne : d.serial ≠ k := fun hd => E.apart q d hq ((hE.frozen q hq).symm.trans hx) (hd ▸ hk)
        simp [Node.changed, FileData.changed, hne]
      | directory | link => rfl
    cases hx : h.node? q with
    | none => rfl
    | some x => exact congrArg some (hkept x hx)
  · rw [node?_updated, Option.map_eq_some_iff] at hx
    obtain ⟨y, hy, rfl⟩ := hx
    cases y with
    | directory => exact Or.inl rfl
    | link t => exact absurd hy (hE.linkless q t)
    | file d => exact Or.inr (Or.inr ⟨_, rfl, by rw [serial_changed]; exact hE.inside q d hy⟩)

end Enclosure

/-! ### Two hosts -/

/-- The file with the number that it has on another host. -/
def Host.FileData.renumbered (f : Nat → Nat) (d : FileData) : FileData := { d with serial := f d.serial }

/-- The entry as it is on a host where files have other numbers. -/
def Host.Node.renumbered (f : Nat → Nat) : Node → Node
  | .file d => .file (d.renumbered f)
  | x => x

/-- A store's directory on two hosts, and how the numbers of its files correspond. -/
structure Pairing (r : Rooted) (R : Path) where
  /-- On the first host. -/
  left : Enclosure r R
  /-- On the second host. -/
  right : Enclosure r R
  /-- The number on the second host of a file on the first. -/
  partner : Nat → Nat
  /-- Different files have different numbers. -/
  injective : ∀ j k, left.own j → left.own k → partner j = partner k → j = k
  /-- The store's files are the store's on both hosts. -/
  owned : ∀ k, left.own k → right.own (partner k)

namespace Pairing

open Enclosure

variable {P : Pairing r R}

/-- A file is changed by its number on either host. -/
theorem changed_renumbered (P : Pairing r R) {d : FileData} (hk : P.left.own k) (hd : P.left.own d.serial) (clock : Nat)
    (f : Sparse → Sparse) :
    (d.renumbered P.partner).changed clock (P.partner k) f = (d.changed clock k f).renumbered P.partner := by
  by_cases hself : d.serial = k
  · simp [FileData.changed, FileData.renumbered, hself]
  · have hne : P.partner d.serial ≠ P.partner k := fun he => hself (P.injective _ _ hd hk he)
    simp [FileData.changed, FileData.renumbered, hself, hne]

/-- The hosts have the same entries inside and know the same files, up to their numbers. -/
structure Mirrored (P : Pairing r R) (h h' : Host) : Prop where
  left : P.left.Holds h
  right : P.right.Holds h'
  clock : h'.clock = h.clock
  entries : ∀ p, h'.node? (R.join p) = (h.node? (R.join p)).map (Node.renumbered P.partner)
  files : ∀ k, P.left.own k → h'.fileData? (P.partner k) = (h.fileData? k).map (FileData.renumbered P.partner)
  next : ∀ i, P.partner (h.nextSerial + i) = h'.nextSerial + i

namespace Mirrored

variable (hm : P.Mirrored h h')

include hm

theorem atTime (time : Nat) : P.Mirrored { h with clock := time } { h' with clock := time } where
  left := hm.left.atTime time
  right := hm.right.atTime time
  clock := rfl
  entries := hm.entries
  files := hm.files
  next := hm.next

theorem free (hfree : h.node? (R.join p) = none) : h'.node? (R.join p) = none := by
  rw [hm.entries, hfree]
  rfl

theorem directory_iff : h'.node? (R.join p) = some .directory ↔ h.node? (R.join p) = some .directory := by
  rw [hm.entries]
  rcases h.node? (R.join p) with _ | (_ | _ | _) <;> simp [Node.renumbered]

theorem directory (hdir : h.node? (R.join p) = some .directory) : h'.node? (R.join p) = some .directory :=
  hm.directory_iff.2 hdir

/-- Files that are known on both hosts as before. -/
theorem files_of_has {g g' : Host} (hhas : ∀ d, g.Has d ↔ h.Has d) (hnext : g.nextSerial = h.nextSerial)
    (hhas' : ∀ d, g'.Has d ↔ h'.Has d) (hnext' : g'.nextSerial = h'.nextSerial) (k : Nat) (hk : P.left.own k) :
    g'.fileData? (P.partner k) = (g.fileData? k).map (FileData.renumbered P.partner) := by
  rw [fileData?_congr hm.left.numbered hhas hnext, fileData?_congr hm.right.numbered hhas' hnext', hm.files k hk]

theorem placed (hdir : h.node? (R.join p) = some .directory) (hfree : h.node? (R.join (p.child n)) = none) :
    P.Mirrored (h.placed (R.join (p.child n)) .directory) (h'.placed (R.join (p.child n)) .directory) where
  left := hm.left.placed hdir hfree
  right := hm.right.placed (hm.directory hdir) (hm.free hfree)
  clock := hm.clock
  entries q := by
    rw [node?_placed join_child_ne_root, node?_placed join_child_ne_root, hm.entries]
    split <;> rfl
  files := by
    refine hm.files_of_has (fun d => ?_) rfl (fun d => ?_) rfl
    · rw [has_placed (get?_of_free hfree)]
      simp
    · rw [has_placed (get?_of_free (hm.free hfree))]
      simp
  next := hm.next

theorem created (hdir : h.node? (R.join p) = some .directory) (hfree : h.node? (R.join (p.child n)) = none) :
    P.Mirrored (h.created (R.join (p.child n))) (h'.created (R.join (p.child n))) where
  left := hm.left.created hdir hfree
  right := hm.right.created (hm.directory hdir) (hm.free hfree)
  clock := hm.clock
  entries q := by
    have hnode : ∀ g : Host, ∀ q, (g.created (R.join (p.child n))).node? q = if q = R.join (p.child n) then
        some (.file ⟨g.nextSerial, {}, g.clock⟩) else g.node? q := fun _ => node?_placed join_child_ne_root
    rw [hnode, hnode, hm.entries]
    split
    · have hnext : P.partner h.nextSerial = h'.nextSerial := hm.next 0
      simp [Node.renumbered, FileData.renumbered, hnext, hm.clock]
    · rfl
  files k hk := by
    have hnext : P.partner h.nextSerial = h'.nextSerial := hm.next 0
    rw [fileData?_created hm.left.numbered (get?_of_free hfree),
      fileData?_created hm.right.numbered (get?_of_free (hm.free hfree)), hm.files k hk]
    by_cases hself : k = h.nextSerial
    · subst hself
      simp [FileData.renumbered, hnext, hm.clock]
    · have hne : P.partner k ≠ h'.nextSerial := fun he =>
        hself (P.injective _ _ hk (hm.left.fresh 0) (he.trans hnext.symm))
      rw [if_neg hself, if_neg hne]
  next i := by
    show P.partner (h.nextSerial + 1 + i) = h'.nextSerial + 1 + i
    rw [Nat.add_assoc, Nat.add_assoc, hm.next]

theorem detached (hp : p ≠ .root) : P.Mirrored (h.detached (R.join p)) (h'.detached (R.join p)) where
  left := hm.left.detached hp
  right := hm.right.detached hp
  clock := hm.clock
  entries q := by
    rw [node?_detached (join_ne_root hp), node?_detached (join_ne_root hp), hm.entries]
    split <;> rfl
  files := hm.files_of_has (fun _ => has_detached) rfl (fun _ => has_detached) rfl
  next := hm.next

theorem relocated (hp : p ≠ .root) (hunder : (q.child n).under p = false)
    (hdir : h.node? (R.join q) = some .directory) (hfree : h.node? (R.join (q.child n)) = none) :
    P.Mirrored (h.relocated (R.join p) (R.join (q.child n))) (h'.relocated (R.join p) (R.join (q.child n))) where
  left := hm.left.relocated hp hunder hdir hfree
  right := hm.right.relocated hp hunder (hm.directory hdir) (hm.free hfree)
  clock := hm.clock
  entries q' := by
    rw [node?_relocated (join_ne_root hp) join_child_ne_root (hm.left.closed.free_below hfree),
      node?_relocated (join_ne_root hp) join_child_ne_root (hm.right.closed.free_below (hm.free hfree))]
    cases (R.join q').relativeTo? (R.join (q.child n)) with
    | some t =>
      dsimp only
      rw [join_join, hm.entries]
    | none =>
      dsimp only
      rw [hm.entries]
      split <;> rfl
  files := hm.files_of_has (fun _ => has_relocated (get?_of_free_below hm.left.closed hfree)) rfl
    (fun _ => has_relocated (get?_of_free_below hm.right.closed (hm.free hfree))) rfl
  next := hm.next

theorem updated (hk : P.left.own k) (f : Sparse → Sparse) : P.Mirrored (h.updated k f) (h'.updated (P.partner k) f) where
  left := hm.left.updated hk f
  right := hm.right.updated (P.owned k hk) f
  clock := hm.clock
  entries q := by
    rw [node?_updated, node?_updated, hm.entries, hm.clock]
    cases hx : h.node? (R.join q) with
    | none => rfl
    | some x =>
      cases x with
      | directory | link => rfl
      | file d => exact congrArg (fun d => some (Node.file d)) (P.changed_renumbered hk (hm.left.inside q d hx) h.clock f)
  files j hj := by
    rw [fileData?_updated hm.left.numbered, fileData?_updated hm.right.numbered, hm.files j hj, hm.clock]
    cases hd : h.fileData? j with
    | none => rfl
    | some d =>
      have hserial : d.serial = j := ((fileData?_eq_some_iff hm.left.numbered).1 hd).2
      exact congrArg some (P.changed_renumbered hk (hserial ▸ hj) h.clock f)
  next := hm.next

/-! ### Ways inside -/

/-- Both hosts are gone through alike. -/
theorem reach (p : Path) : (∃ k k', r.reach h p = .ok (R.join p, k) ∧ r.reach h' p = .ok (R.join p, k')) ∨
    ∃ e, r.reach h p = .error e ∧ r.reach h' p = .error e := by
  induction p using induction_child with
  | base =>
    obtain ⟨k, hk⟩ := hm.left.reach_root
    obtain ⟨k', hk'⟩ := hm.right.reach_root
    exact Or.inl ⟨k, k', by rw [hk, join_root], by rw [hk', join_root]⟩
  | step p n ih =>
    rw [Rooted.reach_child, Rooted.reach_child]
    obtain ⟨k, k', hk, hk'⟩ | ⟨e, he, he'⟩ := ih
    · have hplain : ∀ t, h.node? ((R.join p).child n) ≠ some (.link t) :=
        fun t => join_child R p n ▸ hm.left.linkless (p.child n) t
      have hplain' : ∀ t, h'.node? ((R.join p).child n) ≠ some (.link t) :=
        fun t => join_child R p n ▸ hm.right.linkless (p.child n) t
      rw [hk, hk']
      dsimp only
      rw [reach_plain hplain, reach_plain hplain', ← join_child, hm.entries]
      cases isLong n with
      | true => exact Or.inr ⟨_, rfl, rfl⟩
      | false =>
        rcases h.node? (R.join (p.child n)) with _ | (_ | _ | _)
        · exact Or.inr ⟨_, rfl, rfl⟩
        · exact Or.inl ⟨k, k', rfl, rfl⟩
        · exact Or.inr ⟨_, rfl, rfl⟩
        · exact Or.inr ⟨_, rfl, rfl⟩
    · rw [he, he']
      exact Or.inr ⟨e, rfl, rfl⟩

theorem spot (p : Path) (n : Name) :
    (∃ k k', r.spot h p n = .ok (R.join p, k) ∧ r.spot h' p n = .ok (R.join p, k')) ∨
      ∃ e, r.spot h p n = .error e ∧ r.spot h' p n = .error e := by
  unfold Rooted.spot
  rcases checkLocation (r.location (p.child n)) with e | u
  · exact Or.inr ⟨e, rfl, rfl⟩
  · obtain ⟨k, k', hk, hk'⟩ | ⟨e, he, he'⟩ := hm.reach p
    · rw [hk, hk']
      cases isLong n with
      | true => exact Or.inr ⟨_, rfl, rfl⟩
      | false => exact Or.inl ⟨k, k', rfl, rfl⟩
    · rw [he, he']
      exact Or.inr ⟨_, rfl, rfl⟩

theorem plain (p : Path) (n : Name) : r.Plain h p n ∧ r.Plain h' p n := by
  have hjoin := join_child R p n
  constructor
  · intro dir k t hreach
    obtain ⟨_, _, hk, -⟩ | ⟨e, he, -⟩ := hm.reach p
    · obtain ⟨rfl, -⟩ := Prod.mk.inj (Except.ok.inj (hk.symm.trans hreach))
      exact hjoin ▸ hm.left.linkless (p.child n) t
    · rw [he] at hreach
      cases hreach
  · intro dir k t hreach
    obtain ⟨_, _, -, hk⟩ | ⟨e, -, he⟩ := hm.reach p
    · obtain ⟨rfl, -⟩ := Prod.mk.inj (Except.ok.inj (hk.symm.trans hreach))
      exact hjoin ▸ hm.right.linkless (p.child n) t
    · rw [he] at hreach
      cases hreach

theorem hasChildren (p : Path) : h'.hasChildren (R.join p) = h.hasChildren (R.join p) := by
  have hinside : ∀ q, q.below (R.join p) = true → (h'.node? q ≠ none ↔ h.node? q ≠ none) := by
    intro q hq
    obtain ⟨t, rfl⟩ := under_iff_exists_join.1 (Bool.and_eq_true_iff.1 hq).1
    rw [join_join, hm.entries]
    cases h.node? (R.join (p.join t)) <;> simp
  rw [Bool.eq_iff_iff, hasChildren_eq_true_iff, hasChildren_eq_true_iff]
  exact exists_congr fun q => and_congr_right (hinside q)

theorem children (p : Path) :
    h'.children (R.join p) = (h.children (R.join p)).map fun (n, x) => (n, x.renumbered P.partner) := by
  have htable : (h'.nodes.filter fun q _ => decide (q.parent? = some (R.join p))) =
      (h.nodes.filter fun q _ => decide (q.parent? = some (R.join p))).map fun _ => Node.renumbered P.partner := by
    refine Table.ext_get? fun q => ?_
    by_cases hq : q.parent? = some (R.join p)
    · obtain ⟨n, rfl⟩ := parent?_eq_some_iff.1 hq
      have hentry := hm.entries (p.child n)
      rw [join_child, node?_of_ne_root _ child_ne_root, node?_of_ne_root _ child_ne_root] at hentry
      rw [Table.get?_map, Table.get?_filter_of_true (by simp [hq]), Table.get?_filter_of_true (by simp [hq]), hentry]
    · rw [Table.get?_map, Table.get?_filter_of_false (by simp [hq]), Table.get?_filter_of_false (by simp [hq])]
      rfl
  rw [children_eq, children_eq, htable, List.map_filterMap]
  show (List.map _ _).filterMap _ = _
  rw [List.filterMap_map]
  simp only [Function.comp, Option.map_map]
  rfl

end Mirrored

/-! ### Calls -/

section Calls

variable {β : Type} {Q : α → β → Prop}

/-- What is done at a name inside is done alike, if it is for the entry that both hosts have there. -/
theorem parallel_atSpot {f : Path → Option Node → StoreM Host α} {g : Path → Option Node → StoreM Host β}
    (hfg : ∀ h h', P.Mirrored h h' → Agree (f (R.join p) (h.node? (R.join (p.child n))))
      (g (R.join p) ((h.node? (R.join (p.child n))).map (Node.renumbered P.partner)))
      (fun a b s t => Q a b ∧ P.Mirrored s t) P.Mirrored h h') :
    Parallel P.Mirrored Q (r.atSpot p n f) (r.atSpot p n g) := by
  intro h h' hm
  have hjoin := join_child R p n
  unfold Agree
  obtain ⟨k, k', hk, hk'⟩ | ⟨e, he, he'⟩ := hm.spot p n
  · rw [Rooted.atSpot_of_ok hk, Rooted.atSpot_of_ok hk', ← hjoin, hm.entries]
    exact hfg h h' hm
  · rw [Rooted.atSpot_of_error he, Rooted.atSpot_of_error he']
    exact ⟨rfl, hm⟩

/-- Calls that are equal where the hosts are mirrored. -/
theorem parallel_congr {x x' : StoreM Host α} {y y' : StoreM Host β}
    (hxy : ∀ h h', P.Mirrored h h' → x h = x' h ∧ y h' = y' h') (hpar : Parallel P.Mirrored Q x' y') :
    Parallel P.Mirrored Q x y := by
  intro h h' hm
  have hagree := hpar h h' hm
  unfold Agree at hagree ⊢
  rw [(hxy h h' hm).1, (hxy h h' hm).2]
  exact hagree

variable (p n)

/-- A look at an entry. -/
theorem parallel_lstat : Parallel P.Mirrored (fun a b => b = a.renumbered P.partner)
    (lstat (r.location (p.child n))) (lstat (r.location (p.child n))) := by
  have hlstat : ∀ h, lstat (r.location (p.child n)) h = r.atSpot p n (fun _ x => x.elim (fail .noEntry) pure) h := by
    intro h
    rw [Rooted.lstat_location]
    unfold Rooted.atSpot
    rcases r.spot h p n with e | ⟨dir, k⟩
    · rfl
    · simp only [Except.bind]
      cases h.node? (dir.child n) <;> rfl
  refine parallel_congr (fun h h' _ => ⟨hlstat h, hlstat h'⟩) (parallel_atSpot fun h h' hm => ?_)
  cases h.node? (R.join (p.child n)) with
  | none => exact .throw hm
  | some x => exact .pure ⟨rfl, hm⟩

theorem parallel_makeDirectory : Parallel P.Mirrored Eq
    (makeDirectory (r.location (p.child n))) (makeDirectory (r.location (p.child n))) := by
  rw [Rooted.makeDirectory_location]
  refine parallel_atSpot fun h h' hm => ?_
  cases hfree : h.node? (R.join (p.child n)) with
  | some x => exact .throw hm
  | none =>
    show Agree (placeIn (R.join p) n .directory) (placeIn (R.join p) n .directory) _ _ h h'
    unfold Agree
    rw [placeIn_run, placeIn_run, ← join_child]
    by_cases hdir : h.node? (R.join p) = some .directory
    · rw [if_pos hdir, if_pos (hm.directory hdir)]
      exact ⟨rfl, hm.placed hdir hfree⟩
    · rw [if_neg hdir, if_neg (mt hm.directory_iff.1 hdir)]
      exact ⟨rfl, hm⟩

/-- An entry is taken out of the tree on both hosts. -/
theorem agree_detach (hm : P.Mirrored h h') : Agree (detach ((R.join p).child n))
    (detach ((R.join p).child n)) (fun a b s t => a = b ∧ P.Mirrored s t) P.Mirrored h h' := by
  rw [← join_child]
  exact .modify ⟨rfl, hm.detached child_ne_root⟩

theorem parallel_unlink : Parallel P.Mirrored Eq
    (unlink (r.location (p.child n))) (unlink (r.location (p.child n))) := by
  rw [Rooted.unlink_location]
  refine parallel_atSpot fun h h' hm => ?_
  rcases h.node? (R.join (p.child n)) with _ | (_ | _ | t)
  · exact .throw hm
  · exact .throw hm
  · exact agree_detach p n hm
  · exact agree_detach p n hm

theorem parallel_removeDirectory : Parallel P.Mirrored Eq
    (removeDirectory (r.location (p.child n))) (removeDirectory (r.location (p.child n))) := by
  rw [Rooted.removeDirectory_location]
  refine parallel_atSpot fun h h' hm => ?_
  rcases h.node? (R.join (p.child n)) with _ | (_ | _ | t)
  · exact .throw hm
  · refine Agree.get_bind ?_
    rw [← join_child, hm.hasChildren, join_child]
    exact .ite (fun _ => .throw hm) fun _ => agree_detach p n hm
  · exact .throw hm
  · exact .throw hm

theorem parallel_removeTree : Parallel P.Mirrored Eq
    (removeTree (r.location (p.child n))) (removeTree (r.location (p.child n))) := by
  refine parallel_congr (fun h h' hm => ⟨Rooted.removeTree_plain (hm.plain p n).1, Rooted.removeTree_plain (hm.plain p n).2⟩) ?_
  refine parallel_atSpot fun h h' hm => ?_
  cases h.node? (R.join (p.child n)) with
  | none => exact .throw hm
  | some x => exact agree_detach p n hm

/-- A file is opened, or made and opened. -/
theorem parallel_openFile (create : Bool) : Parallel P.Mirrored (fun a b => b = P.partner a ∧ P.left.own a)
      (openFile (r.location (p.child n)) create) (openFile (r.location (p.child n)) create) := by
  refine parallel_congr (fun h h' hm => ⟨Rooted.openFile_plain (hm.plain p n).1 create,
    Rooted.openFile_plain (hm.plain p n).2 create⟩) (parallel_atSpot fun h h' hm => ?_)
  cases hnode : h.node? (R.join (p.child n)) with
  | some x =>
    cases x with
    | directory => exact .throw hm
    | file d => exact .pure ⟨⟨rfl, hm.left.inside _ d hnode⟩, hm⟩
    | link t => exact .throw hm
  | none =>
    refine .ite (fun _ => ?_) fun _ => .throw hm
    unfold Agree
    rw [createFile_run, createFile_run, ← join_child]
    by_cases hdir : h.node? (R.join p) = some .directory
    · rw [if_pos hdir, if_pos (hm.directory hdir)]
      exact ⟨⟨(hm.next 0).symm, hm.left.fresh 0⟩, hm.created hdir hnode⟩
    · rw [if_neg hdir, if_neg (mt hm.directory_iff.1 hdir)]
      exact ⟨rfl, hm⟩

/-- A directory is listed, the store's own or one inside. -/
theorem parallel_readDirectory : Parallel P.Mirrored (fun a b => b = a.map fun (n, x) => (n, x.renumbered P.partner))
      (readDirectory (r.location p)) (readDirectory (r.location p)) := by
  obtain rfl | ⟨p, n, rfl⟩ := eq_root_or_child p
  · intro h h' hm
    have hresolve : ∀ g, (∃ k, r.reach g .root = .ok (R, k)) → g.resolve r.root .follow =
        (checkLocation r.root).bind fun _ => .ok (.found R .directory) := by
      rintro g ⟨k, hk⟩
      have hreach : g.reach maxLinks (g.startOf r.root) (Route.of r.root).moves = .ok (R, k) := by
        unfold Rooted.reach at hk
        simpa using hk
      have hwalk := walk_of_reach hreach (Route.of r.root).slash
      rw [resolve_eq, hwalk]
      cases checkLocation r.root <;> rfl
    unfold Agree
    rw [Rooted.location_root, readDirectory_run, readDirectory_run, hresolve h hm.left.reach_root,
      hresolve h' hm.right.reach_root]
    cases checkLocation r.root with
    | error e => exact ⟨rfl, hm⟩
    | ok => exact ⟨by simpa using hm.children .root, hm⟩
  · refine parallel_congr (fun h h' hm => ⟨Rooted.readDirectory_plain (hm.plain p n).1,
      Rooted.readDirectory_plain (hm.plain p n).2⟩) (parallel_atSpot fun h h' hm => ?_)
    rcases h.node? (R.join (p.child n)) with _ | (_ | _ | t)
    · exact .throw hm
    · rw [← join_child]
      exact ⟨hm.children (p.child n), hm⟩
    · exact .throw hm
    · exact .throw hm

variable {p n}

/-- The numbers of files do not matter to a renaming. -/
theorem replaceEntry_renumbered (f : Nat → Nat) (p q : Path) (m : Node) (x : Option Node) :
    replaceEntry p q (m.renumbered f) (x.map (Node.renumbered f)) = replaceEntry p q m x := by
  cases m <;> rcases x with _ | (_ | _ | _) <;> rfl

/-- An entry is moved to a free place on both hosts, or to one that is made free. -/
theorem agree_replaceEntry (hm : P.Mirrored h h') (hp : p ≠ .root) {m : Node} (hentry : h.node? (R.join p) = some m)
    (hdir : h.node? (R.join q) = some .directory) :
    Agree (replaceEntry (R.join p) (R.join (q.child n)) m (h.node? (R.join (q.child n))))
      (replaceEntry (R.join p) (R.join (q.child n)) (m.renumbered P.partner) (h'.node? (R.join (q.child n))))
      (fun a b s t => a = b ∧ P.Mirrored s t) P.Mirrored h h' := by
  rw [hm.entries, replaceEntry_renumbered]
  obtain ⟨e, -, hrun⟩ | hrun | ⟨hfree, hunder, hrun⟩ | ⟨hunder, hrun⟩ := replaceEntry_cases (R.join p)
    (R.join (q.child n)) m (h.node? (R.join (q.child n))) (h.hasChildren (R.join (q.child n)))
  · exact (agree_of_error (hrun h rfl) (hrun h' (hm.hasChildren _))).2 hm
  · exact (agree_of_ok (hrun h rfl) (hrun h' (hm.hasChildren _))).2 ⟨rfl, hm⟩
  · have hne : R.join (q.child n) ≠ R.join p := fun hself => by
      rw [hself, hentry] at hfree
      cases hfree
    have hunder := hunder hne
    rw [join_under_join] at hunder
    exact (agree_of_ok (hrun h) (hrun h')).2 ⟨rfl, hm.relocated hp hunder hdir hfree⟩
  · rw [join_under_join] at hunder
    refine (agree_of_ok (hrun h rfl) (hrun h' (hm.hasChildren _))).2
      ⟨rfl, (hm.detached child_ne_root).relocated hp hunder ?_ ?_⟩
    · rw [node?_detached join_child_ne_root, if_neg (by simp [not_child_under]), hdir]
    · rw [node?_detached join_child_ne_root, if_pos (under_refl _)]

/-- The way to the place of an entry. -/
theorem agree_locatePlace (hm : P.Mirrored h h') (p : Path) (n : Name) :
    Agree (locatePlace (r.location (p.child n))) (locatePlace (r.location (p.child n)))
      (fun a b s t => (a = ⟨R.join p, some (.down n), false⟩ ∧ b = a) ∧ s = h ∧ t = h') P.Mirrored h h' := by
  have hrun : ∀ g, locatePlace (r.location (p.child n)) g = (g.placeOf (r.location (p.child n)), g) := fun _ => rfl
  unfold Agree
  rw [hrun, hrun, Rooted.placeOf_location, Rooted.placeOf_location]
  rcases checkLocation (r.location (p.child n)) with e | u
  · exact ⟨rfl, hm⟩
  · obtain ⟨k, k', hk, hk'⟩ | ⟨e, he, he'⟩ := hm.reach p
    · rw [hk, hk']
      exact ⟨⟨rfl, rfl⟩, rfl, rfl⟩
    · rw [he, he']
      exact ⟨rfl, hm⟩

/-- The entry of a name inside. -/
theorem agree_entryIn (hm : P.Mirrored h h') (p : Path) (n : Name) :
    Agree (entryIn? (R.join p) n) (entryIn? (R.join p) n)
      (fun a b s t => (a = h.node? (R.join (p.child n)) ∧ b = h'.node? (R.join (p.child n))) ∧ s = h ∧ t = h')
      P.Mirrored h h' := by
  unfold Agree
  rw [entryIn?_run, entryIn?_run, ← join_child]
  cases isLong n with
  | true => exact ⟨rfl, hm⟩
  | false => exact ⟨⟨rfl, rfl⟩, rfl, rfl⟩

theorem parallel_rename (p q : Path) (m n : Name) : Parallel P.Mirrored Eq
    (rename (r.location (p.child m)) (r.location (q.child n))) (rename (r.location (p.child m)) (r.location (q.child n))) := by
  intro h h' hm
  refine .bind (agree_locatePlace hm p m) (fun _ _ hst => hst) ?_
  rintro _ _ _ _ ⟨⟨rfl, rfl⟩, rfl, rfl⟩
  refine .bind (agree_locatePlace hm q n) (fun _ _ hst => hst) ?_
  rintro _ _ _ _ ⟨⟨rfl, rfl⟩, rfl, rfl⟩
  refine .bind (agree_entryIn hm p m) (fun _ _ hst => hst) ?_
  rintro _ _ g g' ⟨⟨rfl, rfl⟩, rfl, rfl⟩
  rw [hm.entries]
  cases hentry : g.node? (R.join (p.child m)) with
  | none => exact .throw hm
  | some x =>
    refine .bind (agree_entryIn hm q n) (fun _ _ hst => hst) ?_
    rintro _ _ g g' ⟨⟨rfl, rfl⟩, rfl, rfl⟩
    rw [if_neg (by simp), if_neg (by simp)]
    refine .get_bind ?_
    by_cases hdir : g.node? (R.join q) = some .directory
    · rw [if_neg (not_not.2 hdir), if_neg (not_not.2 (hm.directory hdir)), ← join_child, ← join_child]
      exact agree_replaceEntry hm child_ne_root hentry hdir
    · rw [if_pos hdir, if_pos (mt hm.directory_iff.1 hdir)]
      exact .throw hm

/-! ### Contents -/

theorem parallel_content (hk : P.left.own k) : Parallel P.Mirrored Eq (content k) (content (P.partner k)) := by
  refine .get_bind fun h h' hm => .pure ?_
  rw [hm.files k hk]
  cases h.fileData? k <;> rfl

theorem parallel_readFrom (hk : P.left.own k) (pos length : Nat) :
    Parallel P.Mirrored Eq (readFrom k pos length) (readFrom (P.partner k) pos length) := by
  refine .bind_eq (.ite (fun _ => .throw) fun _ => .pure rfl) fun _ => .bind_eq (parallel_content hk) fun _ => .pure rfl

theorem parallel_updateFile (hk : P.left.own k) (f : Sparse → Sparse) :
    Parallel P.Mirrored Eq (updateFile k f) (updateFile (P.partner k) f) := by
  intro h h' hm
  exact ⟨rfl, hm.updated hk f⟩

theorem parallel_writeTo (hk : P.left.own k) (pos : Nat) (data : Bytes) :
    Parallel P.Mirrored Eq (writeTo k pos data) (writeTo (P.partner k) pos data) :=
  .bind_eq (.ite (fun _ => .throw) fun _ => .pure rfl) fun _ => .ite (fun _ => .pure rfl) fun _ =>
    .bind_eq (parallel_updateFile hk _) fun _ => .pure rfl

theorem parallel_setLength (hk : P.left.own k) (length : Nat) :
    Parallel P.Mirrored Eq (setLength k length) (setLength (P.partner k) length) :=
  .ite (fun _ => .throw) fun _ => parallel_updateFile hk _

end Calls

end Pairing

end Filespace
