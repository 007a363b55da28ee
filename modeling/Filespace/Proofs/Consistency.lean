import Filespace.Proofs.Steps

/-!
# One entry for each path

Links are kept beside the store, so it takes an argument that no path has both a link and a node of the store, and
that every link is in a directory of the store. `Consistent` says so of one state; `Step.consistent` says that
every step keeps it, in closed trees.

The argument rests on two facts. A path that was just resolved has no link on the way to it, so growing the tree
towards it meets none. And where nothing is, neither node nor link, there are no links below either
(`Consistent.no_link_under`), so a move or a copy to a free path meets none.
-/

namespace Filespace.Vfs

open Storage Memory Path

variable {φ μ : Type} [FileStore φ] [Backed φ]

/-- No path has both a link and a node, and every link is in a directory. -/
structure Consistent (v : Vfs φ μ) : Prop where
  /-- Where a link is, no node is. -/
  apart : ∀ p t, v.links.get? p = some t → v.memory.node? p = none
  /-- The parent of a link is a directory of the store. -/
  attached : ∀ p t, v.links.get? p = some t → HasParent v.memory p

variable {v w : Vfs φ μ} {p q source target : Path} {t : String}

/-- Only kinds and links decide whether a namespace is consistent. -/
theorem Consistent.congr (h : Consistent v) (hk : ∀ p, w.memory.kind? p = v.memory.kind? p) (hl : w.links = v.links) :
    Consistent w := by
  refine ⟨?_, ?_⟩
  · intro p t hp
    rw [hl] at hp
    rw [← kind?_eq_none_iff, hk, kind?_eq_none_iff]
    exact h.apart p t hp
  · intro p t hp
    rw [hl] at hp
    obtain ⟨dir, hdir, hd⟩ := h.attached p t hp
    refine ⟨dir, hdir, ?_⟩
    rw [← kind?_eq_directory_iff, hk, kind?_eq_directory_iff]
    exact hd

/-- Links that were there before and whose surroundings have not changed. -/
theorem Consistent.of_same (h : Consistent v) (hl : ∀ q t, w.links.get? q = some t → v.links.get? q = some t)
    (ha : ∀ q t, w.links.get? q = some t → v.memory.node? q = none → w.memory.node? q = none)
    (hd : ∀ q t dir, w.links.get? q = some t → q.parent? = some dir → v.memory.node? dir = some .directory →
      w.memory.node? dir = some .directory) : Consistent w := by
  refine ⟨?_, ?_⟩
  · intro q t hq
    exact ha q t hq (h.apart q t (hl q t hq))
  · intro q t hq
    obtain ⟨dir, hdir, hdd⟩ := h.attached q t (hl q t hq)
    exact ⟨dir, hdir, hd q t dir hq hdir hdd⟩

omit [FileStore φ] [Backed φ] in
theorem under_of_parent?_under {dir : Path} (hq : q.parent? = some dir) (hu : dir.under p = true) :
    q.under p = true := by
  obtain ⟨n, rfl⟩ := parent?_eq_some_iff.1 hq
  exact under_trans (under_child dir n) hu

/-- Links are in directories, so none is below anything else. -/
theorem Consistent.no_link_below (h : Consistent v) (hc : v.memory.Closed) (hp : v.memory.kind? p ≠ some .directory)
    (hu : q.under p = true) (hne : q ≠ p) : v.links.get? q = none := by
  cases hq : v.links.get? q with
  | none => rfl
  | some t =>
    obtain ⟨dir, hdir, hd⟩ := h.attached q t hq
    obtain ⟨n, rfl⟩ := parent?_eq_some_iff.1 hdir
    have hu := (child_under_iff.1 hu).resolve_left hne
    by_cases e : dir = p
    · rw [← e, kind?_eq_directory_iff.2 hd] at hp
      exact absurd rfl hp
    · rw [hc.nothing_below hp hu e] at hd
      cases hd

/-- Where nothing is, there are no links below. -/
theorem Consistent.no_link_under (h : Consistent v) (hc : v.memory.Closed) (hfree : v.memory.node? target = none)
    (hlink : v.links.get? target = none) (hu : q.under target = true) : v.links.get? q = none := by
  by_cases e : q = target
  · rw [e, hlink]
  · refine h.no_link_below hc ?_ hu e
    rw [kind?_eq_none_iff.2 hfree]
    simp

/-- There are no links at and below a file. -/
theorem Consistent.no_link_under_file (h : Consistent v) (hc : v.memory.Closed) {d : FileData}
    (hfile : v.memory.node? p = some (.file d)) (hu : q.under p = true) : v.links.get? q = none := by
  by_cases e : q = p
  · rw [e, Option.eq_none_iff_forall_ne_some]
    intro t ht
    rw [h.apart p t ht] at hfile
    cases hfile
  · refine h.no_link_below hc ?_ hu e
    rw [kind?_eq_file_iff.2 ⟨d, hfile⟩]
    simp

/-! ### Growing, removing, copying -/

theorem Consistent.grown (h : Consistent v) (hlinks : w.links = v.links)
    (hfree : ∀ q ∈ p.trail, v.links.get? q = none) (hg : Grown p v.memory w.memory) : Consistent w := by
  refine h.of_same (fun q t hq => hlinks ▸ hq) ?_ ?_
  · intro q t hq hnone
    by_contra hsome
    rw [hlinks, hfree q (hg.onTrail q hnone hsome)] at hq
    cases hq
  · intro q t dir _ _ hd
    rw [hg.old dir (by rw [hd]; simp), hd]

theorem Consistent.pruned (h : Consistent v) (hl : ∀ q t, w.links.get? q = some t → v.links.get? q = some t)
    (hgone : ∀ q, q.under p = true → w.links.get? q = none) (htree : w.memory = v.memory.prune p) : Consistent w := by
  refine h.of_same hl ?_ ?_
  · intro q t _ hnone
    rw [htree, node?_prune, hnone]
    split <;> rfl
  · intro q t dir hq hdir hd
    rw [htree, node?_prune, if_neg, hd]
    intro hu
    rw [hgone q (under_of_parent?_under hdir hu)] at hq
    cases hq

theorem Consistent.copied (h : Consistent v) (hc : v.memory.Closed) (hlinks : w.links = v.links)
    (hfree : v.memory.node? target = none) (hlink : v.links.get? target = none)
    (hcopy : ChangedUnder target v.memory w.memory) : Consistent w := by
  have hbeside : ∀ q t, w.links.get? q = some t → q.under target = false := by
    intro q t hq
    rw [Bool.eq_false_iff]
    intro hu
    rw [hlinks, h.no_link_under hc hfree hlink hu] at hq
    cases hq
  refine h.of_same (fun q t hq => hlinks ▸ hq) ?_ ?_
  · intro q t hq hnone
    rw [hcopy.same q (hbeside q t hq), hnone]
  · intro q t dir hq hdir hd
    rw [hcopy.same dir, hd]
    rw [Bool.eq_false_iff]
    intro hu
    have := under_of_parent?_under hdir hu
    rw [hbeside q t hq] at this
    cases this

/-! ### Moving -/

/-- A target that can take what is moved: nothing is there, or all of it is there already. -/
def Receives (v : Vfs φ μ) (source target : Path) : Prop :=
  v.memory.node? target = none ∧ v.links.get? target = none ∨
    ∀ r, v.memory.kind? (target.join r) = v.memory.kind? (source.join r)

/-- A directory at or below the target of a move is one of those that arrive there. -/
theorem Consistent.directory_below (hc : v.memory.Closed) (hfree : v.Receives source target) {r : Path}
    (hd : v.memory.node? (target.join r) = some .directory) : v.memory.kind? (source.join r) = some .directory := by
  rcases hfree with ⟨hfree, -⟩ | hkind
  · rw [hc.nothing_under hfree (under_join target r)] at hd
    cases hd
  · rw [← hkind, kind?_eq_directory_iff, hd]

section Moving

variable (h : Consistent v) (hc : v.memory.Closed) (hfree : v.Receives source target)

include h hc hfree

/-- A link at or below the target of a move meets no node that arrives there. -/
theorem Consistent.free_below {r : Path}
    (hlink : v.links.get? (target.join r) = some t) : v.memory.kind? (source.join r) = none := by
  rcases hfree with ⟨hfree, hnone⟩ | hkind
  · rw [h.no_link_under hc hfree hnone (under_join target r)] at hlink
    cases hlink
  · rw [← hkind, kind?_eq_none_iff]
    exact h.apart _ t hlink

/-- Links that stay where they are while entries are moved. -/
theorem Consistent.stays (hm : Moved source target v.memory w.memory) (hq : v.links.get? q = some t) (hu : q.under source = false) :
    w.memory.node? q = none ∧ HasParent w.memory q := by
  refine ⟨?_, ?_⟩
  · cases hr : q.relativeTo? target with
    | some r =>
      rw [relativeTo?_eq_some_iff] at hr
      subst hr
      rw [← kind?_eq_none_iff, hm.there]
      exact h.free_below hc hfree hq
    | none =>
      rw [relativeTo?_eq_none_iff] at hr
      rw [hm.same q hu hr]
      exact h.apart q t hq
  · obtain ⟨dir, hdir, hd⟩ := h.attached q t hq
    refine ⟨dir, hdir, ?_⟩
    have hdu : dir.under source = false := by
      rw [Bool.eq_false_iff]
      intro hdu
      rw [under_of_parent?_under hdir hdu] at hu
      cases hu
    cases hr : dir.relativeTo? target with
    | some r =>
      rw [relativeTo?_eq_some_iff] at hr
      subst hr
      rw [← kind?_eq_directory_iff, hm.there]
      exact Consistent.directory_below hc hfree hd
    | none =>
      rw [relativeTo?_eq_none_iff] at hr
      rw [hm.same dir hdu hr, hd]

/-- Moving a file takes no links along. -/
theorem Consistent.movedFile {d : FileData} (hfile : v.memory.node? source = some (.file d))
    (hm : Moved source target v.memory w.memory) (hlinks : w.links = v.links) : Consistent w := by
  have hstays : ∀ q t, w.links.get? q = some t → w.memory.node? q = none ∧ HasParent w.memory q := by
    intro q t hq
    rw [hlinks] at hq
    refine h.stays hc hfree hm hq ?_
    rw [Bool.eq_false_iff]
    intro hu
    rw [h.no_link_under_file hc hfile hu] at hq
    cases hq
  exact ⟨fun q t hq => (hstays q t hq).1, fun q t hq => (hstays q t hq).2⟩

/-- Moving a directory takes the links below it along. -/
theorem Consistent.movedTree (hm : Moved source target v.memory w.memory)
    (hlinks : w.links = (v.links.renameUnder source target).2.1) : Consistent w := by
  -- A link below the source arrives in the directory that it was in.
  have harrives : ∀ r t, v.links.get? (source.join r) = some t →
      w.memory.node? (target.join r) = none ∧ HasParent w.memory (target.join r) := by
    intro r t hr
    refine ⟨?_, ?_⟩
    · rw [← kind?_eq_none_iff, hm.there, kind?_eq_none_iff]
      exact h.apart _ t hr
    · obtain ⟨dir, hdir, hd⟩ := h.attached _ t hr
      rcases eq_root_or_child r with rfl | ⟨r, n, rfl⟩
      · rw [join_root] at hr
        exact absurd (h.apart _ t hr) hm.present
      · rw [join_child, parent?_child, Option.some.injEq] at hdir
        subst hdir
        refine ⟨target.join r, by rw [join_child, parent?_child], ?_⟩
        rw [← kind?_eq_directory_iff, hm.there, kind?_eq_directory_iff]
        exact hd
  have hall : ∀ q t, w.links.get? q = some t → w.memory.node? q = none ∧ HasParent w.memory q := by
    intro q t hq
    rw [hlinks, Links.get?_renameUnder v.links hm.beside.1 hm.beside.2] at hq
    cases hr : q.relativeTo? target with
    | some r =>
      rw [hr] at hq
      rw [relativeTo?_eq_some_iff] at hr
      subst hr
      rcases Option.or_eq_some_iff.1 hq with hq | ⟨-, hq⟩
      · exact harrives r t hq
      · refine h.stays hc hfree hm hq ?_
        rw [Bool.eq_false_iff]
        intro hu
        rcases under_total hu (under_join target r) with k | k
        · rw [hm.beside.1] at k
          cases k
        · rw [hm.beside.2] at k
          cases k
    | none =>
      rw [hr] at hq
      simp only at hq
      split at hq
      · cases hq
      · rename_i hu
        exact h.stays hc hfree hm hq (by simpa using hu)
  exact ⟨fun q t hq => (hall q t hq).1, fun q t hq => (hall q t hq).2⟩

end Moving

/-! ### All steps -/

variable [LinkMap μ] {a : Act} {P : Act → Prop}

/-- Whatever is done to a namespace, it stays consistent. -/
theorem Step.consistent (hs : Step a v w) (hc : v.memory.Closed) (h : Consistent v) : Consistent w := by
  cases hs with
  | job _ => exact h.congr (fun p => kind?_of_outline? (outline?_finished v _ _ p)) rfl
  | pass htree => exact h.congr (fun p => congrArg (kind? · p) htree) rfl
  | note => exact h.congr (fun _ => rfl) rfl
  | @lock _ p f k d _ _ hfile _ _ htree =>
    refine h.congr (fun q => ?_) rfl
    show (Backed.tree f).kind? q = _
    rw [htree, kind?_put_file hfile]
  | @unlock _ p f k _ htree =>
    refine h.congr (fun q => ?_) rfl
    show (Backed.tree f).kind? q = _
    rw [htree, kind?_release]
  | stale | queue => exact h.congr (fun _ => rfl) rfl
  | @edit _ p f d bytes hfile htree =>
    refine h.congr (fun q => ?_) rfl
    show (Backed.tree f).kind? q = _
    rw [htree, kind?_of_outline? (outline?_revised hfile bytes q)]
  | make hfree hgrown => exact h.grown rfl hfree hgrown
  | @link _ p target hfree hparent =>
    have hget : ∀ q, (v.relinked (v.links.insert p target).1 (v.links.insert p target).2).links.get? q =
        if q = p then some target else v.links.get? q := Links.get?_insert v.links p target
    refine ⟨?_, ?_⟩
    · intro q t hq
      rw [hget] at hq
      split at hq
      · rename_i e
        rw [e]
        exact hfree
      · exact h.apart q t hq
    · intro q t hq
      rw [hget] at hq
      split at hq
      · rename_i e
        rw [e]
        exact hparent
      · exact h.attached q t hq
  | @unlink _ p =>
    refine h.of_same ?_ (fun _ _ _ hnone => hnone) (fun _ _ _ _ _ hd => hd)
    intro q t hq
    have hget : (v.relinked (v.links.remove p).2.1 (v.links.remove p).2.2).links.get? q =
        if q = p then none else v.links.get? q := Links.get?_remove v.links p q
    rw [hget] at hq
    split at hq
    · cases hq
    · exact hq
  | @relink _ source target s hlink hfree hparent =>
    have hget : ∀ q, (v.relinked (v.links.rename source target).2.1
        (v.links.rename source target).2.2).links.get? q =
          if q = target then some s else if q = source then none else v.links.get? q :=
      Links.get?_rename hlink target
    refine ⟨?_, ?_⟩
    · intro q t hq
      rw [hget] at hq
      split at hq
      · rename_i e
        rw [e]
        exact hfree
      · split at hq
        · cases hq
        · exact h.apart q t hq
    · intro q t hq
      rw [hget] at hq
      split at hq
      · rename_i e
        rw [e]
        exact hparent
      · split at hq
        · cases hq
        · exact h.attached q t hq
  | @dropFile _ p f d hfile _ _ htree =>
    exact h.pruned (fun _ _ hq => hq) (fun q hu => h.no_link_under_file hc hfile hu) htree
  | @dropTree _ p f _ _ htree =>
    have hget : ∀ q, ((v.withFiles f).relinked (v.links.removeUnder p).2.1
        (v.links.removeUnder p).2.2).links.get? q = if q.under p = true then none else v.links.get? q :=
      Links.get?_removeUnder v.links p
    refine h.pruned ?_ ?_ htree
    · intro q t hq
      rw [hget] at hq
      split at hq
      · cases hq
      · exact hq
    · intro q hu
      rw [hget, if_pos hu]
  | copy hfree hlink _ htree => exact h.copied hc rfl hfree hlink htree
  | moveFile hfile hfree htree => exact h.movedFile hc hfree hfile htree rfl
  | moveTree hfree htree => exact h.movedTree hc hfree htree rfl

/-- A chain of steps keeps a namespace consistent. -/
theorem Reaches.consistent (hr : Reaches P v w) (hc : v.memory.Closed) (h : Consistent v) : Consistent w :=
  (hr.keeps (I := fun u => u.memory.Closed ∧ Consistent u)
    (fun _ _ _ _ hs hu => ⟨hs.closed hu.1, hs.consistent hu.1 hu.2⟩) ⟨hc, h⟩).2

end Filespace.Vfs
