import Filespace.Proofs.MovedSubtrees
import Filespace.Proofs.Substitutions

/-!
# A removal takes one subtree away

A namespace holds four things of a path: the node of the store, the link, the warm handle and the remembered size. A removal
takes each of them away at and below one path, by a filter of its own, and some of them before the call of the store and
some after it. `Path.Cleared` says of any of them, as functions of the path, that what is at and below a path is gone and
all else is as it was; `Removed` says it of all four.

A file and a link have nothing below them, so removing one changes one path only (`Removed.alone`). What a link leads to is
another path, since a path that links lead to has no link (`Consistent.target_ne`).
-/

namespace Filespace

open Storage Memory

/-! ### Clearing -/

namespace Path

variable {α β : Type} {p q : Path} {f g : Path → Option α}

/-- What is at and below a path is gone, and all else stays. -/
structure Cleared (p : Path) (f g : Path → Option α) : Prop where
  gone : ∀ q, q.under p = true → g q = none
  kept : ∀ q, q.under p = false → g q = f q

theorem Cleared.map (h : Cleared p f g) (k : α → β) : Cleared p (fun q => (f q).map k) fun q => (g q).map k where
  gone q hq := congrArg (Option.map k) (h.gone q hq)
  kept q hq := congrArg (Option.map k) (h.kept q hq)

/-- Where nothing is, nothing goes. -/
theorem cleared_of_nothing (h : ∀ q, q.under p = true → f q = none) : Cleared p f f := ⟨h, fun _ _ => rfl⟩

/-- A text that does not go on behind the text of a path and a slash is of a path beside it. -/
theorem not_under_of_text (hp : p ≠ root) (hne : q ≠ p) (h : ¬ p.chars ++ ['/'] <+: q.chars) : q.under p = false := by
  rw [Bool.eq_false_iff]
  intro hunder
  obtain ⟨r, rfl⟩ := under_iff_exists_join.1 hunder
  have hr : r ≠ root := fun e => hne (by rw [e, join_root])
  refine h ⟨r.chars, ?_⟩
  rw [chars_join hp hr, List.append_assoc]
  rfl

end Path

open Path (Cleared)

theorem Table.cleared_filter {α : Type} (t : Table Path α) (p : Path) :
    Cleared p t.get? (t.filter fun q _ => !q.under p).get? where
  gone q hq := Table.get?_filter_of_false fun _ => by rw [hq]; rfl
  kept q hq := Table.get?_filter_of_true fun _ => by rw [hq]; rfl

theorem Links.cleared_removeUnder (l : Links) (p : Path) : Cleared p l.get? (l.removeUnder p).2.1.get? where
  gone q hq := by rw [get?_removeUnder, if_pos hq]
  kept q hq := by rw [get?_removeUnder, if_neg (by rw [hq]; simp)]

/-- A link that has no links below it goes alone. -/
theorem Links.cleared_remove {l : Links} {p : Path} (hbelow : ∀ q, q.under p = true → q ≠ p → l.get? q = none) :
    Cleared p l.get? (l.remove p).2.1.get? where
  gone q hq := by
    rw [get?_remove]
    split
    · rfl
    · exact hbelow q hq ‹_›
  kept q hq := by
    have hne : q ≠ p := by
      rintro rfl
      rw [Path.under_refl] at hq
      cases hq
    rw [get?_remove, if_neg hne]

theorem Storage.Memory.cleared_prune (m : Memory) (p : Path) : Cleared p m.atRest? (m.prune p).atRest? := by
  refine Path.Cleared.map ⟨fun q hq => ?_, fun q hq => ?_⟩ Node.atRest
  · rw [node?_prune, if_pos hq]
  · rw [node?_prune, if_neg (by rw [hq]; simp)]

namespace Vfs

variable {μ : Type} {v w u : Vfs Memory μ} {p q : Path}

/-! ### What is held of a path -/

/-- Nothing is held of a path: no node of the store, no link, no handle and no size. -/
structure Bare (v : Vfs Memory μ) (q : Path) : Prop where
  node : v.memory.node? q = none
  link : v.links.get? q = none
  cold : v.isWarm q = false
  size : v.knownSize? q = none

/-- Nothing has changed at a path: neither what is there nor what is remembered of it. -/
structure Untouched (v w : Vfs Memory μ) (q : Path) : Prop where
  entry : w.entryAt q = v.entryAt q
  held : w.heldAt q = v.heldAt q
  warm : w.isWarm q = v.isWarm q
  size : w.knownSize? q = v.knownSize? q

/-- The nodes, the handles and the sizes at and below a path are gone. -/
structure Emptied (p : Path) (v w : Vfs Memory μ) : Prop where
  nodes : Cleared p v.memory.atRest? w.memory.atRest?
  handles : Cleared p v.handles.get? w.handles.get?
  sizes : Cleared p v.sizes.get? w.sizes.get?

/-- All that is held of a path and of those below it is gone. -/
structure Removed (p : Path) (v w : Vfs Memory μ) : Prop extends Emptied p v w where
  links : Cleared p v.links.get? w.links.get?

/-- Handles and sizes are of files. -/
theorem Healthy.bare (hv : v.Healthy) (hknows : v.KnowsFiles) (hnode : v.memory.node? q = none)
    (hlink : v.links.get? q = none) : v.Bare q := by
  refine ⟨hnode, hlink, Table.contains_eq_false_iff.2 ?_, hknows.get?_eq_none hnode⟩
  rw [Option.eq_none_iff_forall_ne_some]
  intro k hk
  obtain ⟨d, hd, -⟩ := hv.sound.fileOf? hk
  rw [hnode] at hd
  cases hd

theorem heldAt_congr (hlink : w.links.get? q = v.links.get? q) (hrest : w.memory.atRest? q = v.memory.atRest? q) :
    w.heldAt q = v.heldAt q := by
  unfold heldAt
  rw [hlink, content?_of_atRest? hrest]

/-- Where nothing was held and nothing is, nothing has changed. -/
theorem Bare.untouched (hv : v.Bare q) (hw : w.Bare q) : Untouched v w q where
  entry := entryAt_congr (hw.link.trans hv.link.symm) (congrArg (Option.map _) (hw.node.trans hv.node.symm))
  held := heldAt_congr (hw.link.trans hv.link.symm) (congrArg (Option.map _) (hw.node.trans hv.node.symm))
  warm := hw.cold.trans hv.cold.symm
  size := hw.size.trans hv.size.symm

namespace Removed

theorem bare (h : Removed p v w) (hq : q.under p = true) : w.Bare q where
  node := Option.map_eq_none_iff.1 (h.nodes.gone q hq)
  link := h.links.gone q hq
  cold := Table.contains_eq_false_iff.2 (h.handles.gone q hq)
  size := h.sizes.gone q hq

theorem untouched (h : Removed p v w) (hq : q.under p = false) : Untouched v w q where
  entry := entryAt_congr (h.links.kept q hq) (h.nodes.kept q hq)
  held := heldAt_congr (h.links.kept q hq) (h.nodes.kept q hq)
  warm := by
    unfold isWarm Table.contains
    rw [h.handles.kept q hq]
  size := h.sizes.kept q hq

/-- What has nothing below it goes alone. -/
theorem alone (h : Removed p v w) (hbelow : ∀ q, q.under p = true → q ≠ p → v.Bare q) (hne : q ≠ p) : Untouched v w q := by
  cases hq : q.under p with
  | true => exact (hbelow q hq hne).untouched (h.bare hq)
  | false => exact h.untouched hq

end Removed

/-! ### Removing from the store -/

variable [LinkMap μ]

/-- What is held of an entry of the store is dropped before the store removes it. -/
theorem Dropped.emptied (h : Dropped p v u) (hidle : v.background.queue = []) :
    Emptied p v (u.withFiles (u.memory.prune p)) := by
  refine ⟨?_, ?_, ?_⟩
  · -- Dropping only unlocks, so at rest the nodes are as they were before.
    have hprune := cleared_prune u.memory p
    exact ⟨hprune.gone, fun q hq => (hprune.kept q hq).trans ((h.kept.idle hidle).2.2 q trivial)⟩
  · show Cleared p v.handles.get? u.handles.get?
    rw [h.handles]
    exact Table.cleared_filter v.handles p
  · show Cleared p v.sizes.get? u.sizes.get?
    rw [h.sizes]
    exact Table.cleared_filter v.sizes p

/-- A directory goes with all that is held of it and of what is below it. -/
theorem ends_removedDirectory (base : Option Descriptor) (raw : String) (hidle : v.background.queue = []) :
    Ends Any (removeDirectoryAt base raw)
      (fun _ w => ∃ p, resolve base raw false v = (.ok p, v) ∧ p ≠ .root ∧ Removed p v w) (fun _ => True) v := by
  refine (ends_removeTree base raw v).any.imp ?_
  rintro - _ ⟨p, hres, hroot, u, hu, -, rfl⟩
  have hemptied := hu.emptied hidle
  refine ⟨p, hres, hroot, ⟨hemptied.nodes, hemptied.handles, hemptied.sizes⟩, ?_⟩
  rw [← hu.kept.links]
  exact Links.cleared_removeUnder u.links p

/-! ### Removing files and links -/

omit [LinkMap μ] in
/-- Nothing is held below what is not a directory. -/
theorem Healthy.bare_below (hv : v.Healthy) (hcons : v.Consistent) (hknows : v.KnowsFiles)
    (hp : v.memory.kind? p ≠ some .directory) (hq : q.under p = true) (hne : q ≠ p) : v.Bare q :=
  hv.bare hknows (hv.closed.nothing_below hp hq hne) (hcons.no_link_below hv.closed hp hq hne)

omit [LinkMap μ] in
/-- Only a link is held where a link is. -/
theorem Healthy.removed_link (hv : v.Healthy) (hcons : v.Consistent) (hknows : v.KnowsFiles) {t : String}
    (hlink : v.links.get? p = some t) (hmemory : w.memory = v.memory) (hhandles : w.handles = v.handles)
    (hsizes : w.sizes = v.sizes) (hlinks : w.links = (v.links.remove p).2.1) : Removed p v w := by
  have hnode := hcons.apart p t hlink
  have hnodes : ∀ q, q.under p = true → v.memory.node? q = none := fun q => hv.closed.nothing_under hnode
  have hnot : v.memory.kind? p ≠ some .directory := by
    rw [kind?_eq_none_iff.2 hnode]
    simp
  refine ⟨⟨?_, ?_, ?_⟩, ?_⟩
  · rw [hmemory]
    exact Path.cleared_of_nothing fun q hq => congrArg (Option.map _) (hnodes q hq)
  · rw [hhandles]
    refine Path.cleared_of_nothing fun q hq => ?_
    rw [Option.eq_none_iff_forall_ne_some]
    intro k hk
    obtain ⟨d, hd, -⟩ := hv.sound.fileOf? hk
    rw [hnodes q hq] at hd
    cases hd
  · rw [hsizes]
    exact Path.cleared_of_nothing fun q hq => hknows.get?_eq_none (hnodes q hq)
  · rw [hlinks]
    exact Links.cleared_remove fun q => hcons.no_link_below hv.closed hnot

/-- A file or a link goes with all that is held of it. The store is left alone if it is a link. -/
theorem ends_unlinked (base : Option Descriptor) (raw : String) (hidle : v.background.queue = []) (hcons : v.Consistent)
    (hknows : v.KnowsFiles) :
    Ends Any (unlinkAt base raw) (fun _ w => ∃ p, resolve base raw false v = (.ok p, v) ∧ p ≠ .root ∧ Removed p v w ∧
      v.memory.kind? p ≠ some .directory ∧ (∀ t, v.links.get? p = some t → w.memory = v.memory)) (fun _ => True) v := by
  intro hv
  refine (ends_removeLeaf base raw v hv).mono ?_ fun _ _ he => ⟨he.1.mono fun _ _ => trivial, trivial⟩
  rintro - _ ⟨p, hres, ⟨u, hroot, hu, hkind, -, rfl⟩ | ⟨u, t, hu, ht, rfl⟩⟩
  · have hemptied := hu.emptied hidle
    rw [hu.kindAt p] at hkind
    obtain ⟨hnolink, d, hd⟩ := kindAt_eq_file_iff.1 hkind
    refine ⟨p, hres, hroot, ⟨⟨hemptied.nodes, hemptied.handles, hemptied.sizes⟩, ?_⟩, ?_, fun t ht => ?_⟩
    · show Cleared p v.links.get? u.links.get?
      rw [hu.kept.links]
      exact Path.cleared_of_nothing fun q hq => hcons.no_link_under_file hv.closed hd hq
    · rw [kind?_eq_file_iff.2 ⟨d, hd⟩]
      simp
    · rw [hnolink] at ht
      cases ht
  · have hmemory := (hu.waited.idle hidle).2.1
    rw [hu.waited.links] at ht
    have hnode := hcons.apart p t ht
    have hroot : p ≠ .root := by
      rintro rfl
      rw [kind?_eq_directory_iff.1 hv.closed.root] at hnode
      cases hnode
    refine ⟨p, hres, hroot, ?_, ?_, fun _ _ => hmemory⟩
    · refine hv.removed_link hcons hknows ht hmemory hu.waited.handles hu.waited.sizes ?_
      rw [← hu.waited.links]
      rfl
    · rw [kind?_eq_none_iff.2 hnode]
      simp

/-! ### Removals that succeed -/

omit [LinkMap μ] in
/-- A link leads to another path than its own. -/
theorem Consistent.target_ne (hcons : v.Consistent) (hc : v.memory.Closed) {t : String} {r : Path}
    (hlink : v.links.get? p = some t) (hr : v.resolver.resolveLinks v.links p true = .ok r) : r ≠ p := by
  rintro rfl
  have hroot : r ≠ .root := by
    rintro rfl
    have hnode := hcons.apart _ t hlink
    rw [kind?_eq_directory_iff.1 hc.root] at hnode
    cases hnode
  obtain ⟨-, -, -, hsettled⟩ := Resolver.chase_eq_ok_iff.1 hr
  have hnone := hsettled r hroot (Path.under_refl r) fun _ => rfl
  rw [hlink] at hnone
  cases hnone

/-- A removal takes exactly one entry away, with all below it. A namespace is started on a store without locks, with links
that fit it or none, and it is put to any use until no job waits. When a directory is removed with success, no node of the
store, no link, no handle and no size is left at its path and below, and at every other path everything is as it was. When a
file or a link is removed, nothing is left at its path, and at every other path everything is as it was; if it is a link, the
store has not changed, and neither has what the link led to, whether something is there or not. Paths are told apart by their
names: one whose text goes on otherwise than by a slash is another path, and nothing has changed there. -/
theorem removal_takes_one_entry_away {μ : Type} [LinkMap μ] {o : Options} {w w' : World Memory μ} {v u : Vfs Memory μ}
    (hstart : start o w = (.ok v, w')) (hstore : w.files.Reachable) (hfree : ∀ p, w.files.isLocked p = false)
    (hlinks : (∀ p, v.links.get? p = none) ∨ v.Consistent) (descriptors : Table String Descriptor) (run : List Moment)
    (hplayed : (Session.played ⟨v, descriptors⟩ run).space = u) (hidle : u.background.queue = [])
    (base : Option Descriptor) (raw : String) :
    (∀ t, removeDirectoryAt base raw u = (.ok (), t) → ∃ p, (resolve base raw false u).1 = .ok p ∧
      (∀ q, q.under p = true → t.Bare q) ∧ (∀ q, q.under p = false → Untouched u t q) ∧
      ∀ q, q ≠ p → ¬ p.chars ++ ['/'] <+: q.chars → Untouched u t q) ∧
    (∀ t, unlinkAt base raw u = (.ok (), t) → ∃ p, (resolve base raw false u).1 = .ok p ∧
      t.Bare p ∧ (∀ q, q ≠ p → Untouched u t q) ∧
      ∀ text, u.links.get? p = some text → t.memory = u.memory ∧
        ∀ r, u.resolver.resolveLinks u.links p true = .ok r → r ≠ p ∧ Untouched u t r) := by
  have hv : v.Upright := upright_of_start hstart hstore hfree hlinks
  have hu : u.Upright := hplayed ▸ Session.upright_played run hv
  have hknows : u.KnowsFiles := hplayed ▸ Session.knowsFiles_played run hv (knowsFiles_of_start hstart hstore)
  refine ⟨fun t ht => ?_, fun t ht => ?_⟩
  · obtain ⟨p, hres, hroot, hremoved⟩ := (ends_removedDirectory base raw hidle hu.healthy).ok ht
    exact ⟨p, by rw [hres], fun q => hremoved.bare, fun q => hremoved.untouched,
      fun q hne htext => hremoved.untouched (Path.not_under_of_text hroot hne htext)⟩
  · obtain ⟨p, hres, hroot, hremoved, hleaf, hmemory⟩ :=
      (ends_unlinked base raw hidle hu.consistent hknows hu.healthy).ok ht
    have halone : ∀ q, q ≠ p → Untouched u t q :=
      fun q => hremoved.alone fun r => hu.healthy.bare_below hu.consistent hknows hleaf
    refine ⟨p, by rw [hres], hremoved.bare (Path.under_refl p), halone,
      fun text hlink => ⟨hmemory text hlink, fun r hr => ?_⟩⟩
    have hne := hu.consistent.target_ne hu.healthy.closed hlink hr
    exact ⟨hne, halone r hne⟩

/-- Two directories whose names begin alike, each with an open file, and a link from the one into the other and one
beside them. -/
def atoll : List Moment :=
  [.event (.use (.createDirectoryAt none "atoll")), .event (.use (.openAt none "atoll/crab" .createFile (some "crab"))),
    .event (.use (.write "crab" [7, 8] 0)), .event (.use (.createDirectoryAt none "atoll-2")),
    .event (.use (.openAt none "atoll-2/urchin" .createFile (some "urchin"))), .event (.use (.write "urchin" [9] 0)),
    .event (.use (.symlinkAt none "../atoll-2/urchin" "atoll/sign")),
    .event (.use (.symlinkAt none "atoll-2/urchin" "buoy")), .event (.work 2)]

/-- The first directory goes with its file and its link, and the one with the longer name stays. The link beside them goes
alone, and what it leads to stays. -/
theorem removal_takes_one_entry_away_on_atoll :
    (∃ t, removeDirectoryAt none "atoll" (Session.played ⟨inMemory, ∅⟩ atoll).space = (.ok (), t) ∧
      t.Bare ⟨[⟨"atoll", by decide⟩, ⟨"crab", by decide⟩]⟩ ∧ t.Bare ⟨[⟨"atoll", by decide⟩, ⟨"sign", by decide⟩]⟩ ∧
      t.heldAt ⟨[⟨"atoll-2", by decide⟩, ⟨"urchin", by decide⟩]⟩ = some (.stored (.file [9])) ∧
      t.isWarm ⟨[⟨"atoll-2", by decide⟩, ⟨"urchin", by decide⟩]⟩ = true) ∧
    ∃ t, unlinkAt none "buoy" (Session.played ⟨inMemory, ∅⟩ atoll).space = (.ok (), t) ∧
      t.Bare ⟨[⟨"buoy", by decide⟩]⟩ ∧
      t.heldAt ⟨[⟨"atoll-2", by decide⟩, ⟨"urchin", by decide⟩]⟩ = some (.stored (.file [9])) := by
  obtain ⟨hstart, hstore, hfree⟩ := inMemory_started
  have hbefore : (Session.played ⟨inMemory, ∅⟩ atoll).space.background.queue = [] ∧
      (resolve none "atoll" false (Session.played ⟨inMemory, ∅⟩ atoll).space).1 = .ok ⟨[⟨"atoll", by decide⟩]⟩ ∧
      (resolve none "buoy" false (Session.played ⟨inMemory, ∅⟩ atoll).space).1 = .ok ⟨[⟨"buoy", by decide⟩]⟩ ∧
      (removeDirectoryAt none "atoll" (Session.played ⟨inMemory, ∅⟩ atoll).space).1 = .ok () ∧
      (unlinkAt none "buoy" (Session.played ⟨inMemory, ∅⟩ atoll).space).1 = .ok () ∧
      (Session.played ⟨inMemory, ∅⟩ atoll).space.links.get? ⟨[⟨"buoy", by decide⟩]⟩ = some "atoll-2/urchin" ∧
      (Session.played ⟨inMemory, ∅⟩ atoll).space.resolver.resolveLinks (Session.played ⟨inMemory, ∅⟩ atoll).space.links
        ⟨[⟨"buoy", by decide⟩]⟩ true = .ok ⟨[⟨"atoll-2", by decide⟩, ⟨"urchin", by decide⟩]⟩ ∧
      (Session.played ⟨inMemory, ∅⟩ atoll).space.heldAt ⟨[⟨"atoll-2", by decide⟩, ⟨"urchin", by decide⟩]⟩ =
        some (.stored (.file [9])) ∧
      (Session.played ⟨inMemory, ∅⟩ atoll).space.isWarm ⟨[⟨"atoll-2", by decide⟩, ⟨"urchin", by decide⟩]⟩ = true := by
    decide +kernel
  obtain ⟨hidle, hatoll, hbuoy, hrmdir, hunlink, hlink, htarget, hurchin, hwarm⟩ := hbefore
  have hexact := removal_takes_one_entry_away hstart hstore hfree (Or.inl fun _ => Table.get?_empty _) ∅ atoll rfl hidle none
  refine ⟨?_, ?_⟩
  · rcases hrun : removeDirectoryAt none "atoll" (Session.played ⟨inMemory, ∅⟩ atoll).space with ⟨r, t⟩
    obtain rfl : r = .ok () := (congrArg Prod.fst hrun).symm.trans hrmdir
    obtain ⟨p, hp, hbare, -, htext⟩ := (hexact "atoll").1 t hrun
    obtain rfl := Except.ok.inj (hatoll.symm.trans hp)
    have hbeside := htext ⟨[⟨"atoll-2", by decide⟩, ⟨"urchin", by decide⟩]⟩ (by decide) (by decide)
    exact ⟨t, rfl, hbare _ (by decide), hbare _ (by decide), hbeside.held.trans hurchin, hbeside.warm.trans hwarm⟩
  · rcases hrun : unlinkAt none "buoy" (Session.played ⟨inMemory, ∅⟩ atoll).space with ⟨r, t⟩
    obtain rfl : r = .ok () := (congrArg Prod.fst hrun).symm.trans hunlink
    obtain ⟨p, hp, hbare, -, hlinked⟩ := (hexact "buoy").2 t hrun
    obtain rfl := Except.ok.inj (hbuoy.symm.trans hp)
    exact ⟨t, rfl, hbare, ((hlinked _ hlink).2 _ htarget).2.held.trans hurchin⟩

end Vfs

end Filespace
