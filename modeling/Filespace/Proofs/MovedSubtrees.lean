import Filespace.Proofs.KnownSizes
import Filespace.Proofs.PlayedRuns
import Filespace.Proofs.RemovedPaths

/-!
# A rename moves one subtree

A rename carries what is at and below one path to another: the entries of the store, the links and the remembered sizes.
`Path.Carried` says this of any of them, as functions of the path. The store moves entries by its own means or by a copy and
a removal; the links are moved one by one; the sizes are taken out before the move and put back after it. Each of these is a
carrying (`Healthy.wp_moveEntry_carried`, `Links.carried_renameUnder`, `Table.carried_moved`), so together they are one.

A carrying is determined by its paths (`Path.Carried.unique`). So it cannot be seen by which means an entry was moved.
-/

namespace Filespace

open Storage Memory Path

/-! ### Carrying -/

namespace Path

variable {α β : Type} {source target : Path} {f f' g g' : Path → Option α}

/-- What is at and below one path is carried to another, and all else stays. -/
structure Carried (source target : Path) (f g : Path → Option α) : Prop where
  there : ∀ r, g (target.join r) = f (source.join r)
  gone : ∀ q, q.under source = true → g q = none
  kept : ∀ q, q.under source = false → q.under target = false → g q = f q

/-- There is one way to carry. -/
theorem Carried.unique (h : Carried source target f g) (h' : Carried source target f g') : g' = g := by
  funext q
  cases ht : q.under target with
  | true =>
    obtain ⟨r, rfl⟩ := under_iff_exists_join.1 ht
    rw [h.there, h'.there]
  | false =>
    cases hs : q.under source with
    | true => rw [h.gone q hs, h'.gone q hs]
    | false => rw [h.kept q hs ht, h'.kept q hs ht]

theorem Carried.map (h : Carried source target f g) (k : α → β) :
    Carried source target (fun q => (f q).map k) fun q => (g q).map k where
  there r := congrArg (Option.map k) (h.there r)
  gone q hq := congrArg (Option.map k) (h.gone q hq)
  kept q hs ht := congrArg (Option.map k) (h.kept q hs ht)

theorem Carried.or (h : Carried source target f g) (h' : Carried source target f' g') :
    Carried source target (fun q => (f q).or (f' q)) fun q => (g q).or (g' q) where
  there r := by rw [h.there, h'.there]
  gone q hq := by rw [h.gone q hq, h'.gone q hq, Option.or_none]
  kept q hs ht := by rw [h.kept q hs ht, h'.kept q hs ht]

/-- Where nothing is, nothing is carried. -/
theorem carried_of_nothing (hs : ∀ q, q.under source = true → f q = none) (ht : ∀ q, q.under target = true → f q = none) :
    Carried source target f f where
  there r := by rw [ht _ (under_join target r), hs _ (under_join source r)]
  gone := hs
  kept _ _ _ := rfl

/-- What is at the target beforehand does not matter. -/
theorem Carried.of_outside (h : Carried source target f' g)
    (hsource : ∀ q : Path, q.under source = true → q.under target = false)
    (hf : ∀ q, q.under target = false → f' q = f q) : Carried source target f g where
  there r := (h.there r).trans (hf _ (hsource _ (under_join source r)))
  gone := h.gone
  kept q hs ht := (h.kept q hs ht).trans (hf q ht)

end Path

open Path (Carried)

/-- Rows are carried by taking them out and putting them in again. -/
theorem Table.carried_moved {α : Type} (t : Table Path α) {source target : Path}
    (hbeside : source.Beside target) (hfree : ∀ r, t.get? (target.join r) = none) :
    Carried source target t.get? ((t.filter fun q _ => !q.under source).insertMany
      (t.rows.filterMap fun x => (x.1.relativeTo? source).map fun r => (target.join r, x.2))).get? where
  there r := by
    refine (Table.get?_moved t hfree _).trans ?_
    rw [relativeTo?_join]
  gone q hq := by
    refine (Table.get?_moved t hfree q).trans ?_
    rw [relativeTo?_eq_none_iff.2 (not_under_of_beside hbeside hq)]
    exact if_pos hq
  kept q hs ht := by
    refine (Table.get?_moved t hfree q).trans ?_
    rw [relativeTo?_eq_none_iff.2 ht]
    exact if_neg (by rw [hs]; simp)

namespace Links

variable {l : Links} {source target : Path}

/-- The links below a directory are carried with it. -/
theorem carried_renameUnder (hbeside : source.Beside target)
    (hfree : ∀ q, q.under target = true → l.get? q = none) :
    Carried source target l.get? (l.renameUnder source target).2.1.get? where
  there r := by
    rw [get?_renameUnder l hbeside.1 hbeside.2, relativeTo?_join]
    simp only [hfree _ (under_join target r), Option.or_none]
  gone q hq := by
    rw [get?_renameUnder l hbeside.1 hbeside.2, relativeTo?_eq_none_iff.2 (not_under_of_beside hbeside hq)]
    exact if_pos hq
  kept q hs ht := by
    rw [get?_renameUnder l hbeside.1 hbeside.2, relativeTo?_eq_none_iff.2 ht]
    exact if_neg (by rw [hs]; simp)

/-- A link is carried alone. -/
theorem carried_rename {t : String} (hlink : l.get? source = some t) (hbeside : source.Beside target)
    (hbelow : ∀ q, q.under source = true → q ≠ source → l.get? q = none)
    (hfree : ∀ q, q.under target = true → l.get? q = none) :
    Carried source target l.get? (l.rename source target).2.1.get? where
  there r := by
    rw [get?_rename hlink]
    by_cases hr : r = .root
    · rw [hr, join_root, join_root, if_pos rfl, hlink]
    · have hne : ∀ p : Path, p.join r ≠ p := fun p e => hr (join_inj.1 (e.trans (join_root p).symm))
      have hother : target.join r ≠ source := by
        intro e
        have hunder := under_join target r
        rw [e, hbeside.1] at hunder
        cases hunder
      rw [if_neg (hne target), if_neg hother, hfree _ (under_join target r),
        hbelow _ (under_join source r) (hne source)]
  gone q hq := by
    have hother : q ≠ target := by
      rintro rfl
      rw [hbeside.2] at hq
      cases hq
    rw [get?_rename hlink, if_neg hother]
    split
    · rfl
    · exact hbelow q hq ‹_›
  kept q hs ht := by
    have hsource : q ≠ source := by
      rintro rfl
      rw [under_refl] at hs
      cases hs
    have htarget : q ≠ target := by
      rintro rfl
      rw [under_refl] at ht
      cases ht
    rw [get?_rename hlink, if_neg htarget, if_neg hsource]

end Links

theorem Storage.Memory.Moved.carried_kind? {m m' : Memory} {source target : Path} (h : Moved source target m m') :
    Carried source target m.kind? m'.kind? where
  there := h.there
  gone q hq := kind?_eq_none_iff.2 (h.gone q hq)
  kept q hs ht := congrArg (Option.map Node.kind) (h.same q hs ht)

namespace Vfs

variable {μ : Type} [LinkMap μ] {v w u : Vfs Memory μ} {source target p : Path} {entry : Entry} {o : Options}

/-! ### Moving entries of the store -/

/-- A move in the store leaves handles and remembered sizes alone. -/
theorem Reaches.copying_caches (h : Reaches (Copying source target) v w) : w.handles = v.handles ∧ w.sizes = v.sizes := by
  refine h.keeps (I := fun u => u.handles = v.handles ∧ u.sizes = v.sizes) ?_ ⟨rfl, rfl⟩
  rintro a x y (rfl | rfl) hstep hx
  · exact ⟨hstep.waited.handles.trans hx.1, hstep.waited.sizes.trans hx.2⟩
  · cases hstep with
    | copy _ _ _ _ => exact hx

/-- The bytes arrive, by either means, as they are at one moment of the move. Jobs may write before and after. -/
theorem Movable.wp_moveEntry_arrives (h : Movable source target v) (hcold : v.ColdBelow source) :
    wp (moveEntry source target)
      (fun _ w => ∃ u x y : Vfs Memory μ, Reaches (Copying source target) v u ∧ x.background.queue = u.background.queue ∧
        (∀ r, x.memory.content? (target.join r) = u.memory.content? (source.join r)) ∧ Reaches (· = .wait) x y ∧
        ∀ r, w.memory.content? (target.join r) = y.memory.content? (target.join r)) (fun _ _ => True) v := by
  unfold moveEntry
  rw [wp_bind, wp_tryCatch, wp_bind]
  refine wp_call fun w hr => ?_
  have hw := h.waited hr
  refine wp_onFiles ((Request.treeWp_move hw.closed source target).mono ?_ ?_)
  · rintro - m ⟨-, -, -, hfree, -, -, rfl⟩ f hf
    refine ⟨w, w.withFiles f, w.withFiles f, hr.copying, rfl, fun r => ?_, .refl, fun _ => rfl⟩
    refine (congrArg (content? · (target.join r)) hf).trans ?_
    unfold content?
    rw [hw.closed.node?_graft hfree, relativeTo?_join]
  · -- The store has done nothing, so that the entry can be copied.
    rintro e m ⟨rfl, -⟩ f hf
    obtain rfl : f = w.memory := hf
    refine wp_ite.2 ⟨fun _ => ?_, fun _ => trivial⟩
    have hcold' := hcold.waited hr.waited
    unfold copyThenDelete
    rw [wp_bind]
    refine (hw.wp_copy hcold').mono ?_ fun _ _ _ => trivial
    rintro - x ⟨hx, -, hcopied⟩
    rw [wp_bind]
    refine wp_call fun y hy => wp_onFiles ((Request.treeWp_remove (hy.closed hcopied.closed) source true).mono ?_
      fun _ _ _ _ _ => trivial)
    rintro - m ⟨-, -, -, -, rfl⟩ f hf
    refine ⟨x, x, y, hr.copying.trans hx, rfl, hcopied.content, hy, fun r => ?_⟩
    have hstays : (y.memory.prune source).node? (target.join r) = y.memory.node? (target.join r) := by
      rw [node?_prune]
      rw [not_under_of_beside hcopied.beside.symm (under_join target r)]
      simp
    rw [show f = y.memory.prune source from hf]
    exact congrArg (Option.map Node.content) hstays

/-- Without jobs they arrive as they were. -/
theorem Movable.wp_moveEntry_there (h : Movable source target v)
    (hcold : v.ColdBelow source) (hidle : v.background.queue = []) :
    wp (moveEntry source target)
      (fun _ w => ∀ r, w.memory.content? (target.join r) = v.memory.content? (source.join r)) (fun _ _ => True) v := by
  refine (h.wp_moveEntry_arrives hcold).mono ?_ fun _ _ _ => trivial
  rintro - w ⟨u, x, y, hu, hqueue, harrived, hy, hw⟩ r
  obtain ⟨hidle', -, hsame⟩ := (hu.mono fun _ => Copying.quiet).kept.idle hidle
  calc w.memory.content? (target.join r)
      = y.memory.content? (target.join r) := hw r
    _ = x.memory.content? (target.join r) := by rw [(hy.waited.idle (hqueue.trans hidle')).2.1]
    _ = u.memory.content? (source.join r) := harrived r
    _ = v.memory.content? (source.join r) := content?_of_atRest?
        (hsame _ (not_under_of_beside h.beside (under_join source r)))

/-- An entry that can be moved is carried to its target. Jobs may write to it meanwhile. -/
theorem Healthy.wp_moveEntry_carried (hv : v.Healthy) (h : Movable source target v) (hcold : v.ColdBelow source) :
    wp (moveEntry source target)
      (fun _ w => (w.links = v.links ∧ w.handles = v.handles ∧ w.sizes = v.sizes) ∧
        Carried source target v.memory.kind? w.memory.kind? ∧
        (v.background.queue = [] → Carried source target v.memory.content? w.memory.content?)) (fun _ _ => False) v := by
  have hthere : wp (moveEntry source target) (fun _ w => v.background.queue = [] →
      ∀ r, w.memory.content? (target.join r) = v.memory.content? (source.join r)) (fun _ _ => True) v := by
    by_cases hidle : v.background.queue = []
    · exact (h.wp_moveEntry_there hcold hidle).mono (fun _ _ hw _ => hw) fun _ _ _ => trivial
    · exact wp_iff.2 ⟨fun _ _ _ hq => absurd hq hidle, fun _ _ _ => trivial⟩
  refine ((hv.wp_moveEntry h hcold).and hthere).mono ?_ fun _ _ he => he.1
  rintro - _ ⟨⟨u, hu, f, rfl, hmoved, -⟩, hthere⟩
  have hkept := (hu.mono fun _ => Copying.quiet).kept
  have houtside : ∀ q : Path, q.under source = true → q.under target = false :=
    fun q => not_under_of_beside h.beside
  refine ⟨⟨hkept.links, hu.copying_caches⟩, hmoved.carried_kind?.of_outside houtside hkept.kind, fun hidle => ?_⟩
  refine ⟨hthere hidle, fun q hq => congrArg (Option.map Node.content) (hmoved.gone q hq), fun q hs ht => ?_⟩
  exact (congrArg (Option.map Node.content) (hmoved.same q hs ht)).trans
    (content?_of_atRest? ((hkept.idle hidle).2.2 q ht))

/-! ### Relocating an entry -/

/-- What can be at a path: an entry of the store with what is in it, or a link. -/
inductive Held where
  | stored (c : Content)
  | link (target : String)
  deriving DecidableEq

/-- What is at a path. -/
def heldAt (v : Vfs Memory μ) (p : Path) : Option Held :=
  ((v.links.get? p).map .link).or ((v.memory.content? p).map .stored)

section Relocated

omit [LinkMap μ]

theorem carried_heldAt (hlinks : Carried source target v.links.get? w.links.get?)
    (hcontent : Carried source target v.memory.content? w.memory.content?) : Carried source target v.heldAt w.heldAt :=
  (hlinks.map Held.link).or (hcontent.map Held.stored)

/-- All that there is at and below a path has gone to another, and it is cold. -/
structure Relocated (source target : Path) (v w : Vfs Memory μ) : Prop where
  cold : ∀ q, q.under source = true → w.handles.get? q = none
  kinds : Carried source target v.memory.kind? w.memory.kind?
  sizes : Carried source target v.sizes.get? w.sizes.get?
  /-- Only jobs could change what is in a file meanwhile. -/
  held : v.background.queue = [] → Carried source target v.heldAt w.heldAt

/-- Two paths between which something can be moved lie beside each other. -/
theorem Planned.beside (h : Planned source target entry v) (hc : v.memory.Closed) (hcons : v.Consistent) :
    source.Beside target := by
  refine ⟨?_, ?_⟩
  · rw [Bool.eq_false_iff]
    intro hunder
    have hfound := h.found
    rw [hcons.nothing_below hc h.free hunder] at hfound
    cases hfound
  · cases hlink : entry.isLink with
    | false => exact (h.movable hc hlink).1.beside.2
    | true =>
      -- The target is in a directory of the store, and there is none at or below a link.
      obtain ⟨t, ht⟩ := kindAt_eq_link_iff.1 (h.found.trans (congrArg some (of_decide_eq_true hlink)))
      obtain ⟨dir, hparent, hdir⟩ := h.parent
      obtain ⟨n, rfl⟩ := parent?_eq_some_iff.1 hparent
      rw [Bool.eq_false_iff]
      intro hunder
      rcases child_under_iff.1 hunder with e | hunder
      · have hfree := h.free
        rw [e, h.found] at hfree
        cases hfree
      · rw [hc.nothing_under (hcons.apart source t ht) hunder] at hdir
        cases hdir

/-- Nothing is at or below a free path. -/
theorem Consistent.nothing_at (hcons : v.Consistent) (hc : v.memory.Closed) (hp : v.kindAt p = none) :
    (∀ q, q.under p = true → v.links.get? q = none) ∧ ∀ q, q.under p = true → v.memory.node? q = none :=
  ⟨fun _ hq => (kindAt_eq_none_iff.1 (hcons.nothing_below hc hp hq)).1,
    fun _ hq => (kindAt_eq_none_iff.1 (hcons.nothing_below hc hp hq)).2⟩

/-- No size is remembered where no node is. -/
theorem KnowsFiles.get?_eq_none (hv : v.KnowsFiles) {q : Path} (hq : v.memory.node? q = none) : v.sizes.get? q = none := by
  by_contra hne
  have hfile := hv q hne
  rw [kind?_eq_none_iff.2 hq] at hfile
  cases hfile

/-- A link goes alone: nothing is below it, and nothing is remembered of it. -/
theorem Planned.relocated_link (h : Planned source target entry v) (hv : v.Healthy) (hcons : v.Consistent)
    (hknows : v.KnowsFiles) {t : String} (hlink : v.links.get? source = some t) (hmemory : w.memory = v.memory)
    (hhandles : w.handles = v.handles) (hsizes : w.sizes = v.sizes) (hlinks : w.links = (v.links.rename source target).2.1) :
    Relocated source target v w := by
  have hbeside := h.beside hv.closed hcons
  have hnode : ∀ q, q.under source = true → v.memory.node? q = none :=
    fun q => hv.closed.nothing_under (hcons.apart source t hlink)
  obtain ⟨htlinks, htnode⟩ := hcons.nothing_at hv.closed h.free
  have hbelow : ∀ q, q.under source = true → q ≠ source → v.links.get? q = none := by
    refine fun q => hcons.no_link_below hv.closed ?_
    rw [kind?_eq_none_iff.2 (hcons.apart source t hlink)]
    simp
  refine ⟨fun q hq => ?_, ?_, ?_, fun _ => carried_heldAt ?_ ?_⟩
  · by_contra hsome
    rw [hhandles] at hsome
    obtain ⟨k, hk⟩ := Option.ne_none_iff_exists'.1 hsome
    obtain ⟨d, hd, -⟩ := hv.sound.fileOf? hk
    rw [hnode q hq] at hd
    cases hd
  · rw [hmemory]
    exact carried_of_nothing (fun q hq => kind?_eq_none_iff.2 (hnode q hq))
      fun q hq => kind?_eq_none_iff.2 (htnode q hq)
  · rw [hsizes]
    exact carried_of_nothing (fun q hq => hknows.get?_eq_none (hnode q hq)) fun q hq => hknows.get?_eq_none (htnode q hq)
  · rw [hlinks]
    exact Links.carried_rename hlink hbeside hbelow htlinks
  · rw [hmemory]
    exact carried_of_nothing (fun q hq => congrArg (Option.map Node.content) (hnode q hq))
      fun q hq => congrArg (Option.map Node.content) (htnode q hq)

/-- An entry of the store goes with the sizes that are taken out before it is moved and put back after. -/
theorem Relocated.of_store (hbeside : source.Beside target)
    (hfree : ∀ r, v.sizes.get? (target.join r) = none) (hkept : Kept (fun _ => True) v u) (hcold : u.ColdBelow source)
    (htaken : u.sizes = v.sizes.filter fun q _ => !q.under source) (hhandles : w.handles = u.handles)
    (hput : w.sizes = u.sizes.insertMany (v.sizes.rows.filterMap fun row =>
      (row.1.relativeTo? source).map fun r => (target.join r, row.2)))
    (hkinds : Carried source target u.memory.kind? w.memory.kind?)
    (hcontent : u.background.queue = [] → Carried source target u.memory.content? w.memory.content?)
    (hlinks : Carried source target v.links.get? w.links.get?) : Relocated source target v w := by
  have houtside : ∀ q : Path, q.under source = true → q.under target = false :=
    fun q => not_under_of_beside hbeside
  refine ⟨fun q hq => ?_, hkinds.of_outside houtside fun q _ => hkept.kind q trivial, ?_, fun hidle => carried_heldAt hlinks ?_⟩
  · rw [hhandles, hcold q hq]
  · rw [hput, htaken]
    exact Table.carried_moved v.sizes hbeside hfree
  · obtain ⟨hidle, -, hsame⟩ := hkept.idle hidle
    exact (hcontent hidle).of_outside houtside fun q _ => content?_of_atRest? (hsame q trivial)

end Relocated

/-- A planned move carries all that there is. -/
theorem Planned.wp_relocated (h : Planned source target entry v) (hv : v.Healthy) (hcons : v.Consistent)
    (hknows : v.KnowsFiles) :
    wp (relocate source target entry) (fun _ w => Relocated source target v w) (fun _ _ => False) v := by
  obtain ⟨htlinks, htnode⟩ := hcons.nothing_at hv.closed h.free
  have hbeside := h.beside hv.closed hcons
  have hrelocated := fun w y (hw : Dropped source v w) => Relocated.of_store (w := y) hbeside
    (fun r => hknows.get?_eq_none (htnode _ (under_join target r))) hw.kept (fun _ => hw.cold) hw.sizes
  refine h.wp_course hv.closed (fun t ht => h.relocated_link hv hcons hknows ht rfl rfl rfl rfl)
    (fun w hw hmovable => (hw.reaches.healthy hv).wp_moveEntry_carried hmovable fun _ => hw.cold) ?_ ?_
  · rintro w x hw ⟨⟨hlinks, hhandles, hsizes⟩, hkinds, hcontent⟩
    refine hrelocated w _ hw hhandles (by rw [← hsizes]; rfl) hkinds hcontent ?_
    rw [hlinks, hw.kept.links]
    exact Links.carried_renameUnder hbeside htlinks
  · rintro hfile w x hw ⟨⟨hlinks, hhandles, hsizes⟩, hkinds, hcontent⟩
    obtain ⟨d, hd⟩ := kind?_eq_file_iff.1 hfile
    refine hrelocated w _ hw hhandles (by rw [← hsizes]) hkinds hcontent ?_
    rw [show ({ x with sizes := _ } : Vfs Memory μ).links = v.links from hlinks.trans hw.kept.links]
    exact carried_of_nothing (fun q hq => hcons.no_link_under_file hv.closed hd hq) htlinks

/-! ### Remembered sizes in every run -/

omit [LinkMap μ] in
/-- Sizes go where their files go. -/
theorem KnowsFiles.relocated (hv : v.KnowsFiles) (h : Relocated source target v w) : w.KnowsFiles := by
  intro q hq
  cases ht : q.under target with
  | true =>
    obtain ⟨r, rfl⟩ := under_iff_exists_join.1 ht
    rw [h.sizes.there] at hq
    rw [h.kinds.there]
    exact hv _ hq
  | false =>
    cases hs : q.under source with
    | true => exact absurd (h.sizes.gone q hs) hq
    | false =>
      rw [h.sizes.kept q hs ht] at hq
      rw [h.kinds.kept q hs ht]
      exact hv q hq

theorem KnowsFiles.renameAt (hv : v.KnowsFiles) (hcons : v.Consistent) (base : Option Descriptor) (raw : String)
    (toBase : Option Descriptor) (toRaw : String) :
    Ends Any (renameAt base raw toBase toRaw) (fun _ w => w.KnowsFiles) (fun _ => True) v := by
  intro hhealthy
  refine Ends.bind (ends_renamePlan base raw toBase toRaw v).any (fun _ _ => trivial) ?_ hhealthy
  rintro r w hr ⟨source, target, -, -, ⟨rfl, -⟩ | ⟨entry, rfl, hplan⟩⟩
  · exact .pure (hr.knowsFiles (fun _ => tame_of_wait) hv)
  · intro hw
    have hknows := hr.knowsFiles (fun _ => tame_of_wait) hv
    exact (hplan.wp_relocated hw (hr.consistent hhealthy.closed hcons) hknows).mono (fun _ _ hmoved => hknows.relocated hmoved)
      fun _ _ he => he.elim

variable {s : Session Memory μ}

/-- What is true of remembered sizes is kept by every operation that does not rename. -/
theorem Operation.knows {I J : Vfs Memory μ → Path → FileMeta → Prop} (op : Operation) (hI : Lasting I J)
    (hs : s.space.Healthy) (hknows : s.space.Knows I)
    (hqueued : ∀ p offset data, (s.space.queued p offset data).Knows J)
    (hrename : ∀ b raw c toRaw, op ≠ .renameAt b raw c toRaw) :
    Ended (fun w => w.Knows J) Any (fun _ => True) op.run s := by
  have reads : ∀ {α : Type} {x : VfsM Memory μ α} {P : Act → Prop} {Q : α → Vfs Memory μ → Prop} {C : Error → Prop},
      Runs P x Q C s.space → (∀ a, P a → Tame a) → Ends Any x (fun _ w => w.Knows J) (fun _ => True) s.space :=
    fun hx hP => (hx.knows hP hI hknows).imp fun _ _ hw => hw.2.1.weaken hI
  have notes : ∀ {α : Type} {x : VfsM Memory μ α}, Ends (· = .wait) x (fun _ w => Noted s.space w) (fun _ => True) s.space →
      Ends Any x (fun _ w => w.Knows J) (fun _ => True) s.space := fun hx => hx.any.imp fun _ _ hw => hknows.looked hI hw
  have hsame : s.space.Knows J := hknows.weaken hI
  cases op with
  | openAt b raw flags name =>
    refine .onBase hs (fun d _ => hknows.openAt hI d raw flags) fun d t => ?_
    cases name with
    | none | some => rfl
  | preopens name =>
    cases name with
    | none | some => exact hsame
  | inspect fd => exact .bind_descriptor fun d _ => hsame
  | read fd length offset =>
    exact .onDescriptor hs (fun d _ => reads (runs_read d length offset s.space) fun _ => Looking.tame) fun _ _ => rfl
  | write fd data offset =>
    exact .onDescriptor hs (fun d _ => (ends_write d data offset s.space).any.imp fun _ _ hw =>
      hknows.written hI (fun _ => Looking.tame) hw.2) fun _ _ => rfl
  | readStream fd length =>
    exact .onDescriptor hs (fun d _ => reads (runs_readStream d length s.space) fun _ => Looking.tame) fun _ _ => rfl
  | writeStream fd data =>
    refine .onDescriptor hs (fun d _ => (ends_writeStream d data s.space).any.imp ?_) fun _ _ => rfl
    rintro r w ⟨offset, -, hw⟩
    exact hknows.written hI (fun _ => Looking.tame) hw
  | seek fd whence =>
    exact .onDescriptor hs (fun d _ => reads (runs_seek d whence s.space) fun _ => tame_of_wait) fun _ _ => rfl
  | writeDetached fd data offset =>
    refine .onDescriptor hs (fun d _ => (ends_writeDetached (F := (· = .wait)) d data offset s.space).any.imp ?_) fun _ _ => rfl
    -- Nothing is noted of a write that is queued.
    rintro - w (⟨-, hw⟩ | ⟨-, rfl⟩)
    · exact hknows.written hI (fun _ => tame_of_wait) hw
    · exact hqueued _ _ _
  | setSize fd length => exact .onDescriptor hs (fun d _ => hknows.setSize hI d length) fun _ _ => rfl
  | sync fd => exact .onDescriptor hs (fun d _ => reads (runs_sync d s.space) fun _ => tame_of_wait) fun _ _ => rfl
  | release fd =>
    refine .onDescriptor hs (fun d _ => reads (runs_release d s.space) fun a ha => ?_) fun _ _ => rfl
    rw [ha]
    exact ⟨trivial, by simp⟩
  | stat fd =>
    exact .onDescriptor hs (fun d _ => reads (runs_requireEntry d.path s.space) fun _ => tame_of_wait) fun _ _ => rfl
  | statAt b raw follow =>
    exact .onBase hs (fun d _ => reads (runs_statAt d raw follow s.space) fun _ => tame_of_wait) fun _ _ => rfl
  | readDirectory fd => exact .onDescriptor hs (fun d _ => notes (ends_readDirectory d s.space)) fun _ _ => rfl
  | readDirectoryAt b raw => exact .onBase hs (fun d _ => notes (ends_readDirectoryAt d raw s.space)) fun _ _ => rfl
  | createDirectoryAt b raw => exact .onBase hs (fun d _ => hknows.createDirectoryAt hI d raw) fun _ _ => rfl
  | removeDirectoryAt b raw => exact .onBase hs (fun d _ => hknows.removeDirectoryAt hI d raw) fun _ _ => rfl
  | unlinkAt b raw => exact .onBase hs (fun d _ => hknows.unlinkAt hI d raw) fun _ _ => rfl
  | renameAt b raw c toRaw => exact absurd rfl (hrename b raw c toRaw)
  | symlinkAt b text raw => exact .onBase hs (fun d _ => hknows.symlinkAt hI d text raw) fun _ _ => rfl
  | readlinkAt b raw =>
    exact .onBase hs (fun d _ => reads (runs_readlinkAt d raw s.space) fun _ => tame_of_wait) fun _ _ => rfl
  | linkAt b old new => exact .onBase hs (fun d _ => .throw trivial) fun _ _ => rfl
  | workingDirectory => exact hsame
  | setWorkingDirectory raw => exact .onSpace hs (notes (ends_setWorkingDirectory raw s.space)) fun _ _ => rfl
  | knownSize | isWarm => exact .path (fun _ => trivial) fun p => hsame

/-- Whatever is done in a session, sizes are remembered of files only. -/
theorem Operation.knowsFiles (op : Operation) (hs : s.space.Healthy) (hcons : s.space.Consistent)
    (hknows : s.space.KnowsFiles) : Ended (fun w => w.KnowsFiles) Any (fun _ => True) op.run s := by
  by_cases hrename : ∃ b raw c toRaw, op = .renameAt b raw c toRaw
  · obtain ⟨b, raw, c, toRaw, rfl⟩ := hrename
    exact .bind_base fun d _ => .onBase hs (fun d' _ => hknows.renameAt hcons d raw d' toRaw) fun _ _ => rfl
  · refine (op.knows lasting_isFile hs (knowsFiles_iff.1 hknows) (fun _ _ _ => knowsFiles_iff.1 hknows) ?_).imp
      fun _ _ hw => knowsFiles_iff.2 hw
    exact fun b raw c toRaw e => hrename ⟨b, raw, c, toRaw, e⟩

omit [LinkMap μ] in
theorem Operation.Tries.tame {op : Operation} {a : Act} (h : op.Tries s a) : Tame a := by
  cases h with
  | wait | lock | setSize => exact ⟨trivial, by simp⟩

/-- An operation that fails has remembered nothing. -/
theorem KnowsFiles.happen (hknows : s.space.KnowsFiles) (hs : s.space.Upright) (e : Event) :
    (e.happen s).space.KnowsFiles := by
  cases e with
  | use op =>
    show (op.run s).2.space.KnowsFiles
    rcases hrun : op.run s with ⟨_ | a, t⟩
    · exact ((op.ended hs.healthy).error hrun).1.knowsFiles (fun _ => Operation.Tries.tame) hknows
    · exact (op.knowsFiles hs.healthy hs.consistent hknows).ok hrun
  | work n => exact (reaches_runJobs n s.space).knowsFiles (fun _ => tame_of_wait) hknows
  | pace l => exact hknows

theorem Session.knowsFiles_played (run : List Moment) (hs : s.space.Upright) (hknows : s.space.KnowsFiles) :
    (s.played run).space.KnowsFiles := by
  refine (Session.played_induction (I := fun s => s.space.Upright ∧ s.space.KnowsFiles) ?_ ?_ run ⟨hs, hknows⟩).2
  · exact fun e s h => ⟨h.1.happen e, h.2.happen h.1 e⟩
  · exact fun host store s h => ⟨h.1.clocked host store, h.2.of_kinds rfl fun _ => rfl⟩

/-- At the start no sizes are remembered. -/
theorem sizes_of_start {w w' : World Memory μ} (hstart : start o w = (.ok v, w'))
    (hstore : w.files.Reachable) : v.sizes = ∅ := by
  unfold start at hstart
  split at hstart
  · cases hstart
  · rcases enter_cases hstart rfl rfl hstore.closed with rfl | ⟨p, f, rfl, -, -⟩
    · rfl
    · rfl

omit [LinkMap μ] in
theorem knowsFiles_of_empty (h : v.sizes = ∅) : v.KnowsFiles := by
  intro q hq
  rw [h] at hq
  exact absurd (Table.get?_empty q) hq

theorem knowsFiles_of_start {w w' : World Memory μ} (hstart : start o w = (.ok v, w'))
    (hstore : w.files.Reachable) : v.KnowsFiles :=
  knowsFiles_of_empty (sizes_of_start hstart hstore)

/-! ### Renames that succeed -/

omit [LinkMap μ] in
theorem resolve_congr (base : Option Descriptor) (raw : String) (follow : Bool) (hresolver : w.resolver = v.resolver)
    (hlinks : w.links = v.links) : (resolve base raw follow w).1 = (resolve base raw follow v).1 := by
  have hfrom : ∀ b, (resolveFrom b raw follow w).1 = (resolveFrom b raw follow v).1 := by
    intro b
    unfold resolveFrom
    rw [bind_run, bind_run, show (get : VfsM Memory μ _) w = (.ok w, w) from rfl,
      show (get : VfsM Memory μ _) v = (.ok v, v) from rfl]
    simp only [hresolver, hlinks]
    cases v.resolver.relative b raw with
    | error f => rfl
    | ok p =>
      simp only
      cases v.resolver.resolveLinks v.links p follow <;> rfl
  cases base with
  | none => exact hfrom none
  | some d =>
    unfold resolve
    dsimp only
    split
    · rfl
    · exact hfrom (some d.path)

/-- A path that is found is found without a change. -/
theorem Healthy.resolve_run (hv : v.Healthy) {base : Option Descriptor} {raw : String} {follow : Bool}
    (h : (resolve base raw follow v).1 = .ok p) : resolve base raw follow v = (.ok p, v) := by
  rcases hrun : resolve base raw follow v with ⟨r, w⟩
  rw [hrun] at h
  cases h
  rw [((ends_resolve (F := Any) base raw follow v hv).ok hrun).1]

omit [LinkMap μ] in
theorem Planned.congr (h : Planned source target entry v) (hlinks : w.links = v.links)
    (hkind : ∀ q, w.memory.kind? q = v.memory.kind? q) : Planned source target entry w := by
  have hkindAt : ∀ q, w.kindAt q = v.kindAt q := fun q => by unfold kindAt; rw [hlinks, hkind]
  obtain ⟨dir, hparent, hdir⟩ := h.parent
  refine ⟨h.root, (hkindAt source).trans h.found, (hkindAt target).trans h.free, ⟨dir, hparent, ?_⟩, h.outside⟩
  rw [← kind?_eq_directory_iff, hkind, kind?_eq_directory_iff]
  exact hdir

variable {base toBase : Option Descriptor} {raw toRaw : String}

/-- A rename between two paths that succeeds had a plan. -/
theorem Healthy.planned (hv : v.Healthy) (hsource : (resolve base raw false v).1 = .ok source)
    (htarget : (resolve toBase toRaw false v).1 = .ok target) (hne : source ≠ target)
    (hrun : renameAt base raw toBase toRaw v = (.ok (), w)) : ∃ entry, Planned source target entry v := by
  have hplan := ends_renamePlan base raw toBase toRaw v hv
  unfold renameAt at hrun
  rw [bind_run] at hrun
  rcases hp : renamePlan base raw toBase toRaw v with ⟨_ | r, u⟩
  · rw [hp] at hrun
    cases hrun
  · obtain ⟨hr, source', target', hsource', htarget', ⟨-, e⟩ | ⟨entry, -, h⟩⟩ := hplan.ok hp
    all_goals
      rw [hsource'] at hsource
      rw [htarget'] at htarget
      cases hsource
      cases htarget
    · exact absurd e hne
    · exact ⟨entry, h.congr hr.waited.links.symm fun q => (hr.waited.kind? q).symm⟩

/-- What can be done is found to be so. -/
theorem Planned.renamePlan_run (h : Planned source target entry v) (hv : v.Healthy) (hcons : v.Consistent)
    (hsource : resolve base raw false v = (.ok source, v)) (htarget : resolve toBase toRaw false v = (.ok target, v)) :
    wp (renamePlan base raw toBase toRaw) (fun r _ => ∃ e, r = some (source, target, e)) (fun _ _ => False) v := by
  have hbeside := h.beside hv.closed hcons
  obtain ⟨dir, hparent, hdir⟩ := h.parent
  obtain ⟨n, rfl⟩ := parent?_eq_some_iff.1 hparent
  have hdirAt : v.kindAt dir = some .directory := by
    refine kindAt_eq_directory_iff.2 ⟨?_, hdir⟩
    rw [Option.eq_none_iff_forall_not_mem]
    intro t ht
    rw [hcons.apart dir t ht] at hdir
    cases hdir
  -- Each look finds what was planned, since jobs do not change kinds.
  obtain ⟨found, w₁, hrun₁, hr₁, hk₁⟩ := hv.kind_lookup source
  obtain ⟨free, w₂, hrun₂, hr₂, hk₂⟩ := (hr₁.healthy hv).kind_lookup (dir.child n)
  obtain ⟨parent, w₃, hrun₃, hr₃, hk₃⟩ := ((hr₁.trans hr₂).healthy hv).kind_lookup dir
  rw [h.found] at hk₁
  rw [hr₁.waited.kindAt, h.free, Option.map_eq_none_iff] at hk₂
  rw [(hr₁.trans hr₂).waited.kindAt, hdirAt] at hk₃
  obtain ⟨e, rfl, hkind⟩ := Option.map_eq_some_iff.1 hk₁
  obtain ⟨d, rfl, hdirectory⟩ := Option.map_eq_some_iff.1 hk₃
  subst hk₂
  have hrequire : requireEntry source v = (.ok e, w₁) := by
    unfold requireEntry
    rw [bind_run, hrun₁]
    rfl
  unfold renamePlan
  rw [wp_bind, wp_of_ok hsource, wp_bind, wp_of_ok htarget]
  refine wp_ite.2 ⟨fun hroot => ?_, fun _ => ?_⟩
  · rcases hroot with hroot | hroot
    · exact absurd (isRoot_iff.1 hroot) h.root
    · rw [isRoot_child] at hroot
      cases hroot
  rw [wp_bind, wp_of_ok hrequire]
  refine wp_ite.2 ⟨fun hsame => ?_, fun _ => ?_⟩
  · rw [hsame, Beside, under_refl] at hbeside
    cases hbeside.1
  rw [wp_bind, wp_of_ok hrun₂]
  refine wp_ite.2 ⟨fun hsome => (by cases hsome), fun _ => wp_ite.2 ⟨fun hinto => ?_, fun _ => ?_⟩⟩
  · rw [hbeside.2] at hinto
    cases hinto.2
  unfold requireParent
  rw [parent?_child, wp_bind, wp_bind, wp_of_ok hrun₃]
  cases d with
  | directory => exact ⟨e, rfl⟩
  | file | link => cases hdirectory

/-- What is planned is done. Jobs that are due come first. -/
theorem Planned.renameAt_run (h : Planned source target entry v) (hv : v.Healthy) (hcons : v.Consistent)
    (hknows : v.KnowsFiles) (hsource : (resolve base raw false v).1 = .ok source)
    (htarget : (resolve toBase toRaw false v).1 = .ok target) :
    ∃ w t, Reaches (· = .wait) v w ∧ renameAt base raw toBase toRaw v = (.ok (), t) ∧ Relocated source target w t := by
  have hsource := hv.resolve_run hsource
  have htarget := hv.resolve_run htarget
  obtain ⟨r, w, hrun, e, rfl⟩ := exists_ok_of_wp (h.renamePlan_run hv hcons hsource htarget)
  obtain ⟨hr, source', target', -, -, ⟨hnone, -⟩ | ⟨entry', hsome, hplan⟩⟩ := (ends_renamePlan base raw toBase toRaw v hv).ok hrun
  · cases hnone
  · cases hsome
    obtain ⟨_, t, hmove, hmoved⟩ := exists_ok_of_wp (hplan.wp_relocated (hr.healthy hv) (hr.consistent hv.closed hcons)
      (hr.knowsFiles (fun _ => tame_of_wait) hknows))
    refine ⟨w, t, hr, ?_, hmoved⟩
    unfold renameAt
    rw [bind_run, hrun]
    exact hmove

/-- Without jobs nothing else happens. -/
theorem Planned.carried (h : Planned source target entry v) (hv : v.Healthy) (hcons : v.Consistent) (hknows : v.KnowsFiles)
    (hidle : v.background.queue = []) (hsource : (resolve base raw false v).1 = .ok source)
    (htarget : (resolve toBase toRaw false v).1 = .ok target) :
    ∃ t, renameAt base raw toBase toRaw v = (.ok (), t) ∧ Carried source target v.heldAt t.heldAt ∧
      Carried source target v.sizes.get? t.sizes.get? ∧ t.ColdBelow source := by
  obtain ⟨w, t, hr, hrun, hmoved⟩ := h.renameAt_run hv hcons hknows hsource htarget
  obtain ⟨hqueue, hmemory, -⟩ := hr.waited.idle hidle
  have hheld : w.heldAt = v.heldAt := by
    unfold heldAt
    rw [hr.waited.links, hmemory]
  refine ⟨t, hrun, hheld ▸ hmoved.held hqueue, ?_, hmoved.cold⟩
  rw [← hr.waited.sizes]
  exact hmoved.sizes

/-- The namespace over a store that moves entries between directories by its own means, or does not. -/
def withCrossMoves (v : Vfs Memory μ) (native : Bool) : Vfs Memory μ :=
  v.withFiles { v.world.files with crossMoves := native }

omit [LinkMap μ] in
theorem Healthy.withCrossMoves (hv : v.Healthy) (native : Bool) : (v.withCrossMoves native).Healthy where
  closed := hv.closed.congr fun _ => rfl
  short := hv.short
  sound := ⟨⟨hv.sound.handles.held, hv.sound.handles.known⟩, hv.sound.queue, hv.sound.cold⟩

/-- A rename moves one subtree. A namespace is started on a store without locks, with links that fit it or none, and it is
put to any use. When no job waits and an entry is renamed from one path to another with success, each path at and below the
first one has nothing any more, and what it had is at the same place below the second one: a directory, a file with its bytes
or a link with its target. All else is as it was. No handle is left on what went away, and the sizes that were remembered of
it went with it. Whether the store can move entries between directories makes no difference to any of this. -/
theorem rename_moves_one_subtree {μ : Type} [LinkMap μ] {o : Options} {w w' : World Memory μ} {v u t : Vfs Memory μ}
    (hstart : start o w = (.ok v, w')) (hstore : w.files.Reachable) (hfree : ∀ p, w.files.isLocked p = false)
    (hlinks : (∀ p, v.links.get? p = none) ∨ v.Consistent) (descriptors : Table String Descriptor) (run : List Moment)
    (hplayed : (Session.played ⟨v, descriptors⟩ run).space = u) (hidle : u.background.queue = [])
    {base toBase : Option Descriptor} {raw toRaw : String} {source target : Path}
    (hsource : (resolve base raw false u).1 = .ok source) (htarget : (resolve toBase toRaw false u).1 = .ok target)
    (hne : source ≠ target) (hrun : renameAt base raw toBase toRaw u = (.ok (), t)) :
    Carried source target u.heldAt t.heldAt ∧ Carried source target u.knownSize? t.knownSize? ∧
    (∀ q, q.under source = true → t.isWarm q = false) ∧
    ∀ native, ∃ t', renameAt base raw toBase toRaw (u.withCrossMoves native) = (.ok (), t') ∧
      t'.heldAt = t.heldAt ∧ t'.sizes = t.sizes := by
  have hv : v.Upright := upright_of_start hstart hstore hfree hlinks
  have hu : u.Upright := hplayed ▸ Session.upright_played run hv
  have hknows : u.KnowsFiles := hplayed ▸ Session.knowsFiles_played run hv (knowsFiles_of_start hstart hstore)
  obtain ⟨entry, hplan⟩ := hu.healthy.planned hsource htarget hne hrun
  obtain ⟨t₁, hrun₁, hheld, hsizes, hcold⟩ := hplan.carried hu.healthy hu.consistent hknows hidle hsource htarget
  obtain rfl : t₁ = t := congrArg Prod.snd (hrun₁.symm.trans hrun)
  refine ⟨hheld, hsizes, fun q hq => Table.contains_eq_false_iff.2 (hcold q hq), fun native => ?_⟩
  have hplan' : Planned source target entry (u.withCrossMoves native) := hplan.congr rfl fun _ => rfl
  have hsource' : (resolve base raw false (u.withCrossMoves native)).1 = .ok source :=
    (resolve_congr (v := u) (w := u.withCrossMoves native) base raw false rfl rfl).trans hsource
  have htarget' : (resolve toBase toRaw false (u.withCrossMoves native)).1 = .ok target :=
    (resolve_congr (v := u) (w := u.withCrossMoves native) toBase toRaw false rfl rfl).trans htarget
  obtain ⟨t₂, hrun₂, hheld', hsizes', -⟩ := hplan'.carried (hu.healthy.withCrossMoves native)
    (hu.consistent.congr (fun _ => rfl) rfl) (hknows.of_kinds rfl fun _ => rfl) hidle hsource' htarget'
  exact ⟨t₂, hrun₂, hheld.unique hheld', Table.ext_get? fun q => congrFun (hsizes.unique hsizes') q⟩

/-- A directory in another one, with a file and a link in it. -/
def cliff : List Moment :=
  [.event (.use (.createDirectoryAt none "cliff")), .event (.use (.createDirectoryAt none "cliff/nest")),
    .event (.use (.openAt none "cliff/nest/egg" .createFile (some "fd"))), .event (.use (.write "fd" [1, 2] 0)),
    .event (.use (.symlinkAt none "egg" "cliff/nest/twig")), .event (.work 1)]

/-- The inner directory is moved out of the other one, and what is in it goes along. -/
theorem rename_moves_one_subtree_off_cliff :
    ∃ t, renameAt none "cliff/nest" none "nest" (Session.played ⟨inMemory, ∅⟩ cliff).space = (.ok (), t) ∧
      t.heldAt ⟨[⟨"nest", by decide⟩, ⟨"egg", by decide⟩]⟩ = some (.stored (.file [1, 2])) ∧
      t.heldAt ⟨[⟨"nest", by decide⟩, ⟨"twig", by decide⟩]⟩ = some (.link "egg") ∧
      t.heldAt ⟨[⟨"cliff", by decide⟩, ⟨"nest", by decide⟩]⟩ = none ∧
      t.knownSize? ⟨[⟨"nest", by decide⟩, ⟨"egg", by decide⟩]⟩ = some ⟨2, 0⟩ := by
  obtain ⟨hstart, hstore, hfree⟩ := inMemory_started
  have hbefore : (Session.played ⟨inMemory, ∅⟩ cliff).space.background.queue = [] ∧
      (resolve none "cliff/nest" false (Session.played ⟨inMemory, ∅⟩ cliff).space).1 =
        .ok ⟨[⟨"cliff", by decide⟩, ⟨"nest", by decide⟩]⟩ ∧
      (resolve none "nest" false (Session.played ⟨inMemory, ∅⟩ cliff).space).1 = .ok ⟨[⟨"nest", by decide⟩]⟩ ∧
      (renameAt none "cliff/nest" none "nest" (Session.played ⟨inMemory, ∅⟩ cliff).space).1 = .ok () ∧
      (Session.played ⟨inMemory, ∅⟩ cliff).space.heldAt ⟨[⟨"cliff", by decide⟩, ⟨"nest", by decide⟩, ⟨"egg", by decide⟩]⟩ =
        some (.stored (.file [1, 2])) ∧
      (Session.played ⟨inMemory, ∅⟩ cliff).space.heldAt ⟨[⟨"cliff", by decide⟩, ⟨"nest", by decide⟩, ⟨"twig", by decide⟩]⟩ =
        some (.link "egg") ∧
      (Session.played ⟨inMemory, ∅⟩ cliff).space.knownSize?
        ⟨[⟨"cliff", by decide⟩, ⟨"nest", by decide⟩, ⟨"egg", by decide⟩]⟩ = some ⟨2, 0⟩ := by
    decide +kernel
  obtain ⟨hidle, hsource, htarget, hok, hegg, htwig, hsize⟩ := hbefore
  rcases hrun : renameAt none "cliff/nest" none "nest" (Session.played ⟨inMemory, ∅⟩ cliff).space with ⟨r, t⟩
  obtain rfl : r = .ok () := (congrArg Prod.fst hrun).symm.trans hok
  obtain ⟨hheld, hsizes, -, -⟩ := rename_moves_one_subtree hstart hstore hfree (Or.inl fun _ => Table.get?_empty _) ∅ cliff
    rfl hidle hsource htarget (by decide) hrun
  exact ⟨t, rfl, (hheld.there ⟨[⟨"egg", by decide⟩]⟩).trans hegg, (hheld.there ⟨[⟨"twig", by decide⟩]⟩).trans htwig,
    hheld.gone _ (by decide), (hsizes.there ⟨[⟨"egg", by decide⟩]⟩).trans hsize⟩

end Vfs

end Filespace
