import Filespace.Proofs.NamespaceOperations
import Filespace.Proofs.Reachability
import Filespace.Vfs.Start

/-!
# Renaming is a chain of steps

A rename first looks (`renamePlan`), then moves (`relocate`). Until the move is made in the store all steps are quiet:
they keep the entries outside the target. The move is made by the store at once, or by a copy, which is a step of its
own, and a removal of the source; either way its last call and the change of the links are one step.
-/

namespace Filespace

open Storage Memory Path Error

/-! ### Trees in which an entry has moved -/

namespace Storage.Memory

variable {m : Memory} {source target : Path}

/-- The store's own move. -/
theorem Closed.moved_graft (hc : m.Closed) (hroot : source ≠ .root) (hpresent : m.node? source ≠ none)
    (houtside : target.under source = false) (hfree : m.node? target = none)
    (hparent : ∃ dir, target.parent? = some dir ∧ m.node? dir = some .directory) (hunlocked : m.Unlocked source) :
    Moved source target m (m.graft source target) := by
  obtain ⟨dir, hp, hd⟩ := hparent
  have hbeside := hc.beside hpresent hfree houtside
  have hthere : ∀ r, (m.graft source target).node? (target.join r) = m.node? (source.join r) := by
    intro r
    rw [hc.node?_graft hfree, relativeTo?_join]
  refine ⟨hc.graft hroot houtside hfree hp hd, hpresent, hbeside, ?_, ?_, ?_, ?_, ?_, hc.short_graft hfree⟩
  · intro q hq
    rw [hc.node?_graft hfree, relativeTo?_eq_none_iff.2 (not_under_of_beside hbeside hq)]
    exact if_pos hq
  · intro r
    exact congrArg (Option.map Node.kind) (hthere r)
  · intro q hs ht
    rw [hc.node?_graft hfree, relativeTo?_eq_none_iff.2 ht]
    exact if_neg (by rw [hs]; simp)
  · rintro q (hq | hq)
    · exact hunlocked q hq
    · unfold isLocked
      rw [hc.nothing_under hfree hq]
  · intro q hq
    obtain ⟨r, rfl⟩ := under_iff_exists_join.1 hq
    have := hunlocked _ (under_join source r)
    unfold isLocked at this ⊢
    rwa [hthere r]

/-- A removal of what was copied. -/
theorem Closed.moved_prune (hc : m.Closed) (hroot : source ≠ .root) (hpresent : m.node? source ≠ none)
    (hbeside : source.Beside target)
    (hcopy : ∀ r, m.kind? (target.join r) = m.kind? (source.join r))
    (hunlocked : ∀ q, q.under source = true ∨ q.under target = true → m.isLocked q = false) :
    Moved source target m (m.prune source) := by
  have hthere : ∀ q, q.under target = true → (m.prune source).node? q = m.node? q := by
    intro q hq
    rw [node?_prune]
    rw [not_under_of_beside hbeside.symm hq]
    simp
  refine ⟨hc.prune hroot, hpresent, hbeside, ?_, ?_, ?_, hunlocked, ?_, fun hs => hs.prune source⟩
  · intro q hq
    rw [node?_prune, if_pos hq]
  · intro r
    rw [← hcopy r]
    exact congrArg (Option.map Node.kind) (hthere _ (under_join target r))
  · intro q hs _
    rw [node?_prune, if_neg (by rw [hs]; simp)]
  · intro q hq
    have := hunlocked q (Or.inr hq)
    unfold isLocked at this ⊢
    rwa [hthere q hq]

end Storage.Memory

namespace Vfs

variable {φ μ : Type} [FileStore φ] [Backed φ] [LinkMap μ] {u v w : Vfs φ μ} {source target p : Path} {entry : Entry}
  {e : Error}

/-! ### Moving an entry in the store -/

/-- An entry can be moved: it is there, and the target is free, in a directory and not below the entry. -/
structure Movable (source target : Path) (v : Vfs φ μ) : Prop where
  closed : v.memory.Closed
  root : source ≠ .root
  present : v.memory.kind? source ≠ none
  free : v.memory.kind? target = none
  unlinked : v.links.get? target = none
  parent : ∃ dir, target.parent? = some dir ∧ v.memory.kind? dir = some .directory
  outside : target.under source = false

omit [LinkMap μ] in
theorem Movable.congr (h : Movable source target v) (hlinks : w.links = v.links)
    (hkind : ∀ q, w.memory.kind? q = v.memory.kind? q) : Movable source target w := by
  refine ⟨h.closed.congr hkind, h.root, ?_, ?_, ?_, ?_, h.outside⟩
  · rw [hkind]
    exact h.present
  · rw [hkind]
    exact h.free
  · rw [hlinks]
    exact h.unlinked
  · simp only [hkind]
    exact h.parent

theorem Movable.waited (h : Movable source target v) (hr : Reaches (· = .wait) v w) : Movable source target w :=
  h.congr hr.waited.links hr.waited.kind?

omit [LinkMap μ] in
theorem Movable.beside (h : Movable source target v) : source.Beside target :=
  h.closed.beside (fun e => h.present (kind?_eq_none_iff.2 e)) (kind?_eq_none_iff.1 h.free) h.outside

omit [LinkMap μ] in
theorem Movable.hasParent (h : Movable source target v) : HasParent v.memory target := by
  obtain ⟨dir, hp, hd⟩ := h.parent
  exact ⟨dir, hp, kind?_eq_directory_iff.1 hd⟩

/-- The last call of a move in the store. -/
def MovedBy (source target : Path) (u w : Vfs φ μ) : Prop :=
  ∃ f, w = u.withFiles f ∧ Moved source target u.memory (Backed.tree f) ∧
    (u.memory.node? target = none ∧ u.links.get? target = none ∨
      ∀ r, u.memory.kind? (target.join r) = u.memory.kind? (source.join r))

/-- A request is a call on the store after some waiting. -/
theorem wp_call {r : Request} {Q : Reply (FileStore.Handle φ) → Vfs φ μ → Prop} {E : Error → Vfs φ μ → Prop}
    (h : ∀ w, Reaches (· = .wait) v w → wp (onFiles r.execute) Q E w) : wp (call r) Q E v := by
  unfold call
  rw [wp_bind]
  exact h _ (reaches_runDue v)

/-- Steps that keep the entries outside a path. -/
abbrev QuietOutside (target : Path) : Act → Prop := Quiet fun q => q.under target = false

theorem Reaches.quiet {S : Path → Prop} (h : Reaches (· = .wait) v w) : Reaches (Quiet S) v w :=
  h.of_only trivial

/-- The entries at and below one path stand at another too. -/
structure Copied (source target : Path) (v : Vfs φ μ) : Prop where
  closed : v.memory.Closed
  beside : source.under target = false ∧ target.under source = false
  content : ∀ r, v.memory.content? (target.join r) = v.memory.content? (source.join r)
  unlocked : ∀ q, q.under target = true → v.memory.isLocked q = false

/-- The store's own move, if it has one. -/
theorem Movable.wp_move (h : Movable source target v) (hcold : v.ColdBelow source) :
    wp (call (.move source target)) (fun _ w => ∃ u, Reaches (· = .wait) v u ∧ MovedBy source target u w)
      (fun e w => Reaches (· = .wait) v w ∧ (v.Sound → Calm φ e)) v := by
  refine wp_call fun w hr => ?_
  have hw := h.waited hr
  refine wp_onFiles ((Request.treeWp_move hw.closed source target).mono ?_ ?_)
  · rintro r m ⟨hroot, hpresent, houtside, hfree, hparent, hunlocked, rfl⟩ f hf
    refine ⟨w, hr, f, rfl, ?_, Or.inl ⟨hfree, hw.unlinked⟩⟩
    rw [hf]
    exact hw.closed.moved_graft hroot hpresent houtside hfree hparent hunlocked
  · rintro e m ⟨rfl, hb⟩ f hf
    refine ⟨hr.trans (reaches_withFiles rfl hf), fun hs => Error.calm_storage (hb.mono ?_)⟩
    exact (hr.sound h.closed hs).none_locked (hcold.waited hr.waited)

/-- The steps of a move before its last call. -/
def Copying (source target : Path) (a : Act) : Prop := a = .wait ∨ a = .copy source target

theorem Reaches.copying (h : Reaches (· = .wait) v w) : Reaches (Copying source target) v w :=
  h.mono fun _ => Or.inl

theorem Copying.quiet {a : Act} (h : Copying source target a) : QuietOutside target a := by
  rcases h with rfl | rfl
  · trivial
  · exact fun _ hq => hq

/-- The steps that drop what is held of the entries at and below a path. -/
def Clearing (p : Path) : Act → Prop
  | .wait => True
  | .note => True
  | .unlock _ => True
  | .stale q => q = p
  | _ => False

/-- The steps before the last one of a move. -/
def Moving (source target : Path) (a : Act) : Prop := Clearing source a ∨ a = .copy source target

theorem Clearing.quiet {a : Act} (h : Clearing p a) : Quiet (fun _ => True) a := by
  cases a with
  | wait | note | unlock | stale => trivial
  | _ => exact h.elim

theorem Reaches.clearing (h : Reaches (· = .wait) v w) : Reaches (Clearing p) v w :=
  h.of_only trivial

theorem Reaches.moving (h : Reaches (Copying source target) v w) : Reaches (Moving source target) v w := by
  refine h.mono ?_
  rintro a (rfl | rfl)
  · exact Or.inl trivial
  · exact Or.inr rfl

/-! ### Dropping what is held -/

/-- What was held of the entries at and below a path has been dropped. -/
structure Dropped (p : Path) (v w : Vfs φ μ) : Prop where
  reaches : Reaches (Clearing p) v w
  handles : w.handles = v.handles.filter fun q _ => !q.under p
  sizes : w.sizes = v.sizes.filter fun q _ => !q.under p

namespace Dropped

theorem kept (h : Dropped p v w) : Kept (fun _ => True) v w := (h.reaches.mono fun _ => Clearing.quiet).kept

theorem kindAt (h : Dropped p v w) (q : Path) : w.kindAt q = v.kindAt q := by
  unfold Vfs.kindAt
  rw [h.kept.links, h.kept.kind q trivial]

theorem cold (h : Dropped p v w) {q : Path} (hq : q.under p = true) : w.handles.get? q = none := by
  rw [h.handles]
  exact Table.get?_filter_of_false fun _ => by rw [hq]; rfl

theorem waited (h : Dropped p v w) (hr : Reaches (· = .wait) w u) : Dropped p v u :=
  ⟨h.reaches.trans hr.clearing, hr.waited.handles.trans h.handles, hr.waited.sizes.trans h.sizes⟩

theorem of_waited (hr : Reaches (· = .wait) v w) (h : Dropped p w u) : Dropped p v u :=
  ⟨hr.clearing.trans h.reaches, by rw [h.handles, hr.waited.handles], by rw [h.sizes, hr.waited.sizes]⟩

end Dropped

theorem wp_forgetting {E : Error → Vfs φ μ → Prop} (p : Path) (v : Vfs φ μ) :
    wp (forget p) (fun _ w => Dropped p v w) E v :=
  wp_modify.2 ⟨(wp_modify.1 (wp_forget (E := E) (P := Clearing p) trivial (fun _ => trivial) rfl v)).1, rfl, rfl⟩

/-! ### Moving -/

/-- A copy changes the target only, and if it ends well the target has all. -/
theorem Movable.wp_copy (h : Movable source target v) (hcold : v.ColdBelow source) :
    wp (call (.copy source target))
      (fun _ w => Reaches (Copying source target) v w ∧ w.handles = v.handles ∧ Copied source target w)
      (fun e w => Reaches (Copying source target) v w ∧ (v.Sound → Calm φ e)) v := by
  refine wp_call fun w hr => ?_
  have hw := h.waited hr
  have hfree := kind?_eq_none_iff.1 hw.free
  have hstep : ∀ f, ChangedUnder target w.memory (Backed.tree f) →
      Reaches (Copying source target) v (w.withFiles f) := fun f hf =>
    hr.copying.trans (.single (Or.inr rfl) (.copy hfree hw.unlinked hw.hasParent hf))
  obtain ⟨dir, hp, hd⟩ := hw.hasParent
  refine wp_onFiles ((Request.treeWp_copy hw.closed hp hd hfree hw.beside).mono ?_ ?_)
  · rintro r m ⟨hframe, hcontent⟩ f rfl
    refine ⟨hstep f hframe, hr.waited.handles, hframe.closed, hw.beside, fun r => ?_, hframe.unlocked⟩
    have hsame := hframe.same _ (not_under_of_beside hw.beside (under_join source r))
    exact (hcontent r).trans (congrArg (Option.map Node.content) hsame).symm
  · rintro e m ⟨hframe, hb⟩ f rfl
    refine ⟨hstep f hframe, fun hs => Error.calm_storage (hb.mono ?_)⟩
    exact (hr.sound h.closed hs).none_locked (hcold.waited hr.waited)

/-- The removal of what was copied ends the move. -/
theorem Copied.wp_remove (h : Copied source target v) (hcold : v.ColdBelow source) :
    wp (call (.remove source true))
      (fun _ w => ∃ u, Reaches (· = .wait) v u ∧ MovedBy source target u w)
      (fun e w => Reaches (· = .wait) v w ∧ (v.Sound → Calm φ e)) v := by
  refine wp_call fun w hr => ?_
  have hc := hr.closed h.closed
  have hw := hr.waited
  refine wp_onFiles ((Request.treeWp_remove hc source true).mono ?_ ?_)
  · rintro r m ⟨hroot, hpresent, hfree, -, rfl⟩ f hf
    have hkind : ∀ r, w.memory.kind? (target.join r) = w.memory.kind? (source.join r) := by
      intro r
      rw [hw.kind?, hw.kind?]
      exact kind?_of_content? (h.content r)
    refine ⟨w, hr, f, rfl, ?_, Or.inr hkind⟩
    rw [hf]
    refine hc.moved_prune hroot hpresent h.beside hkind ?_
    rintro q (hq | hq)
    · exact hfree q hq
    · rw [isLocked_of_outline? (hw.outline q)]
      exact h.unlocked q hq
  · rintro e m ⟨rfl, hb⟩ f hf
    refine ⟨hr.trans (reaches_withFiles rfl hf), fun hs => Error.calm_storage (hb.mono ?_)⟩
    exact (hr.sound h.closed hs).none_locked (hcold.waited hw)

/-- An entry is moved by a copy, if it takes one, and a last call. -/
theorem Movable.wp_moveEntry (h : Movable source target v) (hcold : v.ColdBelow source) :
    wp (moveEntry source target)
      (fun _ w => ∃ u, Reaches (Copying source target) v u ∧ MovedBy source target u w)
      (fun e w => Reaches (Copying source target) v w ∧ (v.Sound → Calm φ e)) v := by
  unfold moveEntry
  rw [wp_bind, wp_tryCatch, wp_bind]
  refine (h.wp_move hcold).mono ?_ ?_
  · rintro r w ⟨u, hr, hmoved⟩
    exact ⟨u, hr.copying, hmoved⟩
  · rintro e w ⟨hr, he⟩
    have hcold' := hcold.waited hr.waited
    refine wp_ite.2 ⟨fun _ => ?_, fun _ => ⟨hr.copying, he⟩⟩
    unfold copyThenDelete
    rw [wp_bind]
    refine ((h.waited hr).wp_copy hcold').mono ?_ ?_
    · rintro r x ⟨hx, hhandles, hcopied⟩
      have hreach := hr.copying.trans hx
      rw [wp_bind]
      refine (hcopied.wp_remove fun q hq => by rw [hhandles, hcold' q hq]).mono ?_ ?_
      · rintro r y ⟨u, hu, hmoved⟩
        exact ⟨u, hreach.trans hu.copying, hmoved⟩
      · rintro e y ⟨hy, he⟩
        exact ⟨hreach.trans hy.copying, fun hs => he (hreach.sound h.closed hs)⟩
    · rintro e x ⟨hx, he⟩
      exact ⟨hr.copying.trans hx, fun hs => he (hr.sound h.closed hs)⟩

/-! ### Renaming -/

/-- What a rename has found: an entry, and a free path in a directory that does not lie below the entry. -/
structure Planned (source target : Path) (entry : Entry) (v : Vfs φ μ) : Prop where
  root : source ≠ .root
  found : v.kindAt source = some entry.kind
  free : v.kindAt target = none
  parent : HasParent v.memory target
  outside : entry.isDirectory = true → target.under source = false

/-- A rename looks before it moves. The root is not renamed, nor anything to it. -/
theorem runs_renamePlan (base : Option Descriptor) (raw : String) (toBase : Option Descriptor) (toRaw : String)
    (v : Vfs φ μ) :
    Runs (· = .wait) (renamePlan base raw toBase toRaw)
      (fun r w => ∀ source target entry, r = some (source, target, entry) → Planned source target entry w ∧
        resolve base raw false v = (.ok source, v) ∧ resolve toBase toRaw false v = (.ok target, v))
      (fun e => Calm φ e ∨ resolve base raw false v = (.ok .root, v) ∨
        resolve toBase toRaw false v = (.ok .root, v)) v := by
  refine .bind ((runs_resolved base raw false v).imp_error fun _ => Or.inl) ?_
  rintro source w - ⟨hw, hsource⟩
  subst hw
  refine .bind ((runs_resolved toBase toRaw false _).imp_error fun _ => Or.inl) ?_
  rintro target w' - ⟨hw, htarget⟩
  refine .ite (fun hroot => .throw_bind (Or.inr ?_)) fun hroot => ?_
  · rcases hroot with hroot | hroot
    · exact Or.inl (by rw [hsource, isRoot_iff.1 hroot])
    · exact Or.inr (by rw [htarget, isRoot_iff.1 hroot])
  refine Runs.mono
    (Q := fun r w => ∀ s t e, r = some (s, t, e) → (s = source ∧ t = target) ∧ Planned s t e w) ?_ (fun _ h => h) ?_
    fun _ => Or.inl
  swap
  · rintro r w - hr s t e rfl
    obtain ⟨⟨rfl, rfl⟩, hplan⟩ := hr s t e rfl
    exact ⟨hplan, hsource, htarget⟩
  have hroots : source ≠ .root ∧ target ≠ .root :=
    ⟨fun e => hroot (Or.inl (isRoot_iff.2 e)), fun e => hroot (Or.inr (isRoot_iff.2 e))⟩
  refine .bind (runs_requireEntry source _) fun entry w₁ _ hentry => ?_
  refine .ite (fun _ => .pure fun _ _ _ h => nomatch h) fun _ => ?_
  refine .bind (Q := fun r w => r.map Entry.kind = w.kindAt target ∧ w.kindAt source = some entry.kind)
    ((runs_lookup target w₁).imp fun r w hr hk => ⟨hk, ?_⟩) ?_
  · rw [hr.waited.kindAt, hentry]
  rintro (_ | e) w₂ - ⟨hfree, hentry⟩
  · refine .ite (fun h => absurd h (by simp)) fun _ => ?_
    refine .ite (fun _ => .throw_bind fun h => nomatch h) fun houtside => ?_
    refine .bind (Q := fun _ w => Planned source target entry w)
      ((runs_requireParent target w₂).imp fun _ w hr hparent => ?_) ?_
    · refine ⟨hroots.1, ?_, ?_, hasParent_of_kindAt hroots.2 hparent, ?_⟩
      · rw [hr.waited.kindAt, hentry]
      · rw [hr.waited.kindAt, ← hfree]
        rfl
      · intro hd
        rw [Bool.eq_false_iff]
        exact fun hu => houtside ⟨hd, hu⟩
    · intro _ w _ hplan
      refine .pure ?_
      rintro source' target' entry' ⟨⟩
      exact ⟨⟨rfl, rfl⟩, hplan⟩
  · exact .ite (fun _ => .throw_bind fun h => nomatch h) fun h => absurd rfl h

omit [LinkMap μ] in
/-- What is not a link is in the store, and nothing lies below a file. -/
theorem Planned.movable (h : Planned source target entry v) (hc : v.memory.Closed) (hlink : entry.isLink = false) :
    Movable source target v ∧ v.memory.kind? source = some entry.kind := by
  have hkind : v.memory.kind? source = some entry.kind := by
    have hfound := h.found
    unfold kindAt at hfound
    split at hfound
    · unfold Entry.isLink at hlink
      rw [← Option.some.inj hfound] at hlink
      cases hlink
    · exact hfound
  obtain ⟨hunlinked, hfree⟩ := kindAt_eq_none_iff.1 h.free
  obtain ⟨dir, hp, hd⟩ := h.parent
  have hd := kind?_eq_directory_iff.2 hd
  refine ⟨⟨hc, h.root, by rw [hkind]; simp, kind?_eq_none_iff.2 hfree, hunlinked, ⟨dir, hp, hd⟩, ?_⟩, hkind⟩
  rw [Bool.eq_false_iff]
  intro hu
  -- The parent of the target is a directory at or below the source, so the source is a directory.
  obtain ⟨n, rfl⟩ := parent?_eq_some_iff.1 hp
  have hsource : v.memory.kind? source = some .directory := by
    rcases child_under_iff.1 hu with e | hdir
    · rw [← e, kind?_eq_none_iff.2 hfree] at hkind
      cases hkind
    · by_cases e : dir = source
      · rw [← e, hd]
      · exact hc.above (by rw [hd]; simp) hdir e
  have hdirectory : entry.isDirectory = true := by
    unfold Entry.isDirectory
    rw [hkind] at hsource
    simp [Option.some.inj hsource]
  rw [h.outside hdirectory] at hu
  cases hu

/-- The course of a planned move: a link is renamed among the links. An entry of the store is moved when all that is held of
it was dropped, and then the sizes are put back, and the links below a directory are renamed. -/
theorem Planned.wp_course {M : Vfs φ μ → Vfs φ μ → Prop} {Q : Vfs φ μ → Prop} {E : Error → Vfs φ μ → Prop}
    (h : Planned source target entry v) (hc : v.memory.Closed)
    (hlink : ∀ t, v.links.get? source = some t → Q ({ v with listings := v.listings.clear }.relinked
      (v.links.rename source target).2.1 (v.links.rename source target).2.2))
    (hmove : ∀ w, Dropped source v w → Movable source target w → wp (moveEntry source target) (fun _ x => M w x) E w)
    (htree : ∀ w x, Dropped source v w → M w x → Q ({ x with
        sizes := x.sizes.insertMany (v.sizes.rows.filterMap fun row : Path × FileMeta =>
          (row.1.relativeTo? source).map fun r => (target.join r, row.2)) }.relinked
      (x.links.renameUnder source target).2.1 (x.links.renameUnder source target).2.2))
    (hfile : v.memory.kind? source = some .file → ∀ w x, Dropped source v w → M w x →
      Q { x with sizes := x.sizes.insertMany (v.sizes.rows.filterMap fun row : Path × FileMeta =>
        (row.1.relativeTo? source).map fun r => (target.join r, row.2)) }) :
    wp (relocate source target entry) (fun _ w => Q w) E v := by
  refine wp_ite.2 ⟨fun hentry => ?_, fun hentry => ?_⟩
  · obtain ⟨t, ht⟩ := kindAt_eq_link_iff.1 (h.found.trans (congrArg some (of_decide_eq_true hentry)))
    rw [wp_bind, wp_get]
    exact (wp_of_ok (setLinks_run _ _ _)).2 (hlink t ht)
  · obtain ⟨hmovable, hkind⟩ := h.movable hc (by simpa using hentry)
    rw [wp_bind, wp_get, wp_bind]
    refine (wp_forgetting source _).imp fun _ w hw => ?_
    have hw : Dropped source v w := ⟨.trans (.single (a := .note) trivial .note) hw.reaches, hw.handles, hw.sizes⟩
    rw [wp_bind]
    refine (hmove w hw (hmovable.congr hw.kept.links fun q => hw.kept.kind q trivial)).imp fun _ x hx => ?_
    refine wp_ite.2 ⟨fun _ => ?_, fun hdirectory => hfile (hkind.trans ?_) w x hw hx⟩
    · rw [wp_bind, wp_get]
      exact (wp_of_ok (setLinks_run _ _ _)).2 (htree w x hw hx)
    · cases entry with
      | directory => exact absurd rfl hdirectory
      | file size modified => rfl
      | link t => exact absurd rfl hentry

/-- A planned move keeps the entries outside its target until it is made, by one step. -/
theorem Planned.wp_relocate (h : Planned source target entry v) (hc : v.memory.Closed) :
    wp (relocate source target entry)
      (fun _ w => ∃ u, Reaches (Moving source target) v u ∧
        (Step (.relink source target) u w ∨ Step (.move source target) u w))
      (fun e w => Reaches (QuietOutside target) v w ∧ source.Beside target ∧
        (v.Sound → Calm φ e)) v := by
  have hreach : ∀ {w u : Vfs φ μ}, Dropped source v w → Reaches (Copying source target) w u →
      Reaches (Moving source target) v u := fun hw hu => (hw.reaches.mono fun _ => Or.inl).trans hu.moving
  refine h.wp_course (M := fun w x => Movable source target w ∧ ∃ u, Reaches (Copying source target) w u ∧
    MovedBy source target u x) hc (fun t ht => ?_) (fun w hw hmovable => ?_) ?_ ?_
  · exact ⟨_, .single (a := .note) (Or.inl trivial) .note, Or.inl (.relink ht (kindAt_eq_none_iff.1 h.free).2 h.parent)⟩
  · refine (hmovable.wp_moveEntry fun _ => hw.cold).mono (fun _ _ hx => ⟨hmovable, hx⟩) ?_
    rintro e u ⟨hu, he⟩
    have hquiet : Reaches (QuietOutside target) v w := hw.reaches.mono fun _ ha => ha.quiet.mono fun _ _ => trivial
    exact ⟨hquiet.trans (hu.mono fun _ => Copying.quiet), hmovable.beside, fun hs => he (hquiet.sound hc hs)⟩
  · rintro w _ hw ⟨-, u, hu, f, rfl, hmoved, hfree⟩
    exact ⟨u, hreach hw hu, Or.inr (.moveTree hfree hmoved)⟩
  · rintro hkind w _ hw ⟨hmovable, u, hu, f, rfl, hmoved, hfree⟩
    have hfile : u.memory.kind? source = some .file := by
      rw [(hu.mono fun _ => Copying.quiet).kept.kind source hmovable.beside.1, hw.kept.kind source trivial, hkind]
    obtain ⟨d, hd⟩ := kind?_eq_file_iff.1 hfile
    exact ⟨u, hreach hw hu, Or.inr (.moveFile hd hfree hmoved)⟩

/-- A rename is refused as busy only if it names the root. -/
theorem runs_renameAt (base : Option Descriptor) (raw : String) (toBase : Option Descriptor) (toRaw : String)
    (v : Vfs φ μ) :
    Runs Any (renameAt base raw toBase toRaw) (fun _ _ => True)
      (fun e => Calm φ e ∨ resolve base raw false v = (.ok .root, v) ∨
        resolve toBase toRaw false v = (.ok .root, v)) v := by
  refine .bind (runs_renamePlan base raw toBase toRaw v).toAny ?_
  rintro (_ | ⟨source, target, entry⟩) w - hplan
  · exact .pure trivial
  · intro hc
    refine ((hplan source target entry rfl).1.wp_relocate hc).mono ?_ ?_
    · rintro - u ⟨x, hx, hu⟩
      refine ⟨(hx.mono fun _ _ => trivial).trans ?_, trivial⟩
      rcases hu with hu | hu <;> exact .single trivial hu
    · rintro e u ⟨hu, -, he⟩
      exact ⟨hu.mono fun _ _ => trivial, fun hs => Or.inl (he hs)⟩

/-! ### Renames that fail -/

/-- A rename that fails has kept the links and all entries outside its target, if no jobs were waiting. The source is
outside the target. -/
theorem kept_of_failed_rename {base toBase : Option Descriptor} {raw toRaw : String}
    (hfail : renameAt base raw toBase toRaw v = (.error e, w)) (hc : v.memory.Closed) :
    Kept (fun _ => True) v w ∨ ∃ source target, resolve base raw false v = (.ok source, v) ∧
      resolve toBase toRaw false v = (.ok target, v) ∧ source.Beside target ∧
      Kept (fun q => q.under target = false) v w := by
  have hwp : wp (renameAt base raw toBase toRaw) (fun _ _ => True) (fun _ w => Kept (fun _ => True) v w ∨
      ∃ source target, resolve base raw false v = (.ok source, v) ∧ resolve toBase toRaw false v = (.ok target, v) ∧
        source.Beside target ∧ Kept (fun q => q.under target = false) v w) v := by
    unfold renameAt
    rw [wp_bind]
    refine (runs_renamePlan base raw toBase toRaw v hc).mono ?_ ?_
    · rintro (_ | ⟨source, target, entry⟩) u ⟨hr, hplan⟩
      · trivial
      · obtain ⟨hplan, hsource, htarget⟩ := hplan source target entry rfl
        refine (hplan.wp_relocate (hr.closed hc)).mono (fun _ _ _ => trivial) ?_
        rintro e w ⟨hw, hbeside, -⟩
        exact Or.inr ⟨source, target, hsource, htarget, hbeside, (hr.quiet.trans hw).kept⟩
    · rintro e u ⟨hr, -⟩
      exact Or.inl hr.quiet.kept
  exact hwp.error hfail

/-- The course of a move by copying when the source cannot be removed in the end: the store has no move of its own, the
copy ends well, and the removal fails. -/
def RemovalFails (source target : Path) (entry : Entry) (v : Vfs φ μ) (e : Error) (w : Vfs φ μ) : Prop :=
  entry.isLink = false ∧ ∃ u₁ u₂ u₃ e' r,
    (do clearListings; forget source) v = (.ok (), u₁) ∧
    call (.move source target) u₁ = (.error e', u₂) ∧ e'.code = .unsupported ∧
    call (.copy source target) u₂ = (.ok r, u₃) ∧ call (.remove source true) u₃ = (.error e, w)

omit [Backed φ] in
/-- That course ends with the failure of the removal. -/
theorem RemovalFails.relocate_eq (h : RemovalFails source target entry v e w) :
    relocate source target entry v = (.error e, w) := by
  obtain ⟨hlink, u₁, u₂, u₃, e', r, hforget, hmove, hcode, hcopy, hremove⟩ := h
  have hmoveEntry : wp (moveEntry source target) (fun _ _ => False) (fun x u => x = e ∧ u = w) u₁ := by
    unfold moveEntry copyThenDelete
    rw [wp_bind, wp_tryCatch, wp_bind, wp_of_error hmove]
    show wp (if e'.code = .unsupported then _ else _) _ _ u₂
    rw [if_pos hcode, wp_bind, wp_of_ok hcopy, wp_bind, wp_of_error hremove]
    exact ⟨rfl, rfl⟩
  refine eq_error_of_wp ?_
  cases hforget
  unfold relocate clearListings
  rw [wp_bind, wp_modify, wp_ite]
  refine ⟨fun h => absurd h (by rw [hlink]; simp), fun _ => ?_⟩
  rw [wp_bind, wp_get, wp_bind]
  unfold forget
  rw [wp_modify, wp_bind]
  exact hmoveEntry.imp fun _ _ h => h.elim

omit [Backed φ] in
theorem RemovalFails.renameAt_eq {base toBase : Option Descriptor} {raw toRaw : String}
    {u : Vfs φ μ} (hplan : renamePlan base raw toBase toRaw v = (.ok (some (source, target, entry)), u))
    (h : RemovalFails source target entry u e w) : renameAt base raw toBase toRaw v = (.error e, w) := by
  refine eq_error_of_wp ?_
  unfold renameAt
  rw [wp_bind, wp_of_ok hplan]
  exact (wp_of_error h.relocate_eq).2 ⟨rfl, rfl⟩

/-- If only the removal of the source fails, the target has all. -/
theorem Planned.content_of_removalFails (h : Planned source target entry v)
    (hc : v.memory.Closed) (hidle : v.background.queue = []) (hfail : RemovalFails source target entry v e w) (r : Path) :
    w.memory.content? (target.join r) = v.memory.content? (source.join r) := by
  obtain ⟨hlink, u₁, u₂, u₃, e', r', hforget, hmove, -, hcopy, hremove⟩ := hfail
  obtain ⟨hmovable, -⟩ := h.movable hc hlink
  have hstart : wp (do clearListings; forget source)
      (fun _ u => Reaches (Quiet fun _ => True) v u ∧ u.ColdBelow source)
      (fun _ _ => True) v := by
    unfold clearListings
    rw [wp_bind, wp_modify]
    refine (wp_forget (P := Quiet fun _ => True) trivial (fun _ => trivial) trivial _).imp ?_
    rintro - u ⟨hr, hcold⟩
    exact ⟨.trans (.single (a := .note) trivial .note) hr, hcold⟩
  obtain ⟨hr₁, hcold₁⟩ := hstart.ok hforget
  have hmovable₁ : Movable source target u₁ := hmovable.congr hr₁.kept.links fun q => hr₁.kept.kind q trivial
  obtain ⟨hr₂, -⟩ := (hmovable₁.wp_move hcold₁).error hmove
  have hcold₂ := hcold₁.waited hr₂.waited
  obtain ⟨hr₃, hhandles, hcopied⟩ := ((hmovable₁.waited hr₂).wp_copy hcold₂).ok hcopy
  obtain ⟨hr₄, -⟩ := (hcopied.wp_remove fun q hq => by rw [hhandles, hcold₂ q hq]).error hremove
  -- Up to the copy all steps keep the source, and without jobs the failed removal changes nothing.
  have hkept : Kept (fun q => q.under target = false) v u₃ :=
    (((hr₁.mono fun _ ha => ha.mono fun _ _ => trivial).trans hr₂.quiet).trans
      (hr₃.mono fun _ => Copying.quiet)).kept
  obtain ⟨hidle₃, -, hrest⟩ := hkept.idle hidle
  have hsource := hrest _ (not_under_of_beside hcopied.beside (under_join source r))
  rw [(hr₄.waited.idle hidle₃).2.1, hcopied.content r]
  exact content?_of_atRest? hsource

/-- A rename that fails loses nothing, whatever calls of the store fail: the links and their records stay, and so does
every entry at or below the source and every entry outside the target. If only the removal of the source failed, after
a copy, the target has all that the source has. -/
theorem failed_rename_keeps_data {μ : Type} [LinkMap μ] {v w : Vfs (Faulty Memory) μ}
    {base toBase : Option Descriptor} {raw toRaw : String} {e : Error} (hstore : v.world.files.inner.Reachable)
    (hidle : v.background.queue = []) (hfail : renameAt base raw toBase toRaw v = (.error e, w)) :
    (w.links = v.links ∧ w.world.map = v.world.map ∧ w.background.queue = []) ∧
    (∀ source, (resolve base raw false v).1 = .ok source → ∀ q, q.under source = true →
      w.world.files.inner.atRest? q = v.world.files.inner.atRest? q) ∧
    (∀ q, (∀ target, (resolve toBase toRaw false v).1 = .ok target → q.under target = false) →
      w.world.files.inner.atRest? q = v.world.files.inner.atRest? q) ∧
    (∀ source target entry u, renamePlan base raw toBase toRaw v = (.ok (some (source, target, entry)), u) →
      RemovalFails source target entry u e w →
      ∀ r, w.world.files.inner.content? (target.join r) = v.world.files.inner.content? (source.join r)) := by
  have hc : v.memory.Closed := hstore.closed
  have hcopied : ∀ source target entry u, renamePlan base raw toBase toRaw v = (.ok (some (source, target, entry)), u) →
      RemovalFails source target entry u e w →
      ∀ r, w.memory.content? (target.join r) = v.memory.content? (source.join r) := by
    intro source target entry u hplan hremoval r
    obtain ⟨hr, hplan⟩ := (runs_renamePlan base raw toBase toRaw v hc).ok hplan
    obtain ⟨hidle', hmemory, -⟩ := hr.waited.idle hidle
    rw [(hplan source target entry rfl).1.content_of_removalFails (hr.closed hc) hidle' hremoval r, hmemory]
  rcases kept_of_failed_rename hfail hc with hkept | ⟨source, target, hsource, htarget, hbeside, hkept⟩
  · obtain ⟨hqueue, hmap, hsame⟩ := hkept.idle hidle
    exact ⟨⟨hkept.links, hmap, hqueue⟩, fun _ _ q _ => hsame q trivial, fun q _ => hsame q trivial, hcopied⟩
  · obtain ⟨hqueue, hmap, hsame⟩ := hkept.idle hidle
    refine ⟨⟨hkept.links, hmap, hqueue⟩, ?_, ?_, hcopied⟩
    · intro source' hsource' q hq
      rw [hsource] at hsource'
      cases hsource'
      exact hsame q (not_under_of_beside hbeside hq)
    · intro q hq
      exact hsame q (hq target (by rw [htarget]))

/-- A file in one of two directories. -/
def inFirst : Path := (root.child ⟨"a", by decide⟩).child ⟨"f", by decide⟩

/-- A free path in the other one. -/
def inSecond : Path := (root.child ⟨"b", by decide⟩).child ⟨"g", by decide⟩

/-- A store with that file. -/
def twoDirectories : Storage.Session Memory :=
  [Storage.Step.file inFirst true, .writeAt inFirst 0 [1, 2],
    .directory (root.child ⟨"b", by decide⟩) true].foldl (fun s step => (step.run s).2) ⟨({}, {}), ∅⟩

/-- A namespace on that store when nothing can be removed. -/
def withoutRemovals : Vfs (Faulty Memory) Records :=
  let refuse : Nat → Call → Path → Option Failure := fun _ call _ =>
    if call = .remove then some (.refuse .mapUnavailable) else none
  fresh {} {} ⟨{}, { inner := twoDirectories.world.2, plan := refuse }, {}⟩

/-- The plan of a rename of that file. -/
def planned : Vfs (Faulty Memory) Records := (renamePlan none "a/f" none "b/g" withoutRemovals).2

/-- The store moves nothing between directories, the copy ends well, and the removal is refused. -/
theorem removalFails_planned :
    ∃ w, RemovalFails inFirst inSecond (.file 2 0) planned (.storage .mapUnavailable) w := by
  have herror : ∀ {x : Except Error (Reply (FileStore.Handle (Faulty Memory)))} {e : Error},
      (match x with | .error e' => decide (e' = e) | .ok _ => false) = true → x = .error e := by
    rintro (e' | r) e h
    · rw [of_decide_eq_true h]
    · cases h
  have hok : ∀ {x : Except Error (Reply (FileStore.Handle (Faulty Memory)))}, x.isOk = true → ∃ r, x = .ok r := by
    rintro (e | r) h
    · cases h
    · exact ⟨r, rfl⟩
  have hstate : ∀ {α β : Type} {x : α × β} {a : α}, x.1 = a → x = (a, x.2) := by
    rintro _ _ ⟨_, _⟩ _ rfl
    rfl
  let u₁ := ((do clearListings; forget inFirst) planned).2
  have hmove : (call (.move inFirst inSecond) u₁).1 = .error (.storage .noNativeMove) := herror (by decide +kernel)
  let u₂ := (call (.move inFirst inSecond) u₁).2
  obtain ⟨r, hcopy⟩ : ∃ r, (call (.copy inFirst inSecond) u₂).1 = .ok r := hok (by decide +kernel)
  let u₃ := (call (.copy inFirst inSecond) u₂).2
  have hremove : (call (.remove inFirst true) u₃).1 = .error (.storage .mapUnavailable) := herror (by decide +kernel)
  exact ⟨_, rfl, u₁, u₂, u₃, .storage .noNativeMove, r, rfl, hstate hmove, rfl, hstate hcopy, hstate hremove⟩

/-- The file goes to the other directory by copying, its removal fails, and both copies are there. -/
theorem failed_rename_keeps_data_withoutRemovals :
    ∃ w, renameAt none "a/f" none "b/g" withoutRemovals = (.error (.storage .mapUnavailable), w) ∧
      ∀ r, w.world.files.inner.content? (inSecond.join r) =
        withoutRemovals.world.files.inner.content? (inFirst.join r) := by
  have hstore : withoutRemovals.world.files.inner.Reachable := by
    refine ⟨twoDirectories, ?_, rfl⟩
    exact .step _ (.step _ (.step _ (.fresh {} false 0)))
  have hplan : renamePlan none "a/f" none "b/g" withoutRemovals =
      (.ok (some (inFirst, inSecond, .file 2 0)), planned) := Prod.ext (by decide +kernel) rfl
  obtain ⟨w, hremoval⟩ := removalFails_planned
  have hfail := hremoval.renameAt_eq hplan
  exact ⟨w, hfail, (failed_rename_keeps_data hstore rfl hfail).2.2.2 _ _ _ _ hplan hremoval⟩

end Vfs

end Filespace
