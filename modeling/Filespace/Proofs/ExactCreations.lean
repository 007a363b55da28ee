import Filespace.Proofs.MovedSubtrees
import Filespace.Proofs.Substitutions

/-!
# A creation adds what was asked for

What is at each path is a function of the path (`heldAt`), and a creation changes it at one path, or at one path and at
those above it where nothing was (`withParents`). The store makes the directories above a file by itself. That it meets
neither a file nor a link on the way is known from the resolved path and from its own refusal (`heldAt_added`).

A new link does not change what it is found by: nothing is below a free path, so on the way to it no other path is replaced
than before (`Resolver.Leads.insert`). So the target of a new link is read where the link was made.
-/

namespace Filespace

open Storage Memory Path

/-! ### New links and the way to them -/

namespace Resolver

variable {links : Links} {p q : Path} {text : String}

/-- The way to a path beside a new link has the same first link. -/
theorem Meets.insert {dir rest : Path} {n : Name} {target : String} (h : Meets links false q dir n target rest)
    (hp : links.get? p = none) (hbeside : q.under p = false) :
    Meets (links.insert p text).1 false q dir n target rest where
  way := h.way
  link := by
    have hne : dir.child n ≠ p := by
      rintro rfl
      rw [h.link] at hp
      cases hp
    rw [Links.get?_insert, if_neg hne, h.link]
  first l hroot hunder := by
    have hne : l ≠ p := by
      rintro rfl
      have hq : q.under l = true := by
        rw [h.way]
        exact under_trans (under_join _ _) (under_trans (under_child dir n) hunder)
      rw [hbeside] at hq
      cases hq
    rw [Links.get?_insert, if_neg hne, h.first l hroot hunder]
  last := h.last

/-- Without following, no link is met on the way to a path when one is made there. -/
theorem Settled.insert (h : Settled links false p) : Settled (links.insert p text).1 false p := by
  intro l hroot hunder hlast
  have hne : l ≠ p := fun e => Bool.false_ne_true (hlast e)
  rw [Links.get?_insert, if_neg hne, h l hroot hunder hlast]

/-- A new link is found where it was made. -/
theorem Leads.insert {k : Nat} (h : Leads links false k q p) (hsettled : Settled links false p)
    (hfree : ∀ l, l.under p = true → links.get? l = none) : Leads (links.insert p text).1 false k q p := by
  induction h with
  | stop p => exact .stop p
  | @step k q q' p first rest ih =>
    obtain ⟨dir, n, target, behind, dest, hmeets, hdest, hq'⟩ := first
    -- A path that is replaced is not below the new link: the link on the way to it is neither above nor below that.
    have hbeside : q.under p = false := by
      rw [Bool.eq_false_iff]
      intro hunder
      have hlink := hmeets.link
      have hway : q.under (dir.child n) = true := hmeets.way ▸ under_join _ _
      rcases under_total hunder hway with habove | hbelow
      · by_cases e : dir.child n = p
        · rw [hfree _ (e ▸ under_refl p)] at hlink
          cases hlink
        · rw [hsettled _ child_ne_root habove fun e' => absurd e' e] at hlink
          cases hlink
      · rw [hfree _ hbelow] at hlink
        cases hlink
    have hmeets : Meets (links.insert p text).1 false q dir n target behind :=
      hmeets.insert (hfree p (under_refl p)) hbeside
    exact .step ⟨dir, n, target, behind, dest, hmeets, hdest, hq'⟩ (ih hsettled hfree)

theorem resolveLinks_insert {r : Resolver} (h : r.resolveLinks links q false = .ok p)
    (hfree : ∀ l, l.under p = true → links.get? l = none) : r.resolveLinks (links.insert p text).1 q false = .ok p := by
  obtain ⟨k, hle, hleads, hsettled⟩ := chase_eq_ok_iff.1 h
  exact chase_eq_ok_iff.2 ⟨k, hle, hleads.insert hsettled hfree, hsettled.insert⟩

end Resolver

namespace Vfs

variable {μ : Type} {v w u : Vfs Memory μ} {p q : Path} {base : Option Descriptor} {raw text : String}

/-! ### What is at each path -/

/-- The kind of what is at a path. -/
def Held.kind : Held → EntryKind
  | stored .directory => .directory
  | stored (.file _) => .file
  | link _ => .link

/-- A directory at each path above another where nothing is. -/
def withParents (f : Path → Option Held) (p : Path) : Path → Option Held := fun q =>
  if p.under q = true ∧ q ≠ p ∧ f q = none then some (.stored .directory) else f q

theorem kind_heldAt (v : Vfs Memory μ) (p : Path) : (v.heldAt p).map Held.kind = v.kindAt p := by
  unfold heldAt kindAt content? kind?
  cases v.links.get? p with
  | some target => rfl
  | none => rcases v.memory.node? p with _ | (_ | d) <;> rfl

theorem kindAt_of_heldAt {x : Held} (h : v.heldAt p = some x) : v.kindAt p = some x.kind := by
  rw [← kind_heldAt, h]
  rfl

theorem heldAt_eq_none_iff : v.heldAt p = none ↔ v.kindAt p = none := by
  rw [← kind_heldAt, Option.map_eq_none_iff]

theorem heldAt_withFiles (v : Vfs Memory μ) (m : Memory) (q : Path) :
    (v.withFiles m).heldAt q = ((v.links.get? q).map .link).or ((m.content? q).map .stored) := rfl

theorem heldAt_of_node (hlink : v.links.get? p = none) : v.heldAt p = (v.memory.content? p).map .stored := by
  unfold heldAt
  rw [hlink]
  rfl

/-- The tree has grown towards a path, with a new node at its end. -/
theorem heldAt_added (hc : v.memory.Closed) (hlinks : ∀ q ∈ p.trail, v.links.get? q = none) {m : Memory} {x : Content}
    (h : Added p x v.memory m) :
    (v.withFiles m).heldAt = Function.update (withParents v.heldAt p) p (some (.stored x)) := by
  have hroot := h.ne_root hc
  funext q
  rw [heldAt_withFiles]
  by_cases hqp : q = p
  · rw [hqp, Function.update_self, hlinks p (mem_trail_iff.2 ⟨under_refl p, hroot⟩), h.new]
    rfl
  · rw [Function.update_of_ne hqp, withParents]
    by_cases htrail : q ∈ p.trail
    · rw [hlinks q htrail, h.old q hqp, if_pos htrail]
      by_cases hnone : v.heldAt q = none
      · rw [if_pos ⟨(mem_trail_iff.1 htrail).1, hqp, hnone⟩]
        rfl
      · -- Neither a link nor a file is there, so it was a directory before.
        rw [if_neg fun h => hnone h.2.2]
        rw [heldAt_of_node (hlinks q htrail)] at hnone ⊢
        unfold content? at hnone ⊢
        rcases hnode : v.memory.node? q with _ | (_ | d)
        · rw [hnode] at hnone
          exact absurd rfl hnone
        · rfl
        · exact absurd hnode (h.clear q htrail hqp d)
    · have hthere : ¬ (p.under q = true ∧ q ≠ p ∧ v.heldAt q = none) := by
        rintro ⟨hunder, -, hnone⟩
        have hq : q = .root := by
          by_contra hne
          exact htrail (mem_trail_iff.2 ⟨hunder, hne⟩)
        obtain ⟨-, hnode⟩ := kindAt_eq_none_iff.1 (heldAt_eq_none_iff.1 hnone)
        rw [hq, kind?_eq_directory_iff.1 hc.root] at hnode
        cases hnode
      rw [if_neg hthere, h.old q hqp, if_neg htrail]
      rfl

/-- Above a path in a directory there is something everywhere. -/
theorem withParents_heldAt (hc : v.memory.Closed) (hparent : HasParent v.memory p) :
    withParents v.heldAt p = v.heldAt := by
  obtain ⟨dir, hp, hdir⟩ := hparent
  obtain ⟨n, rfl⟩ := parent?_eq_some_iff.1 hp
  funext q
  refine if_neg ?_
  rintro ⟨hunder, hne, hnone⟩
  have hunder := (child_under_iff.1 hunder).resolve_left fun e => hne e.symm
  have hkind : v.memory.kind? q = some .directory := by
    by_cases e : dir = q
    · exact e ▸ kind?_eq_directory_iff.2 hdir
    · exact hc.above (by rw [kind?_eq_directory_iff.2 hdir]; simp) hunder e
  rw [kind?_eq_none_iff.2 (kindAt_eq_none_iff.1 (heldAt_eq_none_iff.1 hnone)).2] at hkind
  cases hkind

variable [LinkMap μ]

/-- Quiet steps change nothing when no job waits. -/
theorem Reaches.heldAt_quiet (h : Reaches (Quiet fun _ => True) v w) (hidle : v.background.queue = []) :
    w.heldAt = v.heldAt := by
  funext q
  unfold heldAt
  rw [h.kept.links, content?_of_atRest? ((h.kept.idle hidle).2.2 q trivial)]

/-- Neither does waiting. -/
theorem Reaches.heldAt_wait (h : Reaches (· = .wait) v w) (hidle : v.background.queue = []) : w.heldAt = v.heldAt :=
  Reaches.heldAt_quiet (h.of_only trivial) hidle

/-! ### Entries of the store -/

/-- The store makes something new, with the directories above it. -/
theorem Made.heldAt {x : Content} (h : Made p x v w) (hc : v.memory.Closed) (hidle : v.background.queue = []) :
    w.heldAt = Function.update (withParents v.heldAt p) p (some (.stored x)) := by
  obtain ⟨u, m, hu, hlinks, hadded, rfl⟩ := h
  rw [← hu.heldAt_wait hidle]
  exact heldAt_added (hu.closed hc) hlinks hadded

/-- It was made where nothing was. -/
theorem Made.free {x : Content} (h : Made p x v w) (hc : v.memory.Closed) (hidle : v.background.queue = []) :
    v.heldAt p = none := by
  obtain ⟨u, m, hu, hlinks, hadded, -⟩ := h
  have htrail : p ∈ p.trail := mem_trail_iff.2 ⟨under_refl p, hadded.ne_root (hu.closed hc)⟩
  rw [← hu.heldAt_wait hidle, heldAt_eq_none_iff, kindAt_eq_none_iff]
  exact ⟨hlinks p htrail, hadded.free⟩

/-- A file that is cut to nothing has no bytes, and all else stays. -/
theorem After.heldAt_cut (h : After (Cutting p) (Resized p 0) v w) (hidle : v.background.queue = [])
    (hlink : v.links.get? p = none) :
    w.heldAt = Function.update v.heldAt p (some (.stored (.file []))) := by
  obtain ⟨u, x, hu, ⟨d, hd, rfl, -⟩, hw⟩ := h
  have hquiet : Reaches (Quiet fun _ => True) v u := hu.mono fun _ ha => ha.quiet _
  have hnotes : Reaches (Quiet fun _ => True) (u.withFiles (u.memory.revised p d (d.bytes.resize 0))) w :=
    hw.of_only trivial
  rw [hnotes.heldAt_quiet (hquiet.kept.idle hidle).1, ← hquiet.heldAt_quiet hidle]
  funext q
  rw [heldAt_withFiles, content?_revised]
  by_cases hqp : q = p
  · rw [hqp, hquiet.kept.links, hlink]
    simp [Bytes.resize]
  · rw [if_neg hqp, Function.update_of_ne hqp]
    rfl

/-! ### Opening -/

/-- What is at each path after an entry was opened. -/
def opened (f : Path → Option Held) (p : Path) (flags : Flags) : Path → Option Held :=
  if f p = none then
    Function.update (withParents f p) p (some (.stored (if flags.directory then .directory else .file [])))
  else if flags.truncate then Function.update f p (some (.stored (.file [])))
  else f

theorem Opens.heldAt {flags : Flags} {e : Entry} (h : Opens p flags v e w) (hc : v.memory.Closed)
    (hlink : v.links.get? p = none) (hidle : v.background.queue = []) :
    w.heldAt = Vfs.opened v.heldAt p flags ∧ w.kindAt p = some e.kind := by
  unfold Vfs.opened
  cases h with
  | look hflag hw he =>
    have hkind : w.kindAt p = some e.kind := by rw [← kind_entryAt, he]; rfl
    have hheld := hw.heldAt_wait hidle
    refine ⟨?_, hkind⟩
    rw [if_neg, if_neg (by rw [hflag]; simp), hheld]
    rw [← hheld, heldAt_eq_none_iff, hkind]
    simp
  | cut hflag hkind hw =>
    have hheld := hw.after.heldAt_cut hidle hlink
    rw [if_neg, if_pos hflag]
    · exact ⟨hheld, kindAt_of_heldAt (by rw [hheld, Function.update_self])⟩
    · rw [heldAt_eq_none_iff, hkind]
      simp
  | @makeDirectory u _ hdir hu =>
    have hheld := hu.heldAt hc hidle
    rw [if_pos (hu.free hc hidle), if_pos hdir]
    have hnew : u.kindAt p = some .directory := kindAt_of_heldAt (by rw [hheld, Function.update_self])
    exact ⟨hheld, hnew⟩
  | @makeFile u _ _ hdir hu =>
    have hheld := hu.heldAt hc hidle
    rw [if_pos (hu.free hc hidle), if_neg (by rw [hdir]; simp)]
    have hnew : u.kindAt p = some .file := kindAt_of_heldAt (by rw [hheld, Function.update_self])
    exact ⟨hheld, hnew⟩

/-- What is opened is at the end of its way, and of the kind that was told. -/
theorem ends_openedAt (base : Option Descriptor) (raw : String) (flags : Flags) (hidle : v.background.queue = []) :
    Ends Any (openAt base raw flags) (fun d w => resolve base raw flags.follow v = (.ok d.path, v) ∧
      Resolver.Settled v.links true d.path ∧ w.heldAt = opened v.heldAt d.path flags ∧ w.kindAt d.path = some d.entry.kind)
      (fun _ => True) v := by
  intro hv
  refine (ends_opensAt base raw flags v).any.imp (fun d w hw => ?_) hv
  obtain ⟨hres, hlink, hlinks, hopens⟩ := hw
  exact ⟨hres, fun l hroot hunder _ => hlinks l (mem_trail_iff.2 ⟨hunder, hroot⟩), hopens.heldAt hv.closed hlink hidle⟩

/-! ### Making directories and links -/

/-- A directory is made where nothing is. -/
theorem ends_createdDirectory (base : Option Descriptor) (raw : String) (hidle : v.background.queue = []) :
    Ends Any (createDirectoryAt base raw) (fun _ w => ∃ p, resolve base raw false v = (.ok p, v) ∧ v.heldAt p = none ∧
      w.heldAt = Function.update v.heldAt p (some (.stored .directory))) (fun _ => True) v := by
  intro hv
  refine (ends_makeDirectoryAt base raw v).any.imp ?_ hv
  rintro - _ ⟨p, u, hres, hparent, hu, rfl⟩
  refine ⟨p, hres, hu.free hv.closed hidle, ?_⟩
  rw [← withParents_heldAt hv.closed hparent]
  exact hu.heldAt hv.closed hidle

/-- A link is made where nothing is, with its text as it is given. -/
theorem ends_linked (base : Option Descriptor) (text raw : String) (hidle : v.background.queue = []) :
    Ends Any (symlinkAt base text raw) (fun _ w => ∃ p, resolve base raw false v = (.ok p, v) ∧ v.heldAt p = none ∧
      w.heldAt = Function.update v.heldAt p (some (.link text)) ∧
      w.resolver = v.resolver ∧ w.links = (v.links.insert p text).1) (fun _ => True) v := by
  refine (ends_makeLinkAt base text raw v).any.imp ?_
  rintro - _ ⟨p, w, hres, hr, hfree, -, rfl⟩
  have hheld := hr.heldAt_wait hidle
  refine ⟨p, hres, ?_, ?_, hr.waited.resolver, ?_⟩
  · rw [← hheld]
    exact heldAt_eq_none_iff.2 hfree
  · funext q
    show (((w.links.insert p text).1.get? q).map Held.link).or ((w.memory.content? q).map .stored) = _
    rw [Links.get?_insert, ← hheld]
    by_cases hqp : q = p
    · rw [hqp, if_pos rfl, Function.update_self]
      rfl
    · rw [if_neg hqp, Function.update_of_ne hqp]
      rfl
  · show (w.links.insert p text).1 = _
    rw [hr.waited.links]

omit [LinkMap μ] in
/-- A new link is found by the text by which it was made. -/
theorem resolve_insert (h : (resolve base raw false v).1 = .ok p) (hfree : ∀ l, l.under p = true → v.links.get? l = none)
    (hresolver : w.resolver = v.resolver) (hlinks : w.links = (v.links.insert p text).1) :
    (resolve base raw false w).1 = .ok p := by
  have hfrom : ∀ b, (resolveFrom b raw false v).1 = .ok p → (resolveFrom b raw false w).1 = .ok p := by
    intro b hb
    unfold resolveFrom at hb ⊢
    rw [bind_run, show (get : VfsM Memory μ _) v = (.ok v, v) from rfl] at hb
    rw [bind_run, show (get : VfsM Memory μ _) w = (.ok w, w) from rfl]
    simp only [hresolver, hlinks] at hb ⊢
    cases hread : v.resolver.relative b raw with
    | error f =>
      rw [hread] at hb
      cases hb
    | ok q =>
      rw [hread] at hb
      simp only at hb ⊢
      cases hq : v.resolver.resolveLinks v.links q false with
      | error e =>
        rw [hq] at hb
        cases hb
      | ok r =>
        rw [hq] at hb
        obtain rfl : r = p := Except.ok.inj hb
        rw [Resolver.resolveLinks_insert hq hfree]
        rfl
  cases base with
  | none => exact hfrom none h
  | some d =>
    unfold resolve at h ⊢
    dsimp only at h ⊢
    split at h
    · cases h
    · rename_i hd
      rw [if_neg hd]
      exact hfrom (some d.path) h

/-- The target of a link is read at its path. -/
theorem Healthy.readlinkAt_run (hv : v.Healthy) (hres : (resolve base raw false v).1 = .ok p)
    (hlink : v.links.get? p = some text) : readlinkAt base raw v = (.ok text, v) := by
  unfold readlinkAt
  rw [bind_run, hv.resolve_run hres]
  simp only
  rw [bind_run, show (get : VfsM Memory μ _) v = (.ok v, v) from rfl]
  simp only [hlink]
  rfl

/-! ### Creations that succeed -/

/-- A creation adds exactly what was asked for. A namespace is started on a store without locks, with links that fit it or
none, and it is put to any use until no job waits. Opening an entry with success gives the path that the text stands for, to
which no link is on the way, and the kind of what a look finds there then. If nothing was there, all that is new is a
directory at each path above where nothing was and, at the path itself, an empty file or, if asked for, a directory. If
something was there, nothing changes, but that a file is emptied if asked for. Making a directory adds one directory where
nothing was. Making a link adds one link where nothing was, and its target is read as it was given, by the text by which it
was made and by every other that stands for its path. -/
theorem creation_adds_what_was_asked {μ : Type} [LinkMap μ] {o : Options} {w w' : World Memory μ} {v u : Vfs Memory μ}
    (hstart : start o w = (.ok v, w')) (hstore : w.files.Reachable) (hfree : ∀ p, w.files.isLocked p = false)
    (hlinks : (∀ p, v.links.get? p = none) ∨ v.Consistent) (descriptors : Table String Descriptor) (run : List Moment)
    (hplayed : (Session.played ⟨v, descriptors⟩ run).space = u) (hidle : u.background.queue = [])
    (base : Option Descriptor) (raw : String) :
    (∀ flags d t, openAt base raw flags u = (.ok d, t) →
      (resolve base raw flags.follow u).1 = .ok d.path ∧ Resolver.Settled u.links true d.path ∧
      (∃ e x, lookup d.path t = (.ok (some e), x) ∧ e.kind = d.entry.kind) ∧
      (u.heldAt d.path = none → t.heldAt = Function.update (withParents u.heldAt d.path) d.path
        (some (.stored (if flags.directory then .directory else .file [])))) ∧
      (u.heldAt d.path ≠ none → t.heldAt =
        if flags.truncate then Function.update u.heldAt d.path (some (.stored (.file []))) else u.heldAt)) ∧
    (∀ t, createDirectoryAt base raw u = (.ok (), t) → ∃ p, (resolve base raw false u).1 = .ok p ∧ u.heldAt p = none ∧
      t.heldAt = Function.update u.heldAt p (some (.stored .directory))) ∧
    (∀ text t, symlinkAt base text raw u = (.ok (), t) → ∃ p, (resolve base raw false u).1 = .ok p ∧ u.heldAt p = none ∧
      t.heldAt = Function.update u.heldAt p (some (.link text)) ∧ (readlinkAt base raw t).1 = .ok text ∧
      ∀ base' raw', (resolve base' raw' false t).1 = .ok p → (readlinkAt base' raw' t).1 = .ok text) := by
  have hv : v.Upright := upright_of_start hstart hstore hfree hlinks
  have hu : u.Upright := hplayed ▸ Session.upright_played run hv
  refine ⟨fun flags d t ht => ?_, fun t ht => ?_, fun text t ht => ?_⟩
  · obtain ⟨hres, hsettled, hheld, hkind⟩ := (ends_openedAt base raw flags hidle hu.healthy).ok ht
    have hhealthy : t.Healthy := ((runs_openAt base raw flags u hu.healthy.closed).ok ht).1.healthy hu.healthy
    refine ⟨by rw [hres], hsettled, ?_, fun hnone => ?_, fun hsome => ?_⟩
    · obtain ⟨e, x, hlook, -, he⟩ := hhealthy.kind_lookup d.path
      obtain ⟨e, rfl, hkinds⟩ := Option.map_eq_some_iff.1 (he.trans hkind)
      exact ⟨e, x, hlook, hkinds⟩
    · rw [hheld, opened, if_pos hnone]
    · rw [hheld, opened, if_neg hsome]
  · obtain ⟨p, hres, hnone, hheld⟩ := (ends_createdDirectory base raw hidle hu.healthy).ok ht
    exact ⟨p, by rw [hres], hnone, hheld⟩
  · obtain ⟨p, hres, hnone, hheld, hresolver, hinsert⟩ := (ends_linked base text raw hidle hu.healthy).ok ht
    have hhealthy : t.Healthy := ((runs_symlinkAt base text raw u hu.healthy.closed).ok ht).1.healthy hu.healthy
    have hlink : t.links.get? p = some text := by rw [hinsert, Links.get?_insert, if_pos rfl]
    have hbelow := (hu.consistent.nothing_at hu.healthy.closed (heldAt_eq_none_iff.1 hnone)).1
    have hres : (resolve base raw false u).1 = .ok p := by rw [hres]
    have hagain := resolve_insert hres hbelow hresolver hinsert
    refine ⟨p, hres, hnone, hheld, by rw [hhealthy.readlinkAt_run hagain hlink], fun base' raw' hres' => ?_⟩
    rw [hhealthy.readlinkAt_run hres' hlink]

/-- A directory with a file in it, and a link to the directory. -/
def fjord : List Moment :=
  [.event (.use (.createDirectoryAt none "fjord")), .event (.use (.openAt none "fjord/log" .createFile (some "log"))),
    .event (.use (.write "log" [1] 0)), .event (.use (.symlinkAt none "fjord" "inlet")), .event (.work 1)]

/-- A file is made through the link, with the directory above it; a file is emptied; a directory is made; and the target of a
new link is not touched. -/
theorem creation_adds_what_was_asked_in_fjord :
    (∃ d t, openAt none "inlet/pier/boat" .createFile (Session.played ⟨inMemory, ∅⟩ fjord).space = (.ok d, t) ∧
      t.heldAt ⟨[⟨"fjord", by decide⟩, ⟨"pier", by decide⟩]⟩ = some (.stored .directory) ∧
      t.heldAt ⟨[⟨"fjord", by decide⟩, ⟨"pier", by decide⟩, ⟨"boat", by decide⟩]⟩ = some (.stored (.file [])) ∧
      t.heldAt ⟨[⟨"fjord", by decide⟩, ⟨"log", by decide⟩]⟩ = some (.stored (.file [1]))) ∧
    (∃ d t, openAt none "fjord/log" { write := true, truncate := true } (Session.played ⟨inMemory, ∅⟩ fjord).space =
      (.ok d, t) ∧ t.heldAt ⟨[⟨"fjord", by decide⟩, ⟨"log", by decide⟩]⟩ = some (.stored (.file []))) ∧
    (∃ t, createDirectoryAt none "inlet/hut" (Session.played ⟨inMemory, ∅⟩ fjord).space = (.ok (), t) ∧
      t.heldAt ⟨[⟨"fjord", by decide⟩, ⟨"hut", by decide⟩]⟩ = some (.stored .directory)) ∧
    ∃ t, symlinkAt none "./knot//x/.." "inlet/knot" (Session.played ⟨inMemory, ∅⟩ fjord).space = (.ok (), t) ∧
      (readlinkAt none "inlet/knot" t).1 = .ok "./knot//x/.." := by
  obtain ⟨hstart, hstore, hfree⟩ := inMemory_started
  have hbefore : (Session.played ⟨inMemory, ∅⟩ fjord).space.background.queue = [] ∧
      (openAt none "inlet/pier/boat" .createFile (Session.played ⟨inMemory, ∅⟩ fjord).space).1 =
        .ok ⟨⟨[⟨"fjord", by decide⟩, ⟨"pier", by decide⟩, ⟨"boat", by decide⟩]⟩, .file 0 0, .createFile, 0⟩ ∧
      (openAt none "fjord/log" { write := true, truncate := true } (Session.played ⟨inMemory, ∅⟩ fjord).space).1 =
        .ok ⟨⟨[⟨"fjord", by decide⟩, ⟨"log", by decide⟩]⟩, .file 0 0, { write := true, truncate := true }, 0⟩ ∧
      (resolve none "inlet/hut" false (Session.played ⟨inMemory, ∅⟩ fjord).space).1 =
        .ok ⟨[⟨"fjord", by decide⟩, ⟨"hut", by decide⟩]⟩ ∧
      (createDirectoryAt none "inlet/hut" (Session.played ⟨inMemory, ∅⟩ fjord).space).1 = .ok () ∧
      (symlinkAt none "./knot//x/.." "inlet/knot" (Session.played ⟨inMemory, ∅⟩ fjord).space).1 = .ok () ∧
      (Session.played ⟨inMemory, ∅⟩ fjord).space.heldAt ⟨[⟨"fjord", by decide⟩, ⟨"log", by decide⟩]⟩ =
        some (.stored (.file [1])) ∧
      (Session.played ⟨inMemory, ∅⟩ fjord).space.heldAt ⟨[⟨"fjord", by decide⟩, ⟨"pier", by decide⟩]⟩ = none ∧
      (Session.played ⟨inMemory, ∅⟩ fjord).space.heldAt
        ⟨[⟨"fjord", by decide⟩, ⟨"pier", by decide⟩, ⟨"boat", by decide⟩]⟩ = none := by
    decide +kernel
  obtain ⟨hidle, hboat, hlog, hhut, hmade, hknot, hbytes, hpier, hnew⟩ := hbefore
  have hadds := creation_adds_what_was_asked hstart hstore hfree (Or.inl fun _ => Table.get?_empty _) ∅ fjord rfl hidle none
  refine ⟨?_, ?_, ?_, ?_⟩
  · rcases hrun : openAt none "inlet/pier/boat" .createFile (Session.played ⟨inMemory, ∅⟩ fjord).space with ⟨r, t⟩
    obtain rfl := (congrArg Prod.fst hrun).symm.trans hboat
    have hheld := ((hadds _).1 _ _ t hrun).2.2.2.1 hnew
    refine ⟨_, t, rfl, ?_, ?_, ?_⟩
    · rw [hheld, Function.update_of_ne (by decide), withParents, if_pos ⟨by decide, by decide, hpier⟩]
    · rw [hheld, Function.update_self]
      rfl
    · rw [hheld, Function.update_of_ne (by decide), withParents, if_neg (fun h => by cases hbytes.symm.trans h.2.2), hbytes]
  · rcases hrun : openAt none "fjord/log" { write := true, truncate := true } (Session.played ⟨inMemory, ∅⟩ fjord).space with
      ⟨r, t⟩
    obtain rfl := (congrArg Prod.fst hrun).symm.trans hlog
    refine ⟨_, t, rfl, ?_⟩
    rw [((hadds _).1 _ _ t hrun).2.2.2.2 (fun h => by cases hbytes.symm.trans h), if_pos rfl, Function.update_self]
  · rcases hrun : createDirectoryAt none "inlet/hut" (Session.played ⟨inMemory, ∅⟩ fjord).space with ⟨r, t⟩
    obtain rfl : r = .ok () := (congrArg Prod.fst hrun).symm.trans hmade
    obtain ⟨p, hp, -, hheld⟩ := (hadds _).2.1 t hrun
    obtain rfl := Except.ok.inj (hhut.symm.trans hp)
    exact ⟨t, rfl, by rw [hheld, Function.update_self]⟩
  · rcases hrun : symlinkAt none "./knot//x/.." "inlet/knot" (Session.played ⟨inMemory, ∅⟩ fjord).space with ⟨r, t⟩
    obtain rfl : r = .ok () := (congrArg Prod.fst hrun).symm.trans hknot
    obtain ⟨p, -, -, -, hread, -⟩ := (hadds _).2.2 _ t hrun
    exact ⟨t, rfl, hread⟩

end Vfs

end Filespace
