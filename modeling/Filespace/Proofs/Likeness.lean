import Filespace.Proofs.Agreement
import Filespace.Proofs.Sessions

/-!
# Namespaces that are used alike

Two namespaces are compared along the operations used in both. `Likeness` says once what has to be known of them: what
they share, and what a handful of calls gives in both of them. From this every other operation gives the same
(`Likeness.run`), and so each comparison of two namespaces only has to deal with these calls.

Operations come in two phases. While they look, the namespaces are related by `N`; once they change something all that is
needed, and all that is left, is `M`. What is found may differ in what `b` does not tell of an entry.
-/

namespace Filespace

open Storage

/-- A descriptor with its entry as `b` tells it. -/
def Descriptor.through (b : Entry → Entry) (d : Descriptor) : Descriptor := { d with entry := b d.entry }

/-- Descriptors that are told alike are used alike. -/
theorem Descriptor.eq_of_through {b : Entry → Entry} (hkind : ∀ {e e'}, b e' = b e → e'.kind = e.kind)
    {d d' : Descriptor} (h : d'.through b = d.through b) :
    d'.path = d.path ∧ d'.flags = d.flags ∧ d'.cursor = d.cursor ∧ d'.isDirectory = d.isDirectory := by
  refine ⟨(congrArg Descriptor.path h :), (congrArg Descriptor.flags h :), (congrArg Descriptor.cursor h :), ?_⟩
  have hentry : b d'.entry = b d.entry := congrArg Descriptor.entry h
  unfold Descriptor.isDirectory Entry.isDirectory
  rw [hkind hentry]

namespace Vfs

/-- A value with its entries as `b` tells them. -/
def Value.through (b : Entry → Entry) : Value → Value
  | descriptor d => .descriptor (d.through b)
  | entry e => .entry (b e)
  | v => v

variable {φ μ α : Type} [FileStore φ] {b : Entry → Entry} {x : VfsM φ μ α}

/-- What is known of namespaces that are compared while the operations look (`N`) and once they change something (`M`).
Only data that `W` allows are written. -/
structure Likeness [LinkMap μ] (b : Entry → Entry) (W : Bytes → Prop) (N M : Vfs φ μ → Vfs φ μ → Prop) : Prop where
  weaken : ∀ v v', N v v' → M v v'
  kind {e e' : Entry} : b e' = b e → e'.kind = e.kind
  links {v v'} : M v v' → v'.links = v.links
  resolver {v v'} : M v v' → v'.resolver = v.resolver
  knownSize {v v'} : M v v' → ∀ p, (v'.knownSize? p).map FileMeta.size = (v.knownSize? p).map FileMeta.size
  now {v v'} : M v v' → ∀ n, b (.file n v'.now) = b (.file n v.now)
  clearListings : Parallel M Eq clearListings clearListings
  noteSize (p : Path) (n : Nat) : Parallel M Eq (noteSize p n) (noteSize p n)
  setLinks (l : Links) (jobs : List LinkJob) : Parallel M Eq (setLinks l jobs) (setLinks l jobs)
  enter {v v'} (p : Path) : M v v' → M { v with resolver := { v.resolver with workingDirectory := p } }
    { v' with resolver := { v'.resolver with workingDirectory := p } }
  lookup (p : Path) : Parallel N (fun a a' => a'.map b = a.map b) (lookup p) (lookup p)
  fileSize (p : Path) : Parallel N Eq (fileSize p) (fileSize p)
  read (d : Descriptor) (length offset : Nat) : LeadsTo N M Eq (read d length offset) (read d length offset)
  write (d : Descriptor) {data : Bytes} (hdata : W data) (offset : Nat) :
    LeadsTo N M Eq (write d data offset) (write d data offset)
  truncatePath (p : Path) (length : Nat) : LeadsTo N M Eq (truncatePath p length) (truncatePath p length)
  sync (d : Descriptor) : LeadsTo N M Eq (sync d) (sync d)
  makeDirectory {p : Path} {r : Bool} : (r = false → p.isRoot = false) →
    LeadsTo N M (fun _ _ => True) (call (.createDirectory p r)) (call (.createDirectory p r))
  makeFile (p : Path) : LeadsTo N M (fun _ _ => True) (call (.createFile p)) (call (.createFile p))
  remove (p : Path) (r : Bool) {x y : VfsM φ μ Unit} : Parallel M Eq x y → LeadsTo N M Eq
    (do forget p; Vfs.clearListings; let _ ← call (.remove p r); x)
    (do forget p; Vfs.clearListings; let _ ← call (.remove p r); y)

/-- Resolving reads the links and the working directory. -/
theorem parallel_resolve {P : Vfs φ μ → Vfs φ μ → Prop} (hkind : ∀ {e e'}, b e' = b e → e'.kind = e.kind)
    (hlinks : ∀ {v v'}, P v v' → v'.links = v.links) (hresolver : ∀ {v v'}, P v v' → v'.resolver = v.resolver)
    {c c' : Option Descriptor} (hc : c'.map (Descriptor.through b) = c.map (Descriptor.through b)) (raw : String) (follow : Bool) :
    Parallel P Eq (resolve c raw follow) (resolve c' raw follow) := by
  have hfrom : ∀ base, Parallel P Eq (resolveFrom base raw follow) (resolveFrom base raw follow) := by
    refine fun base => .get_bind fun v v' h => ?_
    rw [hresolver h, hlinks h]
    cases v.resolver.relative base raw with
    | error f => exact .throw
    | ok p =>
      dsimp only
      cases v.resolver.resolveLinks v.links p follow with
      | error e => exact .throw
      | ok q => exact .pure rfl
  cases c with
  | none =>
    obtain rfl : c' = none := Option.map_eq_none_iff.1 hc
    exact hfrom none
  | some d =>
    obtain ⟨d', rfl, hd⟩ := Option.map_eq_some_iff.1 hc
    obtain ⟨hpath, -, -, hdirectory⟩ := Descriptor.eq_of_through hkind hd
    unfold resolve
    simp only [hpath, hdirectory]
    refine .guard fun _ => ?_
    simp only [Option.map_some, hpath]
    exact hfrom (some d.path)

theorem parallel_requireEntry [LinkMap μ] {P : Vfs φ μ → Vfs φ μ → Prop} {p : Path}
    (h : Parallel P (fun a a' => a'.map b = a.map b) (lookup p) (lookup p)) :
    Parallel P (fun e e' => b e' = b e) (requireEntry p) (requireEntry p) := by
  refine .bind h ?_
  rintro (_ | e) (_ | e') he
  · exact .throw
  · cases he
  · cases he
  · exact .pure (Option.some.inj he)

theorem isSome_of_map {a a' : Option Entry} (ha : a'.map b = a.map b) : a'.isSome = a.isSome := by
  rw [← Option.isSome_map, ha, Option.isSome_map]

namespace Likeness

variable [LinkMap μ] {b : Entry → Entry} {W : Bytes → Prop} {N M : Vfs φ μ → Vfs φ μ → Prop} (h : Likeness b W N M)

include h

/-! ### Looking -/

/-- What two look-ups find is of one kind. -/
theorem cases {a a' : Option Entry} (ha : a'.map b = a.map b) :
    (a = none ∧ a' = none) ∨ (a = some .directory ∧ a' = some .directory) ∨
      (∃ n t n' t', a = some (.file n t) ∧ a' = some (.file n' t') ∧ b (.file n' t') = b (.file n t)) ∨
      ∃ l l', a = some (.link l) ∧ a' = some (.link l') := by
  rcases a with _ | e
  · exact .inl ⟨rfl, Option.map_eq_none_iff.1 ha⟩
  · obtain ⟨e', rfl, he⟩ := Option.map_eq_some_iff.1 ha
    have hkind := h.kind he
    cases e <;> cases e' <;> simp_all [Entry.kind]

theorem requireEntry (p : Path) : Parallel N (fun e e' => b e' = b e) (Vfs.requireEntry p) (Vfs.requireEntry p) :=
  parallel_requireEntry (h.lookup p)

theorem requireParent (p : Path) : Parallel N Eq (Vfs.requireParent p) (Vfs.requireParent p) := by
  unfold Vfs.requireParent
  cases p.parent? with
  | none => exact .pure rfl
  | some parent =>
    refine .bind (h.lookup parent) fun a a' ha => ?_
    obtain ⟨rfl, rfl⟩ | ⟨rfl, rfl⟩ | ⟨n, t, n', t', rfl, rfl, -⟩ | ⟨l, l', rfl, rfl⟩ := h.cases ha
    · exact .throw
    · exact .pure rfl
    · exact .throw
    · exact .throw

/-- What was found free is not the root. -/
theorem requireFree {p : Path} {y : VfsM φ μ α} {R : α → α → Prop} (k : p.isRoot = false → LeadsTo N M R x y) :
    LeadsTo N M R (Vfs.requireFree p >>= fun _ => x) (Vfs.requireFree p >>= fun _ => y) := by
  by_cases hroot : p.isRoot = true
  · unfold Vfs.requireFree
    rw [if_pos hroot]
    exact .throw_bind
  · refine .look (R := Eq) (.guard fun _ => .bind (h.lookup p) fun a a' ha => ?_) fun _ _ _ => k (Bool.eq_false_iff.2 hroot)
    rw [isSome_of_map ha]
    exact .guard fun _ => h.requireParent p

/-! ### Files -/

section Files

variable {d d' : Descriptor} (hd : d'.through b = d.through b)

include hd

omit h [LinkMap μ] in
/-- Descriptors are told alike also after both have been moved to a place in the file. -/
theorem moved (n : Nat) : { d' with cursor := n }.through b = { d with cursor := n }.through b :=
  (congrArg (fun e : Descriptor => { e with cursor := n }) hd)

theorem readDescriptor (length offset : Nat) : LeadsTo N M Eq (Vfs.read d length offset) (Vfs.read d' length offset) := by
  obtain ⟨hpath, hflags, -, hdirectory⟩ := Descriptor.eq_of_through h.kind hd
  have hsame : Vfs.read (φ := φ) (μ := μ) d' length offset = Vfs.read d length offset := by
    unfold Vfs.read requireFile
    rw [hpath, hflags, hdirectory]
  rw [hsame]
  exact h.read d length offset

theorem writeDescriptor {data : Bytes} (hdata : W data) (offset : Nat) :
    LeadsTo N M Eq (Vfs.write d data offset) (Vfs.write d' data offset) := by
  obtain ⟨hpath, hflags, -, hdirectory⟩ := Descriptor.eq_of_through h.kind hd
  have hsame : Vfs.write (φ := φ) (μ := μ) d' data offset = Vfs.write d data offset := by
    unfold Vfs.write requireWritable requireFile
    rw [hpath, hflags, hdirectory]
  rw [hsame]
  exact h.write d hdata offset

theorem readStream (length : Nat) :
    LeadsTo N M (fun a a' => a.1 = a'.1 ∧ a'.2.through b = a.2.through b) (Vfs.readStream d length)
      (Vfs.readStream d' length) := by
  unfold Vfs.readStream
  rw [(Descriptor.eq_of_through h.kind hd).2.2.1]
  refine .change (h.readDescriptor hd length d.cursor) ?_
  rintro ⟨data, ended⟩ _ rfl
  exact .pure ⟨rfl, moved hd _⟩

theorem writeStream {data : Bytes} (hdata : W data) :
    LeadsTo N M (fun a a' => a.1 = a'.1 ∧ a'.2.through b = a.2.through b) (Vfs.writeStream d data)
      (Vfs.writeStream d' data) := by
  obtain ⟨hpath, hflags, hcursor, -⟩ := Descriptor.eq_of_through h.kind hd
  have hwrite : ∀ n n', n = n' → LeadsTo N M (fun a a' => a.1 = a'.1 ∧ a'.2.through b = a.2.through b) (do
      let k ← Vfs.write d data n
      return (k, { d with cursor := n + k })) (do
      let k ← Vfs.write d' data n'
      return (k, { d' with cursor := n' + k })) := by
    rintro offset _ rfl
    refine .change (h.writeDescriptor hd hdata offset) ?_
    rintro n _ rfl
    exact .pure ⟨rfl, moved hd _⟩
  have hsize : Parallel N Eq (Vfs.fileSize d.path) (Vfs.fileSize d'.path) := by
    rw [hpath]
    exact h.fileSize d.path
  unfold Vfs.writeStream
  rw [show d'.flags.append = d.flags.append by rw [hflags]]
  exact .ite (fun _ => .look hsize hwrite) fun _ => hwrite _ _ hcursor.symm

/-- The descriptor says where the cursor goes, and the end is where both namespaces have it. -/
theorem seek (whence : Whence) : Parallel N (fun a a' => a.1 = a'.1 ∧ a'.2.through b = a.2.through b) (Vfs.seek d whence)
    (Vfs.seek d' whence) := by
  obtain ⟨hpath, -, hcursor, -⟩ := Descriptor.eq_of_through h.kind hd
  have hmove : ∀ n n' : Int, n = n' → Parallel N (fun a a' => a.1 = a'.1 ∧ a'.2.through b = a.2.through b)
      (if 0 ≤ n ∧ n < Bytes.offsetLimit then return (n.toNat, { d with cursor := n.toNat })
        else throw (.badSeek d.path n) : VfsM φ μ (Nat × Descriptor))
      (if 0 ≤ n' ∧ n' < Bytes.offsetLimit then return (n'.toNat, { d' with cursor := n'.toNat })
        else throw (.badSeek d'.path n')) := by
    rintro target _ rfl
    have hmoved := moved hd target.toNat
    rw [hpath] at hmoved ⊢
    exact .ite (fun _ => .pure ⟨rfl, hmoved⟩) fun _ => .throw
  unfold Vfs.seek
  cases whence with
  | start offset =>
    simp only [pure_bind]
    -- The offset is given as a number, and the bound on it must not be computed.
    generalize (offset : Int) = target
    exact hmove target target rfl
  | current delta =>
    simp only [pure_bind]
    exact hmove (d.cursor + delta) (d'.cursor + delta) (by rw [hcursor])
  | ending delta =>
    refine .bind (R := Eq) ?_ ?_
    · rw [hpath]
      exact h.fileSize d.path
    · rintro n _ rfl
      exact hmove _ _ rfl

theorem setSize (length : Nat) : LeadsTo N M Eq (Vfs.setSize d length) (Vfs.setSize d' length) := by
  obtain ⟨hpath, hflags, -, hdirectory⟩ := Descriptor.eq_of_through h.kind hd
  have hsame : Vfs.setSize (φ := φ) (μ := μ) d' length = Vfs.setSize d length := by
    unfold Vfs.setSize requireWritable requireFile
    rw [hpath, hflags, hdirectory]
  rw [hsame]
  refine .look (R := Eq) (.bind (.ite (fun _ => .throw) fun _ => .pure rfl) fun _ _ _ => ?_) fun _ _ _ =>
    h.truncatePath d.path length
  exact .ite (fun _ => .throw) fun _ => .pure rfl

theorem syncDescriptor : LeadsTo N M Eq (Vfs.sync d) (Vfs.sync d') := by
  unfold Vfs.sync
  rw [(Descriptor.eq_of_through h.kind hd).1]
  exact h.sync d

theorem stat : Parallel N (fun e e' => b e' = b e) (Vfs.stat d) (Vfs.stat d') := by
  unfold Vfs.stat
  rw [(Descriptor.eq_of_through h.kind hd).1]
  exact h.requireEntry d.path

end Files

/-! ### Opening -/

/-- What is found is of one kind, and a file that is cut is as short in both. -/
theorem openExisting (p : Path) (flags : Flags) {e e' : Entry} (he : b e' = b e) :
    LeadsTo N M (fun a a' => b a' = b a) (Vfs.openExisting p flags e) (Vfs.openExisting p flags e') := by
  unfold Vfs.openExisting Entry.isDirectory Entry.isFile
  rw [h.kind he]
  refine .guard fun _ => .guard fun _ => .guard fun _ => .ite (fun _ => ?_) fun _ => .pure he
  exact .change (h.truncatePath p 0) fun _ _ _ => .get_bind fun _ _ hv => .pure (h.now hv 0)

theorem openNew (p : Path) (flags : Flags) :
    LeadsTo N M (fun a a' => b a' = b a) (Vfs.openNew p flags) (Vfs.openNew p flags) := by
  refine .guard fun _ => .ite (fun _ => ?_) fun _ => ?_
  · exact .change (h.makeDirectory nofun) fun _ _ _ => .bind_eq h.clearListings fun _ => .pure rfl
  · refine .change (h.makeFile p) fun _ _ _ => .bind_eq h.clearListings fun _ => .bind_eq (h.noteSize p 0) fun _ => ?_
    exact .get_bind fun _ _ hv => .pure (h.now hv 0)

section Bases

variable {c c' : Option Descriptor} (hc : c'.map (Descriptor.through b) = c.map (Descriptor.through b))

include hc

theorem resolve (raw : String) (follow : Bool) : Parallel N Eq (Vfs.resolve c raw follow) (Vfs.resolve c' raw follow) :=
  parallel_resolve h.kind (fun hv => h.links (h.weaken _ _ hv)) (fun hv => h.resolver (h.weaken _ _ hv)) hc raw follow

theorem openAt (raw : String) (flags : Flags) :
    LeadsTo N M (fun d d' => d'.through b = d.through b) (Vfs.openAt c raw flags) (Vfs.openAt c' raw flags) := by
  refine .look (h.resolve hc raw flags.follow) ?_
  rintro p _ rfl
  have hopened : ∀ e e', b e' = b e → Parallel M (fun d d' : Descriptor => d'.through b = d.through b)
      (pure { path := p, entry := e, flags := flags } : VfsM φ μ Descriptor)
      (pure { path := p, entry := e', flags := flags }) := by
    intro e e' he
    refine .pure ?_
    unfold Descriptor.through
    rw [he]
  refine .look (h.lookup p) fun a a' ha => ?_
  obtain ⟨rfl, rfl⟩ | ⟨rfl, rfl⟩ | ⟨n, t, n', t', rfl, rfl, he⟩ | ⟨l, l', rfl, rfl⟩ := h.cases ha
  · exact .change (h.openNew p flags) hopened
  · exact .change (h.openExisting p flags rfl) hopened
  · exact .change (h.openExisting p flags he) hopened
  · exact .throw_bind

theorem statAt (raw : String) (follow : Bool) :
    Parallel N (fun e e' => b e' = b e) (Vfs.statAt c raw follow) (Vfs.statAt c' raw follow) := by
  refine .bind (h.resolve hc raw follow) ?_
  rintro p _ rfl
  exact h.requireEntry p

theorem readlinkAt (raw : String) : Parallel N Eq (Vfs.readlinkAt c raw) (Vfs.readlinkAt c' raw) := by
  refine .bind (h.resolve hc raw false) ?_
  rintro p _ rfl
  refine .get_bind fun v v' hv => ?_
  rw [h.links (h.weaken _ _ hv)]
  cases v.links.get? p with
  | some target => exact .pure rfl
  | none => exact .bind (h.requireEntry p) fun _ _ _ => .throw

/-! ### Changing the namespace -/

theorem createDirectoryAt (raw : String) : LeadsTo N M Eq (Vfs.createDirectoryAt c raw) (Vfs.createDirectoryAt c' raw) := by
  refine .look (h.resolve hc raw false) ?_
  rintro p _ rfl
  exact h.requireFree fun hp => .change (h.makeDirectory fun _ => hp) fun _ _ _ => h.clearListings

theorem removeDirectoryAt (raw : String) : LeadsTo N M Eq (Vfs.removeDirectoryAt c raw) (Vfs.removeDirectoryAt c' raw) := by
  refine .look (h.resolve hc raw false) ?_
  rintro p _ rfl
  refine .guard fun _ => .look (h.lookup p) fun a a' ha => ?_
  obtain ⟨rfl, rfl⟩ | ⟨rfl, rfl⟩ | ⟨n, t, n', t', rfl, rfl, -⟩ | ⟨l, l', rfl, rfl⟩ := h.cases ha
  · exact .throw_bind
  · refine h.remove p true (.get_bind fun v v' hv => ?_)
    rw [h.links hv]
    exact h.setLinks _ _
  · exact .throw_bind
  · exact .throw_bind

theorem unlinkAt (raw : String) : LeadsTo N M Eq (Vfs.unlinkAt c raw) (Vfs.unlinkAt c' raw) := by
  refine .look (h.resolve hc raw false) ?_
  rintro p _ rfl
  refine .look (h.lookup p) fun a a' ha => ?_
  obtain ⟨rfl, rfl⟩ | ⟨rfl, rfl⟩ | ⟨n, t, n', t', rfl, rfl, -⟩ | ⟨l, l', rfl, rfl⟩ := h.cases ha
  · exact .throw_bind
  · exact .throw_bind
  · exact h.remove p false h.clearListings
  · refine .get_bind fun v v' hv => ?_
    rw [h.links (h.weaken _ _ hv)]
    exact .of_changing (.bind_eq (h.setLinks _ _) fun _ => h.clearListings)

theorem symlinkAt (target raw : String) : LeadsTo N M Eq (Vfs.symlinkAt c target raw) (Vfs.symlinkAt c' target raw) := by
  refine .guard fun _ => .look (h.resolve hc raw false) ?_
  rintro p _ rfl
  refine h.requireFree fun _ => .get_bind fun v v' hv => ?_
  rw [h.links (h.weaken _ _ hv)]
  exact .of_changing (.bind_eq (h.setLinks _ _) fun _ => h.clearListings)

/-- A plan for a rename is made alike, and it does not name the root. -/
theorem renamePlan {e e' : Option Descriptor} (he : e'.map (Descriptor.through b) = e.map (Descriptor.through b))
    (raw toRaw : String) :
    Parallel N (fun r r' => (r = none ∧ r' = none) ∨ ∃ source target a a', r = some (source, target, a) ∧
        r' = some (source, target, a') ∧ b a' = b a ∧ source.isRoot = false ∧ target.isRoot = false)
      (Vfs.renamePlan c raw e toRaw) (Vfs.renamePlan c' raw e' toRaw) := by
  refine .bind (h.resolve hc raw false) ?_
  rintro source _ rfl
  refine .bind (h.resolve he toRaw false) ?_
  rintro target _ rfl
  refine .guard fun hroot => .bind (h.requireEntry source) fun a a' ha => ?_
  refine .ite (fun _ => .pure (.inl ⟨rfl, rfl⟩)) fun _ => .bind (h.lookup target) fun r r' hr => ?_
  unfold Entry.isDirectory
  rw [isSome_of_map hr, h.kind ha]
  refine .guard fun _ => .guard fun _ => .bind_eq (h.requireParent target) fun _ => .pure (.inr ?_)
  obtain ⟨hsource, htarget⟩ := not_or.1 hroot
  exact ⟨source, target, a, a', rfl, rfl, ha, Bool.eq_false_iff.2 hsource, Bool.eq_false_iff.2 htarget⟩

end Bases

theorem setWorkingDirectory (raw : String) :
    LeadsTo N M Eq (Vfs.setWorkingDirectory raw) (Vfs.setWorkingDirectory raw) := by
  refine .look (h.resolve rfl raw true) ?_
  rintro p _ rfl
  refine .look (h.lookup p) fun a a' ha => ?_
  obtain ⟨rfl, rfl⟩ | ⟨rfl, rfl⟩ | ⟨n, t, n', t', rfl, rfl, -⟩ | ⟨l, l', rfl, rfl⟩ := h.cases ha
  · exact .throw
  · exact .of_changing (.modify fun _ _ hv => h.enter p hv)
  · exact .throw
  · exact .throw

end Likeness

/-! ### Sessions -/

namespace Session

variable {β : Type} {b : Entry → Entry} {N M : Vfs φ μ → Vfs φ μ → Prop}

/-- Two sessions in namespaces that `M` relates, with descriptors that are told alike. -/
structure Like (b : Entry → Entry) (M : Vfs φ μ → Vfs φ μ → Prop) (s s' : Session φ μ) : Prop where
  space : M s.space s'.space
  descriptors : ∀ name, (s'.descriptors.get? name).map (Descriptor.through b) =
    (s.descriptors.get? name).map (Descriptor.through b)

theorem agree_onSpace {y : VfsM φ μ β} {Q : α → β → Session φ μ → Session φ μ → Prop}
    {E : Session φ μ → Session φ μ → Prop} {s s' : Session φ μ}
    (h : Agree x y (fun a b v v' => Q a b { s with space := v } { s' with space := v' })
      (fun v v' => E { s with space := v } { s' with space := v' }) s.space s'.space) :
    Agree (onSpace x) (onSpace y) Q E s s' := by
  obtain ⟨a, b, v, v', hx, hy, hq⟩ | ⟨e, v, v', hx, hy, he⟩ := h.cases
  · exact (agree_of_ok (onSpace_run hx) (onSpace_run hy)).2 hq
  · exact (agree_of_error (onSpace_run hx) (onSpace_run hy)).2 he

theorem leadsTo_onSpace {R : α → β → Prop} {y : VfsM φ μ β} (hN : ∀ v v', N v v' → M v v')
    (h : LeadsTo N M R x y) : LeadsTo (Like b N) (Like b M) R (onSpace x) (onSpace y) := by
  refine fun _ s s' hs => agree_onSpace ((h hN s.space s'.space hs.space).mono ?_ ?_)
  · exact fun _ _ _ _ hq => ⟨hq.1, hq.2, hs.descriptors⟩
  · exact fun _ _ hv => ⟨hv, hs.descriptors⟩

theorem parallel_descriptor (name : String) :
    Parallel (Like b M) (fun d d' => d'.through b = d.through b) (descriptor name) (descriptor name) := by
  refine .get_bind fun s s' hs => ?_
  have hname := hs.descriptors name
  cases hd : s.descriptors.get? name with
  | none =>
    rw [hd, Option.map_none, Option.map_eq_none_iff] at hname
    rw [hname]
    exact .throw
  | some d =>
    rw [hd, Option.map_some, Option.map_eq_some_iff] at hname
    obtain ⟨d', hd', heq⟩ := hname
    rw [hd']
    exact .pure heq

theorem parallel_base (name : Option String) : Parallel (Like b M)
    (fun c c' => c'.map (Descriptor.through b) = c.map (Descriptor.through b)) (base name) (base name) := by
  cases name with
  | none => exact .pure rfl
  | some n =>
    exact .bind (parallel_descriptor n) fun d d' hd => .pure (congrArg some hd)

theorem parallel_keep (name : String) {d d' : Descriptor} (hd : d'.through b = d.through b) :
    Parallel (Like b M) Eq (keep name d) (keep name d') := by
  refine .modify fun s s' hs => ⟨hs.space, fun n => ?_⟩
  rw [Table.get?_insert, Table.get?_insert]
  split
  · exact congrArg some hd
  · exact hs.descriptors n

theorem parallel_path (raw : String) : Parallel (Like b M) Eq (path raw) (path raw) := by
  unfold path
  split
  · exact .pure rfl
  · exact .throw

theorem parallel_value (k : α → Value) (a a' : α) (h : a = a') : Parallel (Like b M)
    (fun a a' => a'.through b = a.through b) (pure (k a) : SessionM φ μ Value) (pure (k a')) := by
  rw [h]
  exact .pure rfl

section Uses

variable {R : α → α → Prop} {k : α → SessionM φ μ Value}
  (hk : ∀ a a', R a a' → Parallel (Like b M) (fun a a' => a'.through b = a.through b) (k a) (k a'))

include hk

/-- Both use a descriptor and then the namespace. -/
theorem leadsTo_onDescriptor {fd : String} {x : Descriptor → VfsM φ μ α} (hN : ∀ v v', N v v' → M v v')
    (hx : ∀ d d', d'.through b = d.through b → LeadsTo N M R (x d) (x d')) :
    LeadsTo (Like b N) (Like b M) (fun a a' => a'.through b = a.through b)
      (descriptor fd >>= fun d => onSpace (x d) >>= k) (descriptor fd >>= fun d => onSpace (x d) >>= k) :=
  .look (parallel_descriptor fd) fun d d' hd => .change (leadsTo_onSpace hN (hx d d' hd)) hk

theorem leadsTo_onBase {name : Option String} {x : Option Descriptor → VfsM φ μ α} (hN : ∀ v v', N v v' → M v v')
    (hx : ∀ c c', c'.map (Descriptor.through b) = c.map (Descriptor.through b) → LeadsTo N M R (x c) (x c')) :
    LeadsTo (Like b N) (Like b M) (fun a a' => a'.through b = a.through b)
      (base name >>= fun c => onSpace (x c) >>= k) (base name >>= fun c => onSpace (x c) >>= k) :=
  .look (parallel_base name) fun c c' hc => .change (leadsTo_onSpace hN (hx c c' hc)) hk

end Uses

end Session

open Session

/-- The operation lists a directory. -/
def Operation.Lists : Operation → Prop
  | readDirectory _ | readDirectoryAt _ _ => True
  | _ => False

/-- The operation depends on whether a file is warm. -/
def Operation.TellsWarmth : Operation → Prop
  | writeDetached _ _ _ | release _ | isWarm _ => True
  | _ => False

/-- The operation writes the data at once. -/
def Operation.Writes (data : Bytes) : Operation → Prop
  | write _ data' _ | writeStream _ data' => data' = data
  | _ => False

/-- An operation gives the same in both sessions, if that is so of listing a directory, of renaming and of the operations
that depend on what is warm. -/
theorem Likeness.run [LinkMap μ] {W : Bytes → Prop} {N M : Vfs φ μ → Vfs φ μ → Prop}
    (h : Likeness b W N M) {op : Operation} (hwrite : ∀ data, op.Writes data → W data)
    (hlist : op.Lists → ∀ dir, LeadsTo N M Eq (list dir) (list dir))
    (hrename : ∀ {c c' d d' : Option Descriptor}, c'.map (Descriptor.through b) = c.map (Descriptor.through b) →
      d'.map (Descriptor.through b) = d.map (Descriptor.through b) → ∀ raw toRaw,
      LeadsTo N M Eq (renameAt c raw d toRaw) (renameAt c' raw d' toRaw))
    (hwarm : op.TellsWarmth →
      LeadsTo (Like b N) (Like b M) (fun a a' => a'.through b = a.through b) op.run op.run) :
    LeadsTo (Like b N) (Like b M) (fun a a' => a'.through b = a.through b) op.run op.run := by
  have hentry : ∀ e e', b e' = b e → Parallel (Like b M) (fun a a' => a'.through b = a.through b)
      (pure (Value.entry e) : SessionM φ μ Value) (pure (Value.entry e')) := fun e e' he => .pure (congrArg Value.entry he)
  cases op with
  | openAt c p flags name =>
    refine leadsTo_onBase (fun d d' hd => ?_) h.weaken fun c c' hc => h.openAt hc p flags
    have hvalue : (Value.descriptor d').through b = (Value.descriptor d).through b := congrArg Value.descriptor hd
    cases name with
    | none => exact .pure hvalue
    | some n => exact .bind (parallel_keep n hd) fun _ _ _ => .pure hvalue
  | preopens name =>
    cases name with
    | none => exact .pure rfl
    | some n => exact Parallel.leadsTo (.bind (parallel_keep n rfl) fun _ _ _ => .pure rfl)
  | inspect fd => exact .look (parallel_descriptor fd) fun d d' hd => .pure (congrArg Value.descriptor hd)
  | read fd length offset =>
    exact leadsTo_onDescriptor (parallel_value fun a => .data a.1 a.2) h.weaken fun d d' hd => h.readDescriptor hd length offset
  | write fd data offset =>
    exact leadsTo_onDescriptor (parallel_value .number) h.weaken fun d d' hd => h.writeDescriptor hd (hwrite data rfl) offset
  | readStream fd length =>
    refine leadsTo_onDescriptor ?_ h.weaken fun d d' hd => h.readStream hd length
    rintro ⟨a, d⟩ ⟨_, d'⟩ ⟨rfl, hd⟩
    refine .bind (parallel_keep fd hd) fun _ _ _ => .pure ?_
    rw [(Descriptor.eq_of_through h.kind hd).2.2.1]
  | writeStream fd data =>
    refine leadsTo_onDescriptor ?_ h.weaken fun d d' hd => h.writeStream hd (hwrite data rfl)
    rintro ⟨n, d⟩ ⟨_, d'⟩ ⟨rfl, hd⟩
    refine .bind (parallel_keep fd hd) fun _ _ _ => .pure ?_
    rw [(Descriptor.eq_of_through h.kind hd).2.2.1]
  | seek fd whence =>
    refine leadsTo_onDescriptor ?_ h.weaken fun d d' hd => (h.seek hd whence).leadsTo
    rintro ⟨n, d⟩ ⟨_, d'⟩ ⟨rfl, hd⟩
    exact .bind (parallel_keep fd hd) fun _ _ _ => .pure rfl
  | writeDetached fd data offset => exact hwarm trivial
  | setSize fd length => exact leadsTo_onDescriptor (parallel_value fun _ => .unit) h.weaken fun d d' hd => h.setSize hd length
  | sync fd => exact leadsTo_onDescriptor (parallel_value fun _ => .unit) h.weaken fun d d' hd => h.syncDescriptor hd
  | release fd => exact hwarm trivial
  | stat fd => exact leadsTo_onDescriptor hentry h.weaken fun d d' hd => (h.stat hd).leadsTo
  | statAt c p follow => exact leadsTo_onBase hentry h.weaken fun c c' hc => (h.statAt hc p follow).leadsTo
  | readDirectory fd =>
    refine leadsTo_onDescriptor (parallel_value .entries) h.weaken fun d d' hd => ?_
    obtain ⟨hpath, -, -, hdirectory⟩ := Descriptor.eq_of_through h.kind hd
    unfold Vfs.readDirectory
    rw [hpath, hdirectory]
    exact .guard fun _ => hlist trivial d.path
  | readDirectoryAt c p =>
    refine leadsTo_onBase (parallel_value .entries) h.weaken fun c c' hc => .look (h.resolve hc p true) ?_
    rintro q _ rfl
    exact hlist trivial q
  | createDirectoryAt c p => exact leadsTo_onBase (parallel_value fun _ => .unit) h.weaken fun c c' hc => h.createDirectoryAt hc p
  | removeDirectoryAt c p => exact leadsTo_onBase (parallel_value fun _ => .unit) h.weaken fun c c' hc => h.removeDirectoryAt hc p
  | unlinkAt c p => exact leadsTo_onBase (parallel_value fun _ => .unit) h.weaken fun c c' hc => h.unlinkAt hc p
  | renameAt c p d q =>
    exact .look (parallel_base c) fun c c' hc => .look (parallel_base d) fun d d' hd =>
      .change (leadsTo_onSpace h.weaken (hrename hc hd p q)) (parallel_value fun _ => .unit)
  | symlinkAt c target p => exact leadsTo_onBase (parallel_value fun _ => .unit) h.weaken fun c c' hc => h.symlinkAt hc target p
  | readlinkAt c p => exact leadsTo_onBase (parallel_value .text) h.weaken fun c c' hc => (h.readlinkAt hc p).leadsTo
  | linkAt c old new => exact leadsTo_onBase (parallel_value fun _ => .unit) h.weaken fun _ _ _ => .throw
  | workingDirectory =>
    refine .get_bind fun s s' hs => .pure ?_
    unfold Vfs.workingDirectory
    rw [h.resolver (h.weaken _ _ hs.space)]
  | setWorkingDirectory p =>
    exact .change (leadsTo_onSpace h.weaken (h.setWorkingDirectory p)) (parallel_value fun _ => .unit)
  | knownSize p =>
    refine .look (parallel_path p) ?_
    rintro q _ rfl
    refine .get_bind fun s s' hs => .pure ?_
    rw [h.knownSize (h.weaken _ _ hs.space)]
  | isWarm p => exact hwarm trivial

end Vfs

end Filespace
