import Filespace.Proofs.Agreement
import Filespace.Proofs.Copying

/-!
# Trees that look alike

Two trees are `Alike` if a reader sees the same in both: the same entries with the same contents. They can differ in
serial numbers, locks and times. Calls that look at neither locks nor times agree on alike trees. Calls that look at
locks agree on them as long as the files that they touch are not locked; `AlikeOn U` says that no file at a path in `U`
is.

Every call of a store in memory, and every request that is made of calls without a handle of its own, takes alike trees
to alike trees and gives the same answer on both, but for times (`Parallel`).
-/

namespace Filespace

open Storage Memory FileStore Table

/-! ### Answers without times -/

/-- What a store says about an entry, without the time. -/
def Storage.Stat.timeless : Stat → Stat
  | .directory => .directory
  | .file n _ => .file n 0

/-- An entry without its time. -/
def Entry.timeless : Entry → Entry
  | .file n _ => .file n 0
  | e => e

/-- A row of a listing of the store, without its time. -/
def Storage.timelessRow (x : Name × Stat) : Name × Stat := (x.1, x.2.timeless)

namespace Storage.Memory

variable {U : Path → Prop} {m m' : Memory} {p source target : Path}

/-! ### Alike trees -/

/-- What a reader sees, by path. -/
def contents (m : Memory) : Table Path Content := m.nodes.map fun _ => Node.content

/-- A reader sees the same in two trees, and they can move the same entries. -/
structure Alike (m m' : Memory) : Prop where
  contents : m'.contents = m.contents
  crossMoves : m'.crossMoves = m.crossMoves

/-- Two trees are alike, and no file at the given paths is locked in either. -/
structure AlikeOn (U : Path → Prop) (m m' : Memory) : Prop extends Alike m m' where
  free : ∀ q, U q → m.isLocked q = false
  free' : ∀ q, U q → m'.isLocked q = false

theorem get?_contents (m : Memory) (p : Path) : m.contents.get? p = m.content? p := get?_map m.nodes _ p

theorem Alike.content? (h : Alike m m') (p : Path) : m'.content? p = m.content? p := by
  rw [← get?_contents, ← get?_contents, h.contents]

theorem Alike.kind? (h : Alike m m') (p : Path) : m'.kind? p = m.kind? p := kind?_of_content? (h.content? p)

/-- At each path alike trees both have nothing, a directory, or files with the same bytes. -/
theorem Alike.node?_cases (h : Alike m m') (p : Path) :
    (m.node? p = none ∧ m'.node? p = none) ∨ (m.node? p = some .directory ∧ m'.node? p = some .directory) ∨
      ∃ d d', m.node? p = some (.file d) ∧ m'.node? p = some (.file d') ∧ d'.bytes = d.bytes := by
  have hp := h.content? p
  unfold Memory.content? at hp
  rcases hn : m.node? p with _ | (_ | d) <;> rcases hn' : m'.node? p with _ | (_ | d') <;>
    simp_all [Node.content]

/-- A file of one tree is one of the other. -/
theorem Alike.file (h : Alike m m') {d : FileData} (hd : m.node? p = some (.file d)) :
    ∃ d', m'.node? p = some (.file d') ∧ d'.bytes = d.bytes := by
  obtain ⟨hn, -⟩ | ⟨hn, -⟩ | ⟨d₁, d', hn, hn', hb⟩ := h.node?_cases p <;> rw [hd] at hn <;> cases hn
  exact ⟨d', hn', hb⟩

/-- A path has an entry in both or in neither. -/
theorem Alike.isSome_node? (h : Alike m m') (p : Path) : (m'.node? p).isSome = (m.node? p).isSome := by
  rcases h.node?_cases p with ⟨hn, hn'⟩ | ⟨hn, hn'⟩ | ⟨d, d', hn, hn', -⟩ <;> simp [hn, hn']

theorem Alike.keys (h : Alike m m') : m'.nodes.keys = m.nodes.keys := by
  have hkeys : ∀ x : Memory, x.nodes.keys = x.contents.keys := fun x => (keys_map _ x.nodes).symm
  rw [hkeys, hkeys, h.contents]

theorem Alike.subtree (h : Alike m m') (p : Path) : m'.subtree p = m.subtree p := by
  unfold Memory.subtree
  rw [h.keys]

/-- Alike trees have the same children, but for their times. -/
theorem Alike.children (h : Alike m m') (p : Path) : (m'.children p).map timelessRow = (m.children p).map timelessRow := by
  have hrows : ∀ x : Memory, (x.children p).map timelessRow = x.contents.rows.filterMap fun (q, c) =>
      if q.parent? = some p then q.name?.map fun name => (name, match c with
        | .directory => .directory
        | .file bytes => .file bytes.length 0) else none := by
    intro x
    unfold Memory.children Memory.contents map
    rw [List.map_filterMap, List.filterMap_map]
    congr 1
    funext ⟨q, n⟩
    by_cases hq : q.parent? = some p
    · simp only [Function.comp_apply, if_pos hq, Option.map_map]
      cases n <;> rfl
    · simp only [Function.comp_apply, if_neg hq, Option.map_none]
  rw [hrows, hrows, h.contents]

theorem AlikeOn.firstLocked? (h : AlikeOn U m m') (hp : ∀ q, q.under p = true → U q) :
    m.firstLocked? p = none ∧ m'.firstLocked? p = none :=
  ⟨firstLocked?_eq_none_iff.2 fun q hq => h.free q (hp q hq),
    firstLocked?_eq_none_iff.2 fun q hq => h.free' q (hp q hq)⟩

/-! ### Alike changes -/

theorem contents_put (m : Memory) (p : Path) (n : Node) : (m.put p n).contents = m.contents.insert p n.content :=
  map_insert _ m.nodes p n

theorem isLocked_put (m : Memory) (p q : Path) (n : Node) :
    (m.put p n).isLocked q = if q = p then n.isLocked else m.isLocked q := by
  unfold isLocked
  rw [node?_put]
  by_cases e : q = p
  · rw [if_pos e, if_pos e]
  · rw [if_neg e, if_neg e]

theorem Alike.put (h : Alike m m') {n n' : Node} (hn : n'.content = n.content) : Alike (m.put p n) (m'.put p n') where
  contents := by rw [contents_put, contents_put, h.contents, hn]
  crossMoves := h.crossMoves

theorem AlikeOn.put (h : AlikeOn U m m') {n n' : Node} (hn : n'.content = n.content)
    (hl : U p → n.isLocked = false ∧ n'.isLocked = false) : AlikeOn U (m.put p n) (m'.put p n') where
  toAlike := h.toAlike.put hn
  free q hq := by
    rw [isLocked_put]
    split
    · rename_i e
      exact (hl (e ▸ hq)).1
    · exact h.free q hq
  free' q hq := by
    rw [isLocked_put]
    split
    · rename_i e
      exact (hl (e ▸ hq)).2
    · exact h.free' q hq

/-- The same entries are taken away from both. -/
theorem AlikeOn.filter (h : AlikeOn U m m') (keep : Path → Bool) :
    AlikeOn U { m with nodes := m.nodes.filter fun q _ => keep q }
      { m' with nodes := m'.nodes.filter fun q _ => keep q } := by
  have hcontents : ∀ x : Memory, ({ x with nodes := x.nodes.filter fun q _ => keep q }).contents =
      x.contents.filter fun q _ => keep q := fun x => map_filter _ x.nodes keep
  have hfree : ∀ x : Memory, (∀ q, U q → x.isLocked q = false) → ∀ q, U q →
      ({ x with nodes := x.nodes.filter fun q _ => keep q }).isLocked q = false := by
    intro x hx q hq
    refine isLocked_eq_false_iff.2 fun d hd => ?_
    have hd : (x.nodes.filter fun q _ => keep q).get? q = some (.file d) := hd
    rw [get?_filter, Option.filter_eq_some_iff] at hd
    exact isLocked_eq_false_iff.1 (hx q hq) d hd.1
  exact ⟨⟨by rw [hcontents, hcontents, h.contents], h.crossMoves⟩, hfree m h.free, hfree m' h.free'⟩

theorem Alike.graft (h : Alike m m') (source target : Path) : Alike (m.graft source target) (m'.graft source target) := by
  have hcontents : ∀ x : Memory, (x.graft source target).contents =
      (x.contents.filter fun q _ => !q.under source).insertMany (x.contents.rows.filterMap fun (q, c) =>
        (q.relativeTo? source).map fun r => (target.join r, c)) := by
    intro x
    show map (insertMany (x.prune source).nodes _) _ = _
    rw [map_insertMany, map_picked Node.content x.nodes (fun q => q.relativeTo? source) target.join]
    unfold Memory.contents
    rw [← map_filter]
    rfl
  exact ⟨by rw [hcontents, hcontents, h.contents], h.crossMoves⟩

/-- Releasing a handle changes nothing that a reader sees. -/
theorem alike_release (m : Memory) (h : Handle) : Alike m (m.release h) where
  contents := by
    apply ext_get?
    intro q
    rw [get?_contents, get?_contents, content?_of_atRest? (atRest?_release m h q)]
  crossMoves := by
    unfold release
    cases m.fileOf? h <;> rfl

/-- Nor does a lock. -/
theorem alike_locked {d : FileData} (hd : m.node? p = some (.file d)) :
    Alike m (m.put p (.file { d with locked := true })) where
  contents := by
    rw [contents_put]
    refine insert_eq_self ?_
    rw [get?_contents]
    unfold content?
    rw [hd]
    rfl
  crossMoves := rfl

theorem Alike.refl (m : Memory) : Alike m m := ⟨rfl, rfl⟩

theorem Alike.trans {m'' : Memory} (h : Alike m m') (k : Alike m' m'') : Alike m m'' :=
  ⟨k.contents.trans h.contents, k.crossMoves.trans h.crossMoves⟩

theorem Alike.symm (h : Alike m m') : Alike m' m := ⟨h.contents.symm, h.crossMoves.symm⟩

/-! ### Calls -/

theorem parallel_ensure (create : Bool) (l : List Path) :
    Parallel (AlikeOn U) (fun _ _ => True) (ensure create l) (ensure create l) := by
  induction l with
  | nil => exact .pure trivial
  | cons p l ih =>
    intro m m' h
    refine .get_bind ?_
    obtain ⟨hn, hn'⟩ | ⟨hn, hn'⟩ | ⟨d, d', hn, hn', -⟩ := h.node?_cases p <;> rw [hn, hn']
    · refine .ite (fun _ => ?_) fun _ => .throw h
      refine .bind (.modify ?_) (fun _ _ hs => hs) fun _ _ s s' => ih s s'
      exact h.put rfl fun _ => ⟨rfl, rfl⟩
    · exact ih m m' h
    · exact .throw h

theorem parallel_directory (p : Path) (create : Bool) :
    Parallel (AlikeOn U) (fun _ _ => True) (directory p create) (directory p create) := parallel_ensure create p.trail

theorem parallel_file (p : Path) (create : Bool) :
    Parallel (AlikeOn U) (fun _ _ => True) (file p create) (file p create) := by
  unfold file
  cases p.parent? with
  | none => exact .throw
  | some parent =>
    refine .bind (parallel_directory parent create) fun _ _ _ m m' h => .get_bind ?_
    obtain ⟨hn, hn'⟩ | ⟨hn, hn'⟩ | ⟨d, d', hn, hn', -⟩ := h.node?_cases p <;> rw [hn, hn']
    · refine .ite (fun _ => .modify ⟨trivial, ?_⟩) fun _ => .throw h
      have hput : AlikeOn U (m.put p (.file ⟨m.nextSerial, [], false, m.clock⟩))
          (m'.put p (.file ⟨m'.nextSerial, [], false, m'.clock⟩)) := h.put rfl fun _ => ⟨rfl, rfl⟩
      exact ⟨⟨hput.contents, hput.crossMoves⟩, hput.free, hput.free'⟩
    · exact .throw h
    · exact .pure ⟨trivial, h⟩

theorem parallel_entry (p : Path) :
    Parallel (AlikeOn U) (fun a b => b.map Stat.timeless = a.map Stat.timeless) (entry p) (entry p) := by
  intro m m' h
  refine .get_bind (.pure ⟨?_, h⟩)
  obtain ⟨hn, hn'⟩ | ⟨hn, hn'⟩ | ⟨d, d', hn, hn', hb⟩ := h.node?_cases p <;> rw [hn, hn']
  simp [Node.stat, Stat.timeless, hb]

theorem parallel_list (p : Path) :
    Parallel (AlikeOn U) (fun l l' => l'.map timelessRow = l.map timelessRow) (list p) (list p) := by
  intro m m' h
  refine .get_bind ?_
  obtain ⟨hn, hn'⟩ | ⟨hn, hn'⟩ | ⟨d, d', hn, hn', -⟩ := h.node?_cases p <;> rw [hn, hn']
  · exact .throw h
  · exact .pure ⟨h.children p, h⟩
  · exact .throw h

/-- A removal looks at the locks below its path. -/
theorem parallel_remove (recursive : Bool) (hp : ∀ q, q.under p = true → U q) :
    Parallel (AlikeOn U) (fun _ _ => True) (remove p recursive) (remove p recursive) := by
  refine .ite (fun _ => .throw) fun _ m m' h => .get_bind ?_
  obtain ⟨hl, hl'⟩ := h.firstLocked? hp
  obtain ⟨hn, hn'⟩ | ⟨hn, hn'⟩ | ⟨d, d', hn, hn', -⟩ := h.node?_cases p <;> rw [hn, hn']
  · exact .throw h
  · rw [h.subtree, hl, hl']
    exact .ite (fun _ => .throw h) fun _ => ⟨trivial, h.filter _⟩
  · have hd := isLocked_eq_false_iff.1 (h.free p (hp p (Path.under_refl p))) d hn
    have hd' := isLocked_eq_false_iff.1 (h.free' p (hp p (Path.under_refl p))) d' hn'
    simp only [hd, hd', Bool.false_eq_true, if_false]
    exact ⟨trivial, h.filter _⟩

/-- A move looks at the locks below its source. -/
theorem agree_move (hs : ∀ q, q.under source = true → U q) (h : AlikeOn U m m') :
    Agree (move source target) (move source target) (fun _ _ => Alike) (AlikeOn U) m m' := by
  refine .get_bind (.ite (fun _ => .throw h) fun _ => .ite (fun _ => .throw h) fun _ => ?_)
  rw [h.crossMoves]
  refine .ite (fun _ => .throw h) fun _ => ?_
  have hnone : ∀ q, (m'.node? q).isNone = (m.node? q).isNone := by
    intro q
    rw [← Option.not_isSome, ← Option.not_isSome, h.isSome_node?]
  rw [hnone, h.isSome_node?]
  refine .ite (fun _ => .throw h) fun _ => .ite (fun _ => .throw h) fun _ => ?_
  refine .bind ((parallel_directory _ false m m' h).imp fun _ _ _ _ hq => hq.2)
    (fun _ _ hs => hs) fun _ _ s s' _ => ?_
  obtain ⟨hl, hl'⟩ := h.firstLocked? hs
  rw [hl, hl']
  exact h.graft source target

/-- Files with the same bytes are written alike. -/
theorem parallel_writeInto {d d' : FileData} (pos : Nat) (data : Bytes) (hb : d'.bytes = d.bytes)
    (hl : U p → d.locked = false ∧ d'.locked = false) :
    Parallel (AlikeOn U) Eq (writeInto p d pos data) (writeInto p d' pos data) := by
  refine .bind (parallel_settle _) ?_
  rintro last _ rfl
  refine .bind (R := fun _ _ => True) (.ite (fun _ => .pure trivial) fun _ => .throw) fun _ _ _ m m' h => ?_
  refine .bind (.modify (h.put ?_ hl)) (fun _ _ hs => hs)
    fun _ _ _ _ hs => .pure ⟨by rw [hb], hs⟩
  simp only [Node.content, hb]

theorem parallel_fileAt (p : Path) :
    Parallel (AlikeOn U) (fun d d' => d'.bytes = d.bytes ∧ (U p → d.locked = false ∧ d'.locked = false))
      (fileAt p) (fileAt p) := by
  intro m m' h
  refine .get_bind ?_
  obtain ⟨hn, hn'⟩ | ⟨hn, hn'⟩ | ⟨d, d', hn, hn', hb⟩ := h.node?_cases p <;> rw [hn, hn']
  · exact .throw h
  · exact .throw h
  · refine .pure ⟨⟨hb, fun hp => ⟨?_, ?_⟩⟩, h⟩
    · exact isLocked_eq_false_iff.1 (h.free p hp) d hn
    · exact isLocked_eq_false_iff.1 (h.free' p hp) d' hn'

/-- A write without a handle looks at the lock of its file. -/
theorem parallel_writeAt (offset : Nat) (data : Bytes) (hp : U p) :
    Parallel (AlikeOn U) Eq (writeAt p offset data) (writeAt p offset data) := by
  refine .bind (parallel_fileAt p) fun d d' hd => ?_
  obtain ⟨hl, hl'⟩ := hd.2 hp
  rw [hl, hl']
  exact parallel_writeInto offset data hd.1 hd.2

end Storage.Memory

/-! ### Handles -/

namespace Storage

variable {α β : Type} {U : Path → Prop} {m m' : Memory} {p source target : Path}

/-- Opens a handle, uses it and closes it, without looking for the file first. -/
def onHandle (p : Path) (use : Handle → StoreM (Host × Memory) α) : StoreM (Host × Memory) α := do
  let handle ← openHandle (φ := Memory) p
  let result ← (use handle).attempt
  close (φ := Memory) handle
  StoreM.settle result

theorem Memory.fileAt_run (m : Memory) (p : Path) : fileAt p m = match m.node? p with
      | some (.file d) => (.ok d, m)
      | some .directory => (.error (.isADirectory p), m)
      | none => (.error (.notFound p), m) := by
  show (match m.node? p with
    | some (.file f) => pure f
    | some .directory => throw (.isADirectory p)
    | none => throw (.notFound p) : StoreM Memory FileData) m = _
  rcases m.node? p with _ | (_ | d) <;> rfl

theorem Memory.openHandle_run (m : Memory) (p : Path) : openHandle p m = match m.node? p with
      | some (.file d) =>
        if d.locked then (.error (.inUse p), m)
        else (.ok ⟨p, d.serial⟩, m.put p (.file { d with locked := true }))
      | some .directory => (.error (.isADirectory p), m)
      | none => (.error (.notFound p), m) := by
  unfold openHandle
  rw [bind_run, fileAt_run]
  rcases m.node? p with _ | (_ | d)
  · rfl
  · rfl
  · cases hl : d.locked <;> simp only [hl] <;> rfl

/-- All that counts of a handle that is opened on a file and closed again is its use. -/
theorem onHandle_run (use : Handle → StoreM (Host × Memory) α) (host : Host) (m : Memory) (p : Path) :
    onHandle p use (host, m) = match m.node? p with
      | some (.file d) =>
        if d.locked then (.error (.inUse p), host, m)
        else
          let (r, s) := use ⟨p, d.serial⟩ (host, m.put p (.file { d with locked := true }))
          (r, s.1, s.2.release ⟨p, d.serial⟩)
      | some .directory => (.error (.isADirectory p), host, m)
      | none => (.error (.notFound p), host, m) := by
  have hopen : openHandle p (host, m) =
      ((openHandle p m).1, host, (openHandle p m).2) := rfl
  unfold onHandle
  rw [bind_run, hopen, openHandle_run]
  rcases m.node? p with _ | (_ | d)
  · rfl
  · rfl
  · cases hl : d.locked <;> simp only [hl] <;> rfl

section Reading

variable {m m' : Memory} {h h' : Handle} (host host' : Host)

/-- Two stores as they are. -/
abbrev StoresAre (s s' t t' : Host × Memory) : Prop := t = s ∧ t' = s'

/-- Handles on the same bytes are read alike, and nothing changes. -/
theorem parallel_read (hc : m'.contentOf h' = m.contentOf h) (pos n : Nat) :
    Parallel (StoresAre (host, m) (host', m')) Eq ((channel h).read pos n) ((channel h').read pos n) := by
  rintro _ _ ⟨rfl, rfl⟩
  exact ⟨congrArg (Bytes.slice · pos n) hc.symm, rfl, rfl⟩

theorem parallel_size (hc : m'.contentOf h' = m.contentOf h) :
    Parallel (StoresAre (host, m) (host', m')) Eq (channel h).size (channel h').size := by
  rintro _ _ ⟨rfl, rfl⟩
  exact ⟨congrArg List.length hc.symm, rfl, rfl⟩

end Reading

/-! ### Copying -/

/-- Two stores hold alike trees. -/
abbrev StoresAlike (U : Path → Prop) (s t : Host × Memory) : Prop := AlikeOn U s.2 t.2

/-- A whole file is read through a handle of its own. -/
theorem parallel_readWhole (hp : U p) : Parallel (StoresAlike U) Eq (Request.withHandle p fun h => (channel h).readAll)
      (Request.withHandle p fun h => (channel h).readAll) := by
  refine .bind (parallel_onSecond (parallel_file p false)) ?_
  rintro - - - ⟨host, m⟩ ⟨host', m'⟩ (h : AlikeOn U m m')
  have hrun := onHandle_run (fun h => (channel h).readAll) host m p
  have hrun' := onHandle_run (fun h => (channel h).readAll) host' m' p
  obtain ⟨hn, hn'⟩ | ⟨hn, hn'⟩ | ⟨d, d', hn, hn', hb⟩ := h.node?_cases p <;> rw [hn] at hrun <;> rw [hn'] at hrun'
  · exact (agree_of_error hrun hrun').2 h
  · exact (agree_of_error hrun hrun').2 h
  · have hl := isLocked_eq_false_iff.1 (h.free p hp) d hn
    have hl' := isLocked_eq_false_iff.1 (h.free' p hp) d' hn'
    simp only [hl, hl', Bool.false_eq_true, if_false] at hrun hrun'
    -- Both handles are on the same bytes, and closing them takes the locks away again.
    have hbytes : (m'.put p (.file { d' with locked := true })).contentOf ⟨p, d'.serial⟩ =
        (m.put p (.file { d with locked := true })).contentOf ⟨p, d.serial⟩ := by
      rw [contentOf_eq (Request.fileOf?_locked rfl), contentOf_eq (Request.fileOf?_locked rfl)]
      exact hb
    have hread := Channel.parallel_readAll (parallel_size host host' hbytes) (parallel_read host host' hbytes) _ _ ⟨rfl, rfl⟩
    obtain ⟨a, _, _, _, hx, hy, rfl, rfl, rfl⟩ | ⟨e, _, _, hx, hy, rfl, rfl⟩ := hread.cases
    · rw [hx] at hrun
      rw [hy] at hrun'
      refine (agree_of_ok hrun hrun').2 ⟨rfl, ?_⟩
      simp only [StoresAlike, Request.release_locked hn hl, Request.release_locked hn' hl']
      exact h
    · rw [hx] at hrun
      rw [hy] at hrun'
      refine (agree_of_error hrun hrun').2 ?_
      simp only [StoresAlike, Request.release_locked hn hl, Request.release_locked hn' hl']
      exact h

/-- The entries below the source and the target must not be locked. -/
theorem parallel_copyFile (hs : U source) (ht : U target) :
    Parallel (StoresAlike U) (fun _ _ => True) (copyFile source target)
      (copyFile source target) := by
  rw [copyFile_eq]
  refine .bind (parallel_readWhole hs) ?_
  rintro data _ rfl
  refine .bind (parallel_onSecond (parallel_file target true)) fun _ _ _ => ?_
  exact .bind (parallel_onSecond (parallel_writeAt 0 data ht)) fun _ _ _ => .pure trivial

theorem parallel_copyTree (depth : Nat) (hs : ∀ q, q.under source = true → U q) (ht : ∀ q, q.under target = true → U q) :
    Parallel (StoresAlike U) (fun _ _ => True) (copyTree depth source target)
      (copyTree depth source target) := by
  induction depth generalizing source target with
  | zero => exact .throw
  | succ depth ih =>
    refine .bind (parallel_onSecond (parallel_entry source)) ?_
    rintro (_ | _ | ⟨n, t⟩) (_ | _ | ⟨n', t'⟩) hab
    case none.none => exact .throw
    case some.directory.some.directory =>
      refine .bind (parallel_onSecond (parallel_directory source false)) fun _ _ _ => ?_
      refine .bind (parallel_onSecond (parallel_directory target true)) fun _ _ _ => ?_
      refine .bind (parallel_onSecond (parallel_list source)) fun l l' hl => .forM ?_
      have hrows : List.Forall₂ (fun x x' => timelessRow x = timelessRow x') l l' := by
        have heq : List.Forall₂ Eq (l.map timelessRow) (l'.map timelessRow) := by
          rw [List.forall₂_eq_eq_eq, hl]
        rwa [List.forall₂_map_left_iff, List.forall₂_map_right_iff] at heq
      refine hrows.imp fun x x' hx => ?_
      obtain ⟨n, t⟩ := x
      obtain ⟨n', t'⟩ := x'
      obtain rfl : n = n' := congrArg Prod.fst hx
      refine ih (fun q hq => hs q (Path.under_trans hq (Path.under_child source n))) fun q hq => ht q ?_
      exact Path.under_trans hq (Path.under_child target n)
    case some.file.some.file =>
      exact parallel_copyFile (hs source (Path.under_refl _)) (ht target (Path.under_refl _))
    all_goals cases hab

theorem parallel_copy (hs : ∀ q, q.under source = true → U q) (ht : ∀ q, q.under target = true → U q) :
    Parallel (StoresAlike U) (fun _ _ => True) (copy source target)
      (copy source target) := by
  rintro ⟨host, m⟩ ⟨host', m'⟩ (h : AlikeOn U m m')
  refine .get_bind ?_
  have hbound : bound (host', m') = bound (host, m) := by
    have hsize : ∀ x : Memory, x.nodes.size = x.nodes.keys.length := fun x => (List.length_map Prod.fst).symm
    show m'.nodes.size = m.nodes.size
    rw [hsize, hsize, h.keys]
  rw [hbound]
  exact parallel_copyTree _ hs ht _ _ h

end Storage

/-! ### Requests -/

namespace Request

variable {U : Path → Prop} {p source target : Path}

theorem parallel_list (p : Path) : Parallel (StoresAlike U) (fun r r' => ∃ l l', r = .entries l ∧ r' = .entries l' ∧
        l'.map timelessRow = l.map timelessRow)
      (execute (.list p)) (execute (.list p)) :=
  .bind (parallel_onSecond (parallel_directory p false)) fun _ _ _ =>
    .bind (parallel_onSecond (Memory.parallel_list p)) fun l l' hl => .pure ⟨l, l', rfl, rfl, hl⟩

theorem parallel_createDirectory (p : Path) (parents : Bool) :
    Parallel (StoresAlike U) (fun _ _ => True) (execute (.createDirectory p parents))
      (execute (.createDirectory p parents)) := by
  have hmake : Parallel (StoresAlike U) (fun _ _ => True) (do
      directory p true
      return Reply.done (η := Handle)) (do
      directory p true
      return Reply.done (η := Handle)) :=
    .bind (parallel_onSecond (parallel_directory p true)) fun _ _ _ => .pure trivial
  refine .ite (fun _ => ?_) fun _ => hmake
  have hrest : Parallel (StoresAlike U) (fun _ _ => True) (do
      if (← FileStore.entry p).isSome then throw (.alreadyExists p)
      directory p true
      return Reply.done (η := Handle)) (do
      if (← FileStore.entry p).isSome then throw (.alreadyExists p)
      directory p true
      return Reply.done (η := Handle)) := by
    refine .bind (parallel_onSecond (parallel_entry p)) fun a b hab => ?_
    have hsome : b.isSome = a.isSome := by
      rw [← Option.isSome_map, hab, Option.isSome_map]
    rw [hsome]
    exact .ite (fun _ => .throw_bind) fun _ => hmake
  cases p.parent? with
  | none => exact hrest
  | some parent => exact .bind (parallel_onSecond (parallel_directory parent false)) fun _ _ _ => hrest

theorem parallel_createFile (p : Path) : Parallel (StoresAlike U) (fun _ _ => True) (execute (.createFile p))
      (execute (.createFile p)) :=
  .bind (parallel_onSecond (parallel_file p true)) fun _ _ _ => .pure trivial

theorem parallel_remove (recursive : Bool) (hp : ∀ q, q.under p = true → U q) :
    Parallel (StoresAlike U) (fun _ _ => True) (execute (.remove p recursive))
      (execute (.remove p recursive)) :=
  .bind (parallel_onSecond (Memory.parallel_remove recursive hp)) fun _ _ _ => .pure trivial

theorem parallel_copy (hs : ∀ q, q.under source = true → U q) (ht : ∀ q, q.under target = true → U q) :
    Parallel (StoresAlike U) (fun _ _ => True) (execute (.copy source target))
      (execute (.copy source target)) :=
  .bind (Storage.parallel_copy hs ht) fun _ _ _ => .pure trivial

/-- After a move nothing is said of locks. -/
theorem agree_move (hs : ∀ q, q.under source = true → U q) {s t : Host × Memory} (h : StoresAlike U s t) :
    Agree (execute (.move source target)) (execute (.move source target))
      (fun _ _ s t => Alike s.2 t.2) (StoresAlike U) s t :=
  .bind (agree_onSecond (Memory.agree_move hs h)) (fun _ _ hs => hs) fun _ _ _ _ hs => .pure hs

end Request

end Filespace
