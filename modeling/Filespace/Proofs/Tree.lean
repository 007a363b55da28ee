import Filespace.Entry
import Filespace.Proofs.Paths
import Filespace.Proofs.Tables
import Filespace.Storage.Memory

/-!
# The tree of a store in memory

A store in memory is known by its nodes (`Memory.node?`). Most facts about it need less than that, and four
views of a node say how much less:

* its *kind*, which is what the shape of the tree is about (`Memory.kind?`, `Memory.Closed`);
* its *content*, which is what a reader of the file sees (`Memory.content?`);
* its *outline*, which is all but the bytes and the time, and hence what reading and writing leave alone
  (`Memory.outline?`);
* the node *at rest*, which is all but the lock (`Memory.atRest?`).

The changes that a call can make are described here by what they do to the nodes; which call makes which change is
said in `Filespace.Proofs.MemoryCalls`.
-/

namespace Filespace

open Storage Path Table

/-- Rows at and below `source` are moved to `target`, where there were none. -/
theorem Table.get?_moved {α : Type} (t : Table Path α) {source target : Path} (hfree : ∀ r, t.get? (target.join r) = none)
    (q : Path) :
    ((t.filter fun q _ => !q.under source).insertMany
        (t.rows.filterMap fun (q, n) => (q.relativeTo? source).map fun r => (target.join r, n))).get? q =
      match q.relativeTo? target with
      | some r => t.get? (source.join r)
      | none => if q.under source = true then none else t.get? q := by
  let moved := t.rows.filterMap fun (q, n) => (q.relativeTo? source).map fun r => (target.join r, n)
  have mem : ∀ k n, (k, n) ∈ moved ↔ ∃ r, k = target.join r ∧ t.get? (source.join r) = some n := by
    intro k n
    simp only [moved, List.mem_filterMap, Option.map_eq_some_iff, Prod.exists, Prod.mk.injEq]
    constructor
    · rintro ⟨s, n', hm, r, hr, rfl, rfl⟩
      rw [relativeTo?_eq_some_iff] at hr
      exact ⟨r, rfl, by rw [← hr]; exact get?_eq_some_iff.2 hm⟩
    · rintro ⟨r, rfl, hn⟩
      exact ⟨source.join r, n, get?_eq_some_iff.1 hn, r, relativeTo?_join source r, rfl, rfl⟩
  have hleft : ∀ q, (t.filter fun q _ => !q.under source).get? q = if q.under source = true then none else t.get? q := by
    intro q
    cases hu : q.under source with
    | true => rw [if_pos rfl, get?_filter_of_false (by simp [hu])]
    | false => rw [if_neg (by simp), get?_filter_of_true (by simp [hu])]
  cases hr : q.relativeTo? target with
  | some r =>
    rw [relativeTo?_eq_some_iff] at hr
    subst hr
    show _ = t.get? (source.join r)
    cases hn : t.get? (source.join r) with
    | some n =>
      refine get?_insertMany_of_mem _ ((mem _ _).2 ⟨r, rfl, hn⟩) ?_
      intro w hw
      obtain ⟨r', e, hw⟩ := (mem _ _).1 hw
      rw [← join_inj.1 e, hn] at hw
      exact (Option.some.inj hw).symm
    | none =>
      rw [get?_insertMany_of_not_mem]
      · rw [hleft, hfree]
        split <;> rfl
      · intro w hw
        obtain ⟨r', e, hw⟩ := (mem _ _).1 hw
        rw [← join_inj.1 e, hn] at hw
        cases hw
  | none =>
    rw [get?_insertMany_of_not_mem]
    · exact hleft q
    · intro w hw
      obtain ⟨r', rfl, -⟩ := (mem _ _).1 hw
      rw [relativeTo?_join] at hr
      cases hr

namespace Storage

/-! ### Views of a node -/

/-- What a reader sees of an entry. -/
inductive Content where
  /-- A directory. -/
  | directory
  /-- A file with its bytes. -/
  | file (bytes : Bytes)
  deriving DecidableEq

namespace Memory

variable {m m' : Memory} {p q : Path} {n : Name} {d : FileData}

/-- The kind of a node. -/
def Node.kind : Node → EntryKind
  | directory => .directory
  | file _ => .file

/-- The content of a node. -/
def Node.content : Node → Content
  | directory => .directory
  | file d => .file d.bytes

/-- A node without its bytes and its time. -/
def Node.outline : Node → Node
  | directory => .directory
  | file d => .file { d with bytes := [], modified := 0 }

/-- A node as it is when no handle is open on it. -/
def Node.atRest : Node → Node
  | directory => .directory
  | file d => .file { d with locked := false }

/-- The kind of the node at a path. -/
def kind? (m : Memory) (p : Path) : Option EntryKind := (m.node? p).map Node.kind

/-- The content of the node at a path. -/
def content? (m : Memory) (p : Path) : Option Content := (m.node? p).map Node.content

/-- The outline of the node at a path. -/
def outline? (m : Memory) (p : Path) : Option Node := (m.node? p).map Node.outline

/-- The node at a path, at rest. -/
def atRest? (m : Memory) (p : Path) : Option Node := (m.node? p).map Node.atRest

@[simp] theorem Node.kind_outline (n : Node) : n.outline.kind = n.kind := by
  cases n <;> rfl

@[simp] theorem Node.isLocked_outline (n : Node) : n.outline.isLocked = n.isLocked := by
  cases n <;> rfl

theorem kind?_eq_none_iff : m.kind? p = none ↔ m.node? p = none := by
  simp [kind?]

theorem kind?_eq_directory_iff : m.kind? p = some .directory ↔ m.node? p = some .directory := by
  unfold kind?
  rcases m.node? p with _ | (_ | d) <;> simp [Node.kind]

theorem kind?_eq_file_iff : m.kind? p = some .file ↔ ∃ d, m.node? p = some (.file d) := by
  unfold kind?
  rcases m.node? p with _ | (_ | d) <;> simp [Node.kind]

/-- The outline decides the kind. -/
theorem kind?_of_outline? (h : m'.outline? p = m.outline? p) : m'.kind? p = m.kind? p := by
  have key : ∀ m : Memory, m.kind? p = (m.outline? p).map Node.kind := by
    intro m
    unfold kind? outline?
    cases m.node? p <;> simp
  rw [key, key, h]

/-- The content decides the kind. -/
theorem kind?_of_content? (h : m'.content? p = m.content? q) : m'.kind? p = m.kind? q := by
  have key : ∀ (m : Memory) p, m.kind? p = (m.content? p).map fun
      | .directory => EntryKind.directory
      | .file _ => EntryKind.file := by
    intro m p
    unfold kind? content?
    rcases m.node? p with _ | (_ | d) <;> rfl
  rw [key, key, h]

theorem content?_eq_file_iff {bytes : Bytes} :
    m.content? p = some (.file bytes) ↔ ∃ d, m.node? p = some (.file d) ∧ d.bytes = bytes := by
  unfold content?
  rcases m.node? p with _ | (_ | d) <;> simp [Node.content]

/-- At rest a node has all that a reader sees. -/
theorem content?_of_atRest? (h : m'.atRest? p = m.atRest? p) : m'.content? p = m.content? p := by
  have hview : ∀ x : Memory, x.content? p = (x.atRest? p).map Node.content := by
    intro x
    unfold content? atRest?
    rcases x.node? p with _ | (_ | d) <;> rfl
  rw [hview, hview, h]

theorem isLocked_eq_true_iff : m.isLocked p = true ↔ ∃ d, m.node? p = some (.file d) ∧ d.locked = true := by
  unfold isLocked
  rcases m.node? p with _ | (_ | d) <;> simp [Node.isLocked]

theorem isLocked_eq_false_iff :
    m.isLocked p = false ↔ ∀ d, m.node? p = some (.file d) → d.locked = false := by
  unfold isLocked
  rcases m.node? p with _ | (_ | d) <;> simp [Node.isLocked]

/-- The outline decides whether a handle is open. -/
theorem isLocked_of_outline? (h : m'.outline? p = m.outline? p) : m'.isLocked p = m.isLocked p := by
  have key : ∀ m : Memory, m.isLocked p = ((m.outline? p).map Node.isLocked).getD false := by
    intro m
    unfold isLocked outline?
    cases m.node? p <;> simp
  rw [key, key, h]

/-! ### Closed trees -/

/-- The root is a directory, and every other entry is in a directory. -/
structure Closed (m : Memory) : Prop where
  /-- The root is a directory. -/
  root : m.kind? .root = some .directory
  /-- Whatever has a child is a directory. -/
  parent : ∀ p n, m.kind? (p.child n) ≠ none → m.kind? p = some .directory

/-- Only kinds decide whether a tree is closed. -/
theorem Closed.congr (h : m.Closed) (hk : ∀ p, m'.kind? p = m.kind? p) : m'.Closed := by
  refine ⟨?_, ?_⟩
  · rw [hk, h.root]
  · intro p n hn
    rw [hk] at hn ⊢
    exact h.parent p n hn

/-- Above an entry there are directories only. -/
theorem Closed.above (h : m.Closed) (hp : m.kind? p ≠ none) (hu : p.under q = true) (hne : p ≠ q) :
    m.kind? q = some .directory := by
  induction p using induction_child with
  | base => exact absurd (root_under_iff.1 hu).symm hne
  | step p n ih =>
    have hd : m.kind? p = some .directory := h.parent p n hp
    rcases child_under_iff.1 hu with e | hu
    · exact absurd e hne
    · by_cases e : p = q
      · rw [← e]
        exact hd
      · exact ih (by rw [hd]; simp) hu e

/-- Below what is not a directory there is nothing. -/
theorem Closed.nothing_below (h : m.Closed) (hq : m.kind? q ≠ some .directory) (hu : p.under q = true)
    (hne : p ≠ q) : m.node? p = none := by
  rw [← kind?_eq_none_iff]
  by_contra hp
  exact hq (h.above hp hu hne)

/-- Where nothing is, nothing is below. -/
theorem Closed.nothing_under (h : m.Closed) (hq : m.node? q = none) (hu : p.under q = true) :
    m.node? p = none := by
  by_cases hne : p = q
  · rw [hne, hq]
  · refine h.nothing_below ?_ hu hne
    rw [kind?_eq_none_iff.2 hq]
    simp

/-- The parent of an entry is a directory. -/
theorem Closed.parent_directory (h : m.Closed) (hp : m.node? p ≠ none) (hq : p.parent? = some q) :
    m.node? q = some .directory := by
  obtain ⟨n, rfl⟩ := parent?_eq_some_iff.1 hq
  rw [← kind?_eq_directory_iff]
  exact h.parent q n (fun e => hp (kind?_eq_none_iff.1 e))

/-- The way to an entry goes through directories. -/
theorem Closed.trail_directories (h : m.Closed) (hp : m.node? p = some .directory) :
    ∀ q ∈ p.trail, m.node? q = some .directory := by
  intro q hq
  obtain ⟨hu, -⟩ := mem_trail_iff.1 hq
  by_cases e : p = q
  · rw [← e, hp]
  · rw [← kind?_eq_directory_iff]
    exact h.above (by rw [kind?_eq_directory_iff.2 hp]; simp) hu e

/-- A fresh tree has its root and nothing else. -/
theorem node?_of_nodes (h : m.nodes = empty.insert .root .directory) (p : Path) :
    m.node? p = if p = .root then some .directory else none := by
  unfold node?
  rw [h]
  rfl

/-- A new store is closed. -/
theorem closed_of_nodes (h : m.nodes = empty.insert .root .directory) : m.Closed := by
  refine ⟨?_, ?_⟩
  · unfold kind?
    rw [node?_of_nodes h]
    rfl
  · intro p n hn
    unfold kind? at hn
    rw [node?_of_nodes h, if_neg child_ne_root] at hn
    exact absurd rfl hn

/-- In a fresh tree nothing is locked. -/
theorem isLocked_of_nodes (h : m.nodes = empty.insert .root .directory) (p : Path) : m.isLocked p = false := by
  unfold isLocked
  rw [node?_of_nodes h]
  by_cases e : p = .root
  · rw [if_pos e]
    rfl
  · rw [if_neg e]

/-! ### Short files -/

/-- The node is not a file that is longer than a store keeps. -/
def Node.Short : Node → Prop
  | directory => True
  | file f => f.bytes.length ≤ maxLength

theorem Node.short_directory : Node.directory.Short := trivial

/-- No file is longer than a store keeps. -/
def Short (m : Memory) : Prop := ∀ p x, m.node? p = some x → x.Short

/-- Every node is short or was there before. -/
theorem Short.of_nodes (h : m.Short) (hnodes : ∀ p x, m'.node? p = some x → x.Short ∨ ∃ q, m.node? q = some x) :
    m'.Short := by
  intro p x hx
  obtain hshort | ⟨q, hq⟩ := hnodes p x hx
  · exact hshort
  · exact h q x hq

theorem Short.bytes (h : m.Short) (hd : m.node? p = some (.file d)) : d.bytes.length ≤ maxLength :=
  h p _ hd

theorem short_of_nodes (h : m.nodes = empty.insert .root .directory) : m.Short := by
  intro p x hx
  rw [node?_of_nodes h] at hx
  split at hx
  · cases hx
    trivial
  · cases hx

/-! ### Changing one node -/

theorem node?_put (m : Memory) (p q : Path) (n : Node) :
    (m.put p n).node? q = if q = p then some n else m.node? q :=
  get?_insert m.nodes p q n

@[simp] theorem node?_put_self (m : Memory) (p : Path) (n : Node) : (m.put p n).node? p = some n := by
  rw [node?_put, if_pos rfl]

theorem node?_put_of_ne (m : Memory) (n : Node) (h : q ≠ p) : (m.put p n).node? q = m.node? q := by
  rw [node?_put, if_neg h]

@[simp] theorem put_put (m : Memory) (p : Path) (n k : Node) : (m.put p n).put p k = m.put p k := by
  simp [put]

theorem Short.put (h : m.Short) {x : Node} (hx : x.Short) : (m.put p x).Short := by
  refine h.of_nodes fun q y hy => ?_
  rw [node?_put] at hy
  split at hy
  · cases hy
    exact Or.inl hx
  · exact Or.inr ⟨q, hy⟩

theorem put_eq_self {n : Node} (h : m.node? p = some n) : m.put p n = m := by
  unfold put
  rw [insert_eq_self h]

@[simp] theorem clock_put (m : Memory) (p : Path) (n : Node) : (m.put p n).clock = m.clock := rfl

/-- Putting a file in place of a file that differs in bytes and time keeps every outline. -/
theorem outline?_put {d' : FileData} (h : m.node? p = some (.file d)) (hs : d'.serial = d.serial)
    (hl : d'.locked = d.locked) (q : Path) : (m.put p (.file d')).outline? q = m.outline? q := by
  unfold outline?
  rw [node?_put]
  split
  · rename_i e
    rw [e, h]
    simp [Node.outline, hs, hl]
  · rfl

/-- Putting a file in place of a file keeps every kind. -/
theorem kind?_put_file {d' : FileData} (h : m.node? p = some (.file d)) (q : Path) :
    (m.put p (.file d')).kind? q = m.kind? q := by
  unfold kind?
  rw [node?_put]
  split
  · rename_i e
    rw [e, h]
    rfl
  · rfl

/-- Whether a file is locked does not show when it is at rest. -/
theorem atRest?_put_locked (h : m.node? p = some (.file d)) (locked : Bool) (q : Path) :
    (m.put p (.file { d with locked := locked })).atRest? q = m.atRest? q := by
  unfold atRest?
  rw [node?_put]
  split
  · rename_i e
    rw [e, h]
    rfl
  · rfl

/-! ### Handles -/

theorem fileOf?_eq_some_iff {h : Handle} :
    m.fileOf? h = some d ↔ m.node? h.path = some (.file d) ∧ d.serial = h.serial := by
  unfold fileOf?
  rcases m.node? h.path with _ | (_ | d') <;> simp
  constructor
  · rintro ⟨hs, rfl⟩
    exact ⟨rfl, hs⟩
  · rintro ⟨rfl, hs⟩
    exact ⟨hs, rfl⟩

/-- Releasing a handle takes one lock away and changes nothing else. -/
theorem node?_release (m : Memory) (h : Handle) (q : Path) :
    (m.release h).node? q =
      if q = h.path then (match m.fileOf? h with
        | some d => some (.file { d with locked := false })
        | none => m.node? q) else m.node? q := by
  unfold release
  cases hf : m.fileOf? h with
  | none => simp
  | some d => rw [node?_put]

theorem kind?_release (m : Memory) (h : Handle) (q : Path) : (m.release h).kind? q = m.kind? q := by
  unfold release
  cases hf : m.fileOf? h with
  | none => rfl
  | some d => exact kind?_put_file (fileOf?_eq_some_iff.1 hf).1 q

/-- Releasing a handle changes nothing of the nodes at rest. -/
theorem atRest?_release (m : Memory) (h : Handle) (q : Path) : (m.release h).atRest? q = m.atRest? q := by
  unfold release
  cases hf : m.fileOf? h with
  | none => rfl
  | some d =>
    unfold atRest?
    rw [node?_put]
    split
    · rename_i e
      rw [e, (fileOf?_eq_some_iff.1 hf).1]
      rfl
    · rfl

/-- Opening a handle and releasing it leaves the tree as it was, but for what was written in between. -/
theorem release_put {d' : FileData} (hs : d'.serial = d.serial) :
    (m.put p (.file d')).release ⟨p, d.serial⟩ = m.put p (.file { d' with locked := false }) := by
  have : (m.put p (.file d')).fileOf? ⟨p, d.serial⟩ = some d' :=
    fileOf?_eq_some_iff.2 ⟨node?_put_self m p (.file d'), hs⟩
  unfold release
  rw [this]
  simp

theorem Short.release (h : m.Short) (k : Handle) : (m.release k).Short := by
  unfold Memory.release
  cases hf : m.fileOf? k with
  | none => exact h
  | some d =>
    have hd := h.bytes (fileOf?_eq_some_iff.1 hf).1
    exact h.put hd

/-! ### Removing -/

theorem node?_prune (m : Memory) (p q : Path) :
    (m.prune p).node? q = if q.under p = true then none else m.node? q := by
  unfold prune node?
  cases hu : q.under p with
  | true => rw [if_pos rfl, get?_filter_of_false (by simp [hu])]
  | false => rw [if_neg (by simp), get?_filter_of_true (by simp [hu])]

/-- Taking a file away is the same as taking away all at and below it. -/
theorem Closed.erase_eq_prune (h : m.Closed) (hp : m.node? p = some (.file d)) :
    ({ m with nodes := m.nodes.erase p }) = m.prune p := by
  have hkind : m.kind? p ≠ some .directory := by
    rw [kind?_eq_file_iff.2 ⟨d, hp⟩]
    simp
  congr 1
  apply ext_get?
  intro q
  have hpr := node?_prune m p q
  unfold prune node? at hpr
  rw [hpr, get?_erase]
  by_cases e : q = p
  · rw [if_pos e, if_pos (by rw [e]; exact under_refl p)]
  · rw [if_neg e]
    split
    · rename_i hu
      exact h.nothing_below hkind hu e
    · rfl

/-- Removing an entry other than the root keeps the tree closed. -/
theorem Closed.prune (h : m.Closed) (hp : p ≠ .root) : (m.prune p).Closed := by
  have key : ∀ q, (m.prune p).kind? q = if q.under p = true then none else m.kind? q := by
    intro q
    unfold kind?
    rw [node?_prune]
    split <;> rfl
  refine ⟨?_, ?_⟩
  · rw [key, if_neg (fun e => hp (root_under_iff.1 e)), h.root]
  · intro q n hn
    rw [key] at hn ⊢
    split at hn
    · exact absurd rfl hn
    · rename_i hu
      rw [if_neg fun e => hu (under_trans (under_child q n) e)]
      exact h.parent q n hn

theorem Short.prune (h : m.Short) (p : Path) : (m.prune p).Short := by
  refine h.of_nodes fun q x hx => ?_
  rw [node?_prune] at hx
  split at hx
  · cases hx
  · exact Or.inr ⟨q, hx⟩

/-! ### Locks below a path -/

theorem mem_subtree : q ∈ m.subtree p ↔ m.node? q ≠ none ∧ q.under p = true := by
  unfold subtree
  rw [List.mem_filter, mem_keys, ← Option.isSome_iff_exists, Option.isSome_iff_ne_none]
  exact Iff.rfl

/-- No file at or below a path is locked. -/
def Unlocked (m : Memory) (p : Path) : Prop := ∀ q, q.under p = true → m.isLocked q = false

theorem firstLocked?_eq_none_iff : m.firstLocked? p = none ↔ m.Unlocked p := by
  unfold firstLocked?
  rw [List.find?_eq_none]
  constructor
  · intro h q hu
    by_cases hq : m.node? q = none
    · exact isLocked_eq_false_iff.2 fun d hd => by rw [hq] at hd; cases hd
    · simpa using h q (mem_subtree.2 ⟨hq, hu⟩)
  · intro h q hq
    simpa using h q (mem_subtree.1 hq).2

/-! ### Moving -/

/-- After a move of the entries at and below `source`, each is found at the same place below `target`. -/
theorem Closed.node?_graft (h : m.Closed) {source target : Path} (ht : m.node? target = none) (q : Path) :
    (m.graft source target).node? q =
      match q.relativeTo? target with
      | some r => m.node? (source.join r)
      | none => if q.under source = true then none else m.node? q := by
  exact get?_moved m.nodes (fun r => h.nothing_under ht (under_join target r)) q

/-- A move to a free path in a directory, not below the moved entry, keeps the tree closed. -/
theorem Closed.graft (h : m.Closed) {source target dir : Path} (hs : source ≠ .root)
    (hts : target.under source = false) (ht : m.node? target = none) (hp : target.parent? = some dir)
    (hd : m.node? dir = some .directory) : (m.graft source target).Closed := by
  have key : ∀ q, (m.graft source target).kind? q =
      match q.relativeTo? target with
      | some r => m.kind? (source.join r)
      | none => if q.under source = true then none else m.kind? q := by
    intro q
    unfold kind?
    rw [h.node?_graft ht]
    cases q.relativeTo? target with
    | some r => rfl
    | none =>
      simp only
      split <;> rfl
  obtain ⟨t, rfl⟩ := parent?_eq_some_iff.1 hp
  have hds : dir.under source = false := by
    rw [Bool.eq_false_iff]
    intro hu
    rw [under_trans (under_child dir t) hu] at hts
    cases hts
  refine ⟨?_, ?_⟩
  · have hroot : Path.root.relativeTo? (dir.child t) = none := by
      rw [relativeTo?_eq_none_iff, Bool.eq_false_iff]
      intro hu
      exact child_ne_root (root_under_iff.1 hu)
    rw [key, hroot]
    rw [if_neg (fun e => hs (root_under_iff.1 e)), h.root]
  · intro q n hn
    rw [key] at hn ⊢
    -- A child of `q` is the target itself, below it, or elsewhere.
    cases hr : q.relativeTo? (dir.child t) with
    | some r =>
      rw [relativeTo?_eq_some_iff] at hr
      subst hr
      rw [← join_child, relativeTo?_join] at hn
      simp only [join_child] at hn ⊢
      exact h.parent _ n hn
    | none =>
      by_cases e : q.child n = dir.child t
      · obtain ⟨rfl, rfl⟩ := child_inj.1 e
        rw [if_neg (by rw [hds]; simp), kind?_eq_directory_iff.2 hd]
      · have hq : (q.child n).relativeTo? (dir.child t) = none := by
          rw [relativeTo?_eq_none_iff] at hr ⊢
          rw [Bool.eq_false_iff] at hr ⊢
          intro hu
          rcases child_under_iff.1 hu with k | k
          · exact e k
          · exact hr k
        rw [hq] at hn
        simp only at hn
        split at hn
        · exact absurd rfl hn
        · rename_i hu
          rw [if_neg fun k => hu (under_trans (under_child q n) k)]
          exact h.parent q n hn

theorem Closed.short_graft (h : m.Closed) {source target : Path} (ht : m.node? target = none) (hs : m.Short) :
    (m.graft source target).Short := by
  refine hs.of_nodes fun q x hx => ?_
  rw [h.node?_graft ht] at hx
  split at hx
  · exact Or.inr ⟨_, hx⟩
  · split at hx
    · cases hx
    · exact Or.inr ⟨q, hx⟩

/-! ### Growing -/

/-- The tree with directories all the way to a path. -/
def grown (m : Memory) (p : Path) : Memory :=
  { m with nodes := m.nodes.insertMany (p.trail.map fun q => (q, .directory)) }

@[simp] theorem grown_root (m : Memory) : m.grown .root = m := rfl

theorem grown_child (m : Memory) (p : Path) (n : Name) :
    m.grown (p.child n) = (m.grown p).put (p.child n) .directory := by
  unfold grown put
  rw [trail_child, List.map_append, insertMany, List.foldl_append]
  rfl

theorem node?_grown (m : Memory) (p q : Path) :
    (m.grown p).node? q = if q ∈ p.trail then some .directory else m.node? q := by
  induction p using induction_child with
  | base => simp
  | step p n ih =>
    rw [grown_child, node?_put, ih]
    by_cases e : q = p.child n
    · simp [e]
    · simp [e]

/-- Growing to a directory makes none of its children. -/
@[simp] theorem node?_grown_child (m : Memory) (p : Path) (n : Name) :
    (m.grown p).node? (p.child n) = m.node? (p.child n) := by
  rw [node?_grown, if_neg]
  intro hq
  have := (mem_trail_iff.1 hq).1
  rw [not_child_under] at this
  cases this

/-- Growing to a directory changes nothing. -/
theorem Closed.grown_eq_self (h : m.Closed) (hp : m.node? p = some .directory) : m.grown p = m := by
  have key : ∀ q, (m.grown p).node? q = m.node? q := by
    intro q
    rw [node?_grown]
    split
    · rename_i hq
      rw [h.trail_directories hp q hq]
    · rfl
  exact congrArg (fun t => { m with nodes := t }) (ext_get? key)

theorem Closed.node?_grown_self (h : m.Closed) (p : Path) : (m.grown p).node? p = some .directory := by
  rw [node?_grown]
  split
  · rfl
  · rename_i hp
    rw [mem_trail_iff] at hp
    have : p = .root := by
      by_contra hne
      exact hp ⟨under_refl p, hne⟩
    rw [this, ← kind?_eq_directory_iff]
    exact h.root

/-- Putting an entry into a directory, unless a file takes the place of one with children, keeps the tree
closed. -/
theorem Closed.put (h : m.Closed) {x : Node} (hp : m.node? p = some .directory)
    (hx : x = .directory ∨ m.node? (p.child n) = none) : (m.put (p.child n) x).Closed := by
  have key : ∀ q, (m.put (p.child n) x).kind? q = if q = p.child n then some x.kind else m.kind? q := by
    intro q
    unfold kind?
    rw [node?_put]
    split <;> rfl
  refine ⟨?_, ?_⟩
  · rw [key, if_neg (fun e => child_ne_root e.symm), h.root]
  · intro q k hk
    rw [key] at hk ⊢
    split at hk
    · rename_i e
      obtain ⟨rfl, rfl⟩ := child_inj.1 e
      rw [if_neg, kind?_eq_directory_iff.2 hp]
      intro e
      have := not_child_under q k
      rw [← e, under_refl] at this
      cases this
    · split
      · rename_i e
        rcases hx with rfl | hx
        · rfl
        · have hd := h.parent q k hk
          rw [e, kind?_eq_none_iff.2 hx] at hd
          cases hd
      · exact h.parent q k hk

/-- Growing keeps the tree closed. -/
theorem Closed.grown (h : m.Closed) (p : Path) : (m.grown p).Closed := by
  induction p using induction_child with
  | base => exact h
  | step p n ih =>
    rw [grown_child]
    exact ih.put (h.node?_grown_self p) (Or.inl rfl)

/-- The tree with a new file in a directory. -/
def made (m : Memory) (p : Path) : Memory :=
  { m.put p (.file ⟨m.nextSerial, [], false, m.clock⟩) with nextSerial := m.nextSerial + 1 }

theorem node?_made (m : Memory) (p q : Path) :
    (m.made p).node? q = if q = p then some (.file ⟨m.nextSerial, [], false, m.clock⟩) else m.node? q :=
  node?_put m p q _

theorem Closed.made (h : m.Closed) (hp : m.node? p = some .directory)
    (hn : m.node? (p.child n) = none) : (m.made (p.child n)).Closed :=
  (h.put hp (Or.inr hn)).congr fun _ => rfl

theorem Short.grown (h : m.Short) (p : Path) : (m.grown p).Short := by
  refine h.of_nodes fun q x hx => ?_
  rw [node?_grown] at hx
  split at hx
  · cases hx
    exact Or.inl trivial
  · exact Or.inr ⟨q, hx⟩

theorem Short.made (h : m.Short) (p : Path) : (m.made p).Short := by
  refine h.of_nodes fun q x hx => ?_
  rw [node?_made] at hx
  split at hx
  · cases hx
    exact Or.inl (Nat.zero_le _)
  · exact Or.inr ⟨q, hx⟩

/-! ### Listing -/

theorem mem_children {s : Stat} : (n, s) ∈ m.children p ↔ (m.node? (p.child n)).map Node.stat = some s := by
  unfold children
  rw [List.mem_filterMap]
  constructor
  · rintro ⟨⟨q, x⟩, hx, h⟩
    simp only at h
    split at h
    · rename_i hq
      obtain ⟨k, rfl⟩ := parent?_eq_some_iff.1 hq
      simp only [name?_child, Option.map_some, Option.some.injEq, Prod.mk.injEq] at h
      obtain ⟨rfl, rfl⟩ := h
      rw [show m.node? (p.child k) = some x from get?_eq_some_iff.2 hx]
      rfl
    · cases h
  · intro h
    obtain ⟨x, hx, rfl⟩ := Option.map_eq_some_iff.1 h
    exact ⟨(p.child n, x), get?_eq_some_iff.1 hx, by simp⟩

end Memory

end Storage

end Filespace
