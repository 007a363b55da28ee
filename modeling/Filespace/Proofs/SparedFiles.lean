import Filespace.Proofs.Outlines
import Filespace.Proofs.Reachability

/-!
# What calls without a handle leave alone

A call on a store in memory that does not go through a handle leaves every locked file as it is and locks none
(`Memory.Spares`). Copying opens handles of its own, but has closed each of them before it goes on.

Files are told apart by number: no number is given out twice, and a move takes the number along (`Memory.Numbered`). So a
file can be followed from tree to tree, and `Memory.beforeMove` says where it was before a move.
-/

namespace Filespace.Storage

open Memory Backed

namespace Memory

variable {m m' m'' : Memory} {p q source target : Path} {d d' : FileData}

/-! ### Numbers of files -/

/-- No two files have one number, and numbers are given out in turn. -/
structure Numbered (m : Memory) : Prop where
  /-- A number is that of one file. -/
  single : ∀ p q d e, m.node? p = some (.file d) → m.node? q = some (.file e) → d.serial = e.serial → p = q
  /-- The next number is new. -/
  used : ∀ p d, m.node? p = some (.file d) → d.serial < m.nextSerial

/-- Files that come from different places have different numbers. -/
theorem Numbered.of_origin (h : m.Numbered) (origin : Path → Path) (hnext : m.nextSerial ≤ m'.nextSerial)
    (hfile : ∀ p d, m'.node? p = some (.file d) → ∃ e, m.node? (origin p) = some (.file e) ∧ e.serial = d.serial)
    (hinj : ∀ p q, m'.node? p ≠ none → m'.node? q ≠ none → origin p = origin q → p = q) : m'.Numbered := by
  constructor
  case single =>
    intro p q d e hp hq hserial
    obtain ⟨d', hd', hds⟩ := hfile p d hp
    obtain ⟨e', he', hes⟩ := hfile q e hq
    have horigin : origin p = origin q := h.single _ _ d' e' hd' he' (by rw [hds, hes, hserial])
    exact hinj p q (by simp [hp]) (by simp [hq]) horigin
  case used =>
    intro p d hp
    obtain ⟨d', hd', hds⟩ := hfile p d hp
    have := h.used _ d' hd'
    omega

/-- Where files are changed in place, or taken away, the numbers stay. -/
theorem Numbered.of_files (h : m.Numbered) (hnext : m.nextSerial ≤ m'.nextSerial)
    (hfile : ∀ p d, m'.node? p = some (.file d) → ∃ e, m.node? p = some (.file e) ∧ e.serial = d.serial) : m'.Numbered :=
  h.of_origin id hnext hfile fun _ _ _ _ heq => heq

theorem numbered_of_nodes (h : m.nodes = Table.empty.insert .root .directory) : m.Numbered := by
  have hno : ∀ p d, m.node? p ≠ some (.file d) := by
    intro p d hp
    rw [node?_of_nodes h] at hp
    split at hp <;> simp at hp
  exact ⟨fun p _ d _ hp => absurd hp (hno p d), fun p d hp => absurd hp (hno p d)⟩

theorem Numbered.made (h : m.Numbered) (p : Path) : (m.made p).Numbered := by
  constructor
  case single =>
    intro q r d e hd he hserial
    rw [node?_made] at hd he
    -- The new file has the next number, and all others have smaller ones.
    by_cases hq : q = p <;> by_cases hr : r = p
    · rw [hq, hr]
    · simp only [hq, if_true, hr, if_false, Option.some.injEq, Node.file.injEq] at hd he
      have := h.used r e he
      simp only [← hd] at hserial
      omega
    · simp only [hq, if_false, hr, if_true, Option.some.injEq, Node.file.injEq] at hd he
      have := h.used q d hd
      simp only [← he] at hserial
      omega
    · simp only [hq, if_false, hr] at hd he
      exact h.single q r d e hd he hserial
  case used =>
    intro q d hd
    have hnext : (m.made p).nextSerial = m.nextSerial + 1 := rfl
    rw [node?_made] at hd
    split at hd
    · simp only [Option.some.injEq, Node.file.injEq] at hd
      simp [← hd, hnext]
    · have := h.used q d hd
      omega

/-- A file that is exchanged keeps its number. -/
theorem Numbered.put_file (h : m.Numbered) (hd : m.node? p = some (.file d)) (hserial : d'.serial = d.serial) :
    (m.put p (.file d')).Numbered := by
  refine h.of_files (Nat.le_refl _) fun q e hq => ?_
  by_cases heq : q = p
  · rw [heq, node?_put_self, Option.some.injEq, Node.file.injEq] at hq
    exact ⟨d, by rw [heq, hd], by rw [← hq, hserial]⟩
  · exact ⟨e, by rwa [node?_put_of_ne m _ heq] at hq, rfl⟩

/-! ### Calls without a handle -/

/-- Between two trees locked files are left alone, no file is locked, and files keep different numbers. -/
structure Spares (m m' : Memory) : Prop where
  /-- A locked file is as before. -/
  kept : ∀ p d, m.node? p = some (.file d) → d.locked = true → m'.node? p = some (.file d)
  /-- A locked file was locked before. -/
  old : ∀ p d, m'.node? p = some (.file d) → d.locked = true → m.node? p = some (.file d)
  /-- Numbers stay different. -/
  numbered : m.Numbered → m'.Numbered

theorem Spares.refl (m : Memory) : m.Spares m := ⟨fun _ _ h _ => h, fun _ _ h _ => h, id⟩

/-- The locked files stay the same ones. -/
theorem Spares.isLocked (h : m.Spares m') (p : Path) : m'.isLocked p = m.isLocked p := by
  rw [Bool.eq_iff_iff, isLocked_eq_true_iff, isLocked_eq_true_iff]
  constructor
  · rintro ⟨d, hd, hl⟩
    exact ⟨d, h.old p d hd hl, hl⟩
  · rintro ⟨d, hd, hl⟩
    exact ⟨d, h.kept p d hd hl, hl⟩

theorem Spares.trans (h : m.Spares m') (h' : m'.Spares m'') : m.Spares m'' where
  kept p d hp hl := h'.kept p d (h.kept p d hp hl) hl
  old p d hp hl := h.old p d (h'.old p d hp hl) hl
  numbered hn := h'.numbered (h.numbered hn)

/-- Growing the tree takes no file's place. -/
theorem spares_grown (hfree : ∀ q d, q ∈ p.trail → m.node? q ≠ some (.file d)) : m.Spares (m.grown p) := by
  have hfile : ∀ q d, (m.grown p).node? q = some (.file d) ↔ m.node? q = some (.file d) := by
    intro q d
    rw [node?_grown]
    split
    · rename_i hq
      simp [hfree q d hq]
    · exact Iff.rfl
  constructor
  case kept => exact fun q d hq _ => (hfile q d).2 hq
  case old => exact fun q d hq _ => (hfile q d).1 hq
  case numbered => exact fun hn => hn.of_files (Nat.le_refl _) fun q d hq => ⟨d, (hfile q d).1 hq, rfl⟩

/-- A new file is not locked, and it is where nothing was. -/
theorem spares_made (hfree : m.node? p = none) : m.Spares (m.made p) := by
  constructor
  case kept =>
    intro q d hq _
    have hne : q ≠ p := fun e => by simp [e, hfree] at hq
    rw [node?_made, if_neg hne, hq]
  case old =>
    intro q d hq hl
    rw [node?_made] at hq
    split at hq
    · simp only [Option.some.injEq, Node.file.injEq] at hq
      simp [← hq] at hl
    · exact hq
  case numbered => exact fun hn => hn.made p

theorem spares_prune (hfree : m.Unlocked p) : m.Spares (m.prune p) := by
  constructor
  case kept =>
    intro q d hq hl
    have hu : ¬ q.under p = true := fun hu => by simp [isLocked_eq_false_iff.1 (hfree q hu) d hq] at hl
    rw [node?_prune, if_neg hu, hq]
  case old =>
    intro q d hq _
    rw [node?_prune] at hq
    split at hq
    · simp at hq
    · exact hq
  case numbered =>
    intro hn
    refine hn.of_files (Nat.le_refl _) fun q d hq => ?_
    rw [node?_prune] at hq
    split at hq
    · simp at hq
    · exact ⟨d, hq, rfl⟩

/-- Where what is found at a path after a move was before. -/
def beforeMove (source target q : Path) : Path :=
  match q.relativeTo? target with
  | some r => source.join r
  | none => q

/-- After a move each entry is one from before, and no two are the same. -/
theorem Closed.node?_beforeMove (h : m.Closed) (ht : m.node? target = none) {n : Node}
    (hq : (m.graft source target).node? q = some n) : m.node? (beforeMove source target q) = some n := by
  rw [h.node?_graft ht] at hq
  unfold beforeMove
  cases hr : q.relativeTo? target with
  | some r => simpa [hr] using hq
  | none =>
    simp only [hr] at hq
    split at hq
    · simp at hq
    · exact hq

theorem Closed.beforeMove_inj (h : m.Closed) (ht : m.node? target = none) (hp : (m.graft source target).node? p ≠ none)
    (hq : (m.graft source target).node? q ≠ none) (heq : beforeMove source target p = beforeMove source target q) :
    p = q := by
  -- What was below the source is now below the target and nowhere else.
  have hleft : ∀ x r, (m.graft source target).node? x ≠ none → x.relativeTo? target = none → x ≠ source.join r := by
    intro x r hx hxt e
    rw [h.node?_graft ht, hxt, e] at hx
    simp at hx
  unfold beforeMove at heq
  cases hpt : p.relativeTo? target with
  | some r =>
    cases hqt : q.relativeTo? target with
    | some r' =>
      simp only [hpt, hqt] at heq
      rw [Path.relativeTo?_eq_some_iff.1 hpt, Path.relativeTo?_eq_some_iff.1 hqt, Path.join_inj.1 heq]
    | none =>
      simp only [hpt, hqt] at heq
      exact absurd heq.symm (hleft q r hq hqt)
  | none =>
    cases hqt : q.relativeTo? target with
    | some r =>
      simp only [hpt, hqt] at heq
      exact absurd heq (hleft p r hp hpt)
    | none => simpa only [hpt, hqt] using heq

theorem Closed.spares_graft (h : m.Closed) (ht : m.node? target = none)
    (hfree : m.Unlocked source) : m.Spares (m.graft source target) := by
  constructor
  case kept =>
    intro q d hq hl
    have hs : ¬ q.under source = true := fun hu => by simp [isLocked_eq_false_iff.1 (hfree q hu) d hq] at hl
    have hnone : q.relativeTo? target = none := by
      rw [Path.relativeTo?_eq_none_iff, Bool.eq_false_iff]
      exact fun hu => by simp [h.nothing_under ht hu] at hq
    simp [h.node?_graft ht, hnone, hs, hq]
  case old =>
    intro q d hq hl
    have hbefore := h.node?_beforeMove ht hq
    unfold beforeMove at hbefore
    cases hr : q.relativeTo? target with
    | some r =>
      -- It would have been locked below the source.
      simp only [hr] at hbefore
      simp [isLocked_eq_false_iff.1 (hfree _ (Path.under_join source r)) d hbefore] at hl
    | none => simpa only [hr] using hbefore
  case numbered =>
    intro hn
    refine hn.of_origin (beforeMove source target) (Nat.le_refl _) ?_ ?_
    · exact fun q d hq => ⟨d, h.node?_beforeMove ht hq, rfl⟩
    · exact fun x y hx hy heq => h.beforeMove_inj ht hx hy heq

/-- New bytes go into a file that is not locked. -/
theorem spares_revised (hd : m.node? p = some (.file d)) (hl : d.locked = false) (bytes : Bytes) :
    m.Spares (m.revised p d bytes) := by
  constructor
  case kept =>
    intro q e hq he
    have hne : q ≠ p := fun heq => by
      simp_all
    rw [node?_revised_of_ne hne, hq]
  case old =>
    intro q e hq he
    by_cases heq : q = p
    · rw [heq, revised, node?_put_self] at hq
      simp only [Option.some.injEq, Node.file.injEq] at hq
      simp [← hq, hl] at he
    · rwa [node?_revised_of_ne heq] at hq
  case numbered => exact fun hn => hn.put_file hd rfl

/-- From a tree in order a call leads to one in order, and spares the locked files. -/
def Careful (s t : Host × Memory) : Prop := s.2.Orderly → t.2.Orderly ∧ s.2.Spares t.2

instance : IsPreorder (Host × Memory) Careful where
  refl s hs := ⟨hs, .refl s.2⟩
  trans _ _ _ hst htu hs :=
    have ht := hst hs
    have hu := htu ht.1
    ⟨hu.1, ht.2.trans hu.2⟩

section Calls

variable {α : Type} {x : StoreM (Host × Memory) α}

/-- A call that fails leaves everything as it was. -/
def Atomic (x : StoreM (Host × Memory) α) : Prop := ∀ s, s.2.Orderly → wp x (fun _ _ => True) (fun _ t => t = s) s

/-- A call that spares the locked files, and all there is if it fails. -/
structure Tidy (x : StoreM (Host × Memory) α) : Prop where
  careful : Stays Careful x
  atomic : Atomic x

theorem atomic_of_noEffect {Q : Memory → α → Memory → Prop} {P : Memory → Prop}
    (hx : ∀ m, m.Orderly → treeWp x (Q m) (NoEffect Memory m (P m)) m) : Atomic x := by
  intro s hs
  exact (hx s.2 hs s.1 s.2 rfl).mono (fun _ _ _ => trivial) fun _ t h => Prod.ext h.1 h.2.1

theorem tidy_of_noEffect {Q : Memory → α → Memory → Prop} {P : Memory → Prop} (hkeeps : KeepsOrder x)
    (hx : ∀ m, m.Orderly → treeWp x (Q m) (NoEffect Memory m (P m)) m)
    (hQ : ∀ m a m', m.Orderly → Q m a m' → m.Spares m') : Tidy x := by
  refine ⟨stays_iff.2 fun s hs => ?_, atomic_of_noEffect hx⟩
  have horder := hkeeps s.2 hs s.1 s.2 rfl
  have hspares : treeWp x (fun _ m' => s.2.Spares m') (fun _ m' => s.2.Spares m') s.2 := by
    refine (hx s.2 hs).mono (fun a m' => hQ s.2 a m' hs) ?_
    intro e m' he
    rw [he.1]
    exact .refl s.2
  exact ⟨wp.state (horder.mono (fun _ _ h => h.2) fun _ _ h => h.2),
    wp.state ((hspares s.1 s.2 rfl).mono (fun _ _ h => h.2) fun _ _ h => h.2)⟩

/-- The form that a result is given in does not matter. -/
theorem Atomic.answer {β : Type} (hx : Atomic x) (f : α → β) : Atomic (x >>= fun a => pure (f a)) :=
  fun s hs => wp_bind.2 ((hx s hs).imp fun _ _ _ => trivial)

theorem tidy_directory (p : Path) (create : Bool) : Tidy (FileStore.directory p create) := by
  cases create with
  | false =>
    refine tidy_of_noEffect (keepsOrder_directory p false)
      (fun m _ => (Backed.directory p false).treeWp (wp_directory_false p m)) ?_
    intro m _ m' _ hm
    rw [hm.1]
    exact .refl m
  | true =>
    refine tidy_of_noEffect (keepsOrder_directory p true)
      (fun m hm => (Backed.directory p true).treeWp (hm.closed.wp_directory_true p)) ?_
    intro m _ m' _ hm
    rw [hm.1]
    exact spares_grown hm.2

theorem tidy_file (p : Path) (create : Bool) : Tidy (FileStore.file p create) := by
  cases create with
  | false =>
    refine tidy_of_noEffect (keepsOrder_file p false)
      (fun m _ => (Backed.file p false).treeWp (wp_file_false p m)) ?_
    intro m _ m' _ hm
    rw [hm.1]
    exact .refl m
  | true =>
    refine tidy_of_noEffect (keepsOrder_file p true)
      (fun m hm => (Backed.file p true).treeWp (hm.closed.wp_file_true p)) ?_
    intro m _ m' _ hm
    rcases hm with ⟨rfl, -⟩ | ⟨dir, n, rfl, hnone, hway, rfl⟩
    · exact .refl m'
    · exact (spares_grown hway).trans (spares_made (by rw [node?_grown_child, hnone]))

theorem tidy_remove (p : Path) (recursive : Bool) :
    Tidy (FileStore.remove p recursive) := by
  refine tidy_of_noEffect (keepsOrder_remove p recursive)
    (fun m hm => (Backed.remove p recursive).treeWp (hm.closed.wp_remove p recursive)) ?_
  intro m _ m' _ hm
  obtain ⟨-, -, hfree, -, rfl⟩ := hm
  exact spares_prune hfree

theorem tidy_move (source target : Path) : Tidy (FileStore.move source target) := by
  refine tidy_of_noEffect (keepsOrder_move source target)
    (fun m hm => (Backed.move source target).treeWp (hm.closed.wp_move source target)) ?_
  intro m _ m' horder hm
  obtain ⟨-, -, -, ht, -, hfree, rfl⟩ := hm
  exact horder.closed.spares_graft ht hfree

theorem tidy_list (p : Path) : Tidy (FileStore.list p) := by
  refine tidy_of_noEffect (keepsOrder_list p) (fun m _ => (Backed.list p).treeWp (wp_list p m)) ?_
  intro m _ m' _ hm
  rw [hm.1]
  exact .refl m

theorem tidy_entry (p : Path) : Tidy (FileStore.entry p) := by
  refine tidy_of_noEffect (keepsOrder_entry p) (fun m _ => treeWp_entry p m) ?_
  intro m _ m' _ hm
  rw [hm.1]
  exact .refl m

theorem tidy_writeAt (p : Path) (offset : Nat) (data : Bytes) :
    Tidy (FileStore.writeAt p offset data) := by
  refine tidy_of_noEffect (keepsOrder_writeAt p offset data)
    (fun m _ => (Backed.writeAt p offset data).treeWp (wp_writeAt p offset data m)) ?_
  intro m _ m' _ hm
  obtain ⟨d, hd, hl, -, rfl, -⟩ := hm
  exact spares_revised hd hl _

end Calls

end Memory

/-! ### Stores with a tree behind them -/

section Behind

variable {φ α β : Type} [FileStore φ] [Backed φ] {x : StoreM (Host × φ) α}

/-- From a tree in order behind a store a call leads to one in order, and spares the locked files. -/
def CarefulBehind (φ : Type) [FileStore φ] [Backed φ] (s t : Host × φ) : Prop :=
  Careful (s.1, tree s.2) (t.1, tree t.2)

instance : IsPreorder (Host × φ) (CarefulBehind φ) where
  refl _ := refl_of Careful _
  trans _ _ _ := trans_of Careful

/-- What a call on a tree spares, the call on a store with this tree spares: it can only be refused besides. -/
theorem Acts.careful {f : α → β} {y : StoreM Memory β} (hx : Acts tree (refuses φ) f x y)
    (hy : Stays Careful (StoreM.onSecond y)) : Stays (CarefulBehind φ) x := by
  rintro ⟨host, s⟩
  have htree := hy (host, tree s)
  unfold StoreM.onSecond at htree
  rw [wp_within] at htree
  refine (hx host s).mono ?_ ?_
  · rintro a t ⟨-, hrun⟩
    exact htree.ok hrun
  · rintro e t ⟨-, hrun | ⟨-, hsame⟩⟩
    · exact htree.error hrun
    · intro hs
      simp only [hsame]
      exact ⟨hs, .refl _⟩

theorem careful_of_treeWp
    (hx : ∀ m, m.Orderly → treeWp x (fun _ m' => m'.Orderly ∧ m.Spares m')
      (fun _ m' => m'.Orderly ∧ m.Spares m') m) : Stays (CarefulBehind φ) x := by
  refine stays_iff.2 fun s hs => ?_
  have hwp := hx (tree s.2) hs s.1 s.2 rfl
  exact wp.state
    (hwp.mono (fun _ _ h => h.2) fun _ _ h => h.2)

/-- The handle that a file is read through is closed before anything else is done. -/
theorem careful_readWhole (p : Path) :
    Stays (CarefulBehind φ) (Request.withHandle p fun h => (FileStore.channel h).readAll) := by
  refine careful_of_treeWp fun m hm => (treeWp_readWhole p m).mono ?_ ?_
  · rintro _ m' ⟨rfl, -⟩
    exact ⟨hm, .refl _⟩
  · rintro _ m' ⟨rfl, -⟩
    exact ⟨hm, .refl _⟩

/-- Wherever a copy stops, it has closed the handles that it opened. -/
theorem careful_copyTree (depth : Nat) (source target : Path) :
    Stays (CarefulBehind φ) (FileStore.copyTree depth source target) := by
  induction depth generalizing source target with
  | zero => exact .throw
  | succ depth ih =>
    refine ((Backed.entry source).careful (tidy_entry source).careful).bind fun e => ?_
    rcases e with _ | (_ | ⟨size, modified⟩)
    · exact .throw
    · refine ((Backed.directory source false).careful (tidy_directory source false).careful).bind fun _ => ?_
      refine ((Backed.directory target true).careful (tidy_directory target true).careful).bind fun _ => ?_
      refine ((Backed.list source).careful (tidy_list source).careful).bind fun l => ?_
      exact .forM l fun x _ => ih (source.child x.1) (target.child x.1)
    · rw [copyFile_eq]
      refine (careful_readWhole source).bind fun data => ?_
      refine ((Backed.file target true).careful (tidy_file target true).careful).bind fun _ => ?_
      exact ((Backed.writeAt target 0 data).careful (tidy_writeAt target 0 data).careful).bind fun _ => .pure

theorem careful_copy (source target : Path) : Stays (CarefulBehind φ) (FileStore.copy source target) :=
  .get_bind fun _ => careful_copyTree _ source target

end Behind

end Filespace.Storage
