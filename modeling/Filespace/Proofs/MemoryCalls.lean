import Filespace.Proofs.Outcome
import Filespace.Proofs.Tree

/-!
# What the calls of a store in memory do

One statement for each call: what it gives and what the tree is afterwards, and that a failed call has changed
nothing. A failure is of the kind "busy" only if a file that the call has to touch is locked.

`directory` and `file` need a closed tree for that when they create: a file in the way is found before anything is
made only because everything above it is there already.
-/

namespace Filespace.Storage.Memory

open Path

variable {m : Memory} {p : Path} {d : FileData}

/-! ### Looking up and making entries -/

theorem ensure_nil_run (create : Bool) (m : Memory) : ensure create [] m = (.ok (), m) := rfl

/-- One more directory on the way. -/
theorem ensure_cons_run (create : Bool) (p : Path) (l : List Path) (m : Memory) : ensure create (p :: l) m =
    match m.node? p with
    | some .directory => ensure create l m
    | some (.file _) => (.error (.notADirectory p.display), m)
    | none => if create then ensure create l (m.put p .directory) else (.error (.notFound p), m) := by
  rw [ensure, bind_run, show (get : StoreM Memory Memory) m = (.ok m, m) from rfl]
  dsimp only
  rcases m.node? p with _ | (_ | d)
  · cases create <;> rfl
  · rfl
  · rfl

theorem ensure_append (create : Bool) (l : List Path) (p : Path) :
    ensure create (l ++ [p]) = ensure create l >>= fun _ => ensure create [p] := by
  induction l with
  | nil => rfl
  | cons q l ih =>
    funext m
    rw [List.cons_append, ensure_cons_run, bind_run, ensure_cons_run]
    rcases m.node? q with _ | (_ | d)
    · cases create with
      | false => rfl
      | true =>
        simp only [if_true]
        rw [ih, bind_run]
    · rw [ih, bind_run]
    · rfl

/-- A directory is looked up in its parent. -/
theorem directory_child (create : Bool) (p : Path) (n : Name) :
    directory (p.child n) create = directory p create >>= fun _ => ensure create [p.child n] := by
  unfold directory
  rw [trail_child, ensure_append]

/-- Looking up one more directory. -/
theorem wp_ensure_single {create : Bool} {Q : Unit → Memory → Prop} {E : StorageError → Memory → Prop} :
    wp (ensure create [p]) Q E m ↔
      (m.node? p = some .directory → Q () m) ∧
      (∀ d, m.node? p = some (.file d) → E (.notADirectory p.display) m) ∧
      (m.node? p = none → if create then Q () (m.put p .directory) else E (.notFound p) m) := by
  unfold wp
  rw [ensure_cons_run]
  rcases m.node? p with _ | (_ | d)
  · cases create <;> simp [ensure_nil_run]
  · simp [ensure_nil_run]
  · simp

/-- A directory that is looked up is there, and so is all above it. -/
theorem wp_directory_false (p : Path) (m : Memory) :
    wp (directory p false) (fun _ m' => m' = m ∧ ∀ q ∈ p.trail, m.node? q = some .directory)
      (fun e m' => m' = m ∧ e.kind ≠ .resourceBusy) m := by
  induction p using induction_child with
  | base => exact ⟨rfl, by simp⟩
  | step p n ih =>
    rw [directory_child, wp_bind]
    refine ih.imp ?_
    rintro - m' ⟨rfl, hp⟩
    rw [wp_ensure_single]
    refine ⟨?_, ?_, ?_⟩
    · intro hn
      refine ⟨rfl, ?_⟩
      intro q hq
      rw [trail_child, List.mem_append, List.mem_singleton] at hq
      rcases hq with hq | rfl
      · exact hp q hq
      · exact hn
    · intro d _
      exact ⟨rfl, by simp [StorageError.kind]⟩
    · intro _
      exact ⟨rfl, by simp [StorageError.kind]⟩

/-- Looking up a directory in a closed tree. -/
theorem Closed.wp_directory_false (h : m.Closed) (p : Path) :
    wp (directory p false) (fun _ m' => m' = m ∧ m.node? p = some .directory)
      (fun e m' => m' = m ∧ e.kind ≠ .resourceBusy) m := by
  refine (Memory.wp_directory_false p m).imp ?_
  rintro - m' ⟨rfl, hp⟩
  refine ⟨rfl, ?_⟩
  by_cases hroot : p = .root
  · rw [hroot, ← kind?_eq_directory_iff]
    exact h.root
  · exact hp p (mem_trail_iff.2 ⟨under_refl p, hroot⟩)

/-- Making a directory grows the tree to it. It fails only if a file is in the way. -/
theorem Closed.wp_directory_true (h : m.Closed) (p : Path) :
    wp (directory p true) (fun _ m' => m' = m.grown p ∧ ∀ q d, q ∈ p.trail → m.node? q ≠ some (.file d))
      (fun e m' => m' = m ∧ e.kind ≠ .resourceBusy) m := by
  induction p using induction_child with
  | base => exact ⟨rfl, by simp⟩
  | step p n ih =>
    rw [directory_child, wp_bind]
    refine ih.imp ?_
    rintro - m' ⟨rfl, hp⟩
    have htrail : ∀ q d, q ∈ (p.child n).trail → m.node? (p.child n) ≠ some (.file d) →
        m.node? q ≠ some (.file d) := by
      intro q d hq hn
      rw [trail_child, List.mem_append, List.mem_singleton] at hq
      rcases hq with hq | rfl
      · exact hp q d hq
      · exact hn
    rw [wp_ensure_single, node?_grown_child]
    refine ⟨?_, ?_, ?_⟩
    · intro hn
      refine ⟨?_, fun q d hq => htrail q d hq (by rw [hn]; simp)⟩
      rw [grown_child, put_eq_self (by rw [node?_grown_child, hn])]
    · intro d hn
      have hd : m.node? p = some .directory :=
        h.parent_directory (by rw [hn]; simp) (parent?_child p n)
      exact ⟨h.grown_eq_self hd, by simp [StorageError.kind]⟩
    · intro hn
      exact ⟨(grown_child m p n).symm, fun q d hq => htrail q d hq (by rw [hn]; simp)⟩

/-- A file that is looked up is there. -/
theorem wp_file_false (p : Path) (m : Memory) :
    wp (file p false) (fun _ m' => m' = m ∧ ∃ d, m.node? p = some (.file d))
      (fun e m' => m' = m ∧ e.kind ≠ .resourceBusy) m := by
  unfold file
  cases p.parent? with
  | none => exact ⟨rfl, by simp [StorageError.kind]⟩
  | some parent =>
    simp only [wp_bind]
    refine (wp_directory_false parent m).imp ?_
    rintro - m' ⟨rfl, -⟩
    rw [wp_get]
    rcases hp : m'.node? p with _ | (_ | d)
    · exact ⟨rfl, by simp [StorageError.kind]⟩
    · exact ⟨rfl, by simp [StorageError.kind]⟩
    · exact ⟨rfl, d, rfl⟩

/-- Making a file finds it, or grows the tree to its directory and puts an empty file there. -/
theorem Closed.wp_file_true (h : m.Closed) (p : Path) :
    wp (file p true)
      (fun _ m' => (m' = m ∧ ∃ d, m.node? p = some (.file d)) ∨
        ∃ dir n, p = dir.child n ∧ m.node? p = none ∧ (∀ q d, q ∈ dir.trail → m.node? q ≠ some (.file d)) ∧
          m' = (m.grown dir).made p)
      (fun e m' => m' = m ∧ e.kind ≠ .resourceBusy) m := by
  unfold file
  cases hpar : p.parent? with
  | none => exact ⟨rfl, by simp [StorageError.kind]⟩
  | some dir =>
    obtain ⟨n, rfl⟩ := parent?_eq_some_iff.1 hpar
    simp only [wp_bind]
    refine (h.wp_directory_true dir).imp ?_
    rintro - m' ⟨rfl, hfree⟩
    have hsame : m.node? (dir.child n) ≠ none → m.grown dir = m := fun hn =>
      h.grown_eq_self (h.parent_directory hn hpar)
    rw [wp_get, node?_grown_child]
    rcases hp : m.node? (dir.child n) with _ | (_ | d)
    · exact Or.inr ⟨dir, n, rfl, rfl, hfree, rfl⟩
    · exact ⟨hsame (by rw [hp]; simp), by simp [StorageError.kind]⟩
    · exact Or.inl ⟨hsame (by rw [hp]; simp), d, rfl⟩

theorem wp_fileAt {Q : FileData → Memory → Prop} {E : StorageError → Memory → Prop} :
    wp (fileAt p) Q E m ↔
      (∀ d, m.node? p = some (.file d) → Q d m) ∧ (m.node? p = some .directory → E (.isADirectory p) m) ∧
        (m.node? p = none → E (.notFound p) m) := by
  unfold fileAt
  rw [wp_bind, wp_get]
  rcases m.node? p with _ | (_ | d) <;> simp [wp_throw, wp_pure]

theorem wp_entry (p : Path) (m : Memory) (E : StorageError → Memory → Prop) :
    wp (entry p) (fun r m' => m' = m ∧ r = (m.node? p).map Node.stat) E m := by
  exact ⟨rfl, rfl⟩

theorem wp_list (p : Path) (m : Memory) :
    wp (list p) (fun r m' => m' = m ∧ m.node? p = some .directory ∧ r = m.children p)
      (fun e m' => m' = m ∧ e.kind ≠ .resourceBusy) m := by
  unfold list
  rw [wp_bind, wp_get]
  rcases m.node? p with _ | (_ | d)
  · exact ⟨rfl, by simp [StorageError.kind]⟩
  · exact ⟨rfl, rfl, rfl⟩
  · exact ⟨rfl, by simp [StorageError.kind]⟩

/-! ### Removing and moving -/

/-- Removing takes away an entry with all below it, none of which is locked. -/
theorem Closed.wp_remove (h : m.Closed) (p : Path) (recursive : Bool) :
    wp (remove p recursive)
      (fun _ m' => p ≠ .root ∧ m.node? p ≠ none ∧ m.Unlocked p ∧
        (recursive = true ∨ ∀ q, q.under p = true → q ≠ p → m.node? q = none) ∧ m' = m.prune p)
      (fun e m' => m' = m ∧ (e.kind = .resourceBusy → ∃ q, q.under p = true ∧ m.isLocked q = true)) m := by
  unfold remove
  rw [wp_ite]
  refine ⟨fun _ => ⟨rfl, by simp [StorageError.kind]⟩, fun hroot => ?_⟩
  have hroot : p ≠ .root := fun e => hroot (isRoot_iff.2 e)
  rw [wp_bind, wp_get]
  rcases hp : m.node? p with _ | (_ | d)
  · exact ⟨rfl, by simp [StorageError.kind]⟩
  · rw [wp_ite]
    refine ⟨fun _ => ⟨rfl, by simp [StorageError.kind]⟩, fun hrec => ?_⟩
    cases hl : m.firstLocked? p with
    | some q =>
      refine ⟨rfl, fun _ => ?_⟩
      obtain ⟨hlocked, hq⟩ := And.intro (List.find?_some hl) (List.mem_of_find?_eq_some hl)
      exact ⟨q, (mem_subtree.1 hq).2, hlocked⟩
    | none =>
      refine ⟨hroot, by simp, firstLocked?_eq_none_iff.1 hl, ?_, rfl⟩
      rcases Bool.eq_false_or_eq_true recursive with hr | hr
      · exact Or.inl hr
      · refine Or.inr fun q hq hne => ?_
        -- Two entries of the subtree would make it longer than one.
        by_contra hsome
        have hlen : (m.subtree p).length ≤ 1 := by
          rw [hr] at hrec
          simpa using hrec
        have hp' : p ∈ m.subtree p := mem_subtree.2 ⟨by rw [hp]; simp, under_refl p⟩
        have hq' : q ∈ m.subtree p := mem_subtree.2 ⟨hsome, hq⟩
        obtain ⟨a, ha⟩ : ∃ a, m.subtree p = [a] := by
          match hsub : m.subtree p with
          | [] =>
            rw [hsub] at hp'
            cases hp'
          | [a] => exact ⟨a, rfl⟩
          | a :: b :: l =>
            rw [hsub] at hlen
            simp at hlen
        rw [ha, List.mem_singleton] at hp' hq'
        exact hne (hq'.trans hp'.symm)
  · have hbelow : ∀ q, q.under p = true → q ≠ p → m.node? q = none := by
      intro q hq hne
      refine h.nothing_below ?_ hq hne
      rw [kind?_eq_file_iff.2 ⟨d, hp⟩]
      simp
    rw [wp_ite]
    refine ⟨fun hl => ⟨rfl, fun _ => ⟨p, under_refl p, ?_⟩⟩, fun hl => ?_⟩
    · exact isLocked_eq_true_iff.2 ⟨d, hp, hl⟩
    · refine ⟨hroot, by simp, ?_, Or.inr hbelow, h.erase_eq_prune hp⟩
      intro q hq
      refine isLocked_eq_false_iff.2 fun d' hd' => ?_
      by_cases e : q = p
      · rw [e, hp] at hd'
        cases hd'
        simpa using hl
      · rw [hbelow q hq e] at hd'
        cases hd'

/-- A move puts an entry with all below it at a free path in a directory. -/
theorem Closed.wp_move (h : m.Closed) (source target : Path) :
    wp (move source target)
      (fun _ m' => source ≠ .root ∧ m.node? source ≠ none ∧ target.under source = false ∧
        m.node? target = none ∧ (∃ dir, target.parent? = some dir ∧ m.node? dir = some .directory) ∧
        m.Unlocked source ∧ m' = m.graft source target)
      (fun e m' => m' = m ∧ (e.kind = .resourceBusy → ∃ q, q.under source = true ∧ m.isLocked q = true)) m := by
  unfold move
  rw [wp_bind, wp_get, wp_ite]
  refine ⟨fun _ => ⟨rfl, by simp [StorageError.kind]⟩, fun hroot => ?_⟩
  rw [wp_ite]
  refine ⟨fun _ => ⟨rfl, by simp [StorageError.kind]⟩, fun hinto => ?_⟩
  rw [wp_ite]
  refine ⟨fun _ => ⟨rfl, by simp [StorageError.kind]⟩, fun _ => ?_⟩
  rw [wp_ite]
  refine ⟨fun _ => ⟨rfl, by simp [StorageError.kind]⟩, fun hsource => ?_⟩
  rw [wp_ite]
  refine ⟨fun _ => ⟨rfl, by simp [StorageError.kind]⟩, fun htarget => ?_⟩
  rw [wp_bind]
  refine (h.wp_directory_false _).mono ?_ fun _ _ he => ⟨he.1, fun hb => absurd hb he.2⟩
  rintro - m' ⟨rfl, hd⟩
  rw [not_or, isRoot_iff, isRoot_iff] at hroot
  obtain ⟨dir, hdir⟩ : ∃ dir, target.parent? = some dir := by
    rcases eq_root_or_child target with e | ⟨q, n, rfl⟩
    · exact absurd e hroot.2
    · exact ⟨q, parent?_child q n⟩
  rw [hdir] at hd
  cases hl : m'.firstLocked? source with
  | some q =>
    refine ⟨rfl, fun _ => ?_⟩
    obtain ⟨hlocked, hq⟩ := And.intro (List.find?_some hl) (List.mem_of_find?_eq_some hl)
    exact ⟨q, (mem_subtree.1 hq).2, hlocked⟩
  | none =>
    refine ⟨hroot.1, by simpa using hsource, by simpa using hinto, by simpa using htarget, ⟨dir, hdir, hd⟩,
      firstLocked?_eq_none_iff.1 hl, rfl⟩

/-! ### Contents -/

/-- The tree with new bytes in a file. -/
def revised (m : Memory) (p : Path) (d : FileData) (bytes : Bytes) : Memory :=
  m.put p (.file { d with bytes := bytes, modified := m.clock })

theorem outline?_revised (h : m.node? p = some (.file d)) (bytes : Bytes) (q : Path) :
    (m.revised p d bytes).outline? q = m.outline? q := by
  refine outline?_put h ?_ ?_ q
  · rfl
  · rfl

/-- Other bytes in one file are no change of the others. -/
theorem node?_revised_of_ne {q : Path} (h : q ≠ p) (bytes : Bytes) : (m.revised p d bytes).node? q = m.node? q := by
  unfold revised
  rw [node?_put, if_neg h]

theorem content?_revised (m : Memory) (p : Path) (d : FileData) (bytes : Bytes) (q : Path) :
    (m.revised p d bytes).content? q = if q = p then some (.file bytes) else m.content? q := by
  unfold content? revised
  rw [node?_put]
  split <;> rfl

theorem Short.revised (h : m.Short) {bytes : Bytes} (hbytes : bytes.length ≤ maxLength) : (m.revised p d bytes).Short :=
  h.put hbytes

/-- What is written within the longest file does not make a file too long. -/
theorem length_overwrite_le {bytes data : Bytes} {pos : Nat} (hfits : pos + data.length ≤ maxLength)
    (h : bytes.length ≤ maxLength) : (bytes.overwrite pos data).length ≤ maxLength := by
  rw [Bytes.length_overwrite]
  exact max_le h hfits

/-- A write that is taken ends within the longest file. -/
theorem wp_writeInto (p : Path) (d : FileData) (pos : Nat) (data : Bytes) (m : Memory) :
    wp (writeInto p d pos data)
      (fun n m' => n = (d.bytes.overwrite pos data).length ∧ m' = m.revised p d (d.bytes.overwrite pos data) ∧
        pos + data.length ≤ maxLength)
      (fun e m' => m' = m ∧ e.kind ≠ .resourceBusy) m := by
  unfold writeInto
  rw [wp_bind, wp_settle]
  refine ⟨fun last hlast => ?_, fun e he => ?_⟩
  · obtain rfl : pos + data.length = last := by
      unfold Channel.endOffset at hlast
      split at hlast
      · exact Except.ok.inj hlast
      · cases hlast
    unfold checkLength
    rw [wp_bind, wp_ite]
    exact ⟨fun hfits => ⟨rfl, rfl, hfits⟩, fun _ => ⟨rfl, by simp [StorageError.kind]⟩⟩
  · unfold Channel.endOffset at he
    split at he
    · cases he
    · cases he
      exact ⟨rfl, by simp [StorageError.kind]⟩

/-- Writing without a handle. -/
theorem wp_writeAt (p : Path) (offset : Nat) (data : Bytes) (m : Memory) :
    wp (writeAt p offset data)
      (fun n m' => ∃ d, m.node? p = some (.file d) ∧ d.locked = false ∧
        n = (d.bytes.overwrite offset data).length ∧ m' = m.revised p d (d.bytes.overwrite offset data) ∧
          offset + data.length ≤ maxLength)
      (fun e m' => m' = m ∧ (e.kind = .resourceBusy → m.isLocked p = true)) m := by
  unfold writeAt
  rw [wp_bind, wp_fileAt]
  refine ⟨fun d hd => ?_, fun _ => ⟨rfl, by simp [StorageError.kind]⟩, fun _ => ⟨rfl, by simp [StorageError.kind]⟩⟩
  rw [wp_ite]
  refine ⟨fun hl => ⟨rfl, fun _ => isLocked_eq_true_iff.2 ⟨d, hd, hl⟩⟩, fun hl => ?_⟩
  refine (wp_writeInto p d offset data m).mono ?_ fun _ _ he => ⟨he.1, fun hb => absurd hb he.2⟩
  rintro n m' ⟨hn, hm, hfits⟩
  exact ⟨d, hd, by simpa using hl, hn, hm, hfits⟩

/-! ### Handles -/

/-- Opening a handle locks the file. -/
theorem wp_openHandle (p : Path) (m : Memory) :
    wp (openHandle p)
      (fun h m' => ∃ d, m.node? p = some (.file d) ∧ d.locked = false ∧ h = ⟨p, d.serial⟩ ∧
        m' = m.put p (.file { d with locked := true }))
      (fun e m' => m' = m ∧ (e.kind = .resourceBusy → m.isLocked p = true)) m := by
  unfold openHandle
  rw [wp_bind, wp_fileAt]
  refine ⟨fun d hd => ?_, fun _ => ⟨rfl, by simp [StorageError.kind]⟩, fun _ => ⟨rfl, by simp [StorageError.kind]⟩⟩
  rw [wp_ite]
  refine ⟨fun hl => ⟨rfl, fun _ => isLocked_eq_true_iff.2 ⟨d, hd, hl⟩⟩, fun hl => ?_⟩
  exact ⟨d, hd, by simpa using hl, rfl, rfl⟩

theorem wp_read (h : Handle) (pos length : Nat) (m : Memory) (E : StorageError → Memory → Prop) :
    wp (read h pos length) (fun r m' => m' = m ∧ r = (m.contentOf h).slice pos length) E m := by
  exact ⟨rfl, rfl⟩

theorem wp_size (h : Handle) (m : Memory) (E : StorageError → Memory → Prop) :
    wp (size h) (fun r m' => m' = m ∧ r = (m.contentOf h).length) E m := by
  exact ⟨rfl, rfl⟩

theorem contentOf_eq {h : Handle} (hd : m.fileOf? h = some d) : m.contentOf h = d.bytes := by
  unfold contentOf
  rw [hd]
  rfl

/-- Writing through a handle writes to its file, if that is still there, and takes all bytes in any case. -/
theorem wp_write (h : Handle) (pos : Nat) (data : Bytes) (m : Memory) :
    wp (write h pos data)
      (fun n m' => n = data.length ∧ ((m.fileOf? h = none ∧ m' = m) ∨
        ∃ d, m.fileOf? h = some d ∧ m' = m.revised h.path d (d.bytes.overwrite pos data) ∧
          pos + data.length ≤ maxLength))
      (fun e m' => m' = m ∧ e.kind ≠ .resourceBusy) m := by
  unfold write
  rw [wp_bind, wp_get]
  cases hf : m.fileOf? h with
  | none => exact ⟨rfl, Or.inl ⟨rfl, rfl⟩⟩
  | some d =>
    rw [wp_bind]
    refine (wp_writeInto h.path d pos data m).imp ?_
    rintro n m' ⟨-, rfl, hfits⟩
    exact ⟨rfl, Or.inr ⟨d, rfl, rfl, hfits⟩⟩

theorem wp_truncate (h : Handle) (length : Nat) (m : Memory) :
    wp (truncate h length)
      (fun _ m' => (m.fileOf? h = none ∧ m' = m) ∨
        ∃ d, m.fileOf? h = some d ∧ m' = m.revised h.path d (d.bytes.resize length) ∧ length ≤ maxLength)
      (fun e m' => m' = m ∧ e.kind ≠ .resourceBusy) m := by
  unfold truncate checkLength
  rw [wp_bind, wp_ite]
  refine ⟨fun hfits => ?_, fun _ => ⟨rfl, by simp [StorageError.kind]⟩⟩
  rw [wp_pure, wp_bind, wp_get]
  cases hf : m.fileOf? h with
  | none => exact Or.inl ⟨rfl, rfl⟩
  | some d => exact Or.inr ⟨d, rfl, rfl, hfits⟩

end Filespace.Storage.Memory
