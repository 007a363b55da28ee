import Filespace.Proofs.Changes

/-!
# Operations that fail

When no job is waiting, an operation that fails leaves everything as it was: the entries with their bytes, the links and
their records, the working directory and the descriptors. It may have opened a handle, which nobody sees. Operations that
make, remove or rename entries fail by their own checks only, and never in the store.
-/

namespace Filespace

open Storage

namespace Storage.Memory

/-- What is shown of a node does not depend on its lock. -/
theorem Node.entry_atRest (n : Node) : n.atRest.entry = n.entry := by
  cases n with
  | directory => rfl
  | file d => rfl

end Storage.Memory

namespace Vfs

variable {μ : Type} [LinkMap μ] {v w : Vfs Memory μ} {s : Session Memory μ}

omit [LinkMap μ] in
/-- Links and nodes at rest are all that is shown of a path. -/
theorem entryAt_congr {p : Path} (hlink : w.links.get? p = v.links.get? p)
    (hrest : w.memory.atRest? p = v.memory.atRest? p) : w.entryAt p = v.entryAt p := by
  have hview : ∀ m : Memory, (m.node? p).map Memory.Node.entry = (m.atRest? p).map Memory.Node.entry := by
    intro m
    unfold Memory.atRest?
    rw [Option.map_map]
    exact congrFun (congrArg Option.map (funext fun n => n.entry_atRest.symm)) _
  unfold entryAt
  rw [hlink, hview, hview, hrest]

/-- When no job waits, a look tells what is at a path now. -/
theorem Healthy.lookup_idle (hv : v.Healthy) (hidle : v.background.queue = []) (p : Path) :
    (lookup p v).1 = .ok (v.entryAt p) := by
  obtain ⟨w, hw, hrun⟩ := hv.lookup_run p
  rw [hrun]
  rcases hw with rfl | rfl
  · rfl
  · obtain hwait := (reaches_runDue v).waited
    refine congrArg Except.ok (entryAt_congr (congrArg (Links.get? · p) hwait.links) ?_)
    rw [(hwait.idle hidle).2.1]

omit [LinkMap μ] in
/-- Tries are quiet. -/
theorem Operation.Tries.quiet {op : Operation} {a : Act} (h : op.Tries s a) (S : Path → Prop) : Quiet S a := by
  cases h with
  | wait | lock | setSize => trivial

/-- Tries do not change the working directory. -/
theorem Operation.Tries.resolver {op : Operation} (h : Reaches (op.Tries s) v w) : w.resolver = v.resolver := by
  refine h.keeps (I := fun x => x.resolver = v.resolver) ?_ rfl
  intro a x y ha hstep hx
  cases ha with
  | wait => rw [hstep.waited.resolver, hx]
  | lock =>
    cases hstep
    exact hx
  | setSize =>
    cases hstep
    exact hx

/-- An operation that fails while no job is waiting changes nothing: not the links or their records, not the bytes or the
kind of anything, not what is shown at any path, not the working directory and no descriptor. What makes, removes or
renames an entry does not fail in the store. -/
theorem failed_call_changes_nothing {μ : Type} [LinkMap μ] {o : Options} {w w' : World Memory μ} {v : Vfs Memory μ}
    (hstart : start o w = (.ok v, w')) (hstore : w.files.Reachable) (hfree : ∀ p, w.files.isLocked p = false)
    (descriptors : Table String Descriptor) (run : List Event) (op : Operation) {r : Refusal} {t : Session Memory μ}
    (hidle : (Session.after ⟨v, descriptors⟩ run).space.background.queue = [])
    (hfail : op.run (Session.after ⟨v, descriptors⟩ run) = (.error r, t)) :
    let s := Session.after ⟨v, descriptors⟩ run
    (t.space.links = s.space.links ∧ t.space.world.map = s.space.world.map ∧ t.space.background.queue = []) ∧
    (∀ p, t.space.world.files.atRest? p = s.space.world.files.atRest? p) ∧
    (∀ p, (lookup p t.space).1 = (lookup p s.space).1) ∧
    t.space.workingDirectory = s.space.workingDirectory ∧ t.descriptors = s.descriptors ∧
    (op.guarded = true → ∀ e, r ≠ .failed (.storage e)) := by
  intro s
  have hs : s.space.Healthy := Session.healthy_after run (healthy_of_start hstart hstore hfree)
  obtain ⟨htries, hdescriptors, hown⟩ := (op.ended hs).error hfail
  have hquiet : Reaches (Quiet fun _ => True) s.space t.space := htries.mono fun _ ha => ha.quiet _
  obtain ⟨hqueue, hmap, hrest⟩ := hquiet.kept.idle hidle
  have hlinks := hquiet.kept.links
  refine ⟨⟨hlinks, hmap, hqueue⟩, fun p => hrest p trivial, fun p => ?_, ?_, hdescriptors, ?_⟩
  · rw [(hquiet.healthy hs).lookup_idle hqueue, hs.lookup_idle hidle]
    exact congrArg Except.ok (entryAt_congr (congrArg (Links.get? · p) hlinks) (hrest p trivial))
  · exact congrArg Resolver.workingDirectory (Operation.Tries.resolver htries)
  · intro hguarded e he
    exact hown _ he hguarded e rfl

/-- A file with two bytes and a directory. -/
def aFileAndADirectory : List Event :=
  [.use (.openAt none "f" .createFile (some "fd")), .use (.write "fd" [1, 2] 0), .use (.createDirectoryAt none "d")]

/-- The file cannot take a directory's place, and it keeps its bytes. -/
theorem failed_call_changes_nothing_inMemory :
    ∃ r t, (Operation.renameAt none "f" none "d").run (Session.after ⟨inMemory, ∅⟩ aFileAndADirectory) = (.error r, t) ∧
      (lookup (Path.root.child ⟨"f", by decide⟩) t.space).1 = .ok (some (.file 2 0)) := by
  obtain ⟨hstart, hstore, hfree⟩ := inMemory_started
  have hfail : ∃ r t, (Operation.renameAt none "f" none "d").run (Session.after ⟨inMemory, ∅⟩ aFileAndADirectory) =
      (.error r, t) := ⟨_, _, Prod.ext rfl rfl⟩
  obtain ⟨r, t, hfail⟩ := hfail
  refine ⟨r, t, hfail, ?_⟩
  rw [(failed_call_changes_nothing hstart hstore hfree ∅ aFileAndADirectory _ rfl hfail).2.2.1]
  rfl

end Vfs

end Filespace
