import Filespace.Proofs.AlikeNamespaces

/-!
# Starting a namespace

When a namespace is started, the links are loaded and then the working directory is made. The store makes it, and
the store knows nothing of links: a link that is on record at or above the working directory is not replaced by its
target, as it is for every path that is given later, but gets an entry of the store in its place. So a started
namespace has one entry for each path exactly if no link is on the way to its working directory.
-/

namespace Filespace.Vfs

open Storage Memory

variable {μ : Type} [LinkMap μ] {o : Options} {w w' : World Memory μ} {v : Vfs Memory μ} {m : Memory}

/-- What is known of a namespace that was just started on a store. -/
structure Started (m : Memory) (v : Vfs Memory μ) : Prop where
  /-- Nothing waits to be done. -/
  idle : v.background.queue = [] ∧ v.pace = []
  /-- The store has grown towards the working directory. -/
  grown : Grown v.workingDirectory m v.memory
  /-- The working directory is one in the store. -/
  present : v.memory.node? v.workingDirectory = some .directory

theorem started_of_start (hstart : start o w = (.ok v, w')) (hc : w.files.Closed) : Started w.files v := by
  unfold start at hstart
  split at hstart
  · cases hstart
  · rcases enter_cases hstart rfl rfl hc with rfl | ⟨p, f, rfl, hf, hgrown⟩
    · -- The working directory is the root, and nothing was made.
      refine ⟨⟨rfl, rfl⟩, ⟨hc, fun _ _ => rfl, fun q hnone hsome => absurd hnone hsome, fun q hnone => ?_, id⟩, ?_⟩
      · refine isLocked_eq_false_iff.2 fun d hd => ?_
        have hsome : w.files.node? q = some (.file d) := hd
        rw [hnone] at hsome
        cases hsome
      · exact kind?_eq_directory_iff.1 hc.root
    · refine ⟨⟨rfl, rfl⟩, hgrown, ?_⟩
      show (Backed.tree f).node? p = some .directory
      rw [hf]
      exact Closed.node?_grown_self hc p

omit [LinkMap μ] in
/-- Every directory on the way to the working directory is one in the store. -/
theorem Started.trail (h : Started m v) {q : Path} (hq : q ∈ v.workingDirectory.trail) :
    v.memory.node? q = some .directory :=
  h.grown.closed.trail_directories h.present q hq

omit [LinkMap μ] in
/-- A link on the way to the working directory has an entry of the store beside it. -/
theorem Started.unlinked (h : Started m v) (hv : v.Consistent) {q : Path}
    (hq : q ∈ v.workingDirectory.trail) : v.links.get? q = none := by
  cases hlink : v.links.get? q with
  | none => rfl
  | some t =>
    have hnone := hv.apart q t hlink
    rw [h.trail hq] at hnone
    cases hnone

/-- In a consistent namespace that was just started, the working directory is found to be a directory. -/
theorem Started.lookup_workingDirectory (h : Started m v) (hv : v.Consistent) :
    (lookup v.workingDirectory v).1 = .ok (some .directory) := by
  have hlink : v.links.get? v.workingDirectory = none := by
    cases hlink : v.links.get? v.workingDirectory with
    | none => rfl
    | some t =>
      have hnone := hv.apart _ t hlink
      rw [h.present] at hnone
      cases hnone
  have hdue : v.runDue = v := by
    unfold runDue
    rw [h.idle.2]
    exact runJobs_nil _ h.idle.1
  have hcall : call (.entry v.workingDirectory) v =
      (.ok (.entry v.workingDirectory (some .directory)), v) := by
    rw [call_entry_run, hdue, h.present]
    rfl
  unfold lookup
  rw [bind_run, show (get : VfsM Memory μ _) v = (.ok v, v) from rfl]
  simp only [hlink]
  split
  · rfl
  · rw [bind_run, hcall]
    rfl

/-- Starting keeps store and links consistent exactly if no link is on record at or above the working directory; then
the working directory is found to be a directory. -/
theorem started_consistent_iff (hstart : start o w = (.ok v, w')) (hstore : w.files.Reachable)
    (hfit : (fresh o v.links w).Consistent) :
    (v.Consistent ∧ (lookup v.workingDirectory v).1 = .ok (some .directory)) ↔
      ∀ q ∈ v.workingDirectory.trail, v.links.get? q = none := by
  have h := started_of_start hstart hstore.closed
  constructor
  · rintro ⟨hv, -⟩ q hq
    exact h.unlinked hv hq
  · intro hfree
    have hv : v.Consistent := hfit.grown (v := fresh o v.links w) rfl hfree h.grown
    exact ⟨hv, h.lookup_workingDirectory hv⟩

/-- An empty store, with one link of its root on record. -/
def oneLink (link : Name) : World Memory Records := ⟨{}, {}, .ofList [(link.text, "t")]⟩

/-- What is started there in a directory. -/
def startedIn (link : Name) (dir : Path) : Vfs Memory Records :=
  { fresh {} ⟨Table.empty.insert (Path.root.child link) "t"⟩
      { oneLink link with files := grown {} dir } with resolver := { workingDirectory := dir } }

/-- An empty store and a link of its root are consistent. -/
theorem consistent_oneLink (link : Name) (dir : Path) (o : Options) :
    (oneLink link).files.Reachable ∧ (fresh o (startedIn link dir).links (oneLink link)).Consistent := by
  have hlink : ∀ p t, (startedIn link dir).links.get? p = some t → p = Path.root.child link := by
    intro p t hp
    by_contra hne
    have hnone : (startedIn link dir).links.get? p = none :=
      (Table.get?_insert_of_ne _ _ hne).trans (Table.get?_empty p)
    rw [hnone] at hp
    cases hp
  have hnode : ∀ p, (oneLink link).files.node? p = if p = .root then some .directory else none :=
    node?_of_nodes rfl
  refine ⟨⟨_, .fresh {} false 0, rfl⟩, fun p t hp => ?_, fun p t hp => ?_⟩
  · rw [hlink p t hp]
    exact (hnode _).trans (if_neg Path.child_ne_root)
  · rw [hlink p t hp]
    exact ⟨.root, Path.parent?_child _ _, (hnode _).trans (if_pos rfl)⟩

/-- With a link at `/l`, a namespace is started in `/a/b`. -/
theorem started_consistent_iff_besideLink :
    let v := startedIn ⟨"l", by decide⟩ ⟨[⟨"a", by decide⟩, ⟨"b", by decide⟩]⟩
    start { workingDirectory := "/a/b" } (oneLink ⟨"l", by decide⟩) = (.ok v, v.world) ∧
      ((oneLink ⟨"l", by decide⟩).files.Reachable ∧
        (fresh { workingDirectory := "/a/b" } v.links (oneLink ⟨"l", by decide⟩)).Consistent) ∧
      v.Consistent ∧ (lookup v.workingDirectory v).1 = .ok (some .directory) := by
  intro v
  have hstart : start { workingDirectory := "/a/b" } (oneLink ⟨"l", by decide⟩) = (.ok v, v.world) := by rfl
  have hfit := consistent_oneLink ⟨"l", by decide⟩ v.workingDirectory { workingDirectory := "/a/b" }
  have hfree : ∀ q ∈ v.workingDirectory.trail, v.links.get? q = none := by decide
  exact ⟨hstart, hfit, (started_consistent_iff hstart hfit.1 hfit.2).2 hfree⟩

/-- With a link at `/a`, a namespace is started in `/a`. The store is given a directory there, so one path has two
entries, and what is found at the working directory is the link. -/
theorem started_inconsistent_atLink :
    let v := startedIn ⟨"a", by decide⟩ ⟨[⟨"a", by decide⟩]⟩
    start { workingDirectory := "/a" } (oneLink ⟨"a", by decide⟩) = (.ok v, v.world) ∧
      ((oneLink ⟨"a", by decide⟩).files.Reachable ∧
        (fresh { workingDirectory := "/a" } v.links (oneLink ⟨"a", by decide⟩)).Consistent) ∧
      ¬ v.Consistent ∧ (lookup v.workingDirectory v).1 = .ok (some (.link "t")) := by
  intro v
  refine ⟨by rfl, consistent_oneLink ⟨"a", by decide⟩ v.workingDirectory { workingDirectory := "/a" }, ?_, by rfl⟩
  intro hv
  have hnone : v.memory.node? v.workingDirectory = none := hv.apart v.workingDirectory "t" (by rfl)
  have hsome : v.memory.node? v.workingDirectory = some .directory := by rfl
  rw [hnone] at hsome
  cases hsome

end Filespace.Vfs
