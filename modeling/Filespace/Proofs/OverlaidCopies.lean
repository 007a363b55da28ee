import Filespace.Proofs.Reachability

/-!
# Copying onto what is there

A copy makes the missing directories on the way to its target and lays each entry of the source over what it finds at
the same place below the target. A directory takes the new children in beside its own. A file is written from its start
and not cut before: where an older file was longer, its end stays behind the new bytes
(`copying_lays_source_over_target`, `copy_keeps_the_end_of_a_longer_file`).
-/

namespace Filespace

open Storage Memory Path

namespace Storage

/-! ### What a copy does -/

/-- A copy onto any target that is neither below its source nor above it, whatever is at the target. If it ends well,
then at each place below the target there is the entry of the source laid over the one that was there. So each entry has
the kind of the source's, and a file is the source's exactly if no longer file was there before. All other entries below
the target are as before. The source and everything else is untouched, except that missing directories above the target
were made. -/
theorem copying_lays_source_over_target {m : Memory} (hm : m.Reachable) {source target : Path}
    (hts : target.under source = false) (hst : source.under target = false) {host : Host} {w : Host × Memory}
    (hcopy : FileStore.copy source target (host, m) = (.ok (), w)) :
    (∀ r, w.2.content? (target.join r) = overlay (m.content? (target.join r)) (m.content? (source.join r))) ∧
    (∀ r, m.node? (source.join r) ≠ none → w.2.kind? (target.join r) = m.kind? (source.join r)) ∧
    (∀ r b, m.content? (source.join r) = some (.file b) →
      (w.2.content? (target.join r) = some (.file b) ↔
        ∀ old, m.content? (target.join r) = some (.file old) → old.length ≤ b.length)) ∧
    (∀ q, q.under source = true → w.2.node? q = m.node? q) ∧
    (∀ q, q.under target = false →
      w.2.node? q = m.node? q ∨ target.under q = true ∧ m.node? q = none ∧ w.2.node? q = some .directory) := by
  have hlaid : Overlaid (fun r => m.content? (source.join r)) target m w.2 :=
    ((treeWp_copy_over (φ := Memory) hm.closed ⟨hst, hts⟩ host m rfl).ok hcopy).2
  refine ⟨hlaid.laid, ?_, ?_, fun q hq => hlaid.source_same ⟨hst, hts⟩ hq, hlaid.outside⟩
  · exact fun r hr => kind?_of_overlay hr (hlaid.laid r)
  · intro r b hb
    rw [hlaid.laid r, hb]
    exact overlay_file_eq_iff

/-- A directory. -/
def loft : Path := root.child ⟨"loft", by decide⟩

/-- A directory of files that are there before. -/
def attic : Path := root.child ⟨"attic", by decide⟩

/-- The path of a file in both. -/
def lamp : Path := root.child ⟨"lamp", by decide⟩

/-- The path of a file in one of them. -/
def rug : Path := root.child ⟨"rug", by decide⟩

/-- Two directories, with a longer file in the second one than in the first. -/
def aFullAttic : Session Memory :=
  [Step.file (loft.join lamp) true, .writeAt (loft.join lamp) 0 [120], .file (attic.join lamp) true,
    .writeAt (attic.join lamp) 0 [121, 121, 121], .file (attic.join rug) true].foldl (fun s step => (step.run s).2)
    ⟨({}, {}), ∅⟩

theorem aFullAttic_used : Used aFullAttic :=
  .step _ (.step _ (.step _ (.step _ (.step _ (.fresh {} false 0)))))

theorem copying_lays_source_over_target_in_attic :
    ∃ w, FileStore.copy loft attic ({}, aFullAttic.world.2) = (.ok (), w) ∧
      w.2.content? (attic.join lamp) =
        overlay (aFullAttic.world.2.content? (attic.join lamp)) (aFullAttic.world.2.content? (loft.join lamp)) ∧
      w.2.content? (attic.join rug) =
        overlay (aFullAttic.world.2.content? (attic.join rug)) (aFullAttic.world.2.content? (loft.join rug)) ∧
      ∀ q, q.under loft = true → w.2.node? q = aFullAttic.world.2.node? q := by
  have hends : (FileStore.copy loft attic ({}, aFullAttic.world.2)).1.isOk = true := by decide +kernel
  rcases hrun : FileStore.copy loft attic ({}, aFullAttic.world.2) with ⟨e | u, w⟩
  · rw [hrun] at hends
    simp [Except.isOk, Except.toBool] at hends
  · have hcopy := copying_lays_source_over_target ⟨aFullAttic, aFullAttic_used, rfl⟩ (by decide) (by decide) hrun
    exact ⟨w, rfl, hcopy.1 lamp, hcopy.1 rug, hcopy.2.2.2.1⟩

/-- Without an open handle anywhere, a copy that ends well has not made the file at the target the one at the source. -/
theorem copy_keeps_the_end_of_a_longer_file :
    ∃ m : Memory, m.Reachable ∧ (∀ q, m.isLocked q = false) ∧ ∃ source target,
      target.under source = false ∧ source.under target = false ∧ ∃ w,
        FileStore.copy source target ({}, m) = (.ok (), w) ∧ m.content? source = some (.file [120]) ∧
          w.2.content? target = some (.file [120, 121, 121]) := by
  have hruns : aFullAttic.world.2.firstLocked? .root = none ∧
      aFullAttic.world.2.content? (loft.join lamp) = some (.file [120]) ∧
      (FileStore.copy (loft.join lamp) (attic.join lamp) ({}, aFullAttic.world.2)).1.isOk = true ∧
      (FileStore.copy (loft.join lamp) (attic.join lamp) ({}, aFullAttic.world.2)).2.2.content? (attic.join lamp) =
        some (.file [120, 121, 121]) := by
    decide +kernel
  obtain ⟨hlocks, hsource, hends, htarget⟩ := hruns
  refine ⟨aFullAttic.world.2, ⟨aFullAttic, aFullAttic_used, rfl⟩, ?_, loft.join lamp, attic.join lamp, by decide,
    by decide, ?_⟩
  · exact fun q => firstLocked?_eq_none_iff.1 hlocks q (under_root q)
  · rcases hrun : FileStore.copy (loft.join lamp) (attic.join lamp) ({}, aFullAttic.world.2) with ⟨e | u, w⟩
    · rw [hrun] at hends
      simp [Except.isOk, Except.toBool] at hends
    · rw [hrun] at htarget
      exact ⟨w, rfl, hsource, htarget⟩

end Storage

end Filespace
