import Filespace.Proofs.ColdPathPolicy
import Filespace.Proofs.Restarts

/-!
# Runs in which time passes

What holds of a namespace from its start on, whatever is done with it and whatever its clocks show (`Upright`): it is
healthy, its links fit the store, and its listings are right. An invariant of sessions that every event and every change
of the clocks keeps holds after every run (`Session.played_induction`).
-/

namespace Filespace.Vfs

open Storage

variable {μ : Type} [LinkMap μ] {v : Vfs Memory μ} {s : Session Memory μ}

/-- The namespace with other times on its clocks. -/
def clocked (v : Vfs Memory μ) (host store : Nat) : Vfs Memory μ :=
  { v with world := { v.world with
      host := { v.world.host with clock := host }
      files := { v.world.files with clock := store } } }

/-- What events and clocks keep is kept in a run. -/
theorem Session.played_induction {I : Session Memory μ → Prop} (hevent : ∀ (e : Event) s, I s → I (e.happen s))
    (hclocks : ∀ host store s, I s → I { s with space := s.space.clocked host store }) (run : List Moment) (hs : I s) :
    I (s.played run) := by
  induction run generalizing s with
  | nil => exact hs
  | cons m run ih =>
    refine ih ?_
    cases m with
    | event e => exact hevent e s hs
    | clocks host store => exact hclocks host store s hs

omit [LinkMap μ] in
/-- Health does not depend on the clocks. -/
theorem Healthy.clocked (h : v.Healthy) (host store : Nat) : (v.clocked host store).Healthy where
  closed := h.closed.congr fun _ => rfl
  short := h.short
  sound := ⟨⟨h.sound.handles.held, h.sound.handles.known⟩, h.sound.queue, h.sound.cold⟩

theorem Session.healthy_played (run : List Moment) (hs : s.space.Healthy) : (s.played run).space.Healthy :=
  Session.played_induction (I := fun s => s.space.Healthy) (fun e _ h => Session.healthy_after [e] h)
    (fun host store _ h => h.clocked host store) run hs

/-- The namespace is healthy, its links fit the store, and it remembers nothing that is not so. -/
structure Upright (v : Vfs Memory μ) : Prop where
  healthy : v.Healthy
  consistent : v.Consistent
  fresh : Fresh Memory.outline v

theorem Upright.clocked (h : v.Upright) (host store : Nat) : (v.clocked host store).Upright where
  healthy := h.healthy.clocked host store
  consistent := h.consistent.congr (fun _ => rfl) rfl
  fresh := by
    refine h.fresh.upToDate Memory.outline_lawful outline_hides fun hfit => ⟨?_, Or.inl ⟨rfl, rfl, rfl⟩⟩
    exact hfit.congr fun _ => rfl

theorem Upright.happen (h : s.space.Upright) (e : Event) : (e.happen s).space.Upright where
  healthy := Session.healthy_after [e] h.healthy
  consistent := Session.consistent_after [e] h.healthy.closed h.consistent
  fresh := Session.fresh_after [e] h.fresh

/-- A namespace that was just started on a store without locks is upright, if its links fit the store. -/
theorem upright_of_start {o : Options} {w w' : World Memory μ} (hstart : start o w = (.ok v, w'))
    (hstore : w.files.Reachable) (hfree : ∀ p, w.files.isLocked p = false)
    (hlinks : (∀ p, v.links.get? p = none) ∨ v.Consistent) : v.Upright where
  healthy := healthy_of_start hstart hstore hfree
  consistent := hlinks.elim consistent_of_no_links id
  fresh := fresh_of_start Memory.outline_lawful outline_hides hstore.closed hstart

theorem Session.upright_played (run : List Moment) (hs : s.space.Upright) : (s.played run).space.Upright :=
  Session.played_induction (I := fun s => s.space.Upright) (fun e _ h => h.happen e)
    (fun host store _ h => h.clocked host store) run hs

end Filespace.Vfs
