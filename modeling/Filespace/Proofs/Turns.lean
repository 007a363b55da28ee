import Filespace.Proofs.RememberedListings
import Filespace.Proofs.TwinNamespaces

/-!
# Runs of a namespace

A run is a list of turns. A turn is one operation, with the time at which it takes place and with how much of the queued
work is done meanwhile. What is remembered of directories is right after each turn if it is right after each operation
(`Fresh.play`).

Link records can be kept on the host or apart from it (`LinkMap.OffHost`). In the second case the jobs that write them
cannot be seen in the store.
-/

namespace Filespace

open Storage

/-- The records are kept apart from the host: every call is one of the map alone. -/
structure LinkMap.OffHost (μ : Type) [LinkMap μ] : Prop where
  load : ∃ x : StoreM μ LinkRecords, LinkMap.load = .onSecond x
  put : ∀ key target, ∃ x : StoreM μ Unit, LinkMap.put key target = .onSecond x
  delete : ∀ key, ∃ x : StoreM μ Unit, LinkMap.delete key = .onSecond x

theorem Records.offHost : LinkMap.OffHost Records := ⟨⟨_, rfl⟩, fun _ _ => ⟨_, rfl⟩, fun _ => ⟨_, rfl⟩⟩

variable {φ μ : Type} [FileStore φ] [LinkMap μ]

namespace LinkMap.OffHost

variable (hμ : OffHost μ)

include hμ

theorem job (j : LinkJob) : ∃ x : StoreM μ Unit, j.run = .onSecond x := by
  cases j with
  | put p target => exact hμ.put _ _
  | delete p => exact hμ.delete _

omit [FileStore φ] in
theorem hides (O : Outline φ) : O.Hides μ := by
  obtain ⟨load, hload⟩ := hμ.load
  refine ⟨fun h m f => ?_, fun j h m f => ?_⟩
  · rw [hload]
    exact refl_of O.Same (h, f)
  · obtain ⟨x, hx⟩ := hμ.job j
    rw [hx]
    exact refl_of O.Same (h, f)

theorem apart (S : Simulation φ) : S.Apart μ := by
  obtain ⟨load, hload⟩ := hμ.load
  refine ⟨fun h h' m f f' hrel => ?_, fun j h h' m f f' hrel => ?_⟩
  · rw [hload]
    exact ⟨rfl, rfl, hrel⟩
  · obtain ⟨x, hx⟩ := hμ.job j
    rw [hx]
    exact ⟨rfl, rfl, hrel⟩

end LinkMap.OffHost

namespace Vfs

/-- One operation of a run. -/
structure Turn where
  /-- The operation. -/
  operation : Operation
  /-- How many jobs are due at each request and what is left of them at the end; when nothing is said, all are. -/
  due : List Nat := []
  /-- What the clocks show. -/
  time : Nat := 0
  deriving DecidableEq

/-- Does the jobs of a turn that are still due. -/
def caughtUp (due : List Nat) (v : Vfs φ μ) : Vfs φ μ :=
  if due = [] then v.drain else { v.runJobs (v.pace.foldr (· + ·) 0) with pace := [] }

/-- The namespace at the beginning of a turn. -/
def atTurn (tick : Nat → φ → φ) (t : Turn) (v : Vfs φ μ) : Vfs φ μ :=
  { v with
    pace := t.due
    world := { v.world with host := { v.world.host with clock := t.time }, files := tick t.time v.world.files } }

/-- Plays a turn. A store with a clock of its own is told the time by `tick`. -/
def Turn.play (tick : Nat → φ → φ) (t : Turn) (s : Session φ μ) : Except Refusal Value × Session φ μ :=
  let (r, s) := t.operation.run { s with space := s.space.atTurn tick t }
  (r, { s with space := s.space.caughtUp t.due })

/-- What the operations of a run give. -/
def Session.results (tick : Nat → φ → φ) (s : Session φ μ) : List Turn → List (Except Refusal Value)
  | [] => []
  | t :: rest => (t.play tick s).1 :: results tick (t.play tick s).2 rest

/-- The session after a run. -/
def Session.atEnd (tick : Nat → φ → φ) (s : Session φ μ) (run : List Turn) : Session φ μ :=
  run.foldl (fun s t => (t.play tick s).2) s

section Fresh

variable {O : Outline φ} {v : Vfs φ μ} {tick : Nat → φ → φ} (hO : O.Lawful) (hμ : O.Hides μ)

include hO hμ

theorem Fresh.caughtUp (hv : Fresh O v) (due : List Nat) : Fresh O (v.caughtUp due) := by
  unfold Vfs.caughtUp
  split
  · exact hv.upToDate hO hμ (looked_runJobs hO hμ _ v).upToDate
  · have hjobs := hv.upToDate hO hμ (looked_runJobs hO hμ (v.pace.foldr (· + ·) 0) v).upToDate
    exact hjobs.upToDate hO hμ fun hfit => ⟨hfit, Or.inl ⟨rfl, rfl, rfl⟩⟩

variable (htick : ∀ n s, O.Same s ({ s.1 with clock := n }, tick n s.2))

include htick

theorem Fresh.atTurn (hv : Fresh O v) (t : Turn) : Fresh O (v.atTurn tick t) := by
  refine hv.upToDate hO hμ fun hfit => ?_
  obtain ⟨hfit', hshape⟩ := htick t.time v.behind hfit
  exact ⟨hfit', Or.inl ⟨hshape, rfl, rfl⟩⟩

/-- What is remembered is right after a turn, unless the operation noticed too late that it could not make something. -/
theorem Fresh.play {s : Session φ μ} (hs : Fresh O s.space) (t : Turn)
    (hlate : t.operation.Creates → ∀ e, (t.play tick s).1 = .error (.failed e) → ¬ Late O e) :
    Fresh O (t.play tick s).2.space :=
  (t.operation.fresh_run hO hμ (hs.atTurn hO hμ htick t) hlate).caughtUp hO hμ t.due

/-- What is remembered is right after a run, unless one of its operations noticed too late that it could not make
something. -/
theorem Fresh.atEnd {s : Session φ μ} (hs : Fresh O s.space) (run : List Turn)
    (hlate : ∀ t e, (t, .error (.failed e)) ∈ run.zip (s.results tick run) → t.operation.Creates → ¬ Late O e) :
    Fresh O (s.atEnd tick run).space := by
  induction run generalizing s with
  | nil => exact hs
  | cons t run ih =>
    refine ih (hs.play hO hμ htick t fun hop e he => ?_) fun t' e he => hlate t' e (List.mem_cons_of_mem _ he)
    refine hlate t e ?_ hop
    rw [Session.results, he]
    exact List.mem_cons_self ..

end Fresh

section Twins

variable {S : Simulation φ} {L : Listings → Listings → Prop} {v v' : Vfs φ μ} {s s' : Session φ μ} {tick : Nat → φ → φ}

omit [LinkMap μ] in
theorem Session.Twin.atTurn (hs : s.Twin S L s')
    (htick : ∀ n s t, S.Rel s t → S.Rel ({ s.1 with clock := n }, tick n s.2) ({ t.1 with clock := n }, tick n t.2))
    (t : Turn) : Session.Twin S L { s with space := s.space.atTurn tick t } { s' with space := s'.space.atTurn tick t } :=
  ⟨{ hs.space with behind := htick t.time _ _ hs.space.behind, pace := rfl }, hs.descriptors⟩

variable (hS : S.Lawful) (hμ : S.Apart μ)

include hS hμ

theorem Twin.caughtUp (hv : Twin S L v v') (due : List Nat) : Twin S L (v.caughtUp due) (v'.caughtUp due) := by
  unfold Vfs.caughtUp
  split
  · exact hv.drain hS hμ
  · rw [hv.pace]
    exact { hv.runJobs hS hμ _ with pace := rfl }

variable (htick : ∀ n s t, S.Rel s t → S.Rel ({ s.1 with clock := n }, tick n s.2) ({ t.1 with clock := n }, tick n t.2))

include htick

/-- A turn gives the same in two sessions that remember the same listings. -/
theorem Session.Twin.play (hs : s.Twin S Eq s') (t : Turn) :
    (t.play tick s').1 = (t.play tick s).1 ∧ (t.play tick s).2.Twin S Eq (t.play tick s').2 := by
  have hrun : Parallel (Session.Twin S Eq) Eq t.operation.run t.operation.run :=
    t.operation.twin_run hS hμ (fun _ _ hl => congrArg Listings.clear hl) fun _ dir => twin_list hS hμ dir
  unfold Turn.play
  obtain ⟨a, _, u, u', hx, hy, rfl, hu⟩ | ⟨e, u, u', hx, hy, hu⟩ := (hrun _ _ (hs.atTurn htick t)).cases
  · rw [hx, hy]
    exact ⟨rfl, hu.space.caughtUp hS hμ t.due, hu.descriptors⟩
  · rw [hx, hy]
    exact ⟨rfl, hu.space.caughtUp hS hμ t.due, hu.descriptors⟩

theorem Session.Twin.results (hs : s.Twin S Eq s') (run : List Turn) : s'.results tick run = s.results tick run := by
  induction run generalizing s s' with
  | nil => rfl
  | cons t run ih =>
    obtain ⟨hresult, hrest⟩ := hs.play hS hμ htick t
    unfold Session.results
    rw [hresult, ih hrest]

theorem Session.Twin.atEnd (hs : s.Twin S Eq s') (run : List Turn) : (s.atEnd tick run).Twin S Eq (s'.atEnd tick run) := by
  induction run generalizing s s' with
  | nil => exact hs
  | cons t run ih => exact ih (hs.play hS hμ htick t).2

end Twins

end Vfs

end Filespace
