import Filespace.Proofs.Steps
import Mathlib.Data.List.Count
import Mathlib.Data.List.Nodup

/-!
# Histories of queued writes

The register of queued writes forgets a path when its last write has left the queue, and starts again from generation
zero when the next one is queued. So one generation can belong to many writes of a path. What keeps them apart is that
the register never forgets a path while a write to it waits: its record counts the writes that have not left
(`pending_after`), and its generation is ahead of that of a waiting write by the number of times the write was made
meaningless (`generation_after`).

Both are invariants of histories, in which any number of writes come and go in any order. All that is asked of a history
is that a write is entered once, and leaves at most once, after it was looked at.
-/

namespace Filespace.Detached

/-! ### Orderly histories -/

/-- A queued write: its number and the path it is for. -/
structure Write where
  /-- Its number. -/
  id : Nat
  /-- The path. -/
  path : Path
  deriving DecidableEq

/-- What happens to the register. -/
inductive Event where
  /-- A write is queued. -/
  | enter (w : Write)
  /-- A write asks whether it is still meant. -/
  | check (w : Write)
  /-- A write has left the queue. -/
  | finish (w : Write)
  /-- The writes at and below a path lose their meaning. -/
  | invalidate (q : Path)
  deriving DecidableEq

/-- The register after an event. -/
def Event.apply : Event → Detached → Detached
  | enter w, d => (d.enter w.path).2
  | check _, d => d
  | finish w, d => d.finish w.path
  | invalidate q, d => d.invalidateUnder q

/-- The register after a history. -/
def after (es : List Event) : Detached := es.foldl (fun d e => e.apply d) {}

/-- What must have happened before an event, and what must not. -/
def Event.Allowed : Event → List Event → Prop
  | enter w, before => enter w ∉ before
  | check w, before => enter w ∈ before
  | finish w, before => check w ∈ before ∧ finish w ∉ before
  | invalidate _, _ => True

instance : (e : Event) → (before : List Event) → Decidable (e.Allowed before)
  | .enter w, before => inferInstanceAs (Decidable (Event.enter w ∉ before))
  | .check w, before => inferInstanceAs (Decidable (Event.enter w ∈ before))
  | .finish w, before => inferInstanceAs (Decidable (Event.check w ∈ before ∧ Event.finish w ∉ before))
  | .invalidate _, _ => inferInstanceAs (Decidable True)

/-- Every event comes when it may. -/
def Orderly (es : List Event) : Prop := ∀ before e later, es = before ++ e :: later → e.Allowed before

variable {es before later : List Event} {e : Event} {w : Write} {p q : Path}

theorem after_concat (es : List Event) (e : Event) : after (es ++ [e]) = e.apply (after es) := by
  simp [after]

theorem Orderly.of_append (h : Orderly (es ++ later)) : Orderly es := by
  intro before e rest hes
  refine h before e (rest ++ later) ?_
  rw [hes, List.append_assoc, List.cons_append]

theorem orderly_nil : Orderly [] := by
  intro before e later h
  simp at h

theorem orderly_concat : Orderly (es ++ [e]) ↔ Orderly es ∧ e.Allowed es := by
  constructor
  · intro h
    exact ⟨h.of_append, h es e [] rfl⟩
  · intro ⟨h, he⟩ before e' later hsplit
    rcases List.eq_nil_or_concat later with rfl | ⟨rest, x, rfl⟩
    · obtain ⟨rfl, hx⟩ := List.append_inj' hsplit rfl
      cases hx
      exact he
    · rw [List.concat_eq_append, ← List.cons_append, ← List.append_assoc] at hsplit
      exact h before e' rest (List.append_inj' hsplit rfl).1

instance : DecidablePred Orderly := fun es =>
  decidable_of_iff (∀ i : Fin es.length, (es.get i).Allowed (es.take i)) <| by
    constructor
    · intro h before e later hes
      subst hes
      simpa using h ⟨before.length, by simp⟩
    · intro h i
      refine h (es.take i) (es.get i) (es.drop (i + 1)) ?_
      simp

/-- A write that was looked at, or has left, was entered. -/
theorem Orderly.entered (h : Orderly es) :
    (Event.check w ∈ es → Event.enter w ∈ es) ∧ (Event.finish w ∈ es → Event.enter w ∈ es) := by
  have hcheck : ∀ {es : List Event}, Orderly es → Event.check w ∈ es → Event.enter w ∈ es := by
    intro es h hw
    obtain ⟨before, later, rfl⟩ := List.append_of_mem hw
    have hentered : Event.enter w ∈ before := h before _ later rfl
    exact List.mem_append_left _ hentered
  refine ⟨hcheck h, fun hw => ?_⟩
  obtain ⟨before, later, rfl⟩ := List.append_of_mem hw
  have hchecked : Event.check w ∈ before ∧ Event.finish w ∉ before := h before _ later rfl
  exact List.mem_append_left _ (hcheck h.of_append hchecked.1)

/-! ### Writes that wait -/

/-- Keeps the list of the writes that wait. -/
def Event.track : List Write → Event → List Write
  | l, enter w => l ++ [w]
  | l, finish w => l.erase w
  | l, _ => l

/-- The writes that wait after a history. -/
def waiting (es : List Event) : List Write := es.foldl Event.track []

theorem waiting_concat (es : List Event) (e : Event) : waiting (es ++ [e]) = e.track (waiting es) := by
  simp [waiting]

/-- Those wait that have come and not gone, each once. -/
theorem waiting_spec (h : Orderly es) :
    (waiting es).Nodup ∧ ∀ w, w ∈ waiting es ↔ Event.enter w ∈ es ∧ Event.finish w ∉ es := by
  induction es using List.reverseRecOn with
  | nil => simp [waiting]
  | append_singleton es e ih =>
    obtain ⟨hes, hallowed⟩ := orderly_concat.1 h
    obtain ⟨hnodup, hmem⟩ := ih hes
    rw [waiting_concat]
    cases e with
    | enter x =>
      have hfresh : Event.enter x ∉ es := hallowed
      have hleft : Event.finish x ∉ es := fun hx => hfresh (hes.entered.2 hx)
      have hnew : x ∉ waiting es := fun hx => hfresh ((hmem x).1 hx).1
      refine ⟨List.Nodup.append hnodup (List.nodup_singleton x) (by simpa using hnew), fun w => ?_⟩
      by_cases hw : w = x
      · simp [Event.track, hw, hleft]
      · simp [Event.track, hw, hmem w]
    | check x => exact ⟨hnodup, fun w => by simp [Event.track, hmem w]⟩
    | finish x =>
      refine ⟨hnodup.erase x, fun w => ?_⟩
      simp only [Event.track, hnodup.mem_erase_iff, hmem w, List.mem_append, List.mem_singleton, Event.finish.injEq,
        reduceCtorEq, or_false]
      tauto
    | invalidate q => exact ⟨hnodup, fun w => by simp [Event.track, hmem w]⟩

theorem Orderly.waits (h : Orderly (before ++ .enter w :: later)) (hopen : Event.finish w ∉ later) :
    w ∈ waiting (before ++ .enter w :: later) := by
  have hearly : Event.finish w ∉ before := fun hw => h before _ later rfl (h.of_append.entered.2 hw)
  exact ((waiting_spec h).2 w).2 ⟨by simp, by simp [hearly, hopen]⟩

/-- How many writes to a path wait. -/
def waitingFor (es : List Event) (p : Path) : Nat := (waiting es).countP fun w => w.path = p

theorem waitingFor_enter (es : List Event) (w : Write) (p : Path) :
    waitingFor (es ++ [.enter w]) p = waitingFor es p + if w.path = p then 1 else 0 := by
  simp [waitingFor, waiting_concat, Event.track, List.countP_cons]

theorem waitingFor_finish (h : w ∈ waiting es) (p : Path) :
    waitingFor (es ++ [.finish w]) p = waitingFor es p - if w.path = p then 1 else 0 := by
  simp [waitingFor, waiting_concat, Event.track, List.countP_erase, h]

theorem waitingFor_pos_iff (h : Orderly es) :
    0 < waitingFor es p ↔ ∃ w, w.path = p ∧ Event.enter w ∈ es ∧ Event.finish w ∉ es := by
  unfold waitingFor
  rw [List.countP_pos_iff]
  simp only [(waiting_spec h).2, decide_eq_true_eq]
  tauto

theorem one_lt_waitingFor {x : Write} (hw : w ∈ waiting es) (hx : x ∈ waiting es) (hne : w ≠ x)
    (hpath : x.path = w.path) : 1 < waitingFor es w.path := by
  have hother : 0 < ((waiting es).erase w).countP fun z => z.path = w.path :=
    List.countP_pos_iff.2 ⟨x, (List.mem_erase_of_ne hne.symm).2 hx, by simp [hpath]⟩
  rw [List.countP_erase] at hother
  simp only [hw, decide_true, and_self, if_true] at hother
  exact Nat.lt_of_sub_pos hother

/-! ### What the register knows -/

/-- A path has a record as long as writes to it wait, and the record counts them. -/
theorem pending_after (h : Orderly es) (p : Path) :
    ((after es).paths.get? p).map PathWrites.pending = if waitingFor es p = 0 then none else some (waitingFor es p) := by
  induction es using List.reverseRecOn with
  | nil => rfl
  | append_singleton es e ih =>
    obtain ⟨hes, hallowed⟩ := orderly_concat.1 h
    have ih := ih hes
    rw [after_concat]
    cases e with
    | enter w =>
      rw [waitingFor_enter]
      simp only [Event.apply, get?_enter]
      by_cases hp : p = w.path
      · subst hp
        rw [ih]
        by_cases hnone : waitingFor es w.path = 0 <;> simp [hnone]
      · rw [if_neg hp, if_neg (Ne.symm hp), ih, Nat.add_zero]
    | check w =>
      have hsame : waitingFor (es ++ [.check w]) p = waitingFor es p := by
        simp [waitingFor, waiting_concat, Event.track]
      rw [hsame]
      exact ih
    | finish w =>
      have hopen : w ∈ waiting es := ((waiting_spec hes).2 w).2 ⟨hes.entered.1 hallowed.1, hallowed.2⟩
      rw [waitingFor_finish hopen]
      simp only [Event.apply, get?_finish]
      by_cases hp : p = w.path
      · subst hp
        cases hrecord : (after es).paths.get? w.path with
        | none =>
          -- There is a record, since this write waits.
          have hpos : 0 < waitingFor es w.path :=
            (waitingFor_pos_iff hes).2 ⟨w, rfl, ((waiting_spec hes).2 w).1 hopen⟩
          rw [hrecord, if_neg hpos.ne'] at ih
          simp at ih
        | some x =>
          rw [hrecord] at ih
          by_cases hnone : waitingFor es w.path = 0
          · simp [hnone] at ih
          · have hcount : x.pending = waitingFor es w.path := by simpa [hnone] using ih
            by_cases hlast : waitingFor es w.path ≤ 1
            · simp [hcount, hlast]
            · simp [hcount, hlast, Nat.sub_eq_zero_iff_le]
      · rw [if_neg hp, if_neg (Ne.symm hp), ih, Nat.sub_zero]
    | invalidate q =>
      have hsame : waitingFor (es ++ [.invalidate q]) p = waitingFor es p := by
        simp [waitingFor, waiting_concat, Event.track]
      rw [hsame, ← ih]
      simp only [Event.apply, get?_invalidateUnder, Option.map_map]
      congr 1
      funext x
      by_cases hq : p.under q = true <;> simp [hq]

/-- Writes to a path are known to wait exactly as long as one has come and not gone. -/
theorem hasPending_after (h : Orderly es) :
    (after es).hasPending p = true ↔ ∃ w, w.path = p ∧ Event.enter w ∈ es ∧ Event.finish w ∉ es := by
  rw [← waitingFor_pos_iff h]
  have hcount := pending_after h p
  cases hp : (after es).paths.get? p with
  | none =>
    have hno : (after es).hasPending p = false := hasPending_eq_false_iff.2 hp
    rw [hp] at hcount
    by_cases hnone : waitingFor es p = 0
    · simp [hno, hnone]
    · simp [hnone] at hcount
  | some x =>
    have hyes : (after es).hasPending p = true := by
      by_contra hno
      rw [Bool.not_eq_true, hasPending_eq_false_iff, hp] at hno
      cases hno
    rw [hp] at hcount
    by_cases hnone : waitingFor es p = 0
    · simp [hnone] at hcount
    · simp [hyes, Nat.pos_of_ne_zero hnone]

/-- Does an event make the writes to a path meaningless? -/
def Event.covers (p : Path) : Event → Bool
  | invalidate q => p.under q
  | _ => false

/-- While a write waits, the generation of its path grows by one each time the write is made meaningless, and changes in
no other way. -/
theorem generation_after (h : Orderly (before ++ .enter w :: later)) (hopen : Event.finish w ∉ later) :
    ((after (before ++ .enter w :: later)).paths.get? w.path).map PathWrites.generation =
      some (((after before).enter w.path).1 + later.countP (Event.covers w.path)) := by
  induction later using List.reverseRecOn with
  | nil =>
    rw [after_concat]
    simp [Event.apply, get?_enter]
  | append_singleton later e ih =>
    have hsplit : before ++ .enter w :: (later ++ [e]) = (before ++ .enter w :: later) ++ [e] := by simp
    rw [hsplit] at h ⊢
    obtain ⟨hes, hallowed⟩ := orderly_concat.1 h
    have ih := ih hes fun hw => hopen (List.mem_append_left _ hw)
    obtain ⟨x, hx, hgeneration⟩ := Option.map_eq_some_iff.1 ih
    rw [after_concat, List.countP_append, ← Nat.add_assoc, ← hgeneration]
    cases e with
    | enter y =>
      simp only [Event.apply, get?_enter]
      by_cases hy : w.path = y.path
      · rw [hy] at hx ⊢
        simp [Event.covers, enter, hx]
      · simp [hy, hx, Event.covers]
    | check y => simp [Event.apply, hx, Event.covers]
    | finish y =>
      have hne : w ≠ y := by
        intro hwy
        apply hopen
        simp [hwy]
      simp only [Event.apply, get?_finish]
      by_cases hy : y.path = w.path
      · -- Both writes wait, so the record stays when one of them leaves.
        have hleaves : y ∈ waiting (before ++ .enter w :: later) :=
          ((waiting_spec hes).2 y).2 ⟨hes.entered.1 hallowed.1, hallowed.2⟩
        have hstays : w ∈ waiting (before ++ .enter w :: later) :=
          hes.waits fun hw => hopen (List.mem_append_left _ hw)
        have hmore := one_lt_waitingFor hstays hleaves hne hy
        have hcount := pending_after hes w.path
        rw [hx, if_neg (Nat.ne_zero_of_lt hmore), Option.map_some, Option.some_inj] at hcount
        have hpending : ¬ x.pending ≤ 1 := by omega
        rw [hy, hx]
        simp [hpending, Event.covers]
      · simp [Ne.symm hy, hx, Event.covers]
    | invalidate q =>
      simp only [Event.apply, get?_invalidateUnder, hx]
      by_cases hq : w.path.under q = true <;> simp [hq, Event.covers]

theorem isCurrent_iff {d : Detached} {generation : Nat} :
    d.isCurrent p generation = true ↔ (d.paths.get? p).map PathWrites.generation = some generation := by
  unfold isCurrent
  cases d.paths.get? p <;> simp

/-- A write that waits is still meant exactly if it was never made meaningless. -/
theorem isCurrent_after (h : Orderly (before ++ .enter w :: later)) (hopen : Event.finish w ∉ later) :
    (after (before ++ .enter w :: later)).isCurrent w.path ((after before).enter w.path).1 = true ↔
      ∀ q, Event.invalidate q ∈ later → w.path.under q = false := by
  rw [isCurrent_iff, generation_after h hopen, Option.some_inj, Nat.add_eq_left, List.countP_eq_zero]
  constructor
  · intro hnone q hq
    simpa [Event.covers] using hnone _ hq
  · intro hall e he
    cases e with
    | invalidate q => simp [Event.covers, hall q he]
    | _ => simp [Event.covers]

end Filespace.Detached
