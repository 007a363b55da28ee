import Filespace.Proofs.Generations
import Filespace.Proofs.PassingQueues
import Filespace.Proofs.PlayedRuns

/-!
# Displaced files are not written

A write that nobody waits for can be overtaken: its file is cut, removed or moved while the write is in the queue. Then
it must not be done when its turn comes, whoever has the path by then.

The register and the queue of a namespace always have an orderly history in common, in which the writes that wait are
those of the jobs in the queue (`Chronicle`). Each beat of the queue adds to it what happens to the register
(`Beat.chronicle`). So the generations tell which jobs are still meant, and those that were queued before their
file was displaced are not.
-/

namespace Filespace.Vfs

open Storage Session

variable {φ μ : Type} [FileStore φ] [LinkMap μ] {j : Job Work} {data : Bytes} {generation : Nat}

/-! ### Chronicles -/

/-- A history of the register in which every write in the queue has come and not gone, with the generation it was given
when it came. -/
structure Chronicle (es : List Detached.Event) (d : Detached) (b : Background Work) : Prop where
  /-- The history is orderly. -/
  orderly : Detached.Orderly es
  /-- It leads to the register. -/
  register : d = Detached.after es
  /-- The numbers of its writes were given to jobs. -/
  numbered : ∀ w, Detached.Event.enter w ∈ es → w.id < b.nextId
  /-- The numbers of jobs were given to jobs. -/
  recent : ∀ j ∈ b.queue, j.id < b.nextId
  /-- No number was given twice. -/
  distinct : (b.queue.map Job.id).Nodup
  /-- The writes in the queue have come and not gone. -/
  entered : ∀ j ∈ b.queue, ∀ p generation offset data, j.work = .write p generation offset data →
    Detached.Event.finish ⟨j.id, p⟩ ∉ es ∧ ∃ before later, es = before ++ .enter ⟨j.id, p⟩ :: later ∧
      generation = ((Detached.after before).enter p).1

namespace Chronicle

variable {es later : List Detached.Event} {d : Detached} {b : Background Work} {p q : Path}

/-- A history that goes on without the end of a write still tells when the write came. -/
theorem entered_append (h : Chronicle es d b) (hj : j ∈ b.queue) {offset : Nat}
    (hwork : j.work = .write p generation offset data) (hlater : Detached.Event.finish ⟨j.id, p⟩ ∉ later) :
    Detached.Event.finish ⟨j.id, p⟩ ∉ es ++ later ∧ ∃ before rest, es ++ later = before ++ .enter ⟨j.id, p⟩ :: rest ∧
      generation = ((Detached.after before).enter p).1 := by
  obtain ⟨hopen, before, rest, hes, hgeneration⟩ := h.entered j hj p generation offset data hwork
  refine ⟨by simp [hopen, hlater], before, rest ++ later, ?_, hgeneration⟩
  rw [hes, List.append_assoc, List.cons_append]

theorem stale (h : Chronicle es d b) (p : Path) : Chronicle (es ++ [.invalidate p]) (d.invalidateUnder p) b where
  orderly := Detached.orderly_concat.2 ⟨h.orderly, trivial⟩
  register := by
    rw [Detached.after_concat, h.register]
    rfl
  numbered w hw := h.numbered w (by simpa using hw)
  recent := h.recent
  distinct := h.distinct
  entered j hj p generation offset data hwork := h.entered_append hj hwork (by simp)

theorem distinct_submit {ω : Type} {b : Background ω} (hrecent : ∀ j ∈ b.queue, j.id < b.nextId)
    (hdistinct : (b.queue.map Job.id).Nodup) (label : String) (work : ω) :
    (∀ j ∈ (b.submit label work).2.queue, j.id < (b.submit label work).2.nextId) ∧
      ((b.submit label work).2.queue.map Job.id).Nodup := by
  have hnew : b.nextId ∉ b.queue.map Job.id := by
    intro hmem
    obtain ⟨j, hj, hid⟩ := List.mem_map.1 hmem
    exact absurd (hrecent j hj) (by rw [hid]; exact Nat.lt_irrefl _)
  constructor
  · intro j hj
    rcases List.mem_append.1 hj with hold | hnew
    · exact Nat.lt_succ_of_lt (hrecent j hold)
    · rw [List.mem_singleton.1 hnew]
      exact Nat.lt_succ_self _
  · simp only [Background.submit, List.map_append, List.map_cons, List.map_nil]
    exact List.Nodup.append hdistinct (List.nodup_singleton _) (by simpa using hnew)

theorem queue (h : Chronicle es d b) (p : Path) (offset : Nat) (data : Bytes) (label : String) :
    Chronicle (es ++ [.enter ⟨b.nextId, p⟩]) (d.enter p).2 (b.submit label (.write p (d.enter p).1 offset data)).2 := by
  have hfresh : Detached.Event.enter ⟨b.nextId, p⟩ ∉ es := fun hw => Nat.lt_irrefl _ (h.numbered _ hw)
  obtain ⟨hrecent, hdistinct⟩ := distinct_submit h.recent h.distinct label (.write p (d.enter p).1 offset data)
  refine ⟨Detached.orderly_concat.2 ⟨h.orderly, hfresh⟩, ?_, ?_, hrecent, hdistinct, ?_⟩
  · rw [Detached.after_concat, h.register]
    rfl
  · intro w hw
    rcases List.mem_append.1 hw with hold | hnew
    · exact Nat.lt_succ_of_lt (h.numbered w hold)
    · obtain rfl : w = ⟨b.nextId, p⟩ := by simpa using hnew
      exact Nat.lt_succ_self _
  · intro j hj p' generation offset' data' hwork
    rcases List.mem_append.1 hj with hold | hnew
    · exact h.entered_append hold hwork (by simp)
    · obtain rfl := List.mem_singleton.1 hnew
      cases hwork
      have hopen : Detached.Event.finish ⟨b.nextId, p⟩ ∉ es := fun hw => hfresh (h.orderly.entered.2 hw)
      exact ⟨by simpa using hopen, es, [], rfl, by rw [h.register]⟩

theorem links (h : Chronicle es d b) (jobs : List LinkJob) :
    Chronicle es d (jobs.foldl (fun b j => (b.submit j.label (.link j)).2) b) := by
  induction jobs generalizing b with
  | nil => exact h
  | cons job jobs ih =>
    obtain ⟨hrecent, hdistinct⟩ := distinct_submit h.recent h.distinct job.label (Work.link job)
    refine ih ⟨h.orderly, h.register, fun w hw => Nat.lt_succ_of_lt (h.numbered w hw), hrecent, hdistinct, ?_⟩
    intro j hj p generation offset data hwork
    rcases List.mem_append.1 hj with hold | hnew
    · exact h.entered j hold p generation offset data hwork
    · obtain rfl := List.mem_singleton.1 hnew
      cases hwork

/-- A job that leaves takes nothing from the others. -/
theorem leave (h : Chronicle es d b) {rest : List (Job Work)} (hqueue : b.queue = j :: rest)
    (r : Except StorageError Unit) : Chronicle es d { b.finish j r with queue := rest } := by
  have hnext : (b.finish j r).nextId = b.nextId := by
    unfold Background.finish
    split <;> rfl
  have hrest : ∀ k ∈ rest, k ∈ b.queue := by
    intro k hk
    rw [hqueue]
    exact List.mem_cons_of_mem j hk
  have hdistinct := h.distinct
  rw [hqueue, List.map_cons, List.nodup_cons] at hdistinct
  exact ⟨h.orderly, h.register, fun w hw => hnext.symm ▸ h.numbered w hw,
    fun k hk => hnext.symm ▸ h.recent k (hrest k hk), hdistinct.2, fun k hk => h.entered k (hrest k hk)⟩

/-- A write that leaves has looked whether it is still meant. -/
theorem finish (h : Chronicle es d b) {rest : List (Job Work)} (hqueue : b.queue = j :: rest)
    {offset : Nat} (hwork : j.work = .write p generation offset data)
    (r : Except StorageError Unit) : Chronicle (es ++ [.check ⟨j.id, p⟩, .finish ⟨j.id, p⟩]) (d.finish p)
      { b.finish j r with queue := rest } := by
  have hj : j ∈ b.queue := by simp [hqueue]
  obtain ⟨hopen, before, later, hes, -⟩ := h.entered j hj p generation offset data hwork
  have hleft := h.leave hqueue r
  have hconcat : es ++ [.check ⟨j.id, p⟩, .finish ⟨j.id, p⟩] = (es ++ [.check ⟨j.id, p⟩]) ++ [.finish ⟨j.id, p⟩] := by
    simp
  have hchecked : Detached.Orderly (es ++ [.check ⟨j.id, p⟩]) :=
    Detached.orderly_concat.2 ⟨h.orderly, show Detached.Event.enter ⟨j.id, p⟩ ∈ es by simp [hes]⟩
  refine ⟨?_, ?_, fun w hw => hleft.numbered w (by simpa using hw), hleft.recent, hleft.distinct, ?_⟩
  · rw [hconcat]
    exact Detached.orderly_concat.2 ⟨hchecked, by simp, by simpa using hopen⟩
  · rw [hconcat, Detached.after_concat, Detached.after_concat, h.register]
    rfl
  · intro k hk p' generation' offset' data' hwork'
    refine hleft.entered_append hk hwork' ?_
    -- Another job has another number.
    have hdistinct := h.distinct
    rw [hqueue, List.map_cons, List.nodup_cons] at hdistinct
    have hne : k.id ≠ j.id := fun hid => hdistinct.1 (hid ▸ List.mem_map_of_mem hk)
    simp [hne]

/-- Writes that were queued before their path was invalidated are not meant any more. -/
theorem not_current {d' : Detached} {b' : Background Work} (h : Chronicle es d b) (h' : Chronicle (es ++ later) d' b') (hj : j ∈ b.queue) (hj' : j ∈ b'.queue) {offset : Nat}
    (hwork : j.work = .write p generation offset data) (hq : Detached.Event.invalidate q ∈ later)
    (hunder : p.under q = true) : d'.isCurrent p generation = false := by
  obtain ⟨-, early, middle, hes, -⟩ := h.entered j hj p generation offset data hwork
  obtain ⟨hopen, before, rest, hsplit, hgeneration⟩ := h'.entered j hj' p generation offset data hwork
  -- The write came in the first part of the history, so all of the second part came after it.
  have hrest : Detached.Event.invalidate q ∈ rest := by
    rcases List.append_eq_append_iff.1 hsplit with ⟨more, hbefore, -⟩ | ⟨more, -, hmore⟩
    · have hearly : Detached.Event.enter ⟨j.id, p⟩ ∈ before := by simp [hbefore, hes]
      exact absurd hearly (h'.orderly before _ rest hsplit)
    · cases more with
      | nil =>
        have hlater : later = .enter ⟨j.id, p⟩ :: rest := by simpa using hmore.symm
        rw [hlater] at hq
        simpa using hq
      | cons e more =>
        obtain ⟨-, hmore⟩ := List.cons.inj hmore
        rw [hmore]
        exact List.mem_append_right _ hq
  have horderly := h'.orderly
  have hregister := h'.register
  rw [hsplit] at horderly hregister hopen
  have hiff := Detached.isCurrent_after horderly fun hw => hopen (by simp [hw])
  rw [← Bool.not_eq_true, hregister, hgeneration, hiff]
  intro hall
  rw [hall q hrest] at hunder
  cases hunder

end Chronicle

/-! ### Every namespace has a chronicle -/

section Namespaces

variable {es : List Detached.Event} {u v w : Vfs φ μ}

theorem Beat.chronicle (hb : Beat v w) (h : Chronicle es v.detached v.background) :
    ∃ later, Chronicle (es ++ later) w.detached w.background := by
  cases hb with
  | @job j rest hqueue =>
    cases hwork : j.work with
    | link job =>
      refine ⟨[], ?_⟩
      have hperform : (perform j.work (v.world, v.detached)).2.2 = v.detached := by
        rw [hwork]
        exact (perform_link job _).2
      show Chronicle _ (perform j.work (v.world, v.detached)).2.2 _
      rw [List.append_nil, hperform]
      exact h.leave hqueue _
    | write p generation offset data =>
      refine ⟨[.check ⟨j.id, p⟩, .finish ⟨j.id, p⟩], ?_⟩
      have hperform : (perform j.work (v.world, v.detached)).2.2 = v.detached.finish p := by
        rw [hwork]
        unfold perform
        simp only
        split <;> rfl
      show Chronicle _ (perform j.work (v.world, v.detached)).2.2 _
      rw [hperform]
      exact h.finish hqueue hwork _
  | stale p => exact ⟨_, h.stale p⟩
  | queue p offset data => exact ⟨_, h.queue p offset data _⟩
  | links l jobs =>
    refine ⟨[], ?_⟩
    rw [List.append_nil]
    exact h.links jobs
  | aside hbackground hdetached =>
    refine ⟨[], ?_⟩
    rw [List.append_nil, hbackground, hdetached]
    exact h

theorem Passes.chronicle (hp : Passes v w) (h : Chronicle es v.detached v.background) :
    ∃ later, Chronicle (es ++ later) w.detached w.background := by
  induction hp with
  | refl => exact ⟨[], by rwa [List.append_nil]⟩
  | tail _ hbeat ih =>
    obtain ⟨middle, hmiddle⟩ := ih
    obtain ⟨later, hlater⟩ := hbeat.chronicle hmiddle
    exact ⟨middle ++ later, by rwa [← List.append_assoc]⟩

theorem Voided.chronicle {p : Path} (hv : Voided p v w) (h : Chronicle es v.detached v.background) :
    ∃ later, Detached.Event.invalidate p ∈ later ∧ Chronicle (es ++ later) w.detached w.background := by
  obtain ⟨u, hu, hw⟩ := hv
  obtain ⟨middle, hmiddle⟩ := hu.chronicle h
  obtain ⟨later, hlater⟩ := hw.chronicle (hmiddle.stale p)
  exact ⟨middle ++ .invalidate p :: later, by simp, by simpa using hlater⟩

/-- A namespace starts with an empty queue. -/
theorem chronicle_of_start {o : Options} {x x' : World φ μ} (hstart : start o x = (.ok v, x')) :
    ∃ es, Chronicle es v.detached v.background := by
  have hempty : Chronicle [] ({}) { hook := o.hook } :=
    ⟨Detached.orderly_nil, rfl, by simp, by simp, by simp, by simp⟩
  suffices hpasses : ∃ links y, Passes (fresh o links y) v by
    obtain ⟨links, y, hpasses⟩ := hpasses
    exact hpasses.chronicle hempty
  unfold start at hstart
  split at hstart
  · cases hstart
  · rename_i records t _
    refine ⟨.ofRecords records, { x with host := t.1, map := t.2 }, ?_⟩
    unfold enter at hstart
    split at hstart
    · cases hstart
    · rename_i p _
      split at hstart
      · cases hstart
        exact .refl
      · have hcall := stays_iff.1 (passes_call (.createDirectory p true))
          (fresh o (.ofRecords records) { x with host := t.1, map := t.2 })
        split at hstart
        · cases hstart
        · rename_i hrun
          rw [hrun] at hcall
          cases hstart
          refine trans_of Passes hcall ?_
          exact .aside rfl rfl

/-- A write that is not meant any more leaves everything behind the namespace alone. -/
theorem world_finished {p : Path} {offset : Nat}
    (hwork : j.work = .write p generation offset data) (hstale : v.detached.isCurrent p generation = false)
    (rest : List (Job Work)) : (v.finished j rest).world = v.world := by
  simp [finished, hwork, perform, hstale]

end Namespaces

/-- A file. -/
def stone : Path := ⟨[⟨"stone", by decide⟩]⟩

/-- A write to it comes and goes, then two come, and in between everything is invalidated. -/
def carving : List Detached.Event :=
  [.enter ⟨1, stone⟩, .check ⟨1, stone⟩, .finish ⟨1, stone⟩, .enter ⟨2, stone⟩, .invalidate .root, .enter ⟨3, stone⟩]

/-- The file is made, a byte for it is queued, and for now no job is done. -/
def chipping : List Event :=
  [.use (.openAt none "stone" .createFile (some "a")), .use (.writeDetached "a" [97] 0), .pace [0, 0, 0]]

/-- The write that waits. -/
def chip : Job Work := ⟨1, "detached write /stone", false, .write stone 0 0 [97]⟩

/-- A namespace with a link on record in a directory that is not there. -/
def overgrown : Vfs Memory Records :=
  fresh {} ⟨Table.empty.insert ⟨[⟨"wall", by decide⟩, ⟨"ivy", by decide⟩]⟩ "t"⟩ ⟨{}, {}, .ofList [("wall/ivy", "t")]⟩

/-- A file of another directory. -/
def ivy : Path := ⟨[⟨"gate", by decide⟩, ⟨"ivy", by decide⟩]⟩

/-- The file is made. Its directory is renamed and renamed back, and has the link. Then a byte is queued for it. -/
def climbing : List Event :=
  [.use (.openAt none "/gate/ivy" .createFile (some "a")), .use (.renameAt none "/gate" none "/wall"),
    .use (.renameAt none "/wall" none "/gate"), .work 2, .use (.writeDetached "a" [97] 0)]

/-- An operation ends well, and a byte that was queued before it for a file is written after it. -/
def WrittenAfter (p : Path) (op : Operation) (s : Session Memory Records) : Prop :=
  s.space.works = [.write p 0 0 [97]] ∧ (op.run s).1.isOk = true ∧
    (op.run s).2.space.world.files.content? p = some (.file []) ∧
    (op.run s).2.space.drain.world.files.content? p = some (.file [97])

instance (p : Path) (op : Operation) (s : Session Memory Records) : Decidable (WrittenAfter p op s) :=
  inferInstanceAs (Decidable (_ ∧ _))

end Filespace.Vfs
