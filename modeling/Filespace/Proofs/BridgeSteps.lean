import Filespace.Bridge
import Mathlib.Data.List.Nodup

/-!
# Runs of the callers and the helper

A `Step` is one thing that a caller or the helper does, with a `Note` of what it was. The steps of a run come in any order
(`Runs`): a caller that makes no call may start one, the helper may take, do and answer requests or drop any of them, and
the queue may be closed. What happened is read off the notes: the calls that were started (`starts`), the requests that
entered the queue (`entries`), and the work that was done (`executions`).
-/

namespace Filespace.Bridge

variable {σ ρ α : Type} {exec : ρ → σ → Outcome α × σ} {b b' : Bridge σ ρ α} {c : Nat} {p : Pending ρ} {o : Outcome α}

/-! ### What the functions do -/

@[simp] theorem clients_updateClient (b : Bridge σ ρ α) (c : Nat) (f : Client ρ α → Client ρ α) :
    (b.updateClient c f).clients = b.clients.modify c f := rfl

@[simp] theorem store_updateClient (b : Bridge σ ρ α) (c : Nat) (f : Client ρ α → Client ρ α) :
    (b.updateClient c f).store = b.store := rfl

@[simp] theorem depth_updateClient (b : Bridge σ ρ α) (c : Nat) (f : Client ρ α → Client ρ α) :
    (b.updateClient c f).depth = b.depth := rfl

@[simp] theorem queue_updateClient (b : Bridge σ ρ α) (c : Nat) (f : Client ρ α → Client ρ α) :
    (b.updateClient c f).queue = b.queue := rfl

@[simp] theorem serving_updateClient (b : Bridge σ ρ α) (c : Nat) (f : Client ρ α → Client ρ α) :
    (b.updateClient c f).serving = b.serving := rfl

@[simp] theorem clients_deliver (b : Bridge σ ρ α) (p : Pending ρ) (o : Outcome α) :
    (b.deliver p o).clients = b.clients.modify p.client fun cl => { cl with slot := cl.slot.deliver p.id o } := rfl

theorem connect_eq_ok (h : b.connect = .ok (c, b')) :
    c = b.clients.length ∧ b' = { b with clients := b.clients ++ [{}] } := by
  unfold connect at h
  split at h
  · simp only [Except.ok.injEq, Prod.mk.injEq] at h
    exact ⟨h.1.symm, h.2.symm⟩
  · simp at h

theorem sent?_eq_some_iff :
    b.sent? c = some p ↔ ∃ client, b.clients[c]? = some client ∧ client.stage = .sending p := by
  unfold sent?
  rw [Option.bind_eq_some_iff]
  refine exists_congr fun client => and_congr_right fun _ => ?_
  unfold Client.sent?
  cases client.stage <;> simp

theorem submit_eq_ok_iff {request : ρ} :
    b.submit c request = (.ok p, b') ↔ ∃ client, b.clients[c]? = some client ∧ client.slot.awaiting = none ∧
      p = ⟨c, client.lastId + 1, request⟩ ∧
      b' = b.updateClient c fun _ => ⟨⟨some p.id, none⟩, p.id, .sending p⟩ := by
  unfold submit
  cases b.clients[c]? with
  | none => simp
  | some client =>
    cases hw : client.slot.awaiting with
    | some other => simp [hw]
    | none =>
      simp only [hw, Prod.mk.injEq, Except.ok.injEq, Option.some.injEq, exists_eq_left', true_and]
      constructor
      · intro h
        exact ⟨h.1.symm, by rw [← h.1, ← h.2]⟩
      · intro h
        exact ⟨h.1.symm, by rw [h.2, h.1]⟩

theorem enter_eq_some_iff :
    b.enter c = some (p, b') ↔ (∃ client, b.clients[c]? = some client ∧ client.stage = .sending p) ∧ b.running = true ∧
      b.queue.length < b.depth ∧
      b' = { b.updateClient c fun cl => { cl with stage := .waiting p.id } with queue := b.queue ++ [p] } := by
  rw [← sent?_eq_some_iff]
  unfold enter hasRoom
  cases b.sent? c with
  | none => simp
  | some q =>
    by_cases hopen : (b.running && decide (b.queue.length < b.depth)) = true
    · simp only [hopen, if_true, Option.some.injEq, Prod.mk.injEq]
      simp only [Bool.and_eq_true, decide_eq_true_eq] at hopen
      constructor
      · intro h
        exact ⟨h.1, hopen.1, hopen.2, by rw [← h.2, h.1]⟩
      · intro h
        exact ⟨h.1, by rw [h.2.2.2, h.1]⟩
    · simp only [hopen, if_false, reduceCtorEq, false_iff]
      intro h
      simp [h.2.1, h.2.2.1] at hopen

theorem refuse_eq_some_iff :
    b.refuse c = some (p, b') ↔ (∃ client, b.clients[c]? = some client ∧ client.stage = .sending p) ∧ b.running = false ∧
      b' = b.updateClient c fun cl => { cl with slot := {}, stage := .idle } := by
  rw [← sent?_eq_some_iff]
  unfold refuse
  cases b.sent? c <;> cases b.running <;> simp [eq_comm]

theorem collect_eq_some_iff :
    b.collect c = (some o, b') ↔ ∃ client id, b.clients[c]? = some client ∧ client.stage = .waiting id ∧
      client.slot.response = some (id, o) ∧
      b' = b.updateClient c fun cl => { cl with slot := {}, stage := .idle } := by
  unfold collect
  cases b.clients[c]? with
  | none => simp
  | some client =>
    cases hst : client.stage with
    | idle | sending => simp [hst]
    | waiting id =>
      rcases hr : client.slot.response with _ | ⟨answered, outcome⟩
      · simp [hst, hr]
      · by_cases h : answered = id
        · simp [hst, hr, h, eq_comm]
        · simp [hst, hr, h]

/-- A caller that finds no reply throws away what it found. -/
theorem collect_eq_none (h : b.collect c = (none, b')) :
    b' = b ∨ (∃ client id answered o, b.clients[c]? = some client ∧ client.stage = .waiting id ∧
      client.slot.response = some (answered, o) ∧ answered ≠ id) ∧
      b' = b.updateClient c fun cl => { cl with slot := { cl.slot with response := none } } := by
  unfold collect at h
  split at h
  · exact .inl (congrArg Prod.snd h).symm
  · rename_i client hc
    split at h
    · rename_i id answered o hst hresponse
      split at h
      · simp at h
      · rename_i hne
        exact .inr ⟨⟨client, id, answered, o, hc, hst, hresponse, hne⟩, (congrArg Prod.snd h).symm⟩
    · exact .inl (congrArg Prod.snd h).symm

theorem take_eq_some_iff :
    b.take = some (p, b') ↔ b.serving = none ∧ ∃ rest, b.queue = p :: rest ∧
      b' = { b with serving := some ⟨p, none⟩, queue := rest } := by
  unfold take
  cases b.serving with
  | some s => simp
  | none =>
    cases b.queue with
    | nil => simp
    | cons q rest =>
      simp only [Option.some.injEq, Prod.mk.injEq, List.cons.injEq, true_and]
      constructor
      · intro h
        exact ⟨rest, ⟨h.1, rfl⟩, by rw [← h.2, h.1]⟩
      · intro h
        obtain ⟨rest', ⟨rfl, rfl⟩, rfl⟩ := h
        exact ⟨rfl, rfl⟩

theorem work_eq_some_iff :
    b.work exec = some ((p, o), b') ↔ b.serving = some ⟨p, none⟩ ∧ o = (exec p.request b.store).1 ∧
      b' = { b with store := (exec p.request b.store).2, serving := some ⟨p, some o⟩ } := by
  unfold work
  cases b.serving with
  | none => simp
  | some s =>
    obtain ⟨q, outcome⟩ := s
    cases outcome with
    | some _ => simp
    | none =>
      simp only [Option.some.injEq, Prod.mk.injEq, Service.mk.injEq, and_true]
      constructor
      · intro h
        obtain ⟨⟨rfl, rfl⟩, rfl⟩ := h
        exact ⟨rfl, rfl, rfl⟩
      · intro h
        obtain ⟨rfl, rfl, rfl⟩ := h
        exact ⟨⟨rfl, rfl⟩, rfl⟩

theorem answer_eq_some_iff :
    b.answer = some (p, b') ↔ ∃ o, b.serving = some ⟨p, some o⟩ ∧ b' = ({ b with serving := none }).deliver p o := by
  unfold answer
  cases b.serving with
  | none => simp
  | some s =>
    obtain ⟨q, outcome⟩ := s
    cases outcome with
    | none => simp
    | some o =>
      simp only [Option.some.injEq, Prod.mk.injEq, Service.mk.injEq]
      constructor
      · intro h
        exact ⟨o, ⟨h.1, rfl⟩, by rw [← h.2, h.1]⟩
      · intro h
        obtain ⟨o', ⟨rfl, rfl⟩, rfl⟩ := h
        exact ⟨rfl, rfl⟩

/-! ### Steps and runs -/

/-- What is noted of a step. -/
inductive Note (ρ α : Type) where
  | joined
  /-- A call began. -/
  | started (p : Pending ρ)
  | entered (p : Pending ρ)
  /-- A call ended because the queue was closed. -/
  | refused (p : Pending ρ)
  | taken (p : Pending ρ)
  | executed (p : Pending ρ) (outcome : Outcome α)
  | answered (p : Pending ρ)
  | dropped (p : Pending ρ)
  /-- A caller found no reply. -/
  | looked
  /-- A call ended with a reply. -/
  | returned (c id : Nat) (outcome : Outcome α)
  | closed

/-- One step of a caller or of the helper. -/
inductive Step (exec : ρ → σ → Outcome α × σ) (b : Bridge σ ρ α) : Note ρ α → Bridge σ ρ α → Prop
  | joined {c : Nat} {b' : Bridge σ ρ α} (h : b.connect = .ok (c, b')) : Step exec b .joined b'
  | started {c : Nat} {client : Client ρ α} {request : ρ} {p : Pending ρ} {b' : Bridge σ ρ α}
      (hc : b.clients[c]? = some client) (hidle : client.stage = .idle) (h : b.submit c request = (.ok p, b')) :
      Step exec b (.started p) b'
  | entered {c : Nat} {p : Pending ρ} {b' : Bridge σ ρ α} (h : b.enter c = some (p, b')) : Step exec b (.entered p) b'
  | refused {c : Nat} {p : Pending ρ} {b' : Bridge σ ρ α} (h : b.refuse c = some (p, b')) : Step exec b (.refused p) b'
  | taken {p : Pending ρ} {b' : Bridge σ ρ α} (h : b.take = some (p, b')) : Step exec b (.taken p) b'
  | executed {p : Pending ρ} {o : Outcome α} {b' : Bridge σ ρ α} (h : b.work exec = some ((p, o), b')) :
      Step exec b (.executed p o) b'
  | answered {p : Pending ρ} {b' : Bridge σ ρ α} (h : b.answer = some (p, b')) : Step exec b (.answered p) b'
  | lost {i : Nat} {p : Pending ρ} {b' : Bridge σ ρ α} (h : b.lose i = some (p, b')) : Step exec b (.dropped p) b'
  | abandoned {p : Pending ρ} {b' : Bridge σ ρ α} (h : b.abandon = some (p, b')) : Step exec b (.dropped p) b'
  | looked {c : Nat} {b' : Bridge σ ρ α} (h : b.collect c = (none, b')) : Step exec b .looked b'
  | returned {c id : Nat} {client : Client ρ α} {o : Outcome α} {b' : Bridge σ ρ α} (hc : b.clients[c]? = some client)
      (hwait : client.stage = .waiting id) (h : b.collect c = (some o, b')) : Step exec b (.returned c id o) b'
  | closed : Step exec b .closed b.close

/-- A run, with the notes of its steps, first to last. -/
inductive Runs (exec : ρ → σ → Outcome α × σ) (b : Bridge σ ρ α) : List (Note ρ α) → Bridge σ ρ α → Prop
  | nil : Runs exec b [] b
  | snoc {tr : List (Note ρ α)} {b' b'' : Bridge σ ρ α} {note : Note ρ α} (h : Runs exec b tr b')
      (hs : Step exec b' note b'') : Runs exec b (tr ++ [note]) b''

variable {tr tr' : List (Note ρ α)} {note : Note ρ α} {b'' : Bridge σ ρ α}

theorem Step.runs (h : Step exec b note b') : Runs exec b [note] b' := .snoc .nil h

theorem Runs.append (h : Runs exec b tr b') (h' : Runs exec b' tr' b'') : Runs exec b (tr ++ tr') b'' := by
  induction h' with
  | nil => simpa using h
  | snoc _ hs ih =>
    rw [← List.append_assoc]
    exact .snoc ih hs

/-! ### Runs of one party -/

theorem runs_serve (h : b.serve exec = some b') : ∃ tr, Runs exec b tr b' := by
  simp only [serve, Option.bind_eq_bind, Option.bind_eq_some_iff, Option.pure_def, Option.some.injEq] at h
  obtain ⟨⟨p, b₁⟩, htake, ⟨⟨q, o⟩, b₂⟩, hwork, ⟨r, b₃⟩, hanswer, rfl⟩ := h
  exact ⟨_, (Step.taken htake).runs.snoc (.executed hwork) |>.snoc (.answered hanswer)⟩

theorem runs_serveAll (exec : ρ → σ → Outcome α × σ) (b : Bridge σ ρ α) : ∃ tr, Runs exec b tr (b.serveAll exec) := by
  unfold serveAll
  induction b.queue.length with
  | zero => exact ⟨[], .nil⟩
  | succ n ih =>
    obtain ⟨tr, hrun⟩ := ih
    rw [Nat.repeat]
    cases hserve : (n.repeat (fun b => (b.serve exec).getD b) b).serve exec with
    | none => exact ⟨tr, hrun⟩
    | some b' =>
      obtain ⟨tr', hrun'⟩ := runs_serve hserve
      exact ⟨tr ++ tr', hrun.append hrun'⟩

theorem runs_shutdown (exec : ρ → σ → Outcome α × σ) (b : Bridge σ ρ α) : ∃ tr, Runs exec b tr (b.shutdown exec) := by
  obtain ⟨tr, hrun⟩ := runs_serveAll exec b.close
  exact ⟨_, Step.closed.runs.append hrun⟩

/-- A call of a caller that makes no other one is a run. -/
theorem runs_call (exec : ρ → σ → Outcome α × σ) (b : Bridge σ ρ α) (c : Nat) (request : ρ)
    (hidle : ∀ client, b.clients[c]? = some client → client.stage = .idle ∧ client.slot = {}) :
    ∃ tr, Runs exec b tr (b.call exec c request).2 := by
  cases hc : b.clients[c]? with
  | none => exact ⟨[], by simp [call, submit, hc, Runs.nil]⟩
  | some client =>
    obtain ⟨hst, hslot⟩ := hidle client hc
    obtain ⟨p, b₁, hsubmit⟩ : ∃ p b₁, b.submit c request = (.ok p, b₁) :=
      ⟨_, _, submit_eq_ok_iff.2 ⟨client, hc, by rw [hslot], rfl, rfl⟩⟩
    obtain ⟨tr, hrun⟩ := runs_serveAll exec b₁
    have hsent := (Step.started hc hst hsubmit).runs.append hrun
    simp only [call, hsubmit]
    rcases hrefuse : (b₁.serveAll exec).refuse c with _ | ⟨q, b₂⟩
    · rcases henter : (b₁.serveAll exec).enter c with _ | ⟨q, b₂⟩
      · exact ⟨_, hsent⟩
      · obtain ⟨tr', hrun'⟩ := runs_serveAll exec b₂
        have hserved := (hsent.snoc (.entered henter)).append hrun'
        rcases hcollect : (b₂.serveAll exec).collect c with ⟨_ | o, b₃⟩ <;> simp only [hcollect]
        · exact ⟨_, hserved.snoc (.looked hcollect)⟩
        · obtain ⟨client', id, hc', hwait, -⟩ := collect_eq_some_iff.1 hcollect
          exact ⟨_, hserved.snoc (.returned hc' hwait hcollect)⟩
    · exact ⟨_, hsent.snoc (.refused hrefuse)⟩

/-! ### What the notes say -/

/-- The call that a step began. -/
def Note.start? : Note ρ α → Option (Pending ρ)
  | started p => some p
  | _ => none

/-- The request that came into the queue. -/
def Note.entered? : Note ρ α → Option (Pending ρ)
  | entered p => some p
  | _ => none

/-- The work that was done, with its outcome. -/
def Note.execution? : Note ρ α → Option (Pending ρ × Outcome α)
  | executed p o => some (p, o)
  | _ => none

/-- The call that ended, by its caller and its number, and what it returned. -/
def Note.result? : Note ρ α → Option (Nat × Nat × Outcome α)
  | returned c id o => some (c, id, o)
  | refused p => some (p.client, p.id, .error .closed)
  | _ => none

def starts (tr : List (Note ρ α)) : List (Pending ρ) := tr.filterMap Note.start?

def entries (tr : List (Note ρ α)) : List (Pending ρ) := tr.filterMap Note.entered?

def executions (tr : List (Note ρ α)) : List (Pending ρ × Outcome α) := tr.filterMap Note.execution?

@[simp] theorem starts_snoc (tr : List (Note ρ α)) (note : Note ρ α) :
    starts (tr ++ [note]) = starts tr ++ note.start?.toList := by
  cases h : note.start? <;> simp [starts, h]

@[simp] theorem entries_snoc (tr : List (Note ρ α)) (note : Note ρ α) :
    entries (tr ++ [note]) = entries tr ++ note.entered?.toList := by
  cases h : note.entered? <;> simp [entries, h]

@[simp] theorem executions_snoc (tr : List (Note ρ α)) (note : Note ρ α) :
    executions (tr ++ [note]) = executions tr ++ note.execution?.toList := by
  cases h : note.execution? <;> simp [executions, h]

/-- Requests done one after another, with their outcomes. -/
def perform (exec : ρ → σ → Outcome α × σ) : List ρ → σ → List (Outcome α) × σ
  | [], s => ([], s)
  | r :: rs, s => ((exec r s).1 :: (perform exec rs (exec r s).2).1, (perform exec rs (exec r s).2).2)

theorem perform_snoc {rs : List ρ} {s t : σ} {os : List (Outcome α)} (h : perform exec rs s = (os, t)) (r : ρ) :
    perform exec (rs ++ [r]) s = (os ++ [(exec r t).1], (exec r t).2) := by
  induction rs generalizing s os with
  | nil =>
    simp only [perform, Prod.mk.injEq] at h
    simp [perform, ← h.1, ← h.2]
  | cons r' rs ih =>
    simp only [perform, Prod.mk.injEq] at h
    have hrest := ih (Prod.ext rfl h.2)
    simp only [List.cons_append, perform, hrest, ← h.1]

/-! ### Requests in the hands of the helper -/

/-- The requests that the helper has to answer. -/
def accepted (b : Bridge σ ρ α) : List (Pending ρ) :=
  match b.serving with
  | some s => s.pending :: b.queue
  | none => b.queue

/-- The requests that it has to work on. -/
def todo (b : Bridge σ ρ α) : List (Pending ρ) :=
  match b.serving with
  | some ⟨p, none⟩ => p :: b.queue
  | _ => b.queue

/-- The requests of a caller that the helper has to answer. -/
def held (b : Bridge σ ρ α) (c : Nat) : List (Pending ρ) := b.accepted.filter fun p => p.client = c

theorem todo_append (hserving : b'.serving = b.serving) (hqueue : b'.queue = b.queue ++ [p]) :
    b'.todo = b.todo ++ [p] := by
  rcases h : b.serving with _ | ⟨q, _ | o⟩ <;> simp [todo, hserving, hqueue, h]

theorem accepted_append (hserving : b'.serving = b.serving) (hqueue : b'.queue = b.queue ++ [p]) :
    b'.accepted = b.accepted ++ [p] := by
  cases h : b.serving <;> simp [accepted, hserving, hqueue, h]

/-- A request leaves the hands of the helper with an outcome. -/
structure Settles (b : Bridge σ ρ α) (p : Pending ρ) (o : Outcome α) (b' : Bridge σ ρ α) : Prop where
  accepted : ∃ before after, b.accepted = before ++ p :: after ∧ b'.accepted = before ++ after
  clients : b'.clients = b.clients.modify p.client fun cl => { cl with slot := cl.slot.deliver p.id o }
  todo : b'.todo.Sublist b.todo
  serving : b'.serving = none ∨ b'.serving = b.serving
  queue : b'.queue.length ≤ b.queue.length
  store : b'.store = b.store
  depth : b'.depth = b.depth

theorem settles_served {s : Service ρ α} (hs : b.serving = some s) (o : Outcome α) :
    Settles b s.pending o (({ b with serving := none }).deliver s.pending o) := by
  constructor
  case accepted => exact ⟨[], b.queue, by simp [Bridge.accepted, hs], rfl⟩
  case todo =>
    obtain ⟨p, outcome⟩ := s
    cases outcome <;> simp [Bridge.todo, hs, deliver]
  all_goals simp [deliver]

theorem answer_settles (h : b.answer = some (p, b')) : ∃ o, b.serving = some ⟨p, some o⟩ ∧ Settles b p o b' := by
  obtain ⟨o, hs, rfl⟩ := answer_eq_some_iff.1 h
  exact ⟨o, hs, settles_served hs o⟩

theorem abandon_settles (h : b.abandon = some (p, b')) : Settles b p (.error .dropped) b' := by
  unfold abandon at h
  cases hs : b.serving with
  | none => simp [hs] at h
  | some s =>
    simp only [hs, Option.some.injEq, Prod.mk.injEq] at h
    obtain ⟨rfl, rfl⟩ := h
    exact settles_served hs _

theorem lose_settles {i : Nat} (h : b.lose i = some (p, b')) : Settles b p (.error .dropped) b' := by
  unfold lose at h
  cases hp : b.queue[i]? with
  | none => simp [hp] at h
  | some q =>
    simp only [hp, Option.some.injEq, Prod.mk.injEq] at h
    obtain ⟨rfl, rfl⟩ := h
    obtain ⟨before, after, hqueue, herase⟩ : ∃ before after, b.queue = before ++ q :: after ∧
        b.queue.eraseIdx i = before ++ after := by
      obtain ⟨hi, rfl⟩ := List.getElem?_eq_some_iff.1 hp
      refine ⟨b.queue.take i, b.queue.drop (i + 1), ?_, List.eraseIdx_eq_take_drop_succ _ _⟩
      rw [← List.drop_eq_getElem_cons hi, List.take_append_drop]
    constructor
    case accepted =>
      cases hs : b.serving with
      | none =>
        refine ⟨before, after, ?_, ?_⟩
        · simp [Bridge.accepted, hs, hqueue]
        · simp [Bridge.accepted, deliver, herase]
      | some s =>
        refine ⟨s.pending :: before, after, ?_, ?_⟩
        · simp [Bridge.accepted, hs, hqueue]
        · simp [Bridge.accepted, deliver, herase]
    case todo =>
      rcases hs : b.serving with _ | ⟨p, _ | o⟩ <;>
        simp [Bridge.todo, deliver, hs, List.eraseIdx_sublist]
    case queue => simp [deliver, List.length_eraseIdx_le]
    all_goals simp [deliver]

end Filespace.Bridge
