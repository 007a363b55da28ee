import Filespace.Proofs.BridgeSteps

/-!
# What every run of the callers and the helper keeps

In every run the helper does the work of requests one after another, in the order in which they came into the queue
(`Ledger`); the numbers of requests tell them apart (`Numbering`); and each caller is in one of four places, with at most
one request of it in the hands of the helper (`Caller`). Every step keeps all three (`Sound.step`), and so what a call
returns is the outcome of its own request, or word that the request was dropped or refused (`Results`).
-/

namespace Filespace.Bridge

open Storage Note

variable {σ ρ α : Type} {exec : ρ → σ → Outcome α × σ} {s₀ : σ} {b b' : Bridge σ ρ α} {tr : List (Note ρ α)}
  {note : Note ρ α} {c id : Nat} {p q : Pending ρ} {o : Outcome α} {l : List (Pending ρ)} {client : Client ρ α}

/-! ### The work of the helper -/

/-- What the helper has done and what it has to do, by the notes of a run. -/
structure Ledger (exec : ρ → σ → Outcome α × σ) (s₀ : σ) (tr : List (Note ρ α)) (b : Bridge σ ρ α) : Prop where
  serial : perform exec ((executions tr).map fun x => x.1.request) s₀ = ((executions tr).map Prod.snd, b.store)
  order : ((executions tr).map Prod.fst ++ b.todo).Sublist (entries tr)
  done : ∀ p o, b.serving = some ⟨p, some o⟩ → (p, o) ∈ executions tr
  room : b.queue.length ≤ b.depth
  depth : 0 < b.depth

/-- What the helper has to answer came through the queue. -/
theorem Ledger.mem_entries (h : Ledger exec s₀ tr b) (hp : p ∈ b.accepted) : p ∈ entries tr := by
  have hsub := h.order.subset
  rcases hs : b.serving with _ | ⟨q, _ | o⟩
  · simp only [accepted, hs] at hp
    exact hsub (by simp [todo, hs, hp])
  · simp only [accepted, hs] at hp
    exact hsub (by simp [todo, hs, List.mem_cons.1 hp])
  · simp only [accepted, hs, List.mem_cons] at hp
    rcases hp with rfl | hp
    · exact hsub (List.mem_append_left _ (List.mem_map.2 ⟨_, h.done p o hs, rfl⟩))
    · exact hsub (by simp [todo, hs, hp])

/-- A step that is not the helper's. -/
theorem Ledger.frame (h : Ledger exec s₀ tr b) (hentry : note.entered? = none) (hexec : note.execution? = none)
    (hstore : b'.store = b.store) (hserving : b'.serving = b.serving) (hqueue : b'.queue = b.queue)
    (hdepth : b'.depth = b.depth) : Ledger exec s₀ (tr ++ [note]) b' := by
  have htodo : b'.todo = b.todo := by simp only [todo, hserving, hqueue]
  constructor
  case serial => simpa [hexec, hstore] using h.serial
  case order => simpa [hexec, hentry, htodo] using h.order
  case done => simpa [hexec, hserving] using h.done
  case room => rw [hqueue, hdepth]; exact h.room
  case depth => rw [hdepth]; exact h.depth

theorem Ledger.entered (h : Ledger exec s₀ tr b) (hroom : b.queue.length < b.depth) (hstore : b'.store = b.store)
    (hserving : b'.serving = b.serving) (hqueue : b'.queue = b.queue ++ [p]) (hdepth : b'.depth = b.depth) :
    Ledger exec s₀ (tr ++ [.entered p]) b' := by
  constructor
  case serial => simpa [execution?, hstore] using h.serial
  case order =>
    have happend := h.order.append (List.Sublist.refl [p])
    simpa [execution?, entered?, todo_append hserving hqueue] using happend
  case done => simpa [execution?, hserving] using h.done
  case room =>
    rw [hqueue, List.length_append, List.length_singleton]
    omega
  case depth => rw [hdepth]; exact h.depth

theorem Ledger.settled (h : Ledger exec s₀ tr b) (hs : Settles b p o b') (hentry : note.entered? = none)
    (hexec : note.execution? = none) : Ledger exec s₀ (tr ++ [note]) b' := by
  constructor
  case serial => simpa [hexec, hs.store] using h.serial
  case order =>
    simp only [executions_snoc, entries_snoc, hexec, hentry, Option.toList_none, List.append_nil]
    exact (List.Sublist.append_left hs.todo _).trans h.order
  case done =>
    intro q r hq
    rcases hs.serving with hnone | hsame
    · simp [hnone] at hq
    · simpa [hexec] using h.done q r (hsame ▸ hq)
  case room =>
    rw [hs.depth]
    exact Nat.le_trans hs.queue h.room
  case depth => rw [hs.depth]; exact h.depth

theorem Ledger.step (h : Ledger exec s₀ tr b) (hs : Step exec b note b') : Ledger exec s₀ (tr ++ [note]) b' := by
  cases hs with
  | joined hj =>
    obtain ⟨-, rfl⟩ := connect_eq_ok hj
    exact h.frame rfl rfl rfl rfl rfl rfl
  | started _ _ hsub =>
    obtain ⟨_, -, -, -, rfl⟩ := submit_eq_ok_iff.1 hsub
    exact h.frame rfl rfl rfl rfl rfl rfl
  | entered he =>
    obtain ⟨-, -, hroom, rfl⟩ := enter_eq_some_iff.1 he
    exact h.entered hroom rfl rfl rfl rfl
  | refused hr =>
    obtain ⟨-, -, rfl⟩ := refuse_eq_some_iff.1 hr
    exact h.frame rfl rfl rfl rfl rfl rfl
  | taken ht =>
    obtain ⟨hnone, rest, hq, rfl⟩ := take_eq_some_iff.1 ht
    constructor
    case serial => simpa [execution?] using h.serial
    case order => simpa [execution?, entered?, todo, hnone, hq] using h.order
    case done => simp
    case room =>
      have := h.room
      simp only [hq, List.length_cons] at this ⊢
      omega
    case depth => exact h.depth
  | @executed p o _ hw =>
    obtain ⟨hserving, ho, rfl⟩ := work_eq_some_iff.1 hw
    constructor
    case serial =>
      have := perform_snoc h.serial p.request
      simpa [execution?, ho] using this
    case order => simpa [execution?, entered?, todo, hserving] using h.order
    case done =>
      intro q r hq
      simp only [Option.some.injEq, Service.mk.injEq] at hq
      simp [execution?, hq.1, hq.2]
    case room => exact h.room
    case depth => exact h.depth
  | answered ha =>
    obtain ⟨o, -, hsettles⟩ := answer_settles ha
    exact h.settled hsettles rfl rfl
  | lost hl => exact h.settled (lose_settles hl) rfl rfl
  | abandoned ha => exact h.settled (abandon_settles ha) rfl rfl
  | looked hl =>
    rcases collect_eq_none hl with rfl | ⟨-, rfl⟩
    · exact h.frame rfl rfl rfl rfl rfl rfl
    · exact h.frame rfl rfl rfl rfl rfl rfl
  | returned _ _ hr =>
    obtain ⟨_, _, -, -, -, rfl⟩ := collect_eq_some_iff.1 hr
    exact h.frame rfl rfl rfl rfl rfl rfl
  | closed => exact h.frame rfl rfl rfl rfl rfl rfl

/-! ### Numbers -/

/-- The caller and the number of a request. -/
def Pending.key (p : Pending ρ) : Nat × Nat := (p.client, p.id)

/-- Requests are told apart by their callers and their numbers. -/
structure Numbering (tr : List (Note ρ α)) (b : Bridge σ ρ α) : Prop where
  fresh : ((starts tr).map Pending.key).Nodup
  known : ∀ p ∈ starts tr, ∃ client, b.clients[p.client]? = some client ∧ p.id ≤ client.lastId
  entered : ∀ p ∈ entries tr, p ∈ starts tr
  refused : ∀ p, refused p ∈ tr → p ∈ starts tr ∧ p ∉ entries tr
  once : (entries tr).Nodup

/-- Callers stay, and their numbers only grow. -/
def Grows (b b' : Bridge σ ρ α) : Prop :=
  ∀ (c : Nat) (client : Client ρ α), b.clients[c]? = some client →
    ∃ client' : Client ρ α, b'.clients[c]? = some client' ∧ client.lastId ≤ client'.lastId

theorem grows_of_eq (h : b'.clients = b.clients) : Grows b b' :=
  fun _ client hc => ⟨client, by rw [h, hc], Nat.le_refl _⟩

theorem grows_modify {f : Client ρ α → Client ρ α} (hclients : b'.clients = b.clients.modify c f)
    (hf : ∀ client, b.clients[c]? = some client → client.lastId ≤ (f client).lastId) : Grows b b' := by
  intro c' client hc
  by_cases h : c = c'
  · subst h
    exact ⟨f client, by simp [hclients, hc], hf client hc⟩
  · exact ⟨client, by simp [hclients, hc, h], Nat.le_refl _⟩

theorem Step.grows (hs : Step exec b note b') : Grows b b' := by
  cases hs with
  | joined h =>
    obtain ⟨-, rfl⟩ := connect_eq_ok h
    intro c client hc
    exact ⟨client, by simp [List.getElem?_append_left (List.getElem?_eq_some_iff.1 hc).1, hc], Nat.le_refl _⟩
  | started _ _ h =>
    obtain ⟨client, hc, -, rfl, rfl⟩ := submit_eq_ok_iff.1 h
    refine grows_modify rfl fun client' hc' => ?_
    rw [hc, Option.some.injEq] at hc'
    simp [hc']
  | entered h =>
    obtain ⟨-, -, -, rfl⟩ := enter_eq_some_iff.1 h
    exact grows_modify rfl fun _ _ => Nat.le_refl _
  | refused h =>
    obtain ⟨-, -, rfl⟩ := refuse_eq_some_iff.1 h
    exact grows_modify rfl fun _ _ => Nat.le_refl _
  | taken h =>
    obtain ⟨-, _, -, rfl⟩ := take_eq_some_iff.1 h
    exact grows_of_eq rfl
  | executed h =>
    obtain ⟨-, -, rfl⟩ := work_eq_some_iff.1 h
    exact grows_of_eq rfl
  | answered h =>
    obtain ⟨_, -, hsettles⟩ := answer_settles h
    exact grows_modify hsettles.clients fun _ _ => Nat.le_refl _
  | lost h => exact grows_modify (lose_settles h).clients fun _ _ => Nat.le_refl _
  | abandoned h => exact grows_modify (abandon_settles h).clients fun _ _ => Nat.le_refl _
  | looked h =>
    rcases collect_eq_none h with rfl | ⟨-, rfl⟩
    · exact grows_of_eq rfl
    · exact grows_modify rfl fun _ _ => Nat.le_refl _
  | returned _ _ h =>
    obtain ⟨_, _, -, -, -, rfl⟩ := collect_eq_some_iff.1 h
    exact grows_modify rfl fun _ _ => Nat.le_refl _
  | closed => exact grows_of_eq rfl

theorem Numbering.known_of_grows (h : Numbering tr b) (hgrows : Grows b b') (hp : p ∈ starts tr) :
    ∃ client, b'.clients[p.client]? = some client ∧ p.id ≤ client.lastId := by
  obtain ⟨client, hc, hid⟩ := h.known p hp
  obtain ⟨client', hc', hle⟩ := hgrows p.client client hc
  exact ⟨client', hc', Nat.le_trans hid hle⟩

/-- A step that starts no call and sends no request. -/
theorem Numbering.frame (h : Numbering tr b) (hgrows : Grows b b') (hstart : note.start? = none)
    (hentry : note.entered? = none) (hrefused : ∀ p, note ≠ .refused p) : Numbering (tr ++ [note]) b' := by
  constructor
  case fresh => simpa [hstart] using h.fresh
  case known =>
    intro p hp
    exact h.known_of_grows hgrows (by simpa [hstart] using hp)
  case entered => simpa [hstart, hentry] using h.entered
  case refused =>
    intro p hp
    have hp : Note.refused p ∈ tr := by simpa [Ne.symm (hrefused p)] using hp
    simpa [hstart, hentry] using h.refused p hp
  case once => simpa [hentry] using h.once

/-- A new call has a number above all others of its caller. -/
theorem Numbering.started (h : Numbering tr b) (hgrows : Grows b b') (hc : b.clients[p.client]? = some client)
    (hid : p.id = client.lastId + 1) {client' : Client ρ α} (hc' : b'.clients[p.client]? = some client')
    (hid' : client'.lastId = p.id) : Numbering (tr ++ [.started p]) b' := by
  have hnew : ∀ q ∈ starts tr, q.key ≠ p.key := by
    intro q hq hkey
    simp only [Pending.key, Prod.mk.injEq] at hkey
    obtain ⟨cl, hcl, hle⟩ := h.known q hq
    rw [hkey.1, hc, Option.some.injEq] at hcl
    subst hcl
    omega
  constructor
  case fresh =>
    simp only [starts_snoc, start?, Option.toList_some, List.map_append, List.map_singleton]
    rw [← List.concat_eq_append]
    refine h.fresh.concat ?_
    simpa using hnew
  case known =>
    intro q hq
    simp only [starts_snoc, start?, Option.toList_some, List.mem_append, List.mem_singleton] at hq
    rcases hq with hq | rfl
    · exact h.known_of_grows hgrows hq
    · exact ⟨client', hc', Nat.le_of_eq hid'.symm⟩
  case entered =>
    intro q hq
    simp only [entries_snoc, entered?, Option.toList_none, List.append_nil] at hq
    simp [h.entered q hq]
  case refused =>
    intro q hq
    have hq : Note.refused q ∈ tr := by simpa using hq
    have := h.refused q hq
    simp [entered?, this]
  case once => simpa [entered?] using h.once

/-- A request leaves its caller, for the queue or for nothing. -/
theorem Numbering.sent (h : Numbering tr b) (hgrows : Grows b b') (hp : p ∈ starts tr) (hnew : p ∉ entries tr)
    (hsent : Note.refused p ∉ tr) (hnote : note = .entered p ∨ note = .refused p) : Numbering (tr ++ [note]) b' := by
  have hstart : note.start? = none := by rcases hnote with rfl | rfl <;> rfl
  constructor
  case fresh => simpa [hstart] using h.fresh
  case known =>
    intro q hq
    exact h.known_of_grows hgrows (by simpa [hstart] using hq)
  case entered =>
    intro q hq
    rcases hnote with rfl | rfl
    · simp only [entries_snoc, entered?, Option.toList_some, List.mem_append, List.mem_singleton] at hq
      rcases hq with hq | rfl
      · simp [h.entered q hq]
      · simp [hp]
    · simpa [start?] using h.entered q (by simpa [entered?] using hq)
  case refused =>
    intro q hq
    rcases hnote with rfl | rfl
    · have hq : Note.refused q ∈ tr := by simpa using hq
      have hne : q ≠ p := fun e => hsent (e ▸ hq)
      have := h.refused q hq
      simp [entered?, this, hne]
    · simp only [List.mem_append, List.mem_singleton, refused.injEq] at hq
      rcases hq with hq | rfl
      · simpa [entered?, start?] using h.refused q hq
      · simp [entered?, hp, hnew]
  case once =>
    rcases hnote with rfl | rfl
    · simp only [entries_snoc, entered?, Option.toList_some]
      rw [← List.concat_eq_append]
      exact h.once.concat hnew
    · simpa [entered?] using h.once

/-! ### Callers -/

/-- Why a call may return an outcome: its request was done with that outcome, or was dropped. -/
def Justified (tr : List (Note ρ α)) (p : Pending ρ) (o : Outcome α) : Prop :=
  (p, o) ∈ executions tr ∨ o = .error .dropped ∧ dropped p ∈ tr

theorem Justified.snoc (h : Justified tr p o) (note : Note ρ α) : Justified (tr ++ [note]) p o := by
  rcases h with h | h
  · exact .inl (by simp [h])
  · exact .inr ⟨h.1, by simp [h.2]⟩

/-- Where a caller can be, with those of its requests that the helper has to answer. -/
inductive Caller (tr : List (Note ρ α)) (c : Nat) : List (Pending ρ) → Client ρ α → Prop
  | idle (lastId : Nat) : Caller tr c [] ⟨{}, lastId, .idle⟩
  | sending {p : Pending ρ} (hc : p.client = c) (hp : p ∈ starts tr) (hnew : p ∉ entries tr)
      (hsent : refused p ∉ tr) : Caller tr c [] ⟨⟨some p.id, none⟩, p.id, .sending p⟩
  | waiting {p : Pending ρ} (hc : p.client = c) (hp : p ∈ entries tr) :
      Caller tr c [p] ⟨⟨some p.id, none⟩, p.id, .waiting p.id⟩
  | served {p : Pending ρ} {o : Outcome α} (hc : p.client = c) (hp : p ∈ entries tr) (ho : Justified tr p o) :
      Caller tr c [] ⟨⟨some p.id, some (p.id, o)⟩, p.id, .waiting p.id⟩

/-- A step that does not send a request of the caller. -/
theorem Caller.snoc (h : Caller tr c l client)
    (hnote : ∀ q, note = .entered q ∨ note = .refused q → q.client ≠ c) : Caller (tr ++ [note]) c l client := by
  cases h with
  | idle lastId => exact .idle lastId
  | @sending p hc hp hnew hsent =>
    refine .sending hc (by simp [hp]) ?_ ?_
    · cases note with
      | entered q =>
        have hne : p ≠ q := fun e => hnote q (.inl rfl) (e ▸ hc)
        simp [entered?, hnew, hne]
      | _ => simpa [entered?] using hnew
    · cases note with
      | refused q =>
        have hne : p ≠ q := fun e => hnote q (.inr rfl) (e ▸ hc)
        simp [hsent, hne]
      | _ => simpa using hsent
  | waiting hc hp => exact .waiting hc (by simp [hp])
  | served hc hp ho => exact .served hc (by simp [hp]) (ho.snoc note)

section Caller

variable (h : Caller tr c l client)

include h

theorem Caller.of_idle (hst : client.stage = .idle) : l = [] ∧ client.slot = {} := by
  cases h <;> simp_all

theorem Caller.of_sending (hst : client.stage = .sending p) :
    l = [] ∧ p.client = c ∧ client = ⟨⟨some p.id, none⟩, p.id, .sending p⟩ ∧ p ∈ starts tr ∧ p ∉ entries tr ∧
      refused p ∉ tr := by
  cases h <;> simp_all

theorem Caller.awaiting_of_stage (hst : client.stage ≠ .idle) : client.slot.awaiting = some client.lastId := by
  cases h <;> simp_all

theorem Caller.awaiting_of_response (hresponse : client.slot.response = some (id, o)) : client.slot.awaiting = some id := by
  cases h <;> simp_all

theorem Caller.of_mem (hp : p ∈ l) :
    l = [p] ∧ p.client = c ∧ client = ⟨⟨some p.id, none⟩, p.id, .waiting p.id⟩ ∧ p ∈ entries tr := by
  cases h <;> simp_all

/-- A caller that waits finds its reply, or its request is with the helper. -/
theorem Caller.of_waiting (hst : client.stage = .waiting id) :
    client.lastId = id ∧ ∃ p ∈ entries tr, p.client = c ∧ p.id = id ∧
      (l = [p] ∧ client.slot.response = none ∨ l = [] ∧ ∃ o, client.slot.response = some (id, o) ∧ Justified tr p o) := by
  cases h with
  | idle | sending => simp at hst
  | @waiting p hc hp =>
    simp only [Stage.waiting.injEq] at hst
    exact ⟨hst, p, hp, hc, hst, .inl ⟨rfl, rfl⟩⟩
  | @served p o hc hp ho =>
    simp only [Stage.waiting.injEq] at hst
    exact ⟨hst, p, hp, hc, hst, .inr ⟨rfl, o, by rw [hst], ho⟩⟩

end Caller

/-- Every caller is in one of these places. -/
def Callers (tr : List (Note ρ α)) (b : Bridge σ ρ α) : Prop :=
  ∀ (c : Nat) (client : Client ρ α), b.clients[c]? = some client → Caller tr c (b.held c) client

theorem Callers.same (h : Callers tr b) (hclients : b'.clients = b.clients) (haccepted : b'.accepted = b.accepted)
    (hnote : ∀ q, note ≠ .entered q ∧ note ≠ .refused q) : Callers (tr ++ [note]) b' := by
  intro c client hc
  rw [held, haccepted]
  refine (h c client (hclients ▸ hc)).snoc fun q hq => ?_
  exact (hq.elim (hnote q).1 (hnote q).2).elim

/-- A step of one caller, or one that concerns one caller. -/
theorem Callers.modify (h : Callers tr b) {f : Client ρ α → Client ρ α} (hclients : b'.clients = b.clients.modify c f)
    (hothers : ∀ c', c' ≠ c → b'.held c' = b.held c')
    (hnote : ∀ q, note = .entered q ∨ note = .refused q → q.client = c)
    (hself : ∀ client, b.clients[c]? = some client → Caller (tr ++ [note]) c (b'.held c) (f client)) :
    Callers (tr ++ [note]) b' := by
  intro c' client hc'
  by_cases hcc : c' = c
  · subst hcc
    rw [hclients, List.getElem?_modify_eq, Option.map_eq_map, Option.map_eq_some_iff] at hc'
    obtain ⟨old, hold, rfl⟩ := hc'
    exact hself old hold
  · rw [hclients, List.getElem?_modify_ne _ _ (Ne.symm hcc)] at hc'
    rw [hothers c' hcc]
    exact (h c' client hc').snoc fun q hq e => hcc (e.symm.trans (hnote q hq))

/-- An outcome goes to the caller of its request, which waits for it. -/
theorem Callers.settled (h : Callers tr b) (hs : Settles b p o b') (ho : Justified (tr ++ [note]) p o)
    (hnote : ∀ q, note ≠ .entered q ∧ note ≠ .refused q) : Callers (tr ++ [note]) b' := by
  obtain ⟨before, after, haccepted, haccepted'⟩ := hs.accepted
  refine h.modify hs.clients ?_ (fun q hq => (hq.elim (hnote q).1 (hnote q).2).elim) ?_
  · intro c' hc'
    simp [held, haccepted, haccepted', Ne.symm hc']
  · intro client hc
    have hmem : p ∈ b.held p.client := by simp [held, haccepted]
    obtain ⟨hheld, -, rfl, hentry⟩ := (h p.client client hc).of_mem hmem
    -- It was the only request of the caller, so none is left.
    have hnone : b'.held p.client = [] := by
      simp only [held, haccepted, List.filter_append, List.filter_cons, decide_true, if_true] at hheld
      simp only [held, haccepted', List.filter_append]
      have hlength := congrArg List.length hheld
      simp only [List.length_append, List.length_cons, List.length_nil] at hlength
      rw [List.append_eq_nil_iff, ← List.length_eq_zero_iff, ← List.length_eq_zero_iff]
      omega
    rw [hnone]
    simpa [Slot.deliver] using Caller.served rfl (by simp [hentry]) ho

/-- Each step leaves every caller in one of these places. -/
theorem Callers.step (h : Callers tr b) (hledger : Ledger exec s₀ tr b) (hnumbers : Numbering tr b)
    (hs : Step exec b note b') : Callers (tr ++ [note]) b' := by
  cases hs with
  | joined hj =>
    obtain ⟨-, rfl⟩ := connect_eq_ok hj
    intro c client hc
    have hsnoc : ∀ q, (Note.joined : Note ρ α) = .entered q ∨ (Note.joined : Note ρ α) = .refused q → q.client ≠ c := by
      simp
    rw [List.getElem?_append] at hc
    split at hc
    · exact (h c client hc).snoc hsnoc
    · -- The new caller is the first with its place.
      have hheld : b.held c = [] := by
        rw [held, List.filter_eq_nil_iff]
        intro q hq
        obtain ⟨_, hcl, -⟩ := hnumbers.known q (hnumbers.entered q (hledger.mem_entries hq))
        have := (List.getElem?_eq_some_iff.1 hcl).1
        simp only [decide_eq_true_eq]
        omega
      obtain ⟨-, rfl⟩ : c - b.clients.length = 0 ∧ client = {} := by
        rw [List.getElem?_singleton] at hc
        split at hc <;> simp_all
      show Caller _ c (b.held c) _
      rw [hheld]
      exact .idle 0
  | @started c client request p _ hc hidle hsub =>
    obtain ⟨client', hc', -, hp, rfl⟩ := submit_eq_ok_iff.1 hsub
    obtain rfl : client = client' := Option.some.inj (hc.symm.trans hc')
    have hnew : p ∉ starts tr := by
      intro hmem
      obtain ⟨cl, hcl, hle⟩ := hnumbers.known p hmem
      rw [hp, hc, Option.some.injEq] at hcl
      subst hcl
      simp only [hp] at hle
      omega
    refine h.modify rfl (fun _ _ => rfl) (by simp) fun cl hcl => ?_
    have hheld := ((h c client hc).of_idle hidle).1
    show Caller _ c (b.held c) _
    rw [hheld]
    refine .sending (by rw [hp]) (by simp [start?]) ?_ ?_
    · simpa [entered?] using fun he => hnew (hnumbers.entered p he)
    · simpa using fun he => hnew (hnumbers.refused p he).1
  | @entered c p b' he =>
    obtain ⟨⟨client, hc, hst⟩, -, -, hb⟩ := enter_eq_some_iff.1 he
    obtain ⟨hheld, hpc, rfl, -⟩ := (h c client hc).of_sending hst
    have haccepted : b'.accepted = b.accepted ++ [p] := accepted_append (by rw [hb]; rfl) (by rw [hb])
    have hclients : b'.clients = b.clients.modify c fun cl => { cl with stage := .waiting p.id } := by
      rw [hb]
      rfl
    refine h.modify hclients ?_ (by simpa using hpc) ?_
    · intro c' hc'
      simp [held, haccepted, hpc, Ne.symm hc']
    · intro cl hcl
      rw [hc, Option.some.injEq] at hcl
      have hheld' : b'.held c = [p] := by
        rw [held, haccepted]
        simpa [held, hpc] using hheld
      rw [hheld', ← hcl]
      exact .waiting hpc (by simp [entered?])
  | @refused c p _ hr =>
    obtain ⟨⟨client, hc, hst⟩, -, rfl⟩ := refuse_eq_some_iff.1 hr
    obtain ⟨hheld, hpc, -⟩ := (h c client hc).of_sending hst
    refine h.modify rfl (fun _ _ => rfl) (by simpa using hpc) fun cl _ => ?_
    show Caller _ c (b.held c) _
    rw [hheld]
    exact .idle _
  | taken ht =>
    obtain ⟨hnone, rest, hq, rfl⟩ := take_eq_some_iff.1 ht
    exact h.same rfl (by simp [accepted, hnone, hq]) (by simp)
  | executed hw =>
    obtain ⟨hserving, -, rfl⟩ := work_eq_some_iff.1 hw
    exact h.same rfl (by simp [accepted, hserving]) (by simp)
  | @answered p _ ha =>
    obtain ⟨o, hserving, hsettles⟩ := answer_settles ha
    exact h.settled hsettles (.snoc (.inl (hledger.done p o hserving)) _) (by simp)
  | lost hl => exact h.settled (lose_settles hl) (.inr ⟨rfl, by simp⟩) (by simp)
  | abandoned ha => exact h.settled (abandon_settles ha) (.inr ⟨rfl, by simp⟩) (by simp)
  | @looked c _ hl =>
    rcases collect_eq_none hl with rfl | ⟨⟨client, id, answered, o, hc, hst, hresponse, hne⟩, -⟩
    · exact h.same rfl rfl (by simp)
    · -- No caller ever finds a reply to another request.
      obtain ⟨-, p, -, -, -, ⟨-, hnone⟩ | ⟨-, o', hsome, -⟩⟩ := (h c client hc).of_waiting hst
      · simp [hnone] at hresponse
      · simp only [hsome, Option.some.injEq, Prod.mk.injEq] at hresponse
        exact absurd hresponse.1.symm hne
  | @returned c id client o _ hc hwait hr =>
    obtain ⟨client', id', hc', hst, hresponse, rfl⟩ := collect_eq_some_iff.1 hr
    obtain ⟨-, p, -, -, -, ⟨-, hnone⟩ | ⟨hheld, -⟩⟩ := (h c client' hc').of_waiting hst
    · simp [hnone] at hresponse
    · refine h.modify rfl (fun _ _ => rfl) (by simp) fun cl _ => ?_
      show Caller _ c (b.held c) _
      rw [hheld]
      exact .idle _
  | closed => exact h.same rfl rfl (by simp)

/-! ### Every run -/

/-- The outcome of a call is that of its request, or word that the request was dropped or refused. -/
def Results (tr : List (Note ρ α)) : Prop :=
  ∀ note ∈ tr, ∀ c id o, note.result? = some (c, id, o) →
    ∃ p ∈ starts tr, p.key = (c, id) ∧ (Justified tr p o ∨ o = .error .closed ∧ refused p ∈ tr)

theorem Results.snoc (h : Results tr) (hnew : ∀ c id o, note.result? = some (c, id, o) →
    ∃ p ∈ starts tr, p.key = (c, id) ∧ (Justified tr p o ∨ o = .error .closed ∧ note = .refused p)) :
    Results (tr ++ [note]) := by
  intro n hn c id o hresult
  rw [List.mem_append, List.mem_singleton] at hn
  rcases hn with hn | rfl
  · obtain ⟨p, hp, hkey, hj | hr⟩ := h n hn c id o hresult
    · exact ⟨p, by simp [hp], hkey, .inl (hj.snoc note)⟩
    · exact ⟨p, by simp [hp], hkey, .inr ⟨hr.1, by simp [hr.2]⟩⟩
  · obtain ⟨p, hp, hkey, hj | hr⟩ := hnew c id o hresult
    · exact ⟨p, by simp [hp], hkey, .inl (hj.snoc n)⟩
    · exact ⟨p, by simp [hp], hkey, .inr ⟨hr.1, by simp [hr.2]⟩⟩

/-- What holds along every run. -/
structure Sound (exec : ρ → σ → Outcome α × σ) (s₀ : σ) (tr : List (Note ρ α)) (b : Bridge σ ρ α) : Prop where
  ledger : Ledger exec s₀ tr b
  numbers : Numbering tr b
  callers : Callers tr b
  results : Results tr

theorem Sound.numbers_step (h : Sound exec s₀ tr b) (hs : Step exec b note b') : Numbering (tr ++ [note]) b' := by
  have hgrows := hs.grows
  cases hs with
  | @started c client request p _ hc hidle hsub =>
    obtain ⟨client', hc', -, hp, rfl⟩ := submit_eq_ok_iff.1 hsub
    have hpc : p.client = c := by rw [hp]
    have hold : b.clients[p.client]? = some client' := by rw [hpc, hc']
    have hnow : (b.updateClient c fun _ => ⟨⟨some p.id, none⟩, p.id, .sending p⟩).clients[p.client]? =
        some ⟨⟨some p.id, none⟩, p.id, .sending p⟩ := by simp [hpc, hc']
    exact h.numbers.started hgrows hold (by rw [hp]) hnow rfl
  | entered he =>
    obtain ⟨⟨client, hc, hst⟩, -⟩ := enter_eq_some_iff.1 he
    obtain ⟨-, -, -, hp, hnew, hsent⟩ := (h.callers _ client hc).of_sending hst
    exact h.numbers.sent hgrows hp hnew hsent (.inl rfl)
  | refused hr =>
    obtain ⟨⟨client, hc, hst⟩, -⟩ := refuse_eq_some_iff.1 hr
    obtain ⟨-, -, -, hp, hnew, hsent⟩ := (h.callers _ client hc).of_sending hst
    exact h.numbers.sent hgrows hp hnew hsent (.inr rfl)
  | _ => exact h.numbers.frame hgrows rfl rfl (by simp)

theorem Sound.results_step (h : Sound exec s₀ tr b) (hs : Step exec b note b') : Results (tr ++ [note]) := by
  refine h.results.snoc ?_
  cases hs with
  | refused hr =>
    obtain ⟨⟨client, hc, hst⟩, -⟩ := refuse_eq_some_iff.1 hr
    obtain ⟨-, -, -, hp, -⟩ := (h.callers _ client hc).of_sending hst
    intro c id o hresult
    obtain ⟨rfl, rfl, rfl⟩ := hresult
    exact ⟨_, hp, rfl, .inr ⟨rfl, rfl⟩⟩
  | @returned c id client o _ hc hwait hr =>
    obtain ⟨client', id', hc', -, hresponse, -⟩ := collect_eq_some_iff.1 hr
    obtain rfl : client = client' := Option.some.inj (hc.symm.trans hc')
    obtain ⟨-, p, hp, hpc, hpid, ⟨-, hnone⟩ | ⟨-, o', hsome, hj⟩⟩ := (h.callers c client hc).of_waiting hwait
    · simp [hnone] at hresponse
    · rw [hsome, Option.some.injEq, Prod.mk.injEq] at hresponse
      intro c₁ id₁ o₁ hresult
      obtain ⟨rfl, rfl, rfl⟩ := hresult
      exact ⟨p, h.numbers.entered p hp, by rw [Pending.key, hpc, hpid], .inl (hresponse.2 ▸ hj)⟩
  | _ => simp [result?]

theorem Sound.step (h : Sound exec s₀ tr b) (hs : Step exec b note b') : Sound exec s₀ (tr ++ [note]) b' where
  ledger := h.ledger.step hs
  numbers := h.numbers_step hs
  callers := h.callers.step h.ledger h.numbers hs
  results := h.results_step hs

theorem sound_start (exec : ρ → σ → Outcome α × σ) (store : σ) (depth : Nat) :
    Sound exec store [] (start store depth) where
  ledger := ⟨rfl, by simp [executions, entries, todo, start], by simp [start], by simp [start],
    Nat.lt_of_lt_of_le Nat.one_pos (Nat.le_max_right depth 1)⟩
  numbers := ⟨by simp [starts], by simp [starts], by simp [entries], by simp, by simp [entries]⟩
  callers := by
    intro c client hc
    simp [start] at hc
  results := by simp [Results]

theorem Runs.sound {store : σ} {depth : Nat} (h : Runs exec (start store depth) tr b) : Sound exec store tr b := by
  induction h with
  | nil => exact sound_start exec store depth
  | snoc _ hs ih => exact ih.step hs

end Filespace.Bridge
