import Filespace.Proofs.BridgeInvariant
import Filespace.Request
import Filespace.Storage.Memory

/-!
# Safety of the callers and the helper

Any number of callers may make calls at once, the helper may drop requests, and the queue may be closed at any time. In
every run a call returns the outcome of its own request, done once, or word that the request was dropped or refused; a
caller that waits has one request on its way or a reply in its slot, and never both (`Safe`). If the helper goes on with its
work, every call that was started returns (`exists_return`).
-/

namespace Filespace.Bridge

open Storage Note

variable {σ ρ α : Type} {exec : ρ → σ → Outcome α × σ} {s₀ store : σ} {b b' b'' : Bridge σ ρ α} {tr : List (Note ρ α)}
  {note : Note ρ α} {c id depth : Nat} {p : Pending ρ} {o : Outcome α} {client : Client ρ α}

/-! ### The helper goes on -/

/-- A run in which the helper only does its work, and all callers wait. -/
structure Helped (exec : ρ → σ → Outcome α × σ) (b b' : Bridge σ ρ α) : Prop where
  run : ∃ tr, Runs exec b tr b' ∧ ∀ q, dropped q ∉ tr
  running : b'.running = b.running
  depth : b'.depth = b.depth
  stages : ∀ (c : Nat) (client : Client ρ α), b.clients[c]? = some client →
    ∃ client' : Client ρ α, b'.clients[c]? = some client' ∧ client'.lastId = client.lastId ∧ client'.stage = client.stage

theorem Helped.refl (exec : ρ → σ → Outcome α × σ) (b : Bridge σ ρ α) : Helped exec b b :=
  ⟨⟨[], .nil, by simp⟩, rfl, rfl, fun _ client hc => ⟨client, hc, rfl, rfl⟩⟩

theorem Helped.trans (h : Helped exec b b') (h' : Helped exec b' b'') : Helped exec b b'' := by
  constructor
  case run =>
    obtain ⟨tr, hrun, hno⟩ := h.run
    obtain ⟨tr', hrun', hno'⟩ := h'.run
    exact ⟨tr ++ tr', hrun.append hrun', fun q => by simp [hno q, hno' q]⟩
  case running => rw [h'.running, h.running]
  case depth => rw [h'.depth, h.depth]
  case stages =>
    intro c client hc
    obtain ⟨client', hc', hid, hst⟩ := h.stages c client hc
    obtain ⟨client'', hc'', hid', hst'⟩ := h'.stages c client' hc'
    exact ⟨client'', hc'', hid'.trans hid, hst'.trans hst⟩

/-- The helper answers what it has done. -/
theorem helped_answer (exec : ρ → σ → Outcome α × σ) (hs : b.serving = some ⟨p, some o⟩) :
    ∃ b', Helped exec b b' ∧ b'.accepted = b.queue := by
  have hstep : Step exec b (.answered p) (({ b with serving := none }).deliver p o) :=
    .answered (answer_eq_some_iff.2 ⟨o, hs, rfl⟩)
  refine ⟨_, ⟨⟨_, hstep.runs, by simp⟩, rfl, rfl, ?_⟩, rfl⟩
  intro c client hc
  by_cases hpc : p.client = c
  · subst hpc
    exact ⟨{ client with slot := client.slot.deliver p.id o }, by simp [hc], rfl, rfl⟩
  · exact ⟨client, by simp [hc, hpc], rfl, rfl⟩

/-- The helper does what it has taken. -/
theorem helped_work (exec : ρ → σ → Outcome α × σ) (hs : b.serving = some ⟨p, none⟩) :
    ∃ b', Helped exec b b' ∧ b'.accepted = b.queue := by
  have hstep : Step exec b (.executed p (exec p.request b.store).1) { b with
      store := (exec p.request b.store).2, serving := some ⟨p, some (exec p.request b.store).1⟩ } :=
    .executed (work_eq_some_iff.2 ⟨hs, rfl, rfl⟩)
  obtain ⟨b', hhelped, hqueue⟩ := helped_answer exec (b := { b with
    store := (exec p.request b.store).2, serving := some ⟨p, some (exec p.request b.store).1⟩ }) rfl
  refine ⟨b', .trans ⟨⟨_, hstep.runs, by simp⟩, rfl, rfl, ?_⟩ hhelped, hqueue⟩
  exact fun _ client hc => ⟨client, hc, rfl, rfl⟩

/-- The helper serves the first of the requests that it has to answer. -/
theorem helped_serve (exec : ρ → σ → Outcome α × σ) {rest : List (Pending ρ)} (h : b.accepted = p :: rest) :
    ∃ b', Helped exec b b' ∧ b'.accepted = rest := by
  rcases hs : b.serving with _ | ⟨q, _ | o⟩
  · simp only [accepted, hs] at h
    have hstep : Step exec b (.taken p) { b with serving := some ⟨p, none⟩, queue := rest } :=
      .taken (take_eq_some_iff.2 ⟨hs, rest, h, rfl⟩)
    obtain ⟨b', hhelped, hqueue⟩ := helped_work exec (b := { b with serving := some ⟨p, none⟩, queue := rest }) rfl
    refine ⟨b', .trans ⟨⟨_, hstep.runs, by simp⟩, rfl, rfl, ?_⟩ hhelped, hqueue⟩
    exact fun _ client hc => ⟨client, hc, rfl, rfl⟩
  · simp only [accepted, hs, List.cons.injEq] at h
    exact h.2 ▸ helped_work exec hs
  · simp only [accepted, hs, List.cons.injEq] at h
    exact h.2 ▸ helped_answer exec hs

/-- The helper serves all of them. -/
theorem exists_drained (exec : ρ → σ → Outcome α × σ) (b : Bridge σ ρ α) :
    ∃ b', Helped exec b b' ∧ b'.accepted = [] := by
  induction h : b.accepted generalizing b with
  | nil => exact ⟨b, .refl exec b, h⟩
  | cons p rest ih =>
    obtain ⟨b', hhelped, hrest⟩ := helped_serve exec h
    obtain ⟨b'', hhelped', hnone⟩ := ih b' hrest
    exact ⟨b'', hhelped.trans hhelped', hnone⟩

/-- When all requests are answered, a caller that waits finds its reply. -/
theorem Sound.exists_reply (h : Sound exec s₀ tr b) (hnone : b.accepted = []) (hc : b.clients[c]? = some client)
    (hst : client.stage = .waiting id) : ∃ o b', Step exec b (.returned c id o) b' := by
  obtain ⟨-, p, -, -, -, ⟨hheld, -⟩ | ⟨-, o, hsome, -⟩⟩ := (h.callers c client hc).of_waiting hst
  · simp [held, hnone] at hheld
  · exact ⟨o, _, .returned hc hst (collect_eq_some_iff.2 ⟨client, id, hc, hst, hsome, rfl⟩)⟩

/-- No caller is stranded: if the helper goes on, dropping nothing, the call returns. -/
theorem exists_return (h : Runs exec (start store depth) tr b)
    (hc : b.clients[c]? = some client) (hst : client.stage ≠ .idle) :
    ∃ tr' note b' o, Runs exec b (tr' ++ [note]) b' ∧ (∀ q, dropped q ∉ tr' ++ [note]) ∧
      note.result? = some (c, client.lastId, o) := by
  -- First the queue is emptied.
  obtain ⟨b₁, hhelped, hnone⟩ := exists_drained exec b
  obtain ⟨tr₁, hrun₁, hno₁⟩ := hhelped.run
  obtain ⟨client₁, hc₁, hid₁, hst₁⟩ := hhelped.stages c client hc
  have hsound₁ := (h.append hrun₁).sound
  cases hstage : client.stage with
  | idle => exact absurd hstage hst
  | waiting id =>
    obtain ⟨o, b', hstep⟩ := hsound₁.exists_reply hnone hc₁ (hst₁.trans hstage)
    have hid := ((hsound₁.callers c client₁ hc₁).of_waiting (hst₁.trans hstage)).1
    exact ⟨tr₁, _, b', o, .snoc hrun₁ hstep, by simp [hno₁], by rw [result?, ← hid₁, hid]⟩
  | sending p =>
    obtain ⟨-, hpc, hcl, -⟩ := (hsound₁.callers c client₁ hc₁).of_sending (hst₁.trans hstage)
    have hid : client.lastId = p.id := by rw [← hid₁, hcl]
    have hsent : ∃ client, b₁.clients[c]? = some client ∧ client.stage = .sending p := ⟨client₁, hc₁, hst₁.trans hstage⟩
    cases hopen : b₁.running with
    | false =>
      have hstep : Step exec b₁ (.refused p) _ := .refused (refuse_eq_some_iff.2 ⟨hsent, hopen, rfl⟩)
      exact ⟨tr₁, _, _, _, .snoc hrun₁ hstep, by simp [hno₁], by rw [result?, hpc, hid]⟩
    | true =>
      -- There is room now. The request enters the queue and is served.
      have hroom : b₁.queue.length < b₁.depth := by
        have hempty : b₁.queue = [] := by
          cases hs : b₁.serving <;> simp_all [accepted]
        rw [hempty]
        exact hsound₁.ledger.depth
      obtain ⟨b₂, henter⟩ : ∃ b₂, b₁.enter c = some (p, b₂) := ⟨_, enter_eq_some_iff.2 ⟨hsent, hopen, hroom, rfl⟩⟩
      have hstep : Step exec b₁ (.entered p) b₂ := .entered henter
      have hc₂ : b₂.clients[c]? = some { client₁ with stage := .waiting p.id } := by
        obtain ⟨-, -, -, rfl⟩ := enter_eq_some_iff.1 henter
        simp [hc₁]
      obtain ⟨b₃, hhelped₃, hnone₃⟩ := exists_drained exec b₂
      obtain ⟨tr₃, hrun₃, hno₃⟩ := hhelped₃.run
      obtain ⟨client₃, hc₃, -, hst₃⟩ := hhelped₃.stages c _ hc₂
      have hrun := (hrun₁.snoc hstep).append hrun₃
      obtain ⟨o, b', hlast⟩ := (h.append hrun).sound.exists_reply hnone₃ hc₃ hst₃
      exact ⟨_, _, b', o, .snoc hrun hlast, by simp [hno₁, hno₃], by rw [result?, hid]⟩

/-! ### Safety -/

/-- The requests of a caller that are on their way: being sent, in the queue, or with the helper. -/
def live (b : Bridge σ ρ α) (c : Nat) : List (Pending ρ) := (b.sent? c).toList ++ b.held c

/-- What holds after a run, from a helper that was started for a store. -/
structure Safe (exec : ρ → σ → Outcome α × σ) (store : σ) (tr : List (Note ρ α)) (b : Bridge σ ρ α) : Prop where
  /-- The work was done one request after another. -/
  serial : perform exec ((executions tr).map fun x => x.1.request) store = ((executions tr).map Prod.snd, b.store)
  /-- It was done in the order in which the requests entered the queue. -/
  ordered : ((executions tr).map Prod.fst).Sublist (entries tr)
  /-- No request entered twice. -/
  once : ((entries tr).map Pending.key).Nodup
  /-- No two calls of a caller have one number. -/
  distinct : ((starts tr).map Pending.key).Nodup
  /-- A call that returned gave the outcome of its own request, which was done once, or its request was dropped or
  refused. -/
  results : ∀ note ∈ tr, ∀ c id o, note.result? = some (c, id, o) → ∃ p ∈ starts tr, p.key = (c, id) ∧
    ((executions tr).filter (fun x => x.1.key = (c, id)) = [(p, o)] ∨ ∃ e, o = .error e ∧ e.kind = .brokenPipe ∧
      (dropped p ∈ tr ∨ refused p ∈ tr ∧ p ∉ entries tr))
  /-- The reply in a slot is the one that its caller waits for. -/
  reply : ∀ (c : Nat) (client : Client ρ α) id o, b.clients[c]? = some client → client.slot.response = some (id, o) →
    client.slot.awaiting = some id
  /-- A caller that waits has one request on its way or a reply, and not both. -/
  waiting : ∀ (c : Nat) (client : Client ρ α) id, b.clients[c]? = some client → client.slot.awaiting = some id →
    (b.live c).map Pending.id ++ client.slot.response.toList.map Prod.fst = [id]
  /-- A call that was started returns if the helper goes on, without dropping anything. -/
  returns : ∀ (c : Nat) (client : Client ρ α), b.clients[c]? = some client → client.stage ≠ .idle →
    client.slot.awaiting = some client.lastId ∧
    ∃ tr' note b' o, Runs exec b (tr' ++ [note]) b' ∧ (∀ q, dropped q ∉ tr' ++ [note]) ∧
      note.result? = some (c, client.lastId, o)
  /-- Right after a call returned its caller makes no call. -/
  returned : ∀ tr' note c id o, tr = tr' ++ [note] → note.result? = some (c, id, o) →
    ∃ client, b.clients[c]? = some client ∧ client.stage = .idle
  /-- The slot of a caller that makes no call is clear, and its next call is taken. -/
  clear : ∀ (c : Nat) (client : Client ρ α), b.clients[c]? = some client → client.stage = .idle → client.slot = {} ∧
    ∀ request, (b.submit c request).1 = .ok ⟨c, client.lastId + 1, request⟩

/-- Among outcomes of different requests, one is that of a request. -/
theorem filter_key {l : List (Pending ρ × Outcome α)} (hnodup : (l.map fun x => x.1.key).Nodup) (hdone : (p, o) ∈ l) :
    l.filter (fun x => x.1.key = p.key) = [(p, o)] := by
  induction l with
  | nil => simp at hdone
  | cons y l ih =>
    simp only [List.map_cons, List.nodup_cons, List.mem_map, not_exists, not_and] at hnodup
    rcases List.mem_cons.1 hdone with rfl | hmem
    · have hrest : l.filter (fun x => x.1.key = p.key) = [] := by
        rw [List.filter_eq_nil_iff]
        intro x hx
        simpa using hnodup.1 x hx
      simp [hrest]
    · have hne : y.1.key ≠ p.key := fun e => hnodup.1 (p, o) hmem e.symm
      simpa [hne] using ih hnodup.2 hmem

theorem Step.returned_idle (hs : Step exec b note b') (hresult : note.result? = some (c, id, o))
    (hcallers : Callers tr b) : ∃ client, b'.clients[c]? = some client ∧ client.stage = .idle := by
  cases hs with
  | refused h =>
    obtain ⟨⟨client, hc, hst⟩, -, rfl⟩ := refuse_eq_some_iff.1 h
    obtain ⟨-, hpc, -⟩ := (hcallers _ client hc).of_sending hst
    simp only [result?, Option.some.injEq, Prod.mk.injEq] at hresult
    rw [← hresult.1, hpc]
    exact ⟨{ client with slot := {}, stage := .idle }, by simp [hc], rfl⟩
  | returned hc hwait h =>
    obtain ⟨client, _, hc, -, -, rfl⟩ := collect_eq_some_iff.1 h
    simp only [result?, Option.some.injEq, Prod.mk.injEq] at hresult
    rw [← hresult.1]
    exact ⟨{ client with slot := {}, stage := .idle }, by simp [hc], rfl⟩
  | _ => simp [result?] at hresult

theorem Runs.returned_idle (h : Runs exec (start store depth) (tr ++ [note]) b)
    (hresult : note.result? = some (c, id, o)) : ∃ client, b.clients[c]? = some client ∧ client.stage = .idle := by
  generalize htr : tr ++ [note] = tr' at h
  cases h with
  | nil => simp at htr
  | snoc hrun hs =>
    obtain ⟨-, hnote⟩ := List.append_inj' htr rfl
    simp only [List.cons.injEq, and_true] at hnote
    subst hnote
    exact hs.returned_idle hresult hrun.sound.callers

/-- One place of the four gives one request or one reply. -/
theorem Caller.live (h : Caller tr c (b.held c) client) (hc : b.clients[c]? = some client) :
    (b.live c).map Pending.id ++ client.slot.response.toList.map Prod.fst = client.slot.awaiting.toList := by
  have hsent : b.sent? c = client.sent? := by simp [sent?, hc]
  rw [Bridge.live, hsent]
  generalize b.held c = l at h
  cases h <;> simp [Client.sent?]

/-- In every run of the callers and the helper, whatever the order of their steps: a call returns the outcome of its own
request, done once and in turn, or word that the request was dropped or refused; nobody waits in vain; and a call that
returned leaves nothing behind. -/
theorem bridge_runs_are_safe {store : σ} {depth : Nat} (h : Runs exec (start store depth) tr b) : Safe exec store tr b := by
  have hsound := h.sound
  have hinj : ∀ p ∈ entries tr, ∀ q ∈ entries tr, p.key = q.key → p = q := fun p hp q hq =>
    List.inj_on_of_nodup_map hsound.numbers.fresh (hsound.numbers.entered p hp) (hsound.numbers.entered q hq)
  have honce : ((entries tr).map Pending.key).Nodup := hsound.numbers.once.map_on hinj
  have hordered : ((executions tr).map Prod.fst).Sublist (entries tr) :=
    (List.sublist_append_left _ _).trans hsound.ledger.order
  have hdone : ((executions tr).map fun x => x.1.key).Nodup := by
    simpa [List.map_map, Function.comp_def] using honce.sublist (hordered.map Pending.key)
  constructor
  case serial => exact hsound.ledger.serial
  case ordered => exact hordered
  case once => exact honce
  case distinct => exact hsound.numbers.fresh
  case results =>
    intro note hnote c id o hresult
    obtain ⟨p, hp, hkey, (hmem | ⟨ho, hdropped⟩) | ⟨ho, hrefused⟩⟩ := hsound.results note hnote c id o hresult
    · exact ⟨p, hp, hkey, .inl (hkey ▸ filter_key hdone hmem)⟩
    · exact ⟨p, hp, hkey, .inr ⟨.dropped, ho, rfl, .inl hdropped⟩⟩
    · exact ⟨p, hp, hkey, .inr ⟨.closed, ho, rfl, .inr ⟨hrefused, (hsound.numbers.refused p hrefused).2⟩⟩⟩
  case reply =>
    intro c client id o hc hresponse
    exact (hsound.callers c client hc).awaiting_of_response hresponse
  case waiting =>
    intro c client id hc hawaiting
    rw [(hsound.callers c client hc).live hc, hawaiting]
    rfl
  case returns =>
    intro c client hc hst
    exact ⟨(hsound.callers c client hc).awaiting_of_stage hst, exists_return h hc hst⟩
  case returned =>
    intro tr' note c id o htr hresult
    exact (htr ▸ h).returned_idle hresult
  case clear =>
    intro c client hc hidle
    have hslot := ((hsound.callers c client hc).of_idle hidle).2
    refine ⟨hslot, fun request => ?_⟩
    simp [submit, hc, hslot]

/-- The call of one caller. -/
def firstCall : Pending Request := ⟨0, 1, .createFile (Path.root.child ⟨"first", by decide⟩)⟩

/-- The call of another one. -/
def secondCall : Pending Request := ⟨1, 1, .createFile (Path.root.child ⟨"second", by decide⟩)⟩

/-- While the helper serves the one it drops the other. -/
def twoCalls : List (Note Request (Reply Storage.Memory.Handle)) :=
  [.joined, .joined, .started firstCall, .started secondCall, .entered firstCall, .taken firstCall, .entered secondCall,
    .executed firstCall (.ok .done), .dropped secondCall, .answered firstCall, .returned 1 1 (.error .dropped),
    .returned 0 1 (.ok .done)]

theorem bridge_runs_are_safe_twoCalls :
    ∃ b, Safe (fun (r : Request) (w : Host × Storage.Memory) => r.execute w) ({}, {}) twoCalls b := by
  have hrun : ∃ b, Runs (fun (r : Request) (w : Host × Storage.Memory) => r.execute w) (start ({}, {}) 4) twoCalls b :=
    ⟨_, .snoc (.snoc (.snoc (.snoc (.snoc (.snoc (.snoc (.snoc (.snoc (.snoc (.snoc (.snoc .nil
      (.joined rfl)) (.joined rfl)) (.started (c := 0) rfl rfl rfl)) (.started (c := 1) rfl rfl rfl))
      (.entered (c := 0) rfl)) (.taken rfl)) (.entered (c := 1) rfl)) (.executed rfl)) (.lost (i := 0) rfl))
      (.answered rfl)) (.returned rfl rfl rfl)) (.returned rfl rfl rfl)⟩
  obtain ⟨b, hrun⟩ := hrun
  exact ⟨b, bridge_runs_are_safe hrun⟩

end Filespace.Bridge
