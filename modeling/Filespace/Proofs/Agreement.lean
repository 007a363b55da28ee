import Filespace.Proofs.Outcome
import Filespace.Storage.Chunked
import Mathlib.Data.List.Forall2

/-!
# Two calls that agree

`Agree x y Q S s t` is the relational form of `wp`: the call `x` from `s` and the call `y` from `t` end in the same way,
either both with values and in states that `Q` relates, or both with one and the same failure and in states that
`S` relates. `Parallel S R x y` is the form for calls that keep one relation `S` between the states, whatever the
states are.

As for `wp`, there is one rule for each construct, and a proof that two calls agree is read off their texts. Where the
texts differ, one of the calls is taken a step further alone (`Agree.bind_left`, `Agree.bind_right`).
-/

namespace Filespace

variable {ε σ τ α β α' β' : Type} {f : α → ExceptT ε (StateM σ) α'} {g : β → ExceptT ε (StateM τ) β'}
  {x' : ExceptT ε (StateM σ) α} {y' : ExceptT ε (StateM τ) β} {e : ε} {a : α} {b : β}

/-- Two calls end alike: both in `Q` with values, or both with one failure and in `S`. -/
def Agree (x : ExceptT ε (StateM σ) α) (y : ExceptT ε (StateM τ) β) (Q : α → β → σ → τ → Prop) (S : σ → τ → Prop)
    (s : σ) (t : τ) : Prop :=
  match x s, y t with
  | (.ok a, s'), (.ok b, t') => Q a b s' t'
  | (.error e, s'), (.error e', t') => e' = e ∧ S s' t'
  | _, _ => False

section Rules

variable {x : ExceptT ε (StateM σ) α} {y : ExceptT ε (StateM τ) β} {Q R : α → β → σ → τ → Prop} {S T : σ → τ → Prop}
  {s s' : σ} {t t' : τ}

theorem agree_of_ok {u : σ} {v : τ} (hx : x s = (.ok a, u)) (hy : y t = (.ok b, v)) :
    Agree x y Q S s t ↔ Q a b u v := by
  unfold Agree
  rw [hx, hy]

theorem agree_of_error {u : σ} {v : τ} (hx : x s = (.error e, u)) (hy : y t = (.error e, v)) :
    Agree x y Q S s t ↔ S u v := by
  unfold Agree
  rw [hx, hy]
  simp

/-- Calls that agree end in one of two ways. -/
theorem Agree.cases (h : Agree x y Q S s t) :
    (∃ a b s' t', x s = (.ok a, s') ∧ y t = (.ok b, t') ∧ Q a b s' t') ∨
      ∃ e s' t', x s = (.error e, s') ∧ y t = (.error e, t') ∧ S s' t' := by
  rcases hx : x s with ⟨_ | a, s'⟩
  · rcases hy : y t with ⟨_ | b, t'⟩
    · unfold Agree at h
      rw [hx, hy] at h
      obtain ⟨rfl, h⟩ := h
      exact Or.inr ⟨_, s', t', rfl, rfl, h⟩
    · unfold Agree at h
      rw [hx, hy] at h
      exact h.elim
  · rcases hy : y t with ⟨_ | b, t'⟩
    · unfold Agree at h
      rw [hx, hy] at h
      exact h.elim
    · exact Or.inl ⟨a, b, s', t', rfl, rfl, (agree_of_ok hx hy).1 h⟩

/-- What is known of two endings may be weakened. -/
theorem Agree.mono (h : Agree x y Q S s t) (hQ : ∀ a b s' t', Q a b s' t' → R a b s' t')
    (hS : ∀ s' t', S s' t' → T s' t') : Agree x y R T s t := by
  obtain ⟨a, b, s', t', hx, hy, h⟩ | ⟨e, s', t', hx, hy, h⟩ := h.cases
  · exact (agree_of_ok hx hy).2 (hQ a b s' t' h)
  · exact (agree_of_error hx hy).2 (hS s' t' h)

theorem Agree.imp (h : Agree x y Q S s t) (hQ : ∀ a b s' t', Q a b s' t' → R a b s' t') : Agree x y R S s t :=
  h.mono hQ fun _ _ hs => hs

/-- What is known of each call alone is known of both. -/
theorem Agree.and_wp {Q₁ : α → σ → Prop} {Q₂ : β → τ → Prop} {E₁ : ε → σ → Prop} {E₂ : ε → τ → Prop}
    (h : Agree x y Q S s t) (hx : wp x Q₁ E₁ s) (hy : wp y Q₂ E₂ t) :
    Agree x y (fun a b s' t' => Q a b s' t' ∧ Q₁ a s' ∧ Q₂ b t')
      (fun s' t' => S s' t' ∧ (∃ e, E₁ e s') ∧ ∃ e, E₂ e t') s t := by
  obtain ⟨a, b, s', t', hx', hy', h⟩ | ⟨e, s', t', hx', hy', h⟩ := h.cases
  · exact (agree_of_ok hx' hy').2 ⟨h, hx.ok hx', hy.ok hy'⟩
  · exact (agree_of_error hx' hy').2 ⟨h, ⟨e, hx.error hx'⟩, e, hy.error hy'⟩

theorem Agree.pure (h : Q a b s t) : Agree (pure a : ExceptT ε (StateM σ) α) (pure b) Q S s t := h

theorem Agree.throw (h : S s t) : Agree (throw e : ExceptT ε (StateM σ) α) (throw e) Q S s t := ⟨rfl, h⟩

/-- The second calls start where the first ended. -/
theorem Agree.bind {R : α' → β' → σ → τ → Prop} (h : Agree x y Q T s t) (hT : ∀ s' t', T s' t' → S s' t')
    (k : ∀ a b s' t', Q a b s' t' → Agree (f a) (g b) R S s' t') : Agree (x >>= f) (y >>= g) R S s t := by
  obtain ⟨a, b, s', t', hx, hy, h⟩ | ⟨e, s', t', hx, hy, h⟩ := h.cases
  · have hk := k a b s' t' h
    unfold Agree at hk ⊢
    rw [bind_run, bind_run, hx, hy]
    exact hk
  · refine (agree_of_error (e := e) ?_ ?_).2 (hT s' t' h)
    · rw [bind_run, hx]
    · rw [bind_run, hy]

/-- The left call is taken a step further. -/
theorem Agree.bind_left {R : α' → β → σ → τ → Prop}
    (hx : x s = (.ok a, s')) (h : Agree (f a) y R S s' t) : Agree (x >>= f) y R S s t := by
  unfold Agree at h ⊢
  rw [bind_run, hx]
  exact h

/-- The right call is taken a step further. -/
theorem Agree.bind_right {R : α → β' → σ → τ → Prop}
    (hy : y t = (.ok b, t')) (h : Agree x (g b) R S s t') : Agree x (y >>= g) R S s t := by
  unfold Agree at h ⊢
  rw [bind_run, hy]
  exact h

theorem Agree.ite {c : Prop} [Decidable c] (hthen : c → Agree x y Q S s t) (helse : ¬ c → Agree x' y' Q S s t) :
    Agree (if c then x else x') (if c then y else y') Q S s t := by
  split
  · exact hthen ‹_›
  · exact helse ‹_›

theorem Agree.get_bind {f : σ → ExceptT ε (StateM σ) α} {g : τ → ExceptT ε (StateM τ) β}
    (h : Agree (f s) (g t) Q S s t) : Agree (get >>= f) (get >>= g) Q S s t := h

theorem Agree.modify {f : σ → σ} {g : τ → τ} {Q : Unit → Unit → σ → τ → Prop} (h : Q () () (f s) (g t)) :
    Agree (modify f : ExceptT ε (StateM σ) Unit) (modify g) Q S s t := h

theorem Agree.throw_bind {R : α' → β' → σ → τ → Prop} (h : S s t) : Agree ((MonadExcept.throw e) >>= f)
      ((MonadExcept.throw e) >>= g) R S s t := ⟨rfl, h⟩

/-- Failures that are caught go on in the handlers. -/
theorem Agree.tryCatch {f : ε → ExceptT ε (StateM σ) α} {g : ε → ExceptT ε (StateM τ) β} (h : Agree x y Q T s t)
    (k : ∀ e s' t', T s' t' → Agree (f e) (g e) Q S s' t') : Agree (tryCatch x f) (tryCatch y g) Q S s t := by
  obtain ⟨a, b, s', t', hx, hy, h⟩ | ⟨e, s', t', hx, hy, h⟩ := h.cases
  · refine (agree_of_ok ?_ ?_).2 h
    · rw [tryCatch_run, hx]
    · rw [tryCatch_run, hy]
  · have hk := k e s' t' h
    unfold Agree at hk ⊢
    rw [tryCatch_run, tryCatch_run, hx, hy]
    exact hk

end Rules

/-! ### Calls that keep a relation -/

/-- From states that `S` relates, two calls give values that `R` relates, or fail alike; the states stay related. -/
def Parallel (S : σ → τ → Prop) (R : α → β → Prop) (x : ExceptT ε (StateM σ) α) (y : ExceptT ε (StateM τ) β) : Prop :=
  ∀ s t, S s t → Agree x y (fun a b s' t' => R a b ∧ S s' t') S s t

section Parallel

variable {x : ExceptT ε (StateM σ) α} {y : ExceptT ε (StateM τ) β} {S : σ → τ → Prop} {R : α → β → Prop}

theorem Parallel.mono {R' : α → β → Prop} (h : Parallel S R x y) (hR : ∀ a b, R a b → R' a b) : Parallel S R' x y :=
  fun s t hs => (h s t hs).imp fun a b _ _ hq => ⟨hR a b hq.1, hq.2⟩

theorem Parallel.pure (h : R a b) : Parallel S R (pure a : ExceptT ε (StateM σ) α) (pure b) := fun _ _ hs => ⟨h, hs⟩

theorem Parallel.throw : Parallel S R (throw e : ExceptT ε (StateM σ) α) (throw e) := fun _ _ hs => ⟨rfl, hs⟩

theorem Parallel.throw_bind {R : α' → β' → Prop} : Parallel S R ((MonadExcept.throw e) >>= f)
      ((MonadExcept.throw e) >>= g) := fun _ _ hs => ⟨rfl, hs⟩

theorem Parallel.bind {R' : α' → β' → Prop}
    (h : Parallel S R x y) (k : ∀ a b, R a b → Parallel S R' (f a) (g b)) : Parallel S R' (x >>= f) (y >>= g) :=
  fun s t hs => (h s t hs).bind (fun _ _ hs => hs) fun a b s' t' hq => k a b hq.1 s' t' hq.2

theorem Parallel.ite {c : Prop} [Decidable c] (hthen : c → Parallel S R x y) (helse : ¬ c → Parallel S R x' y') :
    Parallel S R (if c then x else x') (if c then y else y') := by
  split
  · exact hthen ‹_›
  · exact helse ‹_›

/-- Calls that go on with one value. -/
theorem Parallel.bind_eq {y : ExceptT ε (StateM τ) α}
    {g : α → ExceptT ε (StateM τ) β'} {R' : α' → β' → Prop} (h : Parallel S Eq x y)
    (k : ∀ a, Parallel S R' (f a) (g a)) : Parallel S R' (x >>= f) (y >>= g) :=
  .bind h fun a _ hab => hab ▸ k a

theorem Parallel.get_bind {f : σ → ExceptT ε (StateM σ) α} {g : τ → ExceptT ε (StateM τ) β}
    (h : ∀ s t, S s t → Parallel S R (f s) (g t)) : Parallel S R (get >>= f) (get >>= g) :=
  fun s t hs => h s t hs s t hs

theorem Parallel.modify {f : σ → σ} {g : τ → τ} (h : ∀ s t, S s t → S (f s) (g t)) :
    Parallel S Eq (modify f : ExceptT ε (StateM σ) Unit) (modify g) :=
  fun s t hs => ⟨rfl, h s t hs⟩

/-- Both fail early, for one reason, or go on. -/
theorem Parallel.guard {c : Prop} [Decidable c] {f : α' → ExceptT ε (StateM σ) α}
    {g : β' → ExceptT ε (StateM τ) β} (h : ¬ c → Parallel S R x y) :
    Parallel S R (if c then (MonadExcept.throw e) >>= f else x)
      (if c then (MonadExcept.throw e) >>= g else y) :=
  .ite (fun _ => .throw_bind) h

/-- Calls that change nothing keep whatever else is known of the states. -/
theorem Parallel.strengthen {P : σ → τ → Prop} (h : Parallel S R x y) (hP : ∀ s t, P s t → S s t)
    (hx : ∀ s, (x s).2 = s) (hy : ∀ t, (y t).2 = t) : Parallel P R x y := by
  intro s t hs
  have hsame := hx s
  have hsame' := hy t
  obtain ⟨a, b, s', t', hxs, hyt, hab, -⟩ | ⟨e, s', t', hxs, hyt, -⟩ := (h s t (hP s t hs)).cases
  · rw [hxs] at hsame
    rw [hyt] at hsame'
    obtain ⟨rfl, rfl⟩ : s' = s ∧ t' = t := ⟨hsame, hsame'⟩
    exact (agree_of_ok hxs hyt).2 ⟨hab, hs⟩
  · rw [hxs] at hsame
    rw [hyt] at hsame'
    obtain ⟨rfl, rfl⟩ : s' = s ∧ t' = t := ⟨hsame, hsame'⟩
    exact (agree_of_error hxs hyt).2 hs

/-- Calls made for the items of two lists, one after the other. -/
theorem Parallel.forM {f : α → ExceptT ε (StateM σ) PUnit} {g : β → ExceptT ε (StateM τ) PUnit} {l : List α} {l' : List β}
    (h : List.Forall₂ (fun a b => Parallel S (fun _ _ => True) (f a) (g b)) l l') :
    Parallel S (fun _ _ => True) (l.forM f) (l'.forM g) := by
  induction h with
  | nil => exact .pure trivial
  | @cons a b l l' hab _ ih =>
    exact .bind hab fun _ _ _ => ih

end Parallel

/-! ### Calls that look first and change then -/

/-- While two calls look, `S` relates the states; once they change something, only `T` does, which says less. -/
def LeadsTo (S T : σ → τ → Prop) (R : α → β → Prop) (x : ExceptT ε (StateM σ) α) (y : ExceptT ε (StateM τ) β) : Prop :=
  (∀ s t, S s t → T s t) → ∀ s t, S s t → Agree x y (fun a b s' t' => R a b ∧ T s' t') T s t

section LeadsTo

variable {x : ExceptT ε (StateM σ) α} {y : ExceptT ε (StateM τ) β} {S T : σ → τ → Prop} {R : α → β → Prop}
  {f : α → ExceptT ε (StateM σ) α'} {g : β → ExceptT ε (StateM τ) β'} {R' : α' → β' → Prop}

theorem Parallel.leadsTo (h : Parallel S R x y) : LeadsTo S T R x y :=
  fun hS s t hs => (h s t hs).mono (fun _ _ _ _ hq => ⟨hq.1, hS _ _ hq.2⟩) hS

theorem LeadsTo.pure (h : R a b) :
    LeadsTo S T R (pure a : ExceptT ε (StateM σ) α) (pure b) := Parallel.leadsTo (.pure h)

theorem LeadsTo.throw : LeadsTo S T R (throw e : ExceptT ε (StateM σ) α) (throw e) := Parallel.leadsTo .throw

theorem LeadsTo.throw_bind : LeadsTo S T R' ((MonadExcept.throw e) >>= f)
    ((MonadExcept.throw e) >>= g) := Parallel.leadsTo .throw_bind

/-- Both change something at once. -/
theorem LeadsTo.of_changing (h : Parallel T R x y) : LeadsTo S T R x y := fun hS s t hs => h s t (hS s t hs)

/-- Both look and go on. -/
theorem LeadsTo.look (h : Parallel S R x y) (k : ∀ a b, R a b → LeadsTo S T R' (f a) (g b)) :
    LeadsTo S T R' (x >>= f) (y >>= g) :=
  fun hS s t hs => (h s t hs).bind hS fun a b s' t' hq => k a b hq.1 hS s' t' hq.2

/-- Both change something and go on. -/
theorem LeadsTo.change (h : LeadsTo S T R x y) (k : ∀ a b, R a b → Parallel T R' (f a) (g b)) :
    LeadsTo S T R' (x >>= f) (y >>= g) :=
  fun hS s t hs => (h hS s t hs).bind (fun _ _ ht => ht) fun a b s' t' hq => k a b hq.1 s' t' hq.2

theorem LeadsTo.ite {c : Prop} [Decidable c] (hthen : c → LeadsTo S T R x y) (helse : ¬ c → LeadsTo S T R x' y') :
    LeadsTo S T R (if c then x else x') (if c then y else y') := by
  split
  · exact hthen ‹_›
  · exact helse ‹_›

theorem LeadsTo.guard {c : Prop} [Decidable c] {f : α' → ExceptT ε (StateM σ) α}
    {g : β' → ExceptT ε (StateM τ) β} (h : ¬ c → LeadsTo S T R x y) :
    LeadsTo S T R (if c then (MonadExcept.throw e) >>= f else x)
      (if c then (MonadExcept.throw e) >>= g else y) :=
  .ite (fun _ => .throw_bind) h

theorem LeadsTo.get_bind {f : σ → ExceptT ε (StateM σ) α} {g : τ → ExceptT ε (StateM τ) β}
    (h : ∀ s t, S s t → LeadsTo S T R (f s) (g t)) : LeadsTo S T R (get >>= f) (get >>= g) :=
  fun hS s t hs => h s t hs hS s t hs

end LeadsTo

namespace Storage

variable {S : σ → τ → Prop} {R : α → β → Prop} {x : StoreM σ α} {y : StoreM τ β}

/-- Calls on the second halves of two pairs. -/
theorem agree_onSecond {η η' : Type} {Q : α → β → η × σ → η' × τ → Prop}
    {S : η × σ → η' × τ → Prop} {s : η × σ} {t : η' × τ}
    (h : Agree x y (fun a b s' t' => Q a b (s.1, s') (t.1, t')) (fun s' t' => S (s.1, s') (t.1, t')) s.2 t.2) :
    Agree (StoreM.onSecond x) (StoreM.onSecond y) Q S s t := by
  obtain ⟨a, b, s', t', hx, hy, h⟩ | ⟨e, s', t', hx, hy, h⟩ := h.cases
  · refine (agree_of_ok ?_ ?_).2 h
    · simp only [StoreM.onSecond, StoreM.within, hx]
    · simp only [StoreM.onSecond, StoreM.within, hy]
  · refine (agree_of_error (e := e) ?_ ?_).2 h
    · simp only [StoreM.onSecond, StoreM.within, hx]
    · simp only [StoreM.onSecond, StoreM.within, hy]

theorem parallel_onSecond {η η' : Type} (h : Parallel S R x y) :
    Parallel (fun (s : η × σ) (t : η' × τ) => S s.2 t.2) R (StoreM.onSecond x) (StoreM.onSecond y) :=
  fun s t hs => agree_onSecond (h s.2 t.2 hs)

/-- The result of a call as a value. -/
theorem parallel_attempt (h : Parallel S R x y) :
    Parallel S (fun a b => (∃ c d, a = .ok c ∧ b = .ok d ∧ R c d) ∨ ∃ e, a = .error e ∧ b = .error e) x.attempt y.attempt := by
  intro s t hs
  obtain ⟨a, b, s', t', hx, hy, hab, hs'⟩ | ⟨e, s', t', hx, hy, hs'⟩ := (h s t hs).cases
  · refine (agree_of_ok ?_ ?_).2 ⟨Or.inl ⟨a, b, rfl, rfl, hab⟩, hs'⟩
    · simp only [StoreM.attempt, hx]
    · simp only [StoreM.attempt, hy]
  · refine (agree_of_ok ?_ ?_).2 ⟨Or.inr ⟨e, rfl, rfl⟩, hs'⟩
    · simp only [StoreM.attempt, hx]
    · simp only [StoreM.attempt, hy]

theorem parallel_settle (r : Except StorageError α) :
    Parallel S Eq (StoreM.settle r) (StoreM.settle r) := by
  intro s t hs
  cases r with
  | ok | error => exact ⟨rfl, hs⟩

/-! ### Transfers in pieces -/

namespace Channel

variable {c : Channel (StoreM σ)} {d : Channel (StoreM τ)}

/-- Reading in pieces, through channels that are read alike. -/
theorem parallel_gather (hread : ∀ pos n, Parallel S Eq (c.read pos n) (d.read pos n)) (fuel pos want : Nat) :
    Parallel S Eq (c.gather fuel pos want) (d.gather fuel pos want) := by
  induction fuel generalizing pos want with
  | zero => exact .pure rfl
  | succ fuel ih =>
    refine .ite (fun _ => .pure rfl) fun _ => .bind_eq (hread pos want) fun bytes => ?_
    exact .ite (fun _ => .pure rfl) fun _ => .bind_eq (ih _ _) fun _ => .pure rfl

/-- Writing in pieces, through channels that are written alike. -/
theorem parallel_scatter (hwrite : ∀ pos data, Parallel S Eq (c.write pos data) (d.write pos data)) (fuel pos : Nat)
    (data : Bytes) : Parallel S Eq (c.scatter fuel pos data) (d.scatter fuel pos data) := by
  induction fuel generalizing pos data with
  | zero => exact .pure rfl
  | succ fuel ih =>
    refine .ite (fun _ => .pure rfl) fun _ => .bind_eq (hwrite pos data) fun n => ?_
    exact .ite (fun _ => .throw) fun _ => .bind_eq (ih _ _) fun _ => .pure rfl

theorem parallel_writeAllAt (hwrite : ∀ pos data, Parallel S Eq (c.write pos data) (d.write pos data)) (data : Bytes)
    (offset : Nat) : Parallel S Eq (c.writeAllAt data offset) (d.writeAllAt data offset) := by
  unfold writeAllAt
  cases endOffset offset data.length with
  | error e => exact .throw
  | ok last => exact parallel_scatter hwrite _ _ _

variable (hsize : Parallel S Eq c.size d.size) (hread : ∀ pos n, Parallel S Eq (c.read pos n) (d.read pos n))

include hsize hread

theorem parallel_readAll : Parallel S Eq c.readAll d.readAll := .bind_eq hsize fun _ => parallel_gather hread _ _ _

theorem parallel_readExactAt (length offset : Nat) :
    Parallel S Eq (c.readExactAt length offset) (d.readExactAt length offset) :=
  .bind_eq hsize fun _ => parallel_gather hread _ _ _

end Channel

end Storage

end Filespace
