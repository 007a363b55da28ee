import Filespace.Storage.Basic

/-!
# Outcomes of calls

Calls on stores and operations on namespaces have one shape: they change a state and give a value or fail,
and a failure keeps the state that was reached. `wp x Q E s` says how such a call ends when it is run from `s`:
with a value and a state in `Q`, or with a failure and a state in `E`.

The rules below take a call apart along its text. A rule for one construct is an equivalence, so a proof about
a call is read off the call; facts about callees enter through `wp.mono`.
-/

namespace Filespace

variable {ε σ α β : Type} {a : α} {e : ε}

/-- How a call ends: in `Q` with a value, or in `E` with a failure. -/
def wp (x : ExceptT ε (StateM σ) α) (Q : α → σ → Prop) (E : ε → σ → Prop) (s : σ) : Prop :=
  match x s with
  | (.ok a, t) => Q a t
  | (.error e, t) => E e t

section Rules

variable {x : ExceptT ε (StateM σ) α} {Q R : α → σ → Prop} {E F : ε → σ → Prop} {s t : σ}

theorem wp_of_ok (h : x s = (.ok a, t)) : wp x Q E s ↔ Q a t := by
  unfold wp
  rw [h]

theorem wp_of_error (h : x s = (.error e, t)) : wp x Q E s ↔ E e t := by
  unfold wp
  rw [h]

/-- What is known of an outcome may be weakened. -/
theorem wp.mono (h : wp x Q E s) (hQ : ∀ a t, Q a t → R a t) (hE : ∀ e t, E e t → F e t) : wp x R F s := by
  unfold wp at *
  split at h
  · exact hQ _ _ h
  · exact hE _ _ h

/-- What is known of success may be weakened alone. -/
theorem wp.imp (h : wp x Q E s) (hQ : ∀ a t, Q a t → R a t) : wp x R E s := h.mono hQ fun _ _ he => he

/-- Two facts about one outcome hold together. -/
theorem wp.and (h : wp x Q E s) (k : wp x R F s) :
    wp x (fun a t => Q a t ∧ R a t) (fun e t => E e t ∧ F e t) s := by
  rcases hx : x s with ⟨r, t⟩
  unfold wp at *
  rw [hx] at h k ⊢
  cases r with
  | ok | error => exact ⟨h, k⟩

theorem wp.ok (h : wp x Q E s) (hx : x s = (.ok a, t)) : Q a t := (wp_of_ok hx).1 h

theorem wp.error (h : wp x Q E s) (hx : x s = (.error e, t)) : E e t := (wp_of_error hx).1 h

/-- A fact about both endings is one about the state that was reached. -/
theorem wp.state {P : σ → Prop} (h : wp x (fun _ t => P t) (fun _ t => P t) s) : P (x s).2 := by
  unfold wp at h
  split at h
  · rename_i hx
    rw [hx]
    exact h
  · rename_i hx
    rw [hx]
    exact h

/-- An outcome is known by what it is in either case. -/
theorem wp_iff : wp x Q E s ↔
    (∀ a t, x s = (.ok a, t) → Q a t) ∧ (∀ e t, x s = (.error e, t) → E e t) := by
  constructor
  · intro h
    exact ⟨fun _ _ hx => h.ok hx, fun _ _ hx => h.error hx⟩
  · rintro ⟨hok, herr⟩
    rcases hx : x s with ⟨r, t⟩
    cases r with
    | ok a => exact (wp_of_ok hx).2 (hok a t hx)
    | error e => exact (wp_of_error hx).2 (herr e t hx)

/-- A call that can end in one way only ends so. -/
theorem eq_ok_of_wp (h : wp x (fun a' t' => a' = a ∧ t' = t) (fun _ _ => False) s) : x s = (.ok a, t) := by
  rcases hx : x s with ⟨r, t'⟩
  cases r with
  | ok a' =>
    obtain ⟨rfl, rfl⟩ := h.ok hx
    rfl
  | error e => exact (h.error hx).elim

/-- A call that cannot fail returns. -/
theorem exists_ok_of_wp (h : wp x Q (fun _ _ => False) s) : ∃ a t, x s = (.ok a, t) ∧ Q a t := by
  rcases hx : x s with ⟨r, t⟩
  cases r with
  | ok a => exact ⟨a, t, rfl, h.ok hx⟩
  | error e => exact (h.error hx).elim

theorem eq_error_of_wp (h : wp x (fun _ _ => False) (fun e' t' => e' = e ∧ t' = t) s) : x s = (.error e, t) := by
  rcases hx : x s with ⟨r, t'⟩
  cases r with
  | ok a => exact (h.ok hx).elim
  | error e' =>
    obtain ⟨rfl, rfl⟩ := h.error hx
    rfl

theorem wp_pure : wp (pure a) Q E s ↔ Q a s := Iff.rfl

theorem wp_throw : wp (throw e) Q E s ↔ E e s := Iff.rfl

/-- A call that succeeds goes on with its value; a failure of the first part is that of the whole. -/
theorem bind_run (x : ExceptT ε (StateM σ) α) (f : α → ExceptT ε (StateM σ) β) (s : σ) :
    (x >>= f) s = match x s with
      | (.ok a, s') => f a s'
      | (.error e, s') => (.error e, s') := by
  simp only [ExceptT.bind, ExceptT.mk, bind, StateT.bind]
  rcases x s with ⟨_ | _, _⟩ <;> rfl

/-- A failure that is caught goes on in the handler. -/
theorem tryCatch_run (x : ExceptT ε (StateM σ) α) (f : ε → ExceptT ε (StateM σ) α) (s : σ) :
    (MonadExcept.tryCatch x f) s = match x s with
      | (.ok a, s') => (.ok a, s')
      | (.error e, s') => f e s' := by
  show ExceptT.tryCatch x f s = _
  simp only [ExceptT.tryCatch, ExceptT.mk, Bind.bind, StateT.bind]
  rcases x s with ⟨_ | _, _⟩ <;> rfl

theorem map_run (f : α → β) (x : ExceptT ε (StateM σ) α) (s : σ) :
    (f <$> x) s = match x s with
      | (.ok a, s') => (.ok (f a), s')
      | (.error e, s') => (.error e, s') := by
  show ExceptT.map f x s = _
  simp only [ExceptT.map, ExceptT.mk, bind, StateT.bind]
  rcases x s with ⟨_ | _, _⟩ <;> rfl

/-- The second call starts where the first ended; a failure of the first is that of both. -/
theorem wp_bind {f : α → ExceptT ε (StateM σ) β} {Q : β → σ → Prop} :
    wp (x >>= f) Q E s ↔ wp x (fun a t => wp (f a) Q E t) E s := by
  unfold wp
  rw [bind_run]
  rcases x s with ⟨_ | _, _⟩ <;> rfl

theorem wp_map {f : α → β} {Q : β → σ → Prop} : wp (f <$> x) Q E s ↔ wp x (fun a t => Q (f a) t) E s := by
  unfold wp
  rw [map_run]
  rcases x s with ⟨_ | _, _⟩ <;> rfl

theorem wp_ite {c : Prop} [Decidable c] {y : ExceptT ε (StateM σ) α} :
    wp (if c then x else y) Q E s ↔ (c → wp x Q E s) ∧ (¬ c → wp y Q E s) := by
  split
  · rename_i h
    exact ⟨fun hx => ⟨fun _ => hx, fun k => absurd h k⟩, fun hx => hx.1 h⟩
  · rename_i h
    exact ⟨fun hx => ⟨fun k => absurd k h, fun _ => hx⟩, fun hx => hx.2 h⟩

theorem wp_get {Q : σ → σ → Prop} : wp get Q E s ↔ Q s s := Iff.rfl

theorem wp_modify {f : σ → σ} {Q : PUnit → σ → Prop} :
    wp (modify f) Q E s ↔ Q ⟨⟩ (f s) := Iff.rfl

/-- A failure that is caught goes on in the handler. -/
theorem wp_tryCatch {h : ε → ExceptT ε (StateM σ) α} :
    wp (tryCatch x h) Q E s ↔ wp x Q (fun e t => wp (h e) Q E t) s := by
  unfold wp
  rw [tryCatch_run]
  rcases x s with ⟨_ | _, _⟩ <;> rfl

/-- A call made for each item of a list keeps what each single call keeps. -/
theorem wp_forM {f : α → ExceptT ε (StateM σ) PUnit} {I : List α → σ → Prop} {l : List α}
    (step : ∀ a rest t, I (a :: rest) t → wp (f a) (fun _ u => I rest u) E t) (h : I l s) :
    wp (l.forM f) (fun _ t => I [] t) E s := by
  induction l generalizing s with
  | nil => exact h
  | cons a rest ih =>
    have hcons : (a :: rest).forM f = f a >>= fun _ => rest.forM f := rfl
    rw [hcons, wp_bind]
    exact (step a rest s h).imp fun _ _ ht => ih ht

end Rules

namespace Storage

variable {Q : α → σ → Prop} {E : StorageError → σ → Prop} {s : σ}

theorem wp_settle {r : Except StorageError α} :
    wp (StoreM.settle r) Q E s ↔
      (∀ a, r = .ok a → Q a s) ∧ (∀ e, r = .error e → E e s) := by
  cases r with
  | ok a =>
    refine ⟨fun h => ⟨fun b hb => ?_, fun e he => (nomatch he)⟩, fun h => h.1 a rfl⟩
    cases hb
    exact h
  | error e =>
    refine ⟨fun h => ⟨fun b hb => (nomatch hb), fun e' he => ?_⟩, fun h => h.2 e rfl⟩
    cases he
    exact h

/-- A call on a part of the state leaves the rest alone. -/
theorem wp_within {τ : Type} {get : σ → τ} {set : τ → σ → σ} {x : StoreM τ α} :
    wp (StoreM.within get set x) Q E s ↔
      wp x (fun a t => Q a (set t s)) (fun e t => E e (set t s)) (get s) := by
  rcases hx : x (get s) with ⟨r, t⟩
  have : StoreM.within get set x s = (r, set t s) := by simp only [StoreM.within, hx]
  cases r with
  | ok a => rw [wp_of_ok this, wp_of_ok hx]
  | error e => rw [wp_of_error this, wp_of_error hx]

/-- A call whose result is taken as a value does not fail. -/
theorem wp_attempt {x : StoreM σ α} {Q : Except StorageError α → σ → Prop} :
    wp x.attempt Q E s ↔ wp x (fun a t => Q (.ok a) t) (fun e t => Q (.error e) t) s := by
  rcases hx : x s with ⟨r, t⟩
  have : x.attempt s = (.ok r, t) := by simp only [StoreM.attempt, hx]
  rw [wp_of_ok this]
  cases r with
  | ok a => rw [wp_of_ok hx]
  | error e => rw [wp_of_error hx]

end Storage

end Filespace
