import Filespace.Proofs.RootedCalls

/-!
# Moves in a host directory

A namespace copies what its store cannot move. A store in a host directory can move everything: a move that fails does so
for another reason, that the host or the store gives (`Rooted.supported_move`).
-/

namespace Filespace.Storage

open Host

variable {σ α β : Type} {e : StorageError} {location : String} {ending : Ending} {h : Host}

/-- The call never fails for want of support. -/
def Supported (x : StoreM σ α) : Prop := ∀ s, wp x (fun _ _ => True) (fun e _ => e.kind ≠ .unsupported) s

namespace Supported

variable {x y : StoreM σ α}

theorem pure {a : α} : Supported (pure a : StoreM σ α) := fun _ => trivial

theorem throw (he : e.kind ≠ .unsupported) : Supported (throw e : StoreM σ α) := fun _ => he

theorem bind {f : α → StoreM σ β} (hx : Supported x) (hf : ∀ a, Supported (f a)) : Supported (x >>= f) :=
  fun s => wp_bind.2 ((hx s).imp fun a t _ => hf a t)

theorem ite {c : Prop} [Decidable c] (hx : c → Supported x) (hy : ¬ c → Supported y) : Supported (if c then x else y) := by
  split
  · exact hx ‹_›
  · exact hy ‹_›

theorem get_bind {f : σ → StoreM σ α} (hf : ∀ s, Supported (f s)) : Supported (get >>= f) := fun s => hf s s

/-- A call whose failure is given as a value does not fail. -/
theorem attempt_bind {f : Except StorageError α → StoreM σ β} (hx : Supported x) (hok : ∀ a, Supported (f (.ok a)))
    (herror : ∀ e, e.kind ≠ .unsupported → Supported (f (.error e))) : Supported (x.attempt >>= f) :=
  fun s => wp_bind.2 (wp_attempt.2 ((hx s).mono (fun a t _ => hok a t) fun e t he => herror e he t))

theorem settle {r : Except StorageError α} (hr : ∀ e, r = .error e → e.kind ≠ .unsupported) :
    Supported (StoreM.settle r : StoreM σ α) := by
  cases r with
  | ok a => exact pure
  | error e => exact throw (hr e rfl)

end Supported

theorem kind_of_go {slash : Bool} {here : Path} {ms : List Path.Move} {e : Errno}
    (hgo : go h ending slash here ms = .done (.error e)) : e.kind ≠ .unsupported := by
  have hstop : (go h ending slash here ms).Possible h slash := go_possible
  rwa [hgo] at hstop

theorem kind_of_walk {links : Nat} {here : Path} {way : Route} {e : Errno}
    (hwalk : walk h ending links here way = .error e) : e.kind ≠ .unsupported := by
  fun_induction walk h ending links here way with
  | case1 links here way r hgo =>
    subst hwalk
    exact kind_of_go hgo
  | case2 =>
    cases hwalk
    decide
  | case3 here way dir target rest hgo n inner ih => exact ih hwalk

theorem kind_of_checkLocation (hcheck : checkLocation location = .error e) : e.kind ≠ .unsupported := by
  unfold checkLocation at hcheck
  split at hcheck
  · cases hcheck
    decide
  split at hcheck
  · cases hcheck
    decide
  split at hcheck
  · cases hcheck
    decide
  · cases hcheck

theorem kind_of_resolve (hresolve : h.resolve location ending = .error e) : e.kind ≠ .unsupported := by
  rw [resolve_eq] at hresolve
  cases hcheck : checkLocation location with
  | error c =>
    rw [hcheck] at hresolve
    cases hresolve
    exact kind_of_checkLocation hcheck
  | ok =>
    rw [hcheck] at hresolve
    cases hwalk : walk h ending maxLinks (h.startOf location) (.of location) with
    | error c =>
      rw [hwalk] at hresolve
      cases hresolve
      exact kind_of_walk hwalk
    | ok spot =>
      rw [hwalk] at hresolve
      cases hresolve

theorem kind_of_placeOf (hplace : h.placeOf location = .error e) : e.kind ≠ .unsupported := by
  unfold placeOf at hplace
  cases hcheck : checkLocation location with
  | error c =>
    rw [hcheck] at hplace
    cases hplace
    exact kind_of_checkLocation hcheck
  | ok =>
    rw [hcheck] at hplace
    cases hwalk : walk h .follow maxLinks (h.startOf location) ⟨(Route.of location).moves.dropLast, true⟩ with
    | error c =>
      simp only [hwalk] at hplace
      cases hplace
      exact kind_of_walk hwalk
    | ok spot =>
      simp only [hwalk] at hplace
      cases spot with
      | found p x => cases hplace
      | free dir n =>
        cases hplace
        decide

/-! ### Calls of the host -/

theorem supported_fail {e : Errno} (he : e.kind ≠ .unsupported) : Supported (Host.fail e : StoreM Host α) := .throw he

theorem supported_lstat (location : String) : Supported (lstat location) := by
  refine .bind (.get_bind fun _ => .settle fun _ => kind_of_resolve) fun spot => ?_
  cases spot with
  | found p x => exact .pure
  | free dir n => exact supported_fail (by decide)

theorem supported_locatePlace (location : String) : Supported (locatePlace location) :=
  .get_bind fun _ => .settle fun _ => kind_of_placeOf

theorem supported_entryIn (dir : Path) (n : Name) : Supported (entryIn? dir n) :=
  .ite (fun _ => supported_fail (by decide)) fun _ => .get_bind fun _ => .pure

theorem supported_replaceEntry (p q : Path) (m : Node) (x : Option Node) : Supported (replaceEntry p q m x) := by
  intro h
  obtain ⟨e, he, hrun⟩ | hrun | ⟨-, -, hrun⟩ | ⟨-, hrun⟩ := replaceEntry_cases p q m x (h.hasChildren q)
  · exact (wp_of_error (hrun h rfl)).2 he
  · exact (wp_of_ok (hrun h rfl)).2 trivial
  · exact (wp_of_ok (hrun h)).2 trivial
  · exact (wp_of_ok (hrun h rfl)).2 trivial

theorem supported_rename (source target : String) : Supported (rename source target) := by
  refine .bind (supported_locatePlace source) fun old => .bind (supported_locatePlace target) fun new => ?_
  split
  · refine .bind (supported_entryIn _ _) fun found => ?_
    cases found with
    | none => exact supported_fail (by decide)
    | some m =>
      refine .bind (supported_entryIn _ _) fun n => .ite (fun _ => supported_fail (by decide)) fun _ => .get_bind fun _ => ?_
      exact .ite (fun _ => supported_fail (by decide)) fun _ => supported_replaceEntry _ _ _ _
  · exact supported_fail (by decide)

/-! ### Calls of the store -/

namespace Rooted

variable {r : Rooted}

theorem supported_find? (location : String) : Supported (find? location) :=
  .attempt_bind (supported_lstat location) (fun _ => .pure) fun _ he => .ite (fun _ => .pure) fun _ => .throw he

theorem supported_directory (p : Path) : Supported (r.directory p false) := by
  induction p using Path.induction_child with
  | base => exact .pure
  | step p n ih =>
    rw [directory_child]
    refine .bind ih fun _ => .attempt_bind (supported_lstat _) (fun x => ?_) fun e he => ?_
    · cases x with
      | directory => exact .pure
      | file | link => exact .throw (by simp [StorageError.kind])
    · exact .ite (fun hcreate => absurd hcreate.2 Bool.false_ne_true) fun _ => .throw he

/-- A move that fails does not do so because the store cannot move. -/
theorem supported_move (source target : Path) : Supported (r.move source target) := by
  refine .ite (fun _ => .throw (by simp [StorageError.kind])) fun _ => .bind (supported_find? _) fun found => ?_
  refine .ite (fun _ => .throw (by simp [StorageError.kind])) fun _ => .bind (supported_find? _) fun taken => ?_
  refine .ite (fun _ => .throw (by simp [StorageError.kind])) fun _ => ?_
  cases target.parent? with
  | none => exact supported_rename _ _
  | some parent => exact .bind (supported_directory parent) fun _ => supported_rename _ _

end Rooted

end Filespace.Storage
