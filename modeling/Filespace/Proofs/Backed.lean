import Filespace.Proofs.MemoryCalls
import Filespace.Request
import Filespace.Storage.Faulty

/-!
# Stores with a tree in memory behind them

A store is `Backed` if each of its calls either does what the same call does on a tree in memory, or is refused
without effect. The store in memory is backed by itself and refuses nothing more; behind a plan of failures it is
backed by the same tree and refuses whatever the plan says (`Backed Memory`, `Backed (Faulty Memory)`).

`treeWp x Q E m` is the `wp` of a call on a backed store seen as a call on its tree: it starts from any store with
tree `m`, and `Q` and `E` speak of the tree at the end. Closing a handle is the one call that has its effect
also when it is refused.
-/

namespace Filespace.Storage

open Memory FileStore

variable {φ α β : Type} {e : StorageError}

/-- A call on a store does what a call on its tree does, or is refused without effect. -/
def Acts (tree : φ → Memory) (refuses : StorageError → Prop) (f : α → β) (x : StoreM (Host × φ) α)
    (y : StoreM Memory β) : Prop :=
  ∀ h s, wp x (fun a t => t.1 = h ∧ y (tree s) = (.ok (f a), tree t.2))
    (fun e t => t.1 = h ∧ (y (tree s) = (.error e, tree t.2) ∨ refuses e ∧ tree t.2 = tree s)) (h, s)

/-- A store whose calls are those of a tree in memory, apart from calls that are refused. -/
class Backed (φ : Type) [FileStore φ] where
  /-- The tree. -/
  tree : φ → Memory
  /-- A handle as one of the tree. -/
  memoryHandle : Handle φ → Handle
  /-- The failures that a call can be refused with. -/
  refuses : StorageError → Prop
  directory : ∀ p create, Acts tree refuses id (directory p create) (directory p create)
  file : ∀ p create, Acts tree refuses id (file p create) (file p create)
  openHandle : ∀ p, Acts tree refuses memoryHandle (openHandle p) (openHandle p)
  remove : ∀ p recursive, Acts tree refuses id (remove p recursive) (remove p recursive)
  move : ∀ p q, Acts tree refuses id (move p q) (move p q)
  list : ∀ p, Acts tree refuses id (list p) (list p)
  entry : ∀ p, Acts tree refuses id (entry p) (entry p)
  writeAt : ∀ p offset data, Acts tree refuses id (writeAt p offset data) (writeAt p offset data)
  read : ∀ h pos n, Acts tree refuses id (read h pos n) (read (memoryHandle h) pos n)
  write : ∀ h pos data, Acts tree refuses id (write h pos data) (write (memoryHandle h) pos data)
  truncate : ∀ h n, Acts tree refuses id (truncate h n) (truncate (memoryHandle h) n)
  flush : ∀ h, Acts tree refuses id (flush h) (pure ())
  size : ∀ h, Acts tree refuses id (size h) (size (memoryHandle h))
  /-- A handle is released whether or not closing it is refused. -/
  close : ∀ h host s, wp (close h)
    (fun _ t => t.1 = host ∧ tree t.2 = (tree s).release (memoryHandle h))
    (fun e t => t.1 = host ∧ tree t.2 = (tree s).release (memoryHandle h) ∧ refuses e) (host, s)

/-! ### The store in memory -/

theorem acts_onSecond (x : StoreM Memory α) : Acts id (fun _ => False) id (StoreM.onSecond x) x := by
  intro h s
  unfold StoreM.onSecond
  rw [wp_within, wp_iff]
  exact ⟨fun _ _ hx => ⟨rfl, hx⟩, fun _ _ hx => ⟨rfl, Or.inl hx⟩⟩

instance : Backed Memory where
  tree := id
  memoryHandle := id
  refuses _ := False
  directory _ _ := acts_onSecond _
  file _ _ := acts_onSecond _
  openHandle _ := acts_onSecond _
  remove _ _ := acts_onSecond _
  move _ _ := acts_onSecond _
  list _ := acts_onSecond _
  entry _ := acts_onSecond _
  writeAt _ _ _ := acts_onSecond _
  read _ _ _ := acts_onSecond _
  write _ _ _ := acts_onSecond _
  truncate _ _ := acts_onSecond _
  flush _ _ _ := ⟨rfl, rfl⟩
  size _ := acts_onSecond _
  close _ _ _ := ⟨rfl, rfl⟩

/-! ### A plan of failures in front of it -/

namespace Faulty

variable {y : StoreM Memory β} {f : α → β} {x : StoreM (Host × Memory) α}

/-- The plan lets a call through or refuses it; the store behind it stays in either case. -/
theorem wp_planned (call : Call) (p : Path) (s : Host × Faulty φ) :
    wp (planned call p) (fun _ t => t.1 = s.1 ∧ t.2.inner = s.2.inner)
      (fun _ t => t.1 = s.1 ∧ t.2.inner = s.2.inner) s := by
  unfold planned
  rw [wp_bind, wp_get]
  rcases s.2.plan s.2.calls call p with _ | (e | _)
  · exact ⟨rfl, rfl⟩
  · exact ⟨rfl, rfl⟩
  · exact ⟨rfl, rfl⟩

theorem acts_direct {call : Call} {p : Path} (hx : Acts id (fun _ => False) f x y) :
    Acts inner (fun _ => True) f (direct call p x) y := by
  intro h s
  unfold direct
  rw [wp_bind]
  refine (wp_planned call p (h, s)).mono ?_ fun _ _ ht => ⟨ht.1, Or.inr ⟨trivial, ht.2⟩⟩
  rintro - ⟨h', t⟩ ⟨rfl, ht⟩
  unfold pass
  rw [wp_within]
  refine (hx h' t.inner).mono ?_ ?_
  · rintro a u ⟨hu, hy⟩
    exact ⟨hu, by rw [← ht]; exact hy⟩
  · rintro e u ⟨hu, hy | hy⟩
    · exact ⟨hu, Or.inl (by rw [← ht]; exact hy)⟩
    · exact hy.1.elim

theorem acts_served {call : Call} {p : Path} (hx : Acts id (fun _ => False) f x y) :
    Acts inner (fun _ => True) f (served call p x) y := by
  intro h s
  unfold served
  rw [wp_bind, wp_get, wp_ite]
  refine ⟨fun _ => ⟨rfl, Or.inr ⟨trivial, rfl⟩⟩, fun _ => ?_⟩
  exact acts_direct hx h s

end Faulty

instance : Backed (Faulty Memory) where
  tree := Faulty.inner
  memoryHandle := Prod.snd
  refuses _ := True
  directory _ _ := Faulty.acts_served (acts_onSecond _)
  file _ _ := Faulty.acts_served (acts_onSecond _)
  openHandle p := Faulty.acts_served fun h s => by
    rw [wp_bind]
    exact acts_onSecond (openHandle p) h s
  remove _ _ := Faulty.acts_served (acts_onSecond _)
  move _ _ := Faulty.acts_served (acts_onSecond _)
  list _ := Faulty.acts_served (acts_onSecond _)
  entry _ := Faulty.acts_served (acts_onSecond _)
  writeAt _ _ _ := Faulty.acts_served (acts_onSecond _)
  read _ _ _ := Faulty.acts_direct (acts_onSecond _)
  write _ _ _ := Faulty.acts_direct (acts_onSecond _)
  truncate _ _ := Faulty.acts_direct (acts_onSecond _)
  flush _ := Faulty.acts_direct fun _ _ => ⟨rfl, rfl⟩
  size _ := Faulty.acts_direct (acts_onSecond _)
  close h host s := by
    show wp (Faulty.pass (close h.2) >>= fun _ => Faulty.planned .close h.1) _ _ _
    unfold Faulty.pass
    rw [wp_bind, wp_within]
    exact (Faulty.wp_planned .close h.1 (host, { s with inner := s.inner.release h.2 })).mono
      (fun _ _ ht => ht) (fun _ _ ht => ⟨ht.1, ht.2, trivial⟩)

/-! ### Calls seen on the tree -/

section Rules

variable [FileStore φ] [Backed φ]

/-- How a call ends, seen on the tree behind the store. -/
def treeWp (x : StoreM (Host × φ) α) (Q : α → Memory → Prop) (E : StorageError → Memory → Prop) (m : Memory) :
    Prop :=
  ∀ h s, Backed.tree s = m →
    wp x (fun a t => t.1 = h ∧ Q a (Backed.tree t.2)) (fun e t => t.1 = h ∧ E e (Backed.tree t.2)) (h, s)

/-- A failure is of the kind "busy" only if something is the case, or if the call was refused. -/
def BusyOnly (φ : Type) [FileStore φ] [Backed φ] (P : Prop) (e : StorageError) : Prop :=
  e.kind = .resourceBusy → Backed.refuses φ e ∨ P

/-- A failure that has changed nothing. -/
def NoEffect (φ : Type) [FileStore φ] [Backed φ] (m : Memory) (P : Prop) (e : StorageError) (m' : Memory) : Prop :=
  m' = m ∧ BusyOnly φ P e

variable {x : StoreM (Host × φ) α} {Q R : α → Memory → Prop} {E F : StorageError → Memory → Prop} {m : Memory}

theorem BusyOnly.mono {P P' : Prop} (h : BusyOnly φ P e) (hP : P → P') : BusyOnly φ P' e :=
  fun hb => (h hb).imp_right hP

theorem NoEffect.mono {P P' : Prop} {m' : Memory} (h : NoEffect φ m P e m') (hP : P → P') : NoEffect φ m P' e m' :=
  ⟨h.1, h.2.mono hP⟩

theorem NoEffect.of_refused {P : Prop} (h : Backed.refuses φ e) : NoEffect φ m P e m :=
  ⟨rfl, fun _ => Or.inl h⟩

theorem treeWp.mono (h : treeWp x Q E m) (hQ : ∀ a m', Q a m' → R a m') (hE : ∀ e m', E e m' → F e m') :
    treeWp x R F m := by
  intro host s hs
  exact (h host s hs).mono (fun _ _ ht => ⟨ht.1, hQ _ _ ht.2⟩) (fun _ _ ht => ⟨ht.1, hE _ _ ht.2⟩)

theorem treeWp.imp (h : treeWp x Q E m) (hQ : ∀ a m', Q a m' → R a m') : treeWp x R E m := h.mono hQ fun _ _ he => he

theorem treeWp.and (h : treeWp x Q E m) (k : treeWp x R F m) :
    treeWp x (fun a m' => Q a m' ∧ R a m') (fun e m' => E e m' ∧ F e m') m := by
  intro host s hs
  exact ((h host s hs).and (k host s hs)).mono (fun _ _ ht => ⟨ht.1.1, ht.1.2, ht.2.2⟩) fun _ _ ht => ⟨ht.1.1, ht.1.2, ht.2.2⟩

theorem treeWp_pure {a : α} (h : Q a m) : treeWp (pure a : StoreM (Host × φ) α) Q E m := by
  rintro host s rfl
  exact ⟨rfl, h⟩

theorem treeWp_throw (h : E e m) : treeWp (throw e : StoreM (Host × φ) α) Q E m := by
  rintro host s rfl
  exact ⟨rfl, h⟩

theorem treeWp_bind {f : α → StoreM (Host × φ) β} {Q : β → Memory → Prop}
    (h : treeWp x (fun a m' => treeWp (f a) Q E m') E m) : treeWp (x >>= f) Q E m := by
  intro host s hs
  rw [wp_bind]
  refine (h host s hs).imp ?_
  rintro a ⟨h', t⟩ ⟨rfl, ht⟩
  exact ht h' t rfl

/-- What a call reads of the store beyond its tree does not count. -/
theorem treeWp_get_bind {f : Host × φ → StoreM (Host × φ) α} (h : ∀ s, treeWp (f s) Q E m) :
    treeWp (get >>= f) Q E m := by
  intro host s hs
  exact h (host, s) host s hs

theorem treeWp_ite {c : Prop} [Decidable c] {y : StoreM (Host × φ) α} (hx : c → treeWp x Q E m)
    (hy : ¬ c → treeWp y Q E m) : treeWp (if c then x else y) Q E m := by
  split
  · exact hx ‹_›
  · exact hy ‹_›

theorem treeWp_settle {r : Except StorageError α} (hok : ∀ a, r = .ok a → Q a m)
    (herr : ∀ e, r = .error e → E e m) : treeWp (StoreM.settle r : StoreM (Host × φ) α) Q E m := by
  rintro host s rfl
  exact wp_settle.2 ⟨fun a ha => ⟨rfl, hok a ha⟩, fun e he => ⟨rfl, herr e he⟩⟩

theorem treeWp_attempt {Q : Except StorageError α → Memory → Prop}
    (h : treeWp x (fun a m' => Q (.ok a) m') (fun e m' => Q (.error e) m') m) : treeWp x.attempt Q E m := by
  intro host s hs
  exact wp_attempt.2 (h host s hs)

theorem treeWp_forM {f : α → StoreM (Host × φ) PUnit} {I : List α → Memory → Prop} {l : List α}
    (step : ∀ a rest m', I (a :: rest) m' → treeWp (f a) (fun _ m'' => I rest m'') E m') (h : I l m) :
    treeWp (l.forM f) (fun _ m' => I [] m') E m := by
  rintro host s rfl
  refine wp_forM (I := fun rest (t : Host × φ) => t.1 = host ∧ I rest (Backed.tree t.2)) ?_ ⟨rfl, h⟩
  rintro a rest ⟨h', t⟩ ⟨rfl, ht⟩
  exact step a rest _ ht h' t rfl

/-- What is known of a call on the tree is known of the call on the store, which can also be refused. -/
theorem Acts.treeWp {f : α → β} {y : StoreM Memory β} {Q : β → Memory → Prop} {P : Prop}
    (hx : Acts Backed.tree (Backed.refuses φ) f x y)
    (hy : wp y Q (fun e m' => m' = m ∧ (e.kind = .resourceBusy → P)) m) :
    treeWp x (fun a m' => Q (f a) m') (NoEffect φ m P) m := by
  rintro host s rfl
  refine (hx host s).mono ?_ ?_
  · rintro a t ⟨ht, hya⟩
    exact ⟨ht, hy.ok hya⟩
  · rintro e t ⟨ht, hye | ⟨hr, htree⟩⟩
    · obtain ⟨hm, hb⟩ := hy.error hye
      exact ⟨ht, hm, fun hk => Or.inr (hb hk)⟩
    · rw [htree]
      exact ⟨ht, NoEffect.of_refused hr⟩

/-- Closing a handle releases it, also when closing is refused. -/
theorem treeWp_close (h : Handle φ) (m : Memory) :
    treeWp (close h) (fun _ m' => m' = m.release (Backed.memoryHandle h))
      (fun e m' => m' = m.release (Backed.memoryHandle h) ∧ Backed.refuses φ e) m := by
  rintro host s rfl
  exact Backed.close h host s

end Rules

end Filespace.Storage
