import Filespace.Proofs.Copying
import Filespace.Storage.Session

/-!
# Reachable stores

A store in memory is reachable if some use of it leads there: a fresh store, any calls with any handles, and time that
passes in between. The tree of a reachable store is in order, whoever used the store: it is closed
(`Memory.Reachable.closed`), and no file is too long (`Memory.Reachable.short`). Every call keeps it so.
-/

namespace Filespace.Storage

open Memory Backed Session

variable {φ α β : Type} [FileStore φ] [Backed φ] {s : Session Memory}

/-! ### Trees in order -/

/-- A closed tree without a file that is too long. -/
structure Memory.Orderly (m : Memory) : Prop where
  closed : m.Closed
  short : m.Short

namespace Memory.Orderly

variable {m : Memory} {p : Path} {d : FileData}

/-- A file is exchanged for one that is short if it was. -/
theorem put_file (h : m.Orderly) (hd : m.node? p = some (.file d)) {d' : FileData}
    (hd' : d.bytes.length ≤ maxLength → d'.bytes.length ≤ maxLength) : (m.put p (.file d')).Orderly :=
  ⟨h.closed.congr (kind?_put_file hd), h.short.put (hd' (h.short.bytes hd))⟩

theorem revised (h : m.Orderly) (hd : m.node? p = some (.file d)) {bytes : Bytes}
    (hbytes : d.bytes.length ≤ maxLength → bytes.length ≤ maxLength) : (m.revised p d bytes).Orderly :=
  ⟨h.closed.congr fun q => kind?_of_outline? (outline?_revised hd bytes q),
    h.short.revised (hbytes (h.short.bytes hd))⟩

theorem release (h : m.Orderly) (k : Handle) : (m.release k).Orderly :=
  ⟨h.closed.congr (kind?_release m k), h.short.release k⟩

theorem grown (h : m.Orderly) (p : Path) : (m.grown p).Orderly := ⟨h.closed.grown p, h.short.grown p⟩

theorem written (h : m.Orderly) {k : Handle} {data : Bytes} {offset : Nat}
    (hfits : data.isEmpty = true ∨ m.fileOf? k = none ∨ offset + data.length ≤ maxLength) :
    (m.written k data offset).Orderly := by
  unfold Memory.written
  split
  · exact h
  · rename_i hdata
    split
    · rename_i d hd
      have hfits : offset + data.length ≤ maxLength := (hfits.resolve_left hdata).resolve_left (by rw [hd]; simp)
      exact h.revised (fileOf?_eq_some_iff.1 hd).1 (length_overwrite_le hfits)
    · exact h

end Memory.Orderly

/-! ### Calls that keep the order -/

/-- Whatever comes of a call, a tree in order is in order afterwards. -/
def KeepsOrder (x : StoreM (Host × φ) α) : Prop :=
  ∀ m : Memory, m.Orderly → treeWp x (fun _ m' => m'.Orderly) (fun _ m' => m'.Orderly) m

theorem KeepsOrder.pure (a : α) : KeepsOrder (pure a : StoreM (Host × φ) α) := fun _ hc => treeWp_pure hc

theorem KeepsOrder.throw (e : StorageError) : KeepsOrder (throw e : StoreM (Host × φ) α) :=
  fun _ hc => treeWp_throw hc

theorem KeepsOrder.bind {x : StoreM (Host × φ) α} {f : α → StoreM (Host × φ) β} (hx : KeepsOrder x)
    (hf : ∀ a, KeepsOrder (f a)) : KeepsOrder (x >>= f) :=
  fun m hc => treeWp_bind ((hx m hc).imp fun a m' hm => hf a m' hm)

/-- A call that changes nothing if it fails. -/
theorem KeepsOrder.of_noEffect {x : StoreM (Host × φ) α} {Q : Memory → α → Memory → Prop} {P : Memory → Prop}
    (hx : ∀ m, m.Orderly → treeWp x (Q m) (NoEffect φ m (P m)) m)
    (hQ : ∀ m a m', m.Orderly → Q m a m' → m'.Orderly) : KeepsOrder x := by
  intro m hc
  refine (hx m hc).mono (fun a m' => hQ m a m' hc) ?_
  rintro e m' ⟨rfl, -⟩
  exact hc

theorem keepsOrder_directory (p : Path) (create : Bool) : KeepsOrder (FileStore.directory (φ := φ) p create) := by
  cases create with
  | false =>
    refine .of_noEffect (fun m _ => (Backed.directory p false).treeWp (wp_directory_false p m)) ?_
    rintro m a m' hc ⟨rfl, -⟩
    exact hc
  | true =>
    refine .of_noEffect (fun m hc => (Backed.directory p true).treeWp (hc.closed.wp_directory_true p)) ?_
    rintro m a m' hc ⟨rfl, -⟩
    exact hc.grown p

theorem keepsOrder_file (p : Path) (create : Bool) : KeepsOrder (FileStore.file (φ := φ) p create) := by
  cases create with
  | false =>
    refine .of_noEffect (fun m _ => (Backed.file p false).treeWp (wp_file_false p m)) ?_
    rintro m a m' hc ⟨rfl, -⟩
    exact hc
  | true =>
    refine .of_noEffect (fun m hc => (Backed.file p true).treeWp (hc.closed.wp_file_true p)) ?_
    rintro m a m' hc (⟨rfl, -⟩ | ⟨dir, n, rfl, hnone, -, rfl⟩)
    · exact hc
    · have hmade := (hc.closed.grown dir).made (hc.closed.node?_grown_self dir)
        (by rw [node?_grown_child, hnone])
      exact ⟨hmade, (hc.grown dir).short.made _⟩

theorem keepsOrder_openHandle (p : Path) : KeepsOrder (FileStore.openHandle (φ := φ) p) := by
  refine .of_noEffect (fun m _ => (Backed.openHandle p).treeWp (wp_openHandle p m)) ?_
  rintro m h m' hc ⟨d, hd, -, -, rfl⟩
  exact hc.put_file hd id

theorem keepsOrder_remove (p : Path) (recursive : Bool) : KeepsOrder (FileStore.remove (φ := φ) p recursive) := by
  refine .of_noEffect (fun m hc => (Backed.remove p recursive).treeWp (hc.closed.wp_remove p recursive)) ?_
  rintro m h m' hc ⟨hroot, -, -, -, rfl⟩
  exact ⟨hc.closed.prune hroot, hc.short.prune p⟩

theorem keepsOrder_move (source target : Path) : KeepsOrder (FileStore.move (φ := φ) source target) := by
  refine .of_noEffect (fun m hc => (Backed.move source target).treeWp (hc.closed.wp_move source target)) ?_
  rintro m h m' hc ⟨hroot, -, houtside, hfree, ⟨dir, hp, hd⟩, -, rfl⟩
  exact ⟨hc.closed.graft hroot houtside hfree hp hd, hc.closed.short_graft hfree hc.short⟩

theorem keepsOrder_list (p : Path) : KeepsOrder (FileStore.list (φ := φ) p) := by
  refine .of_noEffect (fun m _ => (Backed.list p).treeWp (wp_list p m)) ?_
  rintro m a m' hc ⟨rfl, -⟩
  exact hc

theorem keepsOrder_entry (p : Path) : KeepsOrder (FileStore.entry (φ := φ) p) := by
  refine .of_noEffect (fun m _ => treeWp_entry p m) ?_
  rintro m a m' hc ⟨rfl, -⟩
  exact hc

theorem keepsOrder_writeAt (p : Path) (offset : Nat) (data : Bytes) :
    KeepsOrder (FileStore.writeAt (φ := φ) p offset data) := by
  refine .of_noEffect (fun m _ => (Backed.writeAt p offset data).treeWp (wp_writeAt p offset data m)) ?_
  rintro m n m' hc ⟨d, hd, -, -, rfl, hfits⟩
  exact hc.revised hd (length_overwrite_le hfits)

theorem keepsOrder_close (h : FileStore.Handle φ) : KeepsOrder (FileStore.close h) := by
  intro m hc
  refine (treeWp_close h m).mono ?_ ?_
  · rintro - m' rfl
    exact hc.release _
  · rintro e m' ⟨rfl, -⟩
    exact hc.release _

theorem keepsOrder_truncate (h : FileStore.Handle φ) (length : Nat) : KeepsOrder (FileStore.truncate h length) := by
  refine .of_noEffect (fun m _ => (truncate h length).treeWp (wp_truncate _ length m)) ?_
  rintro m - m' hc (⟨-, rfl⟩ | ⟨d, hd, rfl, hfits⟩)
  · exact hc
  · refine hc.revised (fileOf?_eq_some_iff.1 hd).1 fun _ => ?_
    rwa [Bytes.length_resize]

theorem keepsOrder_write (h : FileStore.Handle φ) (pos : Nat) (data : Bytes) :
    KeepsOrder (FileStore.write h pos data) := by
  refine .of_noEffect (fun m _ => (write h pos data).treeWp (wp_write _ pos data m)) ?_
  rintro m n m' hc ⟨-, ⟨-, rfl⟩ | ⟨d, hd, rfl, hfits⟩⟩
  · exact hc
  · exact hc.revised (fileOf?_eq_some_iff.1 hd).1 (length_overwrite_le hfits)

/-! ### Copying -/

theorem keepsOrder_slurp (p : Path) : KeepsOrder (FileStore.slurp (φ := φ) p) := by
  refine (keepsOrder_openHandle p).bind fun h => ?_
  refine KeepsOrder.bind (fun m hc => treeWp_attempt ((treeWp_readAll h m).mono ?_ ?_)) fun r => ?_
  · rintro data m' ⟨rfl, -⟩
    exact hc
  · rintro e m' ⟨rfl, -⟩
    exact hc
  · exact (keepsOrder_close h).bind fun _ m hc => treeWp_settle (fun _ _ => hc) fun _ _ => hc

theorem keepsOrder_copyTree (depth : Nat) (source target : Path) :
    KeepsOrder (FileStore.copyTree (φ := φ) depth source target) := by
  induction depth generalizing source target with
  | zero => exact .throw _
  | succ depth ih =>
    refine (keepsOrder_entry source).bind fun e => ?_
    rcases e with _ | (_ | ⟨size, modified⟩)
    · exact .throw _
    · refine (keepsOrder_directory source false).bind fun _ => ?_
      refine (keepsOrder_directory target true).bind fun _ => ?_
      refine (keepsOrder_list source).bind fun l m hc => ?_
      exact treeWp_forM (I := fun _ m' => m'.Orderly) (fun x _ m' hm => ih (source.child x.1) (target.child x.1) m' hm) hc
    · refine (keepsOrder_file source false).bind fun _ => ?_
      refine (keepsOrder_slurp source).bind fun data => ?_
      refine (keepsOrder_file target true).bind fun _ => ?_
      exact (keepsOrder_writeAt target 0 data).bind fun _ => .pure _

theorem keepsOrder_copy (source target : Path) : KeepsOrder (FileStore.copy (φ := φ) source target) :=
  fun m hc => treeWp_get_bind fun _ => keepsOrder_copyTree _ source target m hc

/-! ### Sessions -/

/-- A use of a store in memory: what is done to it, with the handles that are open on it. -/
inductive Memory.Used : Session Memory → Prop
  | fresh (host : Host) (crossMoves : Bool) (clock : Nat) :
      Used ⟨(host, { crossMoves := crossMoves, clock := clock }), ∅⟩
  | step {s : Session Memory} (step : Step) (h : Used s) : Used (step.run s).2
  | tick {s : Session Memory} (host : Host) (clock : Nat) (h : Used s) :
      Used { s with world := (host, { s.world.2 with clock := clock }) }

/-- A store that some use of it leads to. -/
def Memory.Reachable (m : Memory) : Prop := ∃ s, Used s ∧ s.world.2 = m

theorem HandleStep.keepsOrder_run (h : Handle) (step : HandleStep) :
    KeepsOrder (φ := Memory) (step.run h) := by
  -- A call that only looks.
  have hlook : ∀ {α : Type} {x : StoreM (Host × Memory) α} {T : Memory → α → Prop},
      (∀ m, treeWp x (fun a m' => m' = m ∧ T m a) (NoEffect Memory m False) m) → KeepsOrder x := by
    intro α x T hx
    refine .of_noEffect (fun m _ => hx m) ?_
    rintro m a m' hc ⟨rfl, -⟩
    exact hc
  cases step with
  | read pos length =>
    exact (hlook fun m => (Backed.read (φ := Memory) h pos length).treeWp (wp_read h pos length m _)).bind
      fun _ => .pure _
  | write pos data => exact (keepsOrder_write (φ := Memory) h pos data).bind fun _ => .pure _
  | truncate length => exact (keepsOrder_truncate (φ := Memory) h length).bind fun _ => .pure _
  | flush => exact KeepsOrder.bind (.pure ()) fun _ => .pure _
  | size => exact (hlook fun m => treeWp_size (φ := Memory) h m).bind fun _ => .pure _
  | readAll => exact (hlook fun m => treeWp_readAll (φ := Memory) h m).bind fun _ => .pure _
  | readExactAt length offset =>
    exact (hlook fun m => treeWp_readExactAt (φ := Memory) h m length offset).bind fun _ => .pure _
  | writeAllAt data offset =>
    refine KeepsOrder.bind (.of_noEffect (fun m _ => treeWp_writeAllAt (φ := Memory) h m data offset) ?_)
      fun _ => .pure _
    rintro m n m' hc ⟨-, rfl, hfits⟩
    exact hc.written hfits
  | close => exact (keepsOrder_close (φ := Memory) h).bind fun _ => .pure _
  | release =>
    refine KeepsOrder.bind (fun m hc => ?_) fun _ => .pure _
    rintro host s rfl
    exact ⟨rfl, hc.release h⟩

/-- A call of a session keeps the tree in order if the call does. -/
theorem Session.orderly_call {x : StoreM (Host × Memory) α} (hx : KeepsOrder x)
    (hc : s.world.2.Orderly) : (s.call x).2.world.2.Orderly := by
  have hwp := hx s.world.2 hc s.world.1 s.world.2 rfl
  exact wp.state (hwp.mono (fun _ _ h => h.2) fun _ _ h => h.2)

theorem Session.orderly_keep (name : String) (h : Handle) (hc : s.world.2.Orderly) :
    (s.keep name h).world.2.Orderly := by
  unfold keep
  cases s.handles.get? name with
  | none => exact hc
  | some old => exact hc.release old

/-- A step of a session keeps the tree in order. -/
theorem Step.orderly_run (step : Step) (hc : s.world.2.Orderly) : (step.run s).2.world.2.Orderly := by
  cases step with
  | directory p create => exact orderly_call ((keepsOrder_directory p create).bind fun _ => .pure _) hc
  | file p create => exact orderly_call ((keepsOrder_file p create).bind fun _ => .pure _) hc
  | openHandle p name =>
    have hopen := orderly_call (keepsOrder_openHandle p) hc
    simp only [run]
    rcases hcall : s.call (FileStore.openHandle p) with ⟨_ | h, t⟩
    · rw [hcall] at hopen
      exact hopen
    · rw [hcall] at hopen
      exact orderly_keep name h hopen
  | remove p recursive => exact orderly_call ((keepsOrder_remove p recursive).bind fun _ => .pure _) hc
  | move source target => exact orderly_call ((keepsOrder_move source target).bind fun _ => .pure _) hc
  | copy source target => exact orderly_call ((keepsOrder_copy source target).bind fun _ => .pure _) hc
  | list p => exact orderly_call ((keepsOrder_list p).bind fun _ => .pure _) hc
  | entry p => exact orderly_call ((keepsOrder_entry p).bind fun _ => .pure _) hc
  | writeAt p offset data => exact orderly_call ((keepsOrder_writeAt p offset data).bind fun _ => .pure _) hc
  | onHandle name step =>
    simp only [run]
    cases s.handles.get? name with
    | none => exact hc
    | some h =>
      refine orderly_call (step.keepsOrder_run h) ?_
      split
      · exact hc
      · exact hc

/-- Along every use of a store its tree is in order. -/
theorem Memory.Used.orderly (h : Used s) : s.world.2.Orderly := by
  induction h with
  | fresh host crossMoves clock => exact ⟨closed_of_nodes rfl, short_of_nodes rfl⟩
  | step step _ ih => exact step.orderly_run ih
  | tick host clock _ ih => exact ⟨ih.closed.congr fun _ => rfl, fun p x hx => ih.short p x hx⟩

theorem Memory.Reachable.closed {m : Memory} (h : m.Reachable) : m.Closed := by
  obtain ⟨s, hs, rfl⟩ := h
  exact hs.orderly.closed

theorem Memory.Reachable.short {m : Memory} (h : m.Reachable) : m.Short := by
  obtain ⟨s, hs, rfl⟩ := h
  exact hs.orderly.short

end Filespace.Storage
