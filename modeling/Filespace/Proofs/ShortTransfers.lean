import Filespace.Proofs.Agreement
import Filespace.Storage.Metered
import Mathlib.Algebra.GroupWithZero.Nat

/-!
# Transfers that fall short

A handle moves as many bytes in a call as it likes. What is read or written through it in the end does not depend on
that: reading in pieces gives the stretch of the buffer that one long read would have given, and writing in pieces leaves
the buffer as one write of all bytes that were taken.

The calls are told by a channel that notes them (`noted`), which is used just as the one without notes (`parallel_noting`).
They follow one another without gaps (`Proceeds`): each starts where the one before it ended and asks for all that is
left, and only a call that moves nothing ends them early. So the loops end by themselves, and not for want of fuel.
-/

namespace Filespace

/-! ### Stretches of bytes one after another -/

namespace Bytes

theorem slice_append (b : Bytes) (pos : Nat) {n want : Nat} (hn : n ≤ want) :
    b.slice pos n ++ b.slice (pos + n) (want - n) = b.slice pos want := by
  unfold slice
  rw [← List.drop_drop, ← List.take_add, Nat.add_sub_cancel' hn]

/-- A write that goes on where another one ended. -/
theorem overwrite_overwrite (b : Bytes) (pos : Nat) {data : Bytes} {n : Nat} (hn : data.length = n) (more : Bytes) :
    (b.overwrite pos data).overwrite (pos + n) more = b.overwrite pos (data ++ more) := by
  refine List.ext_getElem? fun i => ?_
  simp only [getElem?_overwrite, length_overwrite, List.length_append, List.getElem?_append]
  grind

theorem overwrite_nil {b : Bytes} {pos : Nat} (h : pos ≤ b.length) : b.overwrite pos [] = b := by
  simp [overwrite, Nat.sub_eq_zero_of_le h]

end Bytes

namespace Storage

/-! ### Calls that are noted -/

/-- A call that moves bytes: its position, how many bytes it was to move and how many it moved. -/
structure Transfer where
  pos : Nat
  asked : Nat
  moved : Nat
  deriving DecidableEq

/-- The positions whose bytes a call moved. -/
def Transfer.positions (x : Transfer) : List Nat := List.range' x.pos x.moved

/-- Calls from `pos` on that are to move `want` bytes, and how many they move. -/
inductive Proceeds : (pos want : Nat) → List Transfer → (count : Nat) → Prop where
  /-- Nothing is left to move. -/
  | done {pos : Nat} : Proceeds pos 0 [] 0
  /-- A call moves nothing and is the last one. -/
  | ended {pos want : Nat} : want ≠ 0 → Proceeds pos want [⟨pos, want, 0⟩] 0
  | moved {pos want n count : Nat} {calls : List Transfer} : n ≠ 0 → n ≤ want →
    Proceeds (pos + n) (want - n) calls count → Proceeds pos want (⟨pos, want, n⟩ :: calls) (n + count)

namespace Proceeds

variable {pos want count : Nat} {calls : List Transfer}

/-- No call starts in front of the first one, and each asks for all that is left. -/
theorem bounds (h : Proceeds pos want calls count) {x : Transfer} (hx : x ∈ calls) :
    pos ≤ x.pos ∧ x.asked ≠ 0 ∧ x.pos + x.asked = pos + want := by
  induction h with
  | done => cases hx
  | ended hwant =>
    obtain rfl := List.mem_singleton.1 hx
    exact ⟨Nat.le_refl _, hwant, rfl⟩
  | moved hn hle _ ih =>
    rcases List.mem_cons.1 hx with rfl | hx
    · exact ⟨Nat.le_refl _, Nat.ne_of_gt (Nat.lt_of_lt_of_le (Nat.pos_of_ne_zero hn) hle), rfl⟩
    · obtain ⟨hpos, hasked, hlast⟩ := ih hx
      exact ⟨by omega, hasked, by omega⟩

theorem count_eq (h : Proceeds pos want calls count) : count = (calls.map Transfer.moved).sum := by
  induction h with
  | done => rfl
  | ended _ => rfl
  | moved _ _ _ ih => rw [ih, List.map_cons, List.sum_cons]

/-- The positions that are moved follow one another. -/
theorem positions (h : Proceeds pos want calls count) : calls.flatMap Transfer.positions = List.range' pos count := by
  induction h with
  | done => rfl
  | ended _ => rfl
  | moved _ _ _ ih =>
    rw [List.flatMap_cons, ih]
    exact List.range'_append_1 ..

/-- All is moved just if no call moves nothing. -/
theorem le_iff (h : Proceeds pos want calls count) : want ≤ count ↔ ∀ x ∈ calls, x.moved ≠ 0 := by
  induction h with
  | done => simp
  | ended hwant => simp [hwant]
  | moved hn hle _ ih =>
    simp only [List.forall_mem_cons, ← ih, hn, ne_eq, not_false_eq_true, true_and]
    omega

end Proceeds

/-- A call with notes on what it moved, behind those that were made before. -/
def noting {σ α : Type} (notes : α → List Transfer) (x : StoreM σ α) : StoreM (σ × List Transfer) α := do
  let a ← StoreM.within Prod.fst (fun t s => (t, s.2)) x
  modify fun s => (s.1, s.2 ++ notes a)
  return a

section Noting

variable {σ α : Type} {notes : α → List Transfer} {x : StoreM σ α} {l : List Transfer}

theorem wp_noting {Q : α → σ × List Transfer → Prop} {E : StorageError → σ × List Transfer → Prop} {s : σ} :
    wp (noting notes x) Q E (s, l) ↔ wp x (fun a t => Q a (t, l ++ notes a)) (fun e t => E e (t, l)) s := by
  unfold noting
  rw [wp_bind]
  exact wp_within

/-- The state without the notes. -/
def Erased (s : σ × List Transfer) (t : σ) : Prop := s.1 = t

/-- Notes make no difference. -/
theorem parallel_noting : Parallel Erased Eq (noting notes x) x := by
  rintro ⟨s, l⟩ _ rfl
  rcases hx : x s with ⟨e | a, t⟩
  · refine (agree_of_error (e := e) (u := (t, l)) (eq_error_of_wp (wp_noting.2 ?_)) hx).2 rfl
    exact (wp_of_error hx).2 ⟨rfl, rfl⟩
  · refine (agree_of_ok (a := a) (u := (t, l ++ notes a)) (eq_ok_of_wp (wp_noting.2 ?_)) hx).2 ⟨rfl, rfl⟩
    exact (wp_of_ok hx).2 ⟨rfl, rfl⟩

/-- A call ends with `r` in `t`, and with notes it ends just so and tells its calls. -/
def EndsBy (x : StoreM σ α) (y : StoreM (σ × List Transfer) α) (s : σ) (r : Except StorageError α) (t : σ)
    (calls : List Transfer) : Prop :=
  x s = (r, t) ∧ y (s, []) = (r, t, calls)

theorem endsBy_of_erased {y : StoreM (σ × List Transfer) α} (h : Parallel Erased Eq y x) {s t : σ}
    {r : Except StorageError α} (hy : y (s, []) = (r, t, l)) : EndsBy x y s r t l := by
  refine ⟨?_, hy⟩
  obtain ⟨a, _, s', _, hy', hx, rfl, rfl⟩ | ⟨e, s', _, hy', hx, rfl⟩ := (h (s, []) s rfl).cases
  · obtain ⟨rfl, rfl⟩ := Prod.mk.inj (hy.symm.trans hy')
    exact hx
  · obtain ⟨rfl, rfl⟩ := Prod.mk.inj (hy.symm.trans hy')
    exact hx

end Noting

namespace Channel

variable {σ : Type} {c : Channel (StoreM σ)} {I : σ → Prop} {s : σ}

/-- The channel with its calls noted, first call first. -/
def noted (c : Channel (StoreM σ)) : Channel (StoreM (σ × List Transfer)) where
  size := noting (fun _ => []) c.size
  read pos length := noting (fun bytes => [⟨pos, length, bytes.length⟩]) (c.read pos length)
  write pos data := noting (fun n => [⟨pos, data.length, n⟩]) (c.write pos data)

/-! ### Reading -/

/-- A handle on a buffer, as long as `I` holds. A read gives any number of bytes, but one at least if there is one, and the
handle reports any length. -/
structure Serves (c : Channel (StoreM σ)) (I : σ → Prop) (b : Bytes) (claim : Nat) : Prop where
  size : ∀ s, I s → ∃ t, c.size s = (.ok claim, t) ∧ I t
  read : ∀ s pos room, I s → 0 < room → pos < b.length →
    ∃ n t, 1 ≤ n ∧ n ≤ min room (b.length - pos) ∧ c.read pos room s = (.ok (b.slice pos n), t) ∧ I t
  past : ∀ s pos room, I s → b.length ≤ pos → ∃ t, c.read pos room s = (.ok [], t) ∧ I t

theorem Serves.gather {b : Bytes} {claim : Nat} (hc : c.Serves I b claim) {fuel want : Nat} (hfuel : want ≤ fuel)
    (pos : Nat) (hs : I s) (l : List Transfer) :
    wp (c.noted.gather fuel pos want) (fun r u => r = b.slice pos want ∧ I u.1 ∧ ∃ calls, u.2 = l ++ calls ∧
      Proceeds pos want calls r.length) (fun _ _ => False) (s, l) := by
  induction fuel generalizing want pos s l with
  | zero =>
    obtain rfl : want = 0 := by omega
    exact ⟨by simp [Bytes.slice], hs, [], (List.append_nil l).symm, .done⟩
  | succ fuel ih =>
    refine wp_ite.2 ⟨fun hwant => ?_, fun hwant => wp_bind.2 (wp_noting.2 ?_)⟩
    · subst hwant
      exact ⟨by simp [Bytes.slice], hs, [], (List.append_nil l).symm, .done⟩
    · rcases Nat.lt_or_ge pos b.length with hpos | hpos
      · obtain ⟨n, t, hn, hle, hread, ht⟩ := hc.read s pos want hs (Nat.pos_of_ne_zero hwant) hpos
        have hlength : (b.slice pos n).length = n := by rw [Bytes.length_slice]; omega
        refine (wp_of_ok hread).2 (wp_ite.2 ⟨fun hnil => ?_, fun _ => wp_bind.2 ?_⟩)
        · rw [List.isEmpty_iff.1 hnil, List.length_nil] at hlength
          omega
        · rw [hlength]
          refine (ih (by omega) (pos + n) ht _).imp ?_
          rintro _ ⟨u, _⟩ ⟨rfl, hu, calls, rfl, hrest⟩
          refine ⟨Bytes.slice_append b pos (by omega), hu, ⟨pos, want, n⟩ :: calls, by simp, ?_⟩
          rw [List.length_append, hlength]
          exact .moved (by omega) (by omega) hrest
      · obtain ⟨t, hread, ht⟩ := hc.past s pos want hs hpos
        refine (wp_of_ok hread).2 ⟨?_, ht, [⟨pos, want, 0⟩], rfl, .ended hwant⟩
        rw [Bytes.slice, List.drop_eq_nil_of_le hpos, List.take_nil]

/-- A handle that takes any number of the bytes of a write, as long as `I` holds, and stores these. A write of none may fill
the gap in front of it with zeroes or not. -/
structure Takes (c : Channel (StoreM σ)) (I : σ → Prop) (content : σ → Bytes) (store : Bytes → Nat → Bytes → Bytes) :
    Prop where
  write : ∀ s pos data, I s → data ≠ [] →
    ∃ n t, n ≤ data.length ∧ c.write pos data s = (.ok n, t) ∧ content t = store (content s) pos (data.take n) ∧ I t
  store_eq : ∀ b pos data, data ≠ [] ∨ pos ≤ b.length → store b pos data = b.overwrite pos data

/-- The first `count` bytes were taken, by calls that follow those of `l`. -/
def Taken (I : σ → Prop) (content : σ → Bytes) (after : Bytes → Bytes) (pos : Nat) (data : Bytes) (l : List Transfer)
    (count : Nat) (u : σ × List Transfer) : Prop :=
  I u.1 ∧ content u.1 = after (data.take count) ∧ ∃ calls, u.2 = l ++ calls ∧ Proceeds pos data.length calls count

variable {content : σ → Bytes} {store : Bytes → Nat → Bytes → Bytes} {data : Bytes} {pos : Nat}

/-- What is taken first and what is taken then follow one another. -/
theorem Takes.taken (hc : c.Takes I content store) {b : Bytes} {n count : Nat} {t : σ} {u : σ × List Transfer}
    {l : List Transfer} (hn : n ≠ 0) (hle : n ≤ data.length) (ht : content t = b.overwrite pos (data.take n))
    (h : Taken I content (store (content t) (pos + n)) (pos + n) (data.drop n) (l ++ [⟨pos, data.length, n⟩]) count u) :
    Taken I content (store b pos) pos data l (n + count) u := by
  obtain ⟨hu, hcontent, calls, hcalls, hproceeds⟩ := h
  have hlength : (data.take n).length = n := List.length_take_of_le hle
  refine ⟨hu, ?_, ⟨pos, data.length, n⟩ :: calls, by simp [hcalls], .moved hn hle (by rwa [List.length_drop] at hproceeds)⟩
  have hne : data.take (n + count) ≠ [] := by
    rw [← List.length_pos_iff, List.length_take]
    omega
  rw [hcontent, hc.store_eq _ _ _ (.inr (by rw [ht, Bytes.length_overwrite]; omega)), ht,
    Bytes.overwrite_overwrite b pos hlength, ← List.take_add, hc.store_eq _ _ _ (.inl hne)]

theorem Takes.taken_nil (hc : c.Takes I content store) (hs : I s) (hpos : pos ≤ (content s).length) (l : List Transfer) :
    Taken I content (store (content s) pos) pos [] l 0 (s, l) :=
  ⟨hs, by rw [List.take_nil, hc.store_eq _ _ _ (.inr hpos), Bytes.overwrite_nil hpos], [], by simp, .done⟩

/-- Writing in pieces takes all, or ends with the first call that takes nothing. -/
theorem Takes.scatter (hc : c.Takes I content store) {fuel : Nat} (hfuel : data.length ≤ fuel) (hs : I s)
    (hstart : data ≠ [] ∨ pos ≤ (content s).length) (l : List Transfer) :
    wp (c.noted.scatter fuel pos data)
      (fun r u => r = data.length ∧ Taken I content (store (content s) pos) pos data l data.length u)
      (fun e u => e = .acceptedNothing ∧ ∃ k < data.length, Taken I content (store (content s) pos) pos data l k u) (s, l) := by
  induction fuel generalizing data pos s l with
  | zero =>
    obtain rfl := List.length_eq_zero_iff.1 (Nat.le_zero.1 hfuel)
    exact ⟨rfl, hc.taken_nil hs (hstart.resolve_left fun h => h rfl) l⟩
  | succ fuel ih =>
    refine wp_ite.2 ⟨fun hnil => ?_, fun hne => wp_bind.2 (wp_noting.2 ?_)⟩
    · obtain rfl := List.isEmpty_iff.1 hnil
      exact ⟨rfl, hc.taken_nil hs (hstart.resolve_left fun h => h rfl) l⟩
    · have hne : data ≠ [] := fun h => hne (List.isEmpty_iff.2 h)
      obtain ⟨n, t, hle, hwrite, hcontent, ht⟩ := hc.write s pos data hs hne
      refine (wp_of_ok hwrite).2 (wp_ite.2 ⟨fun hn => ?_, fun hn => wp_bind.2 ?_⟩)
      · subst hn
        have hpos := List.length_pos_iff.2 hne
        exact ⟨rfl, 0, hpos, ht, hcontent, [⟨pos, data.length, 0⟩], rfl, .ended (Nat.ne_of_gt hpos)⟩
      · have hfirst : content t = (content s).overwrite pos (data.take n) :=
          hcontent.trans (hc.store_eq _ _ _ (.inl fun h => hn (by simpa [hne] using h)))
        have hthere : pos + n ≤ (content t).length := by
          rw [hfirst, Bytes.length_overwrite, List.length_take_of_le hle]
          exact Nat.le_max_right _ _
        have hlength : (data.drop n).length = data.length - n := List.length_drop
        have hrest : (data.drop n).length ≤ fuel := by omega
        refine (ih hrest ht (.inr hthere) (l ++ [⟨pos, data.length, n⟩])).mono ?_ ?_
        · rintro _ u ⟨rfl, hu⟩
          have htaken := hc.taken hn hle hfirst hu
          rw [hlength, Nat.add_sub_cancel' hle] at htaken
          exact ⟨by rw [hlength, Nat.add_sub_cancel' hle], htaken⟩
        · rintro e u ⟨rfl, k, hk, hu⟩
          exact ⟨rfl, n + k, by omega, hc.taken hn hle hfirst hu⟩

/-- Writing is not changed by short writes. All is written unless a call takes nothing; then the bytes are written that
were taken before, and the failure says so. The calls are made one after another, without gaps. A write past the last
offset is refused before the first call. -/
theorem short_writes_make_no_difference (hc : c.Takes I content store) (hs : I s) (hdata : data ≠ []) (offset : Nat) :
    (offset + data.length < Bytes.offsetLimit → ∃ r t calls k,
      EndsBy (c.writeAllAt data offset) (c.noted.writeAllAt data offset) s r t calls ∧
      Proceeds offset data.length calls k ∧ k = (calls.map Transfer.moved).sum ∧
      calls.flatMap Transfer.positions = List.range' offset k ∧
      content t = store (content s) offset (data.take k) ∧
      (r = .ok data.length ↔ ∀ x ∈ calls, x.moved ≠ 0) ∧ (r = .ok data.length → k = data.length) ∧
      (r ≠ .ok data.length → r = .error .acceptedNothing ∧ StorageError.acceptedNothing.kind = .writeZero ∧
        k < data.length)) ∧
    (Bytes.offsetLimit ≤ offset + data.length →
      EndsBy (c.writeAllAt data offset) (c.noted.writeAllAt data offset) s (.error (.overflow data.length offset)) s [] ∧
      (StorageError.overflow data.length offset).kind = .invalidInput) := by
  have hwrite : ∀ pos data, Parallel Erased Eq (c.noted.write pos data) (c.write pos data) := fun _ _ => parallel_noting
  have herased := parallel_writeAllAt hwrite data offset
  constructor
  · intro hfits
    have hrun : wp (c.noted.scatter data.length offset data) _ _ (s, []) := hc.scatter (Nat.le_refl _) hs (.inl hdata) []
    have hplain : c.noted.writeAllAt data offset = c.noted.scatter data.length offset data := by
      rw [writeAllAt, endOffset, if_pos hfits]
    rw [← hplain] at hrun
    rcases hx : c.noted.writeAllAt data offset (s, []) with ⟨e | n, t, calls⟩
    · obtain ⟨rfl, k, hk, -, hcontent, _, rfl, hcalls⟩ := hrun.error hx
      refine ⟨_, t, calls, k, endsBy_of_erased herased hx, hcalls, hcalls.count_eq, hcalls.positions, hcontent, ?_,
        fun h => (nomatch h), fun _ => ⟨rfl, rfl, hk⟩⟩
      exact ⟨fun h => (nomatch h), fun h => absurd (hcalls.le_iff.2 h) (Nat.not_le.2 hk)⟩
    · obtain ⟨rfl, -, hcontent, _, rfl, hcalls⟩ := hrun.ok hx
      refine ⟨_, t, calls, data.length, endsBy_of_erased herased hx, hcalls, hcalls.count_eq, hcalls.positions, hcontent, ?_,
        fun _ => rfl, fun h => absurd rfl h⟩
      exact ⟨fun _ => hcalls.le_iff.1 (Nat.le_refl _), fun _ => rfl⟩
  · intro hover
    have hplain : c.noted.writeAllAt data offset = throw (.overflow data.length offset) := by
      rw [writeAllAt, endOffset, if_neg (Nat.not_lt.2 hover)]
    exact ⟨endsBy_of_erased herased (by rw [hplain]; rfl), rfl⟩

end Channel

/-! ### Metered buffers -/

namespace Metered

variable {m : Metered}

theorem allowance_eq (h : m.budget = none) (n : Nat) : m.allowance n = min n m.chunk := by
  rw [allowance, h]

/-- A metered buffer without a budget is read in pieces of its own size, whatever length it claims. -/
theorem serves (b : Bytes) {chunk : Nat} (hchunk : chunk ≠ 0) (claim : Option Nat) :
    channel.Serves (fun m => m.content = b ∧ m.chunk = chunk ∧ m.budget = none ∧ m.claim = claim) b
      (claim.getD b.length) where
  size := by
    rintro m ⟨rfl, rfl, hbudget, rfl⟩
    exact ⟨m, rfl, rfl, rfl, hbudget, rfl⟩
  read := by
    rintro m pos room ⟨rfl, rfl, hbudget, rfl⟩ hroom hpos
    refine ⟨m.allowance (min room (m.content.length - pos)), _, ?_, ?_, rfl, rfl, rfl, ?_, rfl⟩
    · rw [allowance_eq hbudget]
      omega
    · rw [allowance_eq hbudget]
      exact Nat.min_le_left _ _
    · exact congrArg (Option.map _) hbudget
  past := by
    rintro m pos room ⟨rfl, rfl, hbudget, rfl⟩ hpos
    have hnone : m.content.slice pos (m.allowance (min room (m.content.length - pos))) = [] := by
      rw [Bytes.slice, List.drop_eq_nil_of_le hpos, List.take_nil]
    refine ⟨_, congrArg (fun b => (Except.ok b, _)) hnone, rfl, rfl, ?_, rfl⟩
    exact congrArg (Option.map _) hbudget

theorem takes : channel.Takes (fun _ => True) content Bytes.overwrite where
  write m pos data _ _ := by
    refine ⟨m.allowance data.length, _, ?_, rfl, rfl, trivial⟩
    unfold allowance
    cases m.budget with
    | none => exact Nat.min_le_left _ _
    | some left => exact Nat.le_trans (Nat.min_le_left _ _) (Nat.min_le_left _ _)
  store_eq _ _ _ _ := rfl

/-- A buffer of seven bytes that claims to have nine and gives three at a time. -/
def boastful : Metered := { content := [10, 20, 30, 40, 50, 60, 70], chunk := 3, claim := some 9 }

/-- A buffer of two bytes that takes two at a time and three in all. -/
def stingy : Metered := { content := [1, 2], chunk := 2, budget := some 3 }

theorem short_writes_make_no_difference_stingy :
    (∃ t calls, EndsBy (channel.writeAllAt [7, 8, 9, 10, 11] 4) (channel.noted.writeAllAt [7, 8, 9, 10, 11] 4) stingy
        (.error .acceptedNothing) t calls ∧
      calls = [⟨4, 5, 2⟩, ⟨6, 3, 1⟩, ⟨7, 2, 0⟩] ∧ t.content = [1, 2, 0, 0, 7, 8, 9]) ∧
    EndsBy (channel.writeAllAt [7] 18446744073709551615) (channel.noted.writeAllAt [7] 18446744073709551615) stingy
      (.error (.overflow 1 18446744073709551615)) stingy [] := by
  constructor
  · have hdata : ([7, 8, 9, 10, 11] : Bytes) ≠ [] := by decide
    obtain ⟨r, t, calls, k, hends, -, hk, -, hcontent, -⟩ :=
      (Channel.short_writes_make_no_difference takes (s := stingy) trivial hdata 4).1 (by decide)
    obtain rfl : _ = r := congrArg Prod.fst hends.2
    obtain rfl : _ = calls := congrArg (fun x => x.2.2) hends.2
    exact ⟨t, _, hends, rfl, by rw [hcontent, hk]; rfl⟩
  · exact ((Channel.short_writes_make_no_difference takes trivial (by decide) _).2 (by decide)).1

end Metered

end Storage

end Filespace
