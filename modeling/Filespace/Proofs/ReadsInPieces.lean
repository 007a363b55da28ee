import Filespace.Proofs.SettledWrites

/-!
# Reading a file in pieces

A read waits for the writes that were queued before it and gives a stretch of the settled bytes of the file. Reads in sequence
cut such stretches off one after another (`Bytes.pieces`): whatever their lengths are, and whatever else is done in between
that leaves the file alone, the pieces up to the first that reaches the end make up the rest of the file.
-/

namespace Filespace

open Storage

/-! ### Pieces of a file -/

/-- What a read in sequence gives: some bytes, whether they reach the end of the file, and where the next read starts. -/
structure Piece where
  bytes : Bytes
  ended : Bool
  cursor : Nat
  deriving DecidableEq

/-- The piece as an answer. -/
def Piece.answer (x : Piece) : Except Vfs.Refusal Vfs.Value := .ok (.streamed x.bytes x.ended x.cursor)

namespace Bytes

variable {c : Bytes} {k : Nat} {lengths : List Nat}

/-- The piece of a file from a position on. -/
def piece (c : Bytes) (k length : Nat) : Piece :=
  ⟨(c.drop k).take length, decide (c.length ≤ k + ((c.drop k).take length).length), k + ((c.drop k).take length).length⟩

/-- Pieces of given lengths, one after another. -/
def pieces (c : Bytes) (k : Nat) : List Nat → List Piece
  | [] => []
  | length :: lengths => c.piece k length :: c.pieces (c.piece k length).cursor lengths

/-- A piece is cut off from what is left. -/
theorem drop_eq_piece_append (c : Bytes) (k length : Nat) :
    c.drop k = (c.piece k length).bytes ++ c.drop (c.piece k length).cursor := by
  have hdrop : (c.drop k).drop length = (c.drop k).drop ((c.drop k).take length).length := by
    rw [List.length_take]
    rcases Nat.le_total length (c.drop k).length with h | h
    · rw [Nat.min_eq_left h]
    · rw [Nat.min_eq_right h, List.drop_length, List.drop_eq_nil_of_le h]
  calc c.drop k = (c.drop k).take length ++ (c.drop k).drop length := (List.take_append_drop _ _).symm
    _ = (c.piece k length).bytes ++ c.drop (c.piece k length).cursor := by
      rw [hdrop, List.drop_drop]
      rfl

/-- The pieces so far and what is left make up the file. -/
theorem drop_eq_pieces_append {before after : List Piece} {x : Piece} (h : c.pieces k lengths = before ++ x :: after) :
    c.drop k = (before ++ [x]).flatMap Piece.bytes ++ c.drop x.cursor ∧
      x.cursor = k + ((before ++ [x]).flatMap Piece.bytes).length ∧ (x.ended = true ↔ c.length ≤ x.cursor) := by
  induction before generalizing k lengths with
  | nil =>
    cases lengths with
    | nil => cases h
    | cons length lengths =>
      obtain ⟨rfl, -⟩ := List.cons.inj h
      refine ⟨?_, ?_, decide_eq_true_iff⟩
      · simpa using drop_eq_piece_append c k length
      · simp [piece]
  | cons y before ih =>
    cases lengths with
    | nil => cases h
    | cons length lengths =>
      obtain ⟨rfl, hrest⟩ := List.cons.inj h
      obtain ⟨hdrop, hcursor, hended⟩ := ih hrest
      refine ⟨?_, ?_, hended⟩
      · rw [drop_eq_piece_append c k length, hdrop]
        simp
      · rw [hcursor]
        simp [piece, Nat.add_assoc]

/-- Each piece of positive length takes a byte or reaches the end. -/
theorem exists_ended (hpos : ∀ n ∈ lengths, 0 < n) (hmany : max 1 (c.length - k) ≤ lengths.length) :
    ∃ x ∈ c.pieces k lengths, x.ended = true := by
  induction lengths generalizing k with
  | nil => exact absurd hmany (by simp)
  | cons length lengths ih =>
    by_cases hended : (c.piece k length).ended = true
    · exact ⟨_, List.mem_cons_self, hended⟩
    · have hlength : 0 < length := hpos length List.mem_cons_self
      have hcursor : (c.piece k length).cursor = k + min length (c.length - k) := by simp [piece]
      have hleft : (c.piece k length).cursor < c.length := by
        have : ¬ c.length ≤ (c.piece k length).cursor := fun h => hended (decide_eq_true h)
        omega
      have hmany : max 1 (c.length - (c.piece k length).cursor) ≤ lengths.length := by
        rw [List.length_cons] at hmany
        omega
      obtain ⟨x, hx, hx'⟩ := ih (fun n hn => hpos n (List.mem_cons_of_mem _ hn)) hmany
      exact ⟨x, List.mem_cons_of_mem _ hx, hx'⟩

end Bytes

namespace Vfs

variable {μ : Type} [LinkMap μ] {v w : Vfs Memory μ} {s : Session Memory μ} {p : Path} {c : Bytes} {d : Descriptor}
  {fd : String}

/-! ### One read -/

/-- A read of a file does not fail, and it gives a piece of the settled bytes. -/
theorem Healthy.wp_read (hv : v.Healthy) (hc : v.Settles d.path c) (hfile : d.isDirectory = false)
    (hread : d.flags.read = true) (length offset : Nat) :
    wp (read d length offset)
      (fun r w => r = ((c.piece offset length).bytes, (c.piece offset length).ended) ∧ Reaches (Looking d.path) v w)
      (fun _ _ => False) v := by
  -- Once no write is queued, the settled bytes are in the store.
  have hbytes : ∀ u, Reaches (Looking d.path) v u → u.detached.hasPending d.path = false →
      ∃ f, u.memory.node? d.path = some (.file f) ∧ f.bytes = c := by
    intro u hu hidle
    have hsettles := ((hu.mono fun _ ha => ha.leaves).tracked hv hc.file).settles hc
    exact Memory.content?_eq_file_iff.1 (hsettles.content ((hu.healthy hv).sound.waiting_of_not_pending hidle))
  unfold read requireFile
  rw [hfile, hread]
  show wp (handleFor d.path >>= _) _ _ v
  rw [wp_bind]
  refine (ends_handleFor d.path v hv).mono ?_ fun _ _ he => he.2 hc.file
  rintro (_ | k) u ⟨hr, hk, -, hidle⟩
  · have hreach : ∀ {y}, Reaches (· = .wait) u y → Reaches (Looking d.path) v y :=
      fun hy => hr.trans (hy.looking d.path)
    have hsure : ∀ y, Reaches (· = .wait) u y →
        Sure (Request.execute (.readAt d.path offset length)) y.memory := by
      intro y hy
      have hy' := (hreach hy).healthy hv
      obtain ⟨f, hf, -⟩ := hbytes y (hreach hy) (hy.waited.cold _ hidle)
      have hcold : y.handles.get? d.path = none := by rw [hy.waited.handles, hk]
      exact Request.sure_readAt hy'.closed hf (hy'.sound.unlocked_of_cold hcold hf) offset length
    rw [wp_bind]
    refine (wp_call_sure hsure fun y _ => Request.treeWp_readAt d.path offset length y.memory).imp ?_
    rintro r w ⟨y, m, hy, rfl, hm, f, hf, -, rfl⟩
    obtain ⟨f', hf', rfl⟩ := hbytes y (hreach hy) (hy.waited.cold _ hidle)
    obtain rfl : f = f' := by simpa [hf] using hf'
    exact ⟨rfl, (hreach hy).trans (reaches_withFiles trivial hm)⟩
  · have hu := hr.healthy hv
    obtain ⟨f, hf, rfl⟩ := hbytes u hr hidle
    obtain ⟨f', hf', hof, -⟩ := hu.sound.fileOf? hk
    obtain rfl : f = f' := by simpa [hf] using hf'
    rw [wp_bind]
    refine wp_onFiles (((sure_readExactAt k u.memory length offset).and
      (treeWp_readExactAt k u.memory length offset)).mono ?_ fun _ _ hfalse _ _ => hfalse)
    rintro data m ⟨hm, hdata⟩ t rfl
    have hsame : u.withFiles t = u := by rw [show t = u.memory from hm]; rfl
    have hdata : data = f.bytes.slice offset length := by rw [hdata, ← Memory.contentOf_eq hof]; rfl
    rw [hsame, wp_bind, wp_of_ok (hu.sound.size_run hk hf), hdata]
    exact ⟨rfl, hr⟩

/-! ### Reads in sequence -/

/-- A moment leaves a file and a descriptor alone: nothing is written to the file or queued for it, the file is not removed,
moved or cut, and the cursor is not moved. -/
def Moment.Spares (fd : String) (p : Path) (s : Session Memory μ) : Moment → Prop
  | .event (.use op) => op.Spares p s ∧ op.writes p s = [] ∧ op.queues p s = [] ∧
      (op.run s).2.descriptors.get? fd = s.descriptors.get? fd
  | _ => True

/-- In a session reads of some lengths are done in sequence through a descriptor of a file, with these answers. Whatever
happens between them leaves the file and the descriptor alone. -/
inductive Streams (fd : String) (p : Path) : Session Memory μ → List Nat → List (Except Refusal Value) → Prop
  | done {s : Session Memory μ} : Streams fd p s [] []
  | read {s : Session Memory μ} (length : Nat) {lengths : List Nat} {answers : List (Except Refusal Value)}
      (rest : Streams fd p ((Operation.readStream fd length).run s).2 lengths answers) :
      Streams fd p s (length :: lengths) (((Operation.readStream fd length).run s).1 :: answers)
  | between {s : Session Memory μ} {m : Moment} {lengths : List Nat} {answers : List (Except Refusal Value)}
      (spares : m.Spares fd p s) (rest : Streams fd p (m.happen s) lengths answers) : Streams fd p s lengths answers

theorem Moment.Spares.settles {m : Moment} (h : m.Spares fd p s) (hs : s.space.Healthy) (hc : s.space.Settles p c) :
    (m.happen s).space.Settles p c ∧ (m.happen s).descriptors.get? fd = s.descriptors.get? fd := by
  cases m with
  | clocks host store => exact ⟨(Tracked.of_same hc.file rfl rfl).settles hc, rfl⟩
  | event e =>
    cases e with
    | use op =>
      obtain ⟨hspares, hwrites, hqueues, hdescriptor⟩ := h
      have htracked := Operation.tracked hs hc.file hspares
      rw [hwrites, hqueues] at htracked
      exact ⟨htracked.settles hc, hdescriptor⟩
    | work n => exact ⟨(hs.tracked_runJobs hc.file n).settles hc, rfl⟩
    | pace l => exact ⟨(Tracked.of_same hc.file rfl rfl).settles hc, rfl⟩

/-- One read in sequence gives the next piece and moves the cursor behind it. -/
theorem Operation.wp_readStream (hs : s.space.Healthy) (hd : s.descriptors.get? fd = some d)
    (hc : s.space.Settles d.path c) (hfile : d.isDirectory = false) (hread : d.flags.read = true) (length : Nat) :
    wp (Operation.readStream fd length).run
      (fun x t => Except.ok x = (c.piece d.cursor length).answer ∧ Reaches (Looking d.path) s.space t.space ∧
        t.descriptors.get? fd = some { d with cursor := (c.piece d.cursor length).cursor }) (fun _ _ => False) s := by
  have hdescriptor : Session.descriptor fd s = (.ok d, s) := by rw [descriptor_run, hd]
  unfold Operation.run
  rw [wp_bind, wp_of_ok hdescriptor, wp_bind, Session.wp_onSpace]
  unfold Vfs.readStream
  rw [wp_bind]
  refine (hs.wp_read hc hfile hread length d.cursor).imp ?_
  rintro r w ⟨rfl, hr⟩
  exact ⟨rfl, hr, Table.get?_insert_self _ _ _⟩

/-- The answers to reads in sequence are the pieces of the settled bytes. -/
theorem Streams.answers_eq {lengths : List Nat} {answers : List (Except Refusal Value)}
    (h : Streams fd p s lengths answers) (hs : s.space.Healthy) (hd : s.descriptors.get? fd = some d) (hp : d.path = p)
    (hc : s.space.Settles p c) (hfile : d.isDirectory = false) (hread : d.flags.read = true) :
    answers = (c.pieces d.cursor lengths).map Piece.answer := by
  induction h generalizing d with
  | done => rfl
  | @read s length lengths answers rest ih =>
    subst hp
    have hstep := Operation.wp_readStream hs hd hc hfile hread length
    rcases hrun : (Operation.readStream fd length).run s with ⟨r | x, t⟩
    · exact (hstep.error hrun).elim
    · obtain ⟨hanswer, hr, hmoved⟩ := hstep.ok hrun
      have hkept := ((hr.mono fun _ ha => ha.leaves).tracked hs hc.file).settles hc
      rw [hrun] at ih
      exact congrArg₂ List.cons hanswer (ih (hr.healthy hs) hmoved rfl hkept hfile hread)
  | between spares rest ih =>
    obtain ⟨hkept, hsame⟩ := spares.settles hs hc
    exact ih (Session.healthy_played [_] hs) (hsame.trans hd) hp hkept hfile hread

/-- A file of a namespace that was started on a store without locks, in any state that it can come to, has some bytes once
its queued writes are done. A read through a readable descriptor gives the stretch of these bytes that it asks for, as far as
there are any, and tells whether that reaches the end. Reads in sequence give what is left piece by piece, each from where
the last one ended. If they ask for at least one byte each, one of them reaches the end after as many reads as bytes are left,
at the latest; and the pieces up to one that reaches the end make up all that was left. Other operations can come in between,
as long as they leave the file and the descriptor alone, and jobs at any time. -/
theorem reads_give_the_file_in_any_pieces {μ : Type} [LinkMap μ] {o : Options} {w w' : World Memory μ} {v : Vfs Memory μ}
    {s : Session Memory μ} (hstart : start o w = (.ok v, w')) (hstore : w.files.Reachable)
    (hfree : ∀ p, w.files.isLocked p = false) (descriptors : Table String Descriptor) (run : List Moment)
    (hplayed : Session.played ⟨v, descriptors⟩ run = s) {d : Descriptor} {c : Bytes} (hfile : d.isDirectory = false)
    (hread : d.flags.read = true) (hc : s.space.Settles d.path c) :
    (∀ length offset, ∃ data ended t, read d length offset s.space = (.ok (data, ended), t) ∧
      data = (c.drop offset).take length ∧ (ended = true ↔ c.length ≤ offset + data.length)) ∧
    ∀ fd lengths answers, s.descriptors.get? fd = some d → Streams fd d.path s lengths answers →
      ∃ pieces : List Piece, answers = pieces.map Piece.answer ∧
        (∀ before x after, pieces = before ++ x :: after → (before ++ [x]).flatMap Piece.bytes <+: c.drop d.cursor ∧
          x.cursor = d.cursor + ((before ++ [x]).flatMap Piece.bytes).length) ∧
        ((∀ n ∈ lengths, 0 < n) → max 1 (c.length - d.cursor) ≤ lengths.length → ∃ x ∈ pieces, x.ended = true) ∧
        ∀ before x after, pieces = before ++ x :: after → x.ended = true →
          (before ++ [x]).flatMap Piece.bytes = c.drop d.cursor := by
  have hs : s.space.Healthy := hplayed ▸ Session.healthy_played run (healthy_of_start hstart hstore hfree)
  refine ⟨fun length offset => ?_, fun fd lengths answers hd hstreams => ?_⟩
  · have hpiece := hs.wp_read hc hfile hread length offset
    rcases hrun : read d length offset s.space with ⟨e | ⟨data, ended⟩, t⟩
    · exact (hpiece.error hrun).elim
    · obtain ⟨hx, -⟩ := hpiece.ok hrun
      obtain ⟨rfl, rfl⟩ := Prod.mk.inj hx
      exact ⟨_, _, t, rfl, rfl, decide_eq_true_iff⟩
  · refine ⟨c.pieces d.cursor lengths, hstreams.answers_eq hs hd rfl hc hfile hread, ?_, Bytes.exists_ended, ?_⟩
    · intro before x after hsplit
      obtain ⟨hdrop, hcursor, -⟩ := Bytes.drop_eq_pieces_append hsplit
      exact ⟨⟨_, hdrop.symm⟩, hcursor⟩
    · intro before x after hsplit hx
      obtain ⟨hdrop, -, hended⟩ := Bytes.drop_eq_pieces_append hsplit
      rw [hdrop, List.drop_eq_nil_of_le (hended.1 hx), List.append_nil]

/-- The byte that waits is read as well. Read in sequence, the file comes to its end in four pieces, though a directory is
made and a job is done in between. -/
theorem reads_give_the_file_in_marsh :
    (∃ t, read reed 10 1 (Session.played ⟨inMemory, ∅⟩ growing).space = (.ok ([2, 0, 9], true), t)) ∧
    ∃ (answers : List (Except Refusal Value)) (pieces : List Piece),
      Streams "reed" reed.path (Session.played ⟨inMemory, ∅⟩ growing) [1, 2, 2, 1] answers ∧
      answers = pieces.map Piece.answer ∧ ∃ x ∈ pieces, x.ended = true := by
  obtain ⟨hstart, hstore, hfree⟩ := inMemory_started
  have hreed : (Session.played ⟨inMemory, ∅⟩ growing).descriptors.get? "reed" = some reed := by decide +kernel
  obtain ⟨hreads, hpieces⟩ :=
    reads_give_the_file_in_any_pieces hstart hstore hfree ∅ growing rfl (d := reed) rfl rfl settles_growing
  constructor
  · obtain ⟨data, ended, t, hrun, rfl, hended⟩ := hreads 10 1
    obtain rfl : ended = true := hended.2 (by decide)
    exact ⟨t, hrun⟩
  · have hmade : Moment.Spares "reed" reed.path (Session.played ⟨inMemory, ∅⟩ growing)
        (.event (.use (.createDirectoryAt none "bank"))) :=
      ⟨fun _ _ _ h => h.elim, rfl, rfl, by decide +kernel⟩
    have hstreams := Streams.between hmade
      (.read 1 (.between (m := .event (.work 1)) trivial (.read 2 (.read 2 (.read 1 .done)))))
    obtain ⟨pieces, hanswers, -, hended, -⟩ := hpieces "reed" _ _ hreed hstreams
    exact ⟨_, pieces, hstreams, hanswers, hended (by decide) (by decide)⟩

end Vfs

end Filespace
