import Filespace.Proofs.PlayedRuns
import Filespace.Proofs.QueuedWrites

/-!
# What writes make of a file

There are four ways to the bytes of a file: through a handle that is kept, through one that is opened for the purpose, by
one request, and by a job. Writes wait for those that were queued before them, so what they start from are the bytes that
the file has once its queued writes are done (`Settles`). All four make the same of these bytes (`Bytes.Written`), with one
exception: a write of no bytes is left out where there is a handle, and else it can make the file longer.
-/

namespace Filespace

open Storage Memory

/-- What a write makes of the bytes of a file. The file reaches as far as it did or as the write does; the data are at their
place, the old bytes are where nothing was written, and zeros are in between. -/
structure Bytes.Written (b : Bytes) (offset : Nat) (data b' : Bytes) : Prop where
  length : b'.length = max b.length (offset + data.length)
  placed : ∀ i, i < data.length → b'[offset + i]? = data[i]?
  kept : ∀ i, i < b.length → i < offset ∨ offset + data.length ≤ i → b'[i]? = b[i]?
  filled : ∀ i, b.length ≤ i → i < offset → b'[i]? = some 0

theorem Bytes.written_overwrite (b : Bytes) (offset : Nat) (data : Bytes) :
    b.Written offset data (b.overwrite offset data) where
  length := length_overwrite b offset data
  placed i hi := by
    rw [getElem?_overwrite, if_neg (by omega), if_pos (by omega), Nat.add_sub_cancel_left]
  kept i hi hout := by
    rw [getElem?_overwrite]
    rcases hout with hbefore | hbehind
    · rw [if_pos hbefore, if_pos hi]
    · rw [if_neg (by omega), if_neg (by omega)]
  filled i hi hgap := by
    rw [getElem?_overwrite, if_pos hgap, if_neg (by omega)]

namespace Vfs

variable {μ : Type} {u v w : Vfs Memory μ} {p : Path} {c : Bytes} {x : Patch}

/-- A write is done as it should be, or left out. -/
theorem Patch.written_apply (x : Patch) (c : Bytes) :
    (x.through = true ∧ x.data = [] → x.apply c = c) ∧
      (¬ (x.through = true ∧ x.data = []) → c.Written x.offset x.data (x.apply c)) := by
  unfold Patch.apply
  refine ⟨fun hout => ?_, fun hin => ?_⟩
  · rw [if_pos (by simp [hout.1, hout.2])]
  · rw [if_neg (by simpa using hin)]
    exact c.written_overwrite x.offset x.data

/-! ### Bytes that are settled -/

/-- The file at a path has these bytes once the writes that wait for it are done. -/
def Settles (v : Vfs Memory μ) (p : Path) (c : Bytes) : Prop :=
  ∃ b, v.memory.content? p = some (.file b) ∧ (v.waiting p).foldl (fun b x => x.apply b) b = c

theorem Settles.file (h : v.Settles p c) : v.memory.kind? p = some .file := by
  obtain ⟨b, hb, -⟩ := h
  obtain ⟨d, hd, -⟩ := content?_eq_file_iff.1 hb
  exact kind?_eq_file_iff.2 ⟨d, hd⟩

/-- Where nothing waits, they are the bytes of the file. -/
theorem Settles.content (h : v.Settles p c) (hidle : v.waiting p = []) : v.memory.content? p = some (.file c) := by
  obtain ⟨b, hb, rfl⟩ := h
  rw [hidle]
  exact hb

/-- Jobs that were done and those that wait come to the same. -/
theorem Tracked.settles {queued : List Patch} (h : Tracked p [] queued v w) (hc : v.Settles p c) :
    w.Settles p (queued.foldl (fun b x => x.apply b) c) := by
  obtain ⟨b, hb, rfl⟩ := hc
  obtain ⟨b', l, hb', hl, hown, hqueue⟩ := h
  obtain rfl : b = b' := by simpa [hb] using hb'
  refine ⟨_, hl, ?_⟩
  rw [Applied.all_of_byOperations_eq_nil hown, ← List.foldl_append, ← hqueue, List.foldl_append]

variable [LinkMap μ]

/-- When no more jobs are left than are done now, the bytes are settled. -/
theorem Settles.content_runJobs (h : v.Settles p c) (hv : v.Healthy) {n : Nat} (hn : v.background.pending ≤ n) :
    (v.runJobs n).memory.content? p = some (.file c) := by
  refine ((hv.tracked_runJobs h.file n).settles h).content (waiting_of_idle ?_)
  rw [queue_runJobs]
  exact List.drop_eq_nil_iff.2 hn

/-- A write that is not queued starts from the settled bytes. -/
theorem After.content {P : Act → Prop} (h : After P (Patched p x) v w) (hP : ∀ a, P a → Leaves p a) (hv : v.Healthy)
    (hc : v.Settles p c) : w.waiting p = [] ∧ w.memory.content? p = some (.file (x.apply c)) := by
  obtain ⟨u, y, hu, hy, hw⟩ := h
  have hu : Reaches (Leaves p) v u := hu.mono hP
  have hw : Reaches (Leaves p) y w := hw.of_only trivial
  have hhealthy := hu.healthy hv
  -- No write is queued when this one is done.
  have hidle : u.waiting p = [] := hhealthy.sound.waiting_of_not_pending hy.1
  have hcu := ((hu.tracked hv hc.file).settles hc).content hidle
  obtain ⟨b, l, hb, hl, hown, hqueue⟩ := hy.tracked.trans (hw.tracked (hy.reaches.healthy hhealthy) hy.tracked.file)
  rw [hidle] at hqueue
  obtain ⟨hjobs, hwaiting⟩ := List.append_eq_nil_iff.1 hqueue.symm
  refine ⟨hwaiting, ?_⟩
  rw [hl, Applied.all_of_byJobs_eq_nil hjobs, hown]
  obtain rfl : c = b := by simpa [hcu] using hb
  rfl

/-! ### The two operations -/

section Operations

variable {d : Descriptor} {data : Bytes} {offset : Nat}

/-- A write is done before it returns. -/
theorem Healthy.content_write (hv : v.Healthy) (hc : v.Settles d.path c) {n : Nat}
    (hrun : write d data offset v = (.ok n, w)) :
    n = data.length ∧ w.memory.content? d.path = some (.file (Patch.apply ⟨v.usesHandle d.path, offset, data⟩ c)) := by
  obtain ⟨hn, hafter⟩ := (ends_write d data offset v hv).ok hrun
  exact ⟨hn, (hafter.after.content (fun _ ha => ha.leaves) hv hc).2⟩

/-- A write that nobody waits for is done at once through a handle, unless there is nothing to write. Else it is done when
its turn comes, unless it ends beyond the longest file. -/
theorem Healthy.settles_writeDetached (hv : v.Healthy) (hc : v.Settles d.path c)
    (hrun : writeDetached d data offset v = (.ok (), w)) :
    ∃ c', w.Settles d.path c' ∧ (v.isWarm d.path = true → w.waiting d.path = []) ∧
      (v.isWarm d.path = true ∧ data = [] ∨ v.isWarm d.path = false ∧ maxLength < offset + data.length → c' = c) ∧
      (¬ (v.isWarm d.path = true ∧ data = [] ∨ v.isWarm d.path = false ∧ maxLength < offset + data.length) →
        c.Written offset data c') := by
  rcases (ends_writeDetached (F := Looking d.path) d data offset v hv).ok hrun with ⟨hwarm, hafter⟩ | ⟨hcold, rfl⟩
  · obtain ⟨hidle, hcontent⟩ := hafter.after.content (fun _ ha => ha.leaves) hv hc
    obtain ⟨hout, hin⟩ := Patch.written_apply ⟨true, offset, data⟩ c
    refine ⟨_, ⟨_, hcontent, by rw [hidle]⟩, fun _ => hidle, ?_, fun hno => ?_⟩
    · rintro (⟨-, hempty⟩ | ⟨hcold, -⟩)
      · exact hout ⟨rfl, hempty⟩
      · exact absurd (hcold.symm.trans hwarm) Bool.false_ne_true
    · exact hin fun hempty => hno (Or.inl ⟨hwarm, hempty.2⟩)
  · have hcold : v.isWarm d.path = false := Table.contains_eq_false_iff.2 hcold
    have hsettles := (hv.sound.tracked_queued hc.file offset data).settles hc
    refine ⟨_, hsettles, fun hwarm => absurd (hcold.symm.trans hwarm) Bool.false_ne_true, ?_, fun hno => ?_⟩
    · rintro (⟨hwarm, -⟩ | ⟨-, hlong⟩)
      · exact absurd (hcold.symm.trans hwarm) Bool.false_ne_true
      · rw [if_neg (Nat.not_le.2 hlong)]
        rfl
    · rw [if_pos (Nat.not_lt.1 fun hlong => hno (Or.inr ⟨hcold, hlong⟩))]
      exact c.written_overwrite offset data

/-- What ends within the longest file is taken. -/
theorem Healthy.write_taken (hv : v.Healthy) (hc : v.Settles d.path c) (hfile : d.isDirectory = false)
    (hwritable : d.flags.writable = true) (hfits : offset + data.length ≤ maxLength) :
    (write d data offset v).1 = .ok data.length ∧ (writeDetached d data offset v).1 = .ok () := by
  have hable : ¬ Unwritable d data offset v := by
    rintro (hmode | hkind | hlong)
    · exact hmode ⟨hfile, hwritable⟩
    · exact hkind hc.file
    · exact absurd hfits (Nat.not_le.2 hlong)
  constructor
  · rcases hrun : write d data offset v with ⟨e | n, w⟩
    · exact absurd ((ends_write d data offset v hv).error hrun).2 hable
    · exact congrArg Except.ok (hv.content_write hc hrun).1
  · rcases hrun : writeDetached d data offset v with ⟨e | -, w⟩
    · exact absurd ((ends_writeDetached (F := Looking d.path) d data offset v hv).error hrun).2 hable
    · rfl

end Operations

/-- A file of a namespace that was started on a store without locks, in any state that it can come to, has some bytes once
its queued writes are done. A write of either kind that ends within the longest file is taken through a writable descriptor,
and when it has been done, the file is made of these bytes and the new ones in one and the same manner, whether it has a
handle, is given one, is written by a request or by a job. Only a write of no bytes is left out where it goes through a
handle, and one that is queued is left out if it ends beyond the longest file. -/
theorem write_has_one_meaning {μ : Type} [LinkMap μ] {o : Options} {w w' : World Memory μ} {v u : Vfs Memory μ}
    (hstart : start o w = (.ok v, w')) (hstore : w.files.Reachable) (hfree : ∀ p, w.files.isLocked p = false)
    (descriptors : Table String Descriptor) (run : List Moment)
    (hplayed : (Session.played ⟨v, descriptors⟩ run).space = u) {d : Descriptor} {c : Bytes}
    (hc : u.Settles d.path c) (data : Bytes) (offset : Nat) :
    (u.waiting d.path = [] → u.memory.content? d.path = some (.file c)) ∧
    (d.isDirectory = false → d.flags.writable = true → offset + data.length ≤ maxLength →
      (write d data offset u).1 = .ok data.length ∧ (writeDetached d data offset u).1 = .ok ()) ∧
    (∀ n t, write d data offset u = (.ok n, t) → n = data.length ∧ ∃ c', t.memory.content? d.path = some (.file c') ∧
      (u.usesHandle d.path = true ∧ data = [] → c' = c) ∧
      (¬ (u.usesHandle d.path = true ∧ data = []) → c.Written offset data c')) ∧
    (∀ t, writeDetached d data offset u = (.ok (), t) → ∃ c',
      (u.isWarm d.path = true → t.memory.content? d.path = some (.file c')) ∧
      (∀ n, t.background.pending ≤ n → (t.runJobs n).memory.content? d.path = some (.file c')) ∧
      (u.isWarm d.path = true ∧ data = [] ∨ u.isWarm d.path = false ∧ maxLength < offset + data.length → c' = c) ∧
      (¬ (u.isWarm d.path = true ∧ data = [] ∨ u.isWarm d.path = false ∧ maxLength < offset + data.length) →
        c.Written offset data c')) := by
  have hu : u.Healthy := hplayed ▸ Session.healthy_played run (healthy_of_start hstart hstore hfree)
  refine ⟨hc.content, hu.write_taken hc, fun n t ht => ?_, fun t ht => ?_⟩
  · obtain ⟨hn, hcontent⟩ := hu.content_write hc ht
    exact ⟨hn, _, hcontent, Patch.written_apply ⟨u.usesHandle d.path, offset, data⟩ c⟩
  · have ht' : t.Healthy := (((runs_writeDetached d data offset u).ends hu).ok ht).1.healthy hu
    obtain ⟨c', hsettles, hidle, hdone⟩ := hu.settles_writeDetached hc ht
    exact ⟨c', fun hwarm => hsettles.content (hidle hwarm), fun n hn => hsettles.content_runJobs ht' hn, hdone⟩

/-- A descriptor of an empty file. -/
def reed : Descriptor := ⟨⟨[⟨"marsh", by decide⟩]⟩, .file 0 0, .createFile, 0⟩

/-- The file is made. -/
def sprouting : List Moment := [.event (.use (.openAt none "marsh" .createFile (some "reed")))]

/-- Two bytes are written, and one more behind a gap waits. -/
def growing : List Moment :=
  sprouting ++ [.event (.use (.write "reed" [1, 2] 0)), .event (.use (.release "reed")),
    .event (.use (.writeDetached "reed" [9] 3))]

theorem settles_growing : (Session.played ⟨inMemory, ∅⟩ growing).space.Settles reed.path [1, 2, 0, 9] := by
  have hbytes : (Session.played ⟨inMemory, ∅⟩ growing).space.memory.content? reed.path = some (.file [1, 2]) ∧
      ((Session.played ⟨inMemory, ∅⟩ growing).space.waiting reed.path).foldl (fun b x => x.apply b) [1, 2] =
        [1, 2, 0, 9] := by
    decide +kernel
  exact ⟨_, hbytes⟩

/-- A write behind another gap finds the byte that waited. A write of no bytes is queued and makes the file longer. -/
theorem write_has_one_meaning_in_marsh :
    (∃ t b, write reed [5] 6 (Session.played ⟨inMemory, ∅⟩ growing).space = (.ok 1, t) ∧
      t.memory.content? reed.path = some (.file b) ∧ b.length = 7 ∧ b[1]? = some 2 ∧ b[3]? = some 9 ∧ b[4]? = some 0 ∧
      b[6]? = some 5) ∧
    ∃ t b, writeDetached reed [] 6 (Session.played ⟨inMemory, ∅⟩ growing).space = (.ok (), t) ∧
      (t.runJobs 2).memory.content? reed.path = some (.file b) ∧ b.length = 6 ∧ b[3]? = some 9 ∧ b[4]? = some 0 := by
  obtain ⟨hstart, hstore, hfree⟩ := inMemory_started
  have hbefore : (Session.played ⟨inMemory, ∅⟩ growing).space.isWarm reed.path = false ∧
      (writeDetached reed [] 6 (Session.played ⟨inMemory, ∅⟩ growing).space).2.background.pending = 2 := by
    decide +kernel
  obtain ⟨hcold, hpending⟩ := hbefore
  have hmeans := write_has_one_meaning hstart hstore hfree ∅ growing rfl settles_growing
  constructor
  · obtain ⟨-, htaken, hwrite, -⟩ := hmeans [5] 6
    rcases hrun : write reed [5] 6 (Session.played ⟨inMemory, ∅⟩ growing).space with ⟨r, t⟩
    obtain rfl : r = .ok 1 := (congrArg Prod.fst hrun).symm.trans (htaken rfl rfl (by decide)).1
    obtain ⟨-, b, hb, -, hin⟩ := hwrite 1 t hrun
    have hwritten := hin (by simp)
    exact ⟨t, b, rfl, hb, hwritten.length, hwritten.kept 1 (by decide) (by decide), hwritten.kept 3 (by decide) (by decide),
      hwritten.filled 4 (by decide) (by decide), hwritten.placed 0 (by decide)⟩
  · obtain ⟨-, htaken, -, hqueue⟩ := hmeans [] 6
    rcases hrun : writeDetached reed [] 6 (Session.played ⟨inMemory, ∅⟩ growing).space with ⟨r, t⟩
    obtain rfl : r = .ok () := (congrArg Prod.fst hrun).symm.trans (htaken rfl rfl (by decide)).2
    rw [hrun] at hpending
    obtain ⟨b, -, hb, -, hin⟩ := hqueue t hrun
    have hwritten := hin (by rw [hcold]; decide)
    exact ⟨t, b, rfl, hb 2 (Nat.le_of_eq hpending), hwritten.length, hwritten.kept 3 (by decide) (by decide),
      hwritten.filled 4 (by decide) (by decide)⟩

/-- A write of no bytes behind the end of a file is taken either way. By a request it makes the file longer, and through a
handle it leaves the file as it was. -/
theorem empty_write_is_lost_through_handle :
    (Session.played ⟨inMemory, ∅⟩ sprouting).space.memory.content? reed.path = some (.file []) ∧
    (write reed [] 5 (Session.played ⟨{ inMemory with coldPath := .direct }, ∅⟩ sprouting).space).1 = .ok 0 ∧
    (write reed [] 5 (Session.played ⟨{ inMemory with coldPath := .direct }, ∅⟩ sprouting).space).2.memory.content?
      reed.path = some (.file [0, 0, 0, 0, 0]) ∧
    (write reed [] 5 (Session.played ⟨inMemory, ∅⟩ sprouting).space).1 = .ok 0 ∧
    (write reed [] 5 (Session.played ⟨inMemory, ∅⟩ sprouting).space).2.memory.content? reed.path = some (.file []) ∧
    ¬ Bytes.Written [] 5 [] [] := by
  have hruns : (Session.played ⟨inMemory, ∅⟩ sprouting).space.memory.content? reed.path = some (.file []) ∧
      (write reed [] 5 (Session.played ⟨{ inMemory with coldPath := .direct }, ∅⟩ sprouting).space).1 = .ok 0 ∧
      (write reed [] 5 (Session.played ⟨{ inMemory with coldPath := .direct }, ∅⟩ sprouting).space).2.memory.content?
        reed.path = some (.file [0, 0, 0, 0, 0]) ∧
      (write reed [] 5 (Session.played ⟨inMemory, ∅⟩ sprouting).space).1 = .ok 0 ∧
      (write reed [] 5 (Session.played ⟨inMemory, ∅⟩ sprouting).space).2.memory.content? reed.path = some (.file []) := by
    decide +kernel
  obtain ⟨hempty, hdirect, hlonger, htaken, hsame⟩ := hruns
  exact ⟨hempty, hdirect, hlonger, htaken, hsame, fun h => absurd h.length (by decide)⟩

end Vfs

end Filespace
