import Filespace.Proofs.SettledWrites

/-!
# Writes at the end of a file

A write in sequence through a descriptor for appending first asks for the length of the file and then writes there. The
two steps are apart. The write itself waits for the queued writes of the file, but the question does not: a job that is
not due before the question is answered can make the file longer in between, and then the data land inside the file. And
where a link is on record at the path of a file without a handle, the length that is told is that of the link
(`append_lands_inside_the_file`).

So what holds is said with the two contents apart: `c`, what the file is once its queued writes are done, and `b`, what
it was when its length was asked (`append_lands_where_the_file_ended`).
-/

namespace Filespace

open Storage Memory

/-- Bytes that are written where others ended come behind these exactly if both are equally many. -/
theorem Bytes.overwrite_eq_append_iff {c data : Bytes} (hdata : data ≠ []) {k : Nat} :
    c.overwrite k data = c ++ data ↔ k = c.length := by
  constructor
  · intro h
    have hlength := congrArg List.length h
    have hpos := List.length_pos_iff.2 hdata
    rw [length_overwrite, List.length_append] at hlength
    omega
  · intro h
    simp [overwrite, h]

namespace Vfs

variable {μ : Type} [LinkMap μ] {u v w : Vfs Memory μ} {p : Path} {c : Bytes} {d d' : Descriptor} {data : Bytes}

/-- The namespace when it answers how long a file is: it asks the handle at once, or the store after the jobs that are
due. -/
def whenAsked (v : Vfs Memory μ) (p : Path) : Vfs Memory μ := if v.isWarm p then v else v.runDue

theorem reaches_whenAsked (v : Vfs Memory μ) (p : Path) : Reaches (· = .wait) v (v.whenAsked p) := by
  unfold whenAsked
  split
  · exact .refl
  · exact reaches_runDue v

/-- The length of a file is told as it is at that moment. -/
theorem Healthy.fileSize_run (hv : v.Healthy) (hplain : v.isWarm p = true ∨ v.links.get? p = none) {b : Bytes}
    (hb : (v.whenAsked p).memory.content? p = some (.file b)) : fileSize p v = (.ok b.length, v.whenAsked p) := by
  obtain ⟨d, hd, rfl⟩ := content?_eq_file_iff.1 hb
  cases hk : v.handles.get? p with
  | some k =>
    have hwarm : v.isWarm p = true := Table.contains_eq_true_iff.2 ⟨k, hk⟩
    simp only [whenAsked, hwarm, if_true] at hd ⊢
    exact eq_ok_of_wp (wp_bind.2 (wp_get.2 (by simp only [hk, wp_of_ok (hv.sound.size_run hk hd), and_self])))
  | none =>
    have hcold : v.isWarm p = false := Table.contains_eq_false_iff.2 hk
    have hlink : v.links.get? p = none := hplain.resolve_left (by simp [hcold])
    simp only [whenAsked, hcold, Bool.false_eq_true, if_false] at hd ⊢
    -- A file is not at the root, so the store is asked.
    have hroot : p ≠ .root := by
      rintro rfl
      have hdir := kind?_eq_directory_iff.1 ((reaches_runDue v).healthy hv).closed.root
      simp [hdir] at hd
    have hentry : v.runDue.entryAt p = some (.file d.bytes.length d.modified) := by
      simp only [entryAt, (reaches_runDue v).waited.links, hlink, hd]
      rfl
    refine eq_ok_of_wp (wp_bind.2 (wp_get.2 ?_))
    simp only [hk, wp_bind, requireEntry, wp_of_ok (hv.lookup_unlinked_run hlink hroot), hentry]
    exact ⟨rfl, rfl⟩

/-- A file that a write in sequence has been done to was there. -/
theorem Healthy.file_of_writeStream (hv : v.Healthy) {r : Nat × Descriptor}
    (hrun : writeStream d data v = (.ok r, w)) : v.memory.kind? d.path = some .file := by
  obtain ⟨offset, -, x, y, -, hx, hpatched, -⟩ := (ends_writeStream d data v hv).ok hrun
  obtain ⟨-, f, hf, -⟩ := hpatched
  have hkind := (hx.mono fun a ha => Looking.quiet ha fun _ => True).kept.kind d.path trivial
  rw [← hkind]
  exact kind?_eq_file_iff.2 ⟨f, hf⟩

/-- The length is asked first, and then the data are written at that place to the settled bytes. -/
theorem Healthy.content_append (hv : v.Healthy) (happend : d.flags.append = true)
    (hplain : v.isWarm d.path = true ∨ v.links.get? d.path = none) (hdata : data ≠ []) (hc : v.Settles d.path c)
    {n : Nat} (hrun : writeStream d data v = (.ok (n, d'), w)) :
    ∃ b, (v.whenAsked d.path).memory.content? d.path = some (.file b) ∧
      (v.whenAsked d.path).Settles d.path c ∧ n = data.length ∧ d' = { d with cursor := b.length + data.length } ∧
      w.memory.content? d.path = some (.file (c.overwrite b.length data)) := by
  have hreach := reaches_whenAsked v d.path
  have hleaves : Reaches (Leaves d.path) v (v.whenAsked d.path) := hreach.of_only trivial
  have hc' : (v.whenAsked d.path).Settles d.path c := (hleaves.tracked hv hc.file).settles hc
  have hfound := hc'
  obtain ⟨b, hb, -⟩ := hfound
  have hsize := hv.fileSize_run hplain hb
  -- What is left is the write, from the state in which the length was told.
  have hwp : wp (writeStream d data) (fun r t => r = (n, d') ∧ t = w) (fun _ _ => False) v := (wp_of_ok hrun).2 ⟨rfl, rfl⟩
  simp only [writeStream, happend, if_true, wp_bind, wp_of_ok hsize] at hwp
  rcases hwrite : write d data b.length (v.whenAsked d.path) with ⟨e | k, t⟩
  · exact ((wp_of_error hwrite).1 hwp).elim
  · obtain ⟨hr, ht⟩ := (wp_of_ok hwrite).1 hwp
    obtain ⟨hk, hcontent⟩ := (hreach.healthy hv).content_write hc' hwrite
    have hpatch : Patch.apply ⟨(v.whenAsked d.path).usesHandle d.path, b.length, data⟩ c = c.overwrite b.length data := by
      simp [Patch.apply, hdata]
    simp only [Prod.mk.injEq] at hr
    rw [hpatch, ht] at hcontent
    exact ⟨b, hb, hc', by rw [← hr.1, hk], by rw [← hr.2, hk], hcontent⟩

omit [LinkMap μ] in
/-- Some bytes come of a file once its queued writes are done. -/
theorem exists_settles (hfile : v.memory.kind? p = some .file) : ∃ c, v.Settles p c := by
  obtain ⟨d, hd⟩ := kind?_eq_file_iff.1 hfile
  exact ⟨_, d.bytes, content?_eq_file_iff.2 ⟨d, hd, rfl⟩, rfl⟩

/-- No write of a file waits when its length is told, if it has a handle or if all jobs are done before. -/
theorem Healthy.waiting_whenAsked (hv : v.Healthy) (h : v.isWarm p = true ∨ v.pace = []) :
    (v.whenAsked p).waiting p = [] := by
  unfold whenAsked
  split
  · exact hv.sound.waiting_of_warm ‹_›
  · have hpace : v.pace = [] := h.resolve_left ‹_›
    refine waiting_of_idle ?_
    simp [runDue, hpace, drain, queue_runJobs, Background.pending]

/-- A namespace was started on a store without locks and has come to any state, with writes in its queue. A write of some
bytes through a descriptor for appending, if it ends well, is done to the settled bytes of the file, at the place where
the file ended when its length was asked, and the cursor goes behind it. So the file has the data at its end exactly if it
was as long then as it is when its queued writes are done; and it was, if none of them was left to be done. For files
without a handle, no link may be on record at their path, as is the case if the links fitted the store at the start. -/
theorem append_lands_where_the_file_ended {μ : Type} [LinkMap μ] {o : Options} {w w' : World Memory μ}
    {v u : Vfs Memory μ} (hstart : start o w = (.ok v, w')) (hstore : w.files.Reachable)
    (hfree : ∀ p, w.files.isLocked p = false) (descriptors : Table String Descriptor) (run : List Moment)
    (hplayed : (Session.played ⟨v, descriptors⟩ run).space = u) {d d' : Descriptor} (happend : d.flags.append = true)
    (hplain : v.Consistent ∨ u.isWarm d.path = true ∨ u.links.get? d.path = none) {data : Bytes} (hdata : data ≠ [])
    {n : Nat} {t : Vfs Memory μ} (hrun : writeStream d data u = (.ok (n, d'), t)) :
    ∃ c b, u.Settles d.path c ∧ (u.whenAsked d.path).memory.content? d.path = some (.file b) ∧
      n = data.length ∧ d' = { d with cursor := b.length + data.length } ∧
      t.memory.content? d.path = some (.file (c.overwrite b.length data)) ∧
      (t.memory.content? d.path = some (.file (c ++ data)) ∧ d'.cursor = c.length + data.length ↔
        b.length = c.length) ∧
      ((u.whenAsked d.path).waiting d.path = [] → b = c) ∧
      (u.isWarm d.path = true ∨ u.pace = [] → (u.whenAsked d.path).waiting d.path = []) := by
  have hu : u.Healthy := hplayed ▸ Session.healthy_played run (healthy_of_start hstart hstore hfree)
  have hfile := hu.file_of_writeStream hrun
  have hplain : u.isWarm d.path = true ∨ u.links.get? d.path = none := by
    rcases hplain with hfits | hplain
    · have hupright := Session.upright_played run (s := ⟨v, descriptors⟩)
        (upright_of_start hstart hstore hfree (Or.inr hfits))
      rw [hplayed] at hupright
      -- Where a file is, no link is.
      refine Or.inr (Option.eq_none_iff_forall_ne_some.2 fun target hlink => ?_)
      have hnone := kind?_eq_none_iff.2 (hupright.consistent.apart d.path target hlink)
      exact absurd (hfile.symm.trans hnone) (by simp)
    · exact hplain
  obtain ⟨c, hc⟩ := exists_settles hfile
  obtain ⟨b, hb, hsettles, hn, hd', hcontent⟩ := hu.content_append happend hplain hdata hc hrun
  refine ⟨c, b, hc, hb, hn, hd', hcontent, ?_, ?_, fun h => hu.waiting_whenAsked h⟩
  · rw [hcontent, hd', Option.some.injEq, Content.file.injEq, Bytes.overwrite_eq_append_iff hdata]
    simp only [Nat.add_right_cancel_iff, and_self]
  · intro hidle
    simpa [hb] using hsettles.content hidle

/-- A descriptor for appending to an empty file. -/
def quill : Descriptor := ⟨⟨[⟨"parchment", by decide⟩]⟩, .file 0 0, { Flags.createFile with append := true }, 0⟩

/-- The file is made, and two bytes that are to be written wait. -/
def inking : List Moment :=
  [.event (.use (.openAt none "parchment" { Flags.createFile with append := true } (some "quill"))),
    .event (.use (.writeDetached "quill" [1, 2] 0))]

/-- All jobs are done before the length is told. -/
theorem append_lands_where_the_file_ended_on_parchment :
    ∃ t c, writeStream quill [9] (Session.played ⟨inMemory, ∅⟩ inking).space =
        (.ok (1, { quill with cursor := c.length + 1 }), t) ∧
      (Session.played ⟨inMemory, ∅⟩ inking).space.Settles quill.path c ∧
      t.memory.content? quill.path = some (.file (c ++ [9])) := by
  obtain ⟨hstart, hstore, hfree⟩ := inMemory_started
  have hruns : (writeStream quill [9] (Session.played ⟨inMemory, ∅⟩ inking).space).1.isOk = true ∧
      (Session.played ⟨inMemory, ∅⟩ inking).space.pace = [] ∧
      (Session.played ⟨inMemory, ∅⟩ inking).space.links.get? quill.path = none := by
    decide +kernel
  obtain ⟨hok, hpace, hlink⟩ := hruns
  rcases hrun : writeStream quill [9] (Session.played ⟨inMemory, ∅⟩ inking).space with ⟨e | r, t⟩
  · rw [hrun] at hok
    simp [Except.isOk, Except.toBool] at hok
  · obtain ⟨n, d'⟩ := r
    obtain ⟨c, b, hc, hb, rfl, rfl, -, hiff, hsame, hidle⟩ := append_lands_where_the_file_ended hstart hstore hfree ∅ inking
      rfl rfl (Or.inr (Or.inr hlink)) (by simp) hrun
    obtain rfl := hsame (hidle (Or.inr hpace))
    exact ⟨t, b, rfl, hc, (hiff.2 rfl).1⟩

/-- A namespace with a link on record in a directory that is not there. -/
def shaded : Vfs Memory Records :=
  fresh {} ⟨Table.empty.insert ⟨[⟨"board", by decide⟩, ⟨"chalk", by decide⟩]⟩ "t"⟩
    ⟨{}, {}, .ofList [("board/chalk", "t")]⟩

/-- A descriptor for appending to a file of another directory. -/
def chalk : Descriptor :=
  ⟨⟨[⟨"slate", by decide⟩, ⟨"chalk", by decide⟩]⟩, .file 0 0, { Flags.createFile with append := true }, 3⟩

/-- The file is made and three bytes are written. Then its directory is renamed and renamed back, and has the link. -/
def chalking : List Moment :=
  [.event (.use (.openAt none "/slate/chalk" { Flags.createFile with append := true } (some "a"))),
    .event (.use (.writeStream "a" [97, 98, 99])), .event (.use (.renameAt none "/slate" none "/board")),
    .event (.use (.renameAt none "/board" none "/slate"))]

/-- Data land inside the file in two ways: where a queued write is not due before the length is told, and where the length
of a link is told. -/
theorem append_lands_inside_the_file :
    ((Session.played ⟨inMemory, ∅⟩ (inking ++ [.event (.pace [0])])).space.Settles quill.path [1, 2] ∧
      (writeStream quill [9] (Session.played ⟨inMemory, ∅⟩ (inking ++ [.event (.pace [0])])).space).1 =
        .ok (1, { quill with cursor := 1 }) ∧
      (writeStream quill [9] (Session.played ⟨inMemory, ∅⟩ (inking ++ [.event (.pace [0])])).space).2.memory.content?
        quill.path = some (.file [9, 2])) ∧
    start {} shaded.world = (.ok shaded, shaded.world) ∧
      (Session.played ⟨shaded, ∅⟩ chalking).space.Settles chalk.path [97, 98, 99] ∧
      (writeStream chalk [88] (Session.played ⟨shaded, ∅⟩ chalking).space).1 = .ok (1, { chalk with cursor := 2 }) ∧
      (writeStream chalk [88] (Session.played ⟨shaded, ∅⟩ chalking).space).2.memory.content? chalk.path =
        some (.file [97, 88, 99]) := by
  have hinking : ((Session.played ⟨inMemory, ∅⟩ (inking ++ [.event (.pace [0])])).space.memory.content? quill.path =
          some (.file []) ∧
        ((Session.played ⟨inMemory, ∅⟩ (inking ++ [.event (.pace [0])])).space.waiting quill.path).foldl
          (fun b x => x.apply b) [] = [1, 2]) ∧
      (writeStream quill [9] (Session.played ⟨inMemory, ∅⟩ (inking ++ [.event (.pace [0])])).space).1 =
        .ok (1, { quill with cursor := 1 }) ∧
      (writeStream quill [9] (Session.played ⟨inMemory, ∅⟩ (inking ++ [.event (.pace [0])])).space).2.memory.content?
        quill.path = some (.file [9, 2]) := by
    decide +kernel
  have hchalking : ((Session.played ⟨shaded, ∅⟩ chalking).space.memory.content? chalk.path =
          some (.file [97, 98, 99]) ∧
        ((Session.played ⟨shaded, ∅⟩ chalking).space.waiting chalk.path).foldl (fun b x => x.apply b) [97, 98, 99] =
          [97, 98, 99]) ∧
      (writeStream chalk [88] (Session.played ⟨shaded, ∅⟩ chalking).space).1 = .ok (1, { chalk with cursor := 2 }) ∧
      (writeStream chalk [88] (Session.played ⟨shaded, ∅⟩ chalking).space).2.memory.content? chalk.path =
        some (.file [97, 88, 99]) := by
    decide +kernel
  exact ⟨⟨⟨_, hinking.1⟩, hinking.2⟩, by rfl, ⟨_, hchalking.1⟩, hchalking.2⟩

end Vfs

end Filespace
