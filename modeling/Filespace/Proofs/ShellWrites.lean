import Filespace.Proofs.AppendedWrites
import Filespace.Proofs.ExactCreations
import Filespace.Proofs.ReadsInPieces
import Filespace.Proofs.TypedLines
import Filespace.Shell.Basic

/-!
# What is typed into a file is shown again

A line of the shell that writes opens its path anew each time, and so does the line that prints. They come to the same file
because opening, reading and writing change neither the links nor the directory that paths start from (`Steady`). What
carries the proof is `Holds`: with nothing queued, the path leads to a file with certain bytes. A line that writes sets them
or adds to them, and printing puts the chunks of the file together before it reads them as text, so no character is lost at
the end of a chunk.
-/

namespace Filespace

open Storage

namespace Vfs

/-! ### Where paths lead to -/

section Steady

variable {φ μ α : Type} [FileStore φ]

/-- Paths lead to the same places, and where no job waited none waits. -/
structure Steady (v w : Vfs φ μ) : Prop where
  resolver : w.resolver = v.resolver
  links : w.links = v.links
  idle : v.background.queue = [] → w.background.queue = []

instance : IsPreorder (Vfs φ μ) Steady where
  refl _ := ⟨rfl, rfl, id⟩
  trans _ _ _ h k := ⟨k.resolver.trans h.resolver, k.links.trans h.links, fun hidle => k.idle (h.idle hidle)⟩

variable [LinkMap μ]

theorem Steady.finished {v : Vfs φ μ} {j : Job Work} {rest : List (Job Work)} (hq : v.background.queue = j :: rest) :
    Steady v (v.finished j rest) :=
  ⟨rfl, rfl, fun hidle => absurd (hq.symm.trans hidle) (List.cons_ne_nil j rest)⟩

omit [LinkMap μ] in
theorem steady_onFiles (x : StoreM (Host × φ) α) : Stays Steady (onFiles x : VfsM φ μ α) :=
  stays_iff.2 fun _ => ⟨rfl, rfl, id⟩

theorem steady_call (r : Request) : Stays Steady (call r : VfsM φ μ _) :=
  .bind (.modify fun v => related_runDue (fun _ _ _ hq => .finished hq) (fun _ _ => ⟨rfl, rfl, id⟩) v)
    fun _ => steady_onFiles _

omit [LinkMap μ] in
theorem Waited.steady {v w : Vfs Memory μ} (h : Waited v w) : Steady v w :=
  ⟨h.resolver, h.links, fun hidle => (h.idle hidle).1⟩

theorem bears_steady : Bears (Steady (φ := φ) (μ := μ)) where
  waitIdle := .modify fun v => related_runJobs (fun _ _ _ hq => .finished hq) _ v
  look _ := steady_call _
  readExactAt _ _ _ := steady_onFiles _
  writeAllAt _ _ _ := steady_onFiles _
  size _ := steady_onFiles _
  truncate _ _ := steady_onFiles _
  flush _ := steady_onFiles _
  note _ _ _ := ⟨rfl, rfl, id⟩
  stale _ _ := ⟨rfl, rfl, id⟩

theorem steady_openAt (base : Option Descriptor) (raw : String) (flags : Flags) :
    Stays Steady (openAt base raw flags : VfsM φ μ Descriptor) := by
  have hclear : Stays Steady (clearListings : VfsM φ μ Unit) := .modify fun _ => ⟨rfl, rfl, id⟩
  refine bears_steady.openAt (fun p => .guard (.ite (fun _ => ?_) fun _ => ?_)) base raw
  · exact .bind (steady_call _) fun _ => .bind hclear fun _ => .pure
  · exact .bind (steady_call _) fun _ => .bind hclear fun _ => .bind (bears_steady.noteSize p 0)
      fun _ => .get_bind fun _ => .pure

/-- An entry is opened in the manner that was asked for, at its start. -/
theorem wp_openAt_descriptor (base : Option Descriptor) (raw : String) (flags : Flags) (v : Vfs φ μ) :
    wp (openAt base raw flags) (fun d _ => d.flags = flags ∧ d.cursor = 0) (fun _ _ => True) v := by
  have hany : ∀ {β : Type} (x : VfsM φ μ β) v, wp x (fun _ _ => True) (fun _ _ => True) v :=
    fun _ _ => wp_iff.2 ⟨fun _ _ _ => trivial, fun _ _ _ => trivial⟩
  refine wp_bind.2 ((hany _ v).imp fun p w _ => ?_)
  refine wp_bind.2 ((hany _ w).imp fun found u _ => ?_)
  have hmade : ∀ x, wp (do return { path := p, entry := ← x, flags := flags })
      (fun (d : Descriptor) _ => d.flags = flags ∧ d.cursor = 0) (fun _ _ => True) u :=
    fun x => wp_bind.2 ((hany x u).imp fun _ _ _ => ⟨rfl, rfl⟩)
  split
  · exact trivial
  · exact hmade _
  · exact hmade _

end Steady

/-! ### The file that a path leads to -/

variable {μ : Type} [LinkMap μ] {v w : Vfs Memory μ} {path text : String} {p : Path} {b : Bytes}

/-- Nothing is queued, and a path leads to a file with certain bytes. -/
structure Holds (path : String) (p : Path) (b : Bytes) (v : Vfs Memory μ) : Prop where
  healthy : v.Healthy
  idle : v.background.queue = []
  leads : (resolve none path true v).1 = .ok p
  unlinked : v.links.get? p = none
  content : v.memory.content? p = some (.file b)

namespace Holds

omit [LinkMap μ] in
theorem settles (h : Holds path p b v) : v.Settles p b := ⟨b, h.content, by rw [waiting_of_idle h.idle]; rfl⟩

omit [LinkMap μ] in
theorem steady {c : Bytes} (h : Holds path p b v) (hs : Steady v w) (hw : w.Healthy)
    (hc : w.memory.content? p = some (.file c)) : Holds path p c w where
  healthy := hw
  idle := hs.idle h.idle
  leads := (resolve_congr none path true hs.resolver hs.links).trans h.leads
  unlinked := by rw [hs.links, h.unlinked]
  content := hc

omit [LinkMap μ] in
theorem clocked (h : Holds path p b v) (host store : Nat) : Holds path p b (v.clocked host store) :=
  h.steady ⟨rfl, rfl, id⟩ (h.healthy.clocked host store) h.content

/-- The file is opened if it need not be new or a directory, and it is not cut if that is not asked for. -/
theorem wp_openAt (h : Holds path p b v) (flags : Flags) (hfollow : flags.follow = true)
    (hplain : flags.exclusive = false ∧ flags.directory = false ∧ flags.truncate = false) :
    wp (openAt none path flags)
      (fun d w => (d.path = p ∧ d.isDirectory = false ∧ d.flags = flags ∧ d.cursor = 0) ∧ Holds path p b w)
      (fun _ _ => False) v := by
  have hres : resolve none path flags.follow v = (.ok p, v) := resolve_run (by rw [hfollow]; exact h.leads)
  unfold openAt
  rw [wp_bind, wp_of_ok hres, wp_bind]
  refine (ends_lookup (F := (· = .wait)) p v h.healthy).mono ?_ fun _ _ hfalse => hfalse.2
  rintro r w ⟨hr, rfl⟩
  have hcontent : w.memory.content? p = some (.file b) := by rw [(hr.waited.idle h.idle).2.1, h.content]
  have hw : Holds path p b w := h.steady hr.waited.steady (hr.healthy h.healthy) hcontent
  obtain ⟨f, hf, -⟩ := Memory.content?_eq_file_iff.1 hcontent
  have hentry : w.entryAt p = some (.file f.bytes.length f.modified) := by
    simp only [entryAt, hw.unlinked, hf]
    rfl
  obtain ⟨hexclusive, hdirectory, htruncate⟩ := hplain
  have hopen : openExisting p flags (.file f.bytes.length f.modified) w = (.ok (.file f.bytes.length f.modified), w) := by
    simp [openExisting, hexclusive, hdirectory, htruncate, Entry.isDirectory]
    rfl
  rw [hentry]
  exact wp_bind.2 ((wp_of_ok hopen).2 ⟨⟨rfl, rfl, rfl, rfl⟩, hw⟩)

end Holds

/-! ### Lines that write -/

section Writing

variable {u : Vfs Memory μ} {d d' : Descriptor} {data : Bytes} {n : Nat}

/-- A write in sequence keeps the way to the file. -/
theorem Holds.of_writeStream {c : Bytes} (h : Holds path p b u) (hrun : writeStream d data u = (.ok (n, d'), w))
    (hc : w.memory.content? p = some (.file c)) : Holds path p c w :=
  h.steady ((bears_steady.writeStream d data u).ok hrun)
    (((runs_writeStream d data u h.healthy.closed).ok hrun).1.healthy h.healthy) hc

/-- What is written in sequence to an empty file from its start is what it holds then. -/
theorem Healthy.content_writeStream (hu : u.Healthy) (hc : u.Settles d.path []) (happend : d.flags.append = false)
    (hcursor : d.cursor = 0) (hdata : data ≠ []) (hrun : writeStream d data u = (.ok (n, d'), w)) :
    w.memory.content? d.path = some (.file data) := by
  have hwp : wp (writeStream d data) (fun _ t => t = w) (fun _ _ => False) u := (wp_of_ok hrun).2 rfl
  simp only [writeStream, happend, Bool.false_eq_true, if_false, hcursor, pure_bind, wp_bind] at hwp
  rcases hwrite : write d data 0 u with ⟨e | k, t⟩
  · exact ((wp_of_error hwrite).1 hwp).elim
  · obtain rfl : t = w := (wp_of_ok hwrite).1 hwp
    rw [(hu.content_write hc hwrite).2]
    simp [Patch.apply, hdata, Bytes.overwrite]

end Writing

/-- A line that replaces the content leaves itself in the file. -/
theorem Healthy.wp_writeLine (hv : v.Healthy) (hidle : v.background.queue = []) (path text : String) :
    wp (Shell.writeLine path text false) (fun _ w => ∃ p, Holds path p (Text.utf8 text ++ [10]) w) (fun _ _ => True) v := by
  have hopens := ((ends_openedAt none path { Flags.createFile with truncate := true } hidle hv).and
    (wp_openAt_descriptor none path { Flags.createFile with truncate := true } v)).and
    (((runs_openAt none path { Flags.createFile with truncate := true } v) hv.closed).and
      (steady_openAt none path { Flags.createFile with truncate := true } v))
  refine wp_bind.2 (hopens.mono ?_ fun _ _ _ => trivial)
  rintro d u ⟨⟨⟨hres, hsettled, hheld, -⟩, hflags, hcursor⟩, ⟨hreach, -⟩, hsteady⟩
  -- The file is there now and is empty, whether it was there before or not.
  have hempty : u.heldAt d.path = some (.stored (.file [])) := by
    rw [hheld, opened]
    split
    · exact Function.update_self ..
    · exact Function.update_self ..
  have hlink : u.links.get? d.path = none := by
    cases hl : u.links.get? d.path with
    | none => rfl
    | some t => simp [heldAt, hl] at hempty
  have hcontent : u.memory.content? d.path = some (.file []) := by
    rw [heldAt_of_node hlink] at hempty
    simpa using hempty
  have hholds : Holds path d.path [] u :=
    ⟨hreach.healthy hv, hsteady.idle hidle, (resolve_congr none path true hsteady.resolver hsteady.links).trans
      (congrArg Prod.fst hres), hlink, hcontent⟩
  refine wp_bind.2 (wp_iff.2 ⟨fun r w hrun => ?_, fun _ _ _ => trivial⟩)
  refine ⟨d.path, hholds.of_writeStream hrun (hholds.healthy.content_writeStream hholds.settles ?_ hcursor ?_ hrun)⟩
  · rw [hflags]
    rfl
  · simp

/-- A line that is added comes behind what was there. -/
theorem Holds.wp_writeLine (h : Holds path p b v) (text : String) :
    wp (Shell.writeLine path text true) (fun _ w => Holds path p (b ++ (Text.utf8 text ++ [10])) w) (fun _ _ => True) v := by
  refine wp_bind.2 ((h.wp_openAt { Flags.createFile with append := true } rfl ⟨rfl, rfl, rfl⟩).mono ?_
    fun _ _ _ => trivial)
  rintro d u ⟨⟨rfl, -, hflags, -⟩, hu⟩
  refine wp_bind.2 (wp_iff.2 ⟨fun r w hrun => ?_, fun _ _ _ => trivial⟩)
  have happend : d.flags.append = true := by rw [hflags]
  obtain ⟨c, hc, -, -, -, hcontent⟩ :=
    hu.healthy.content_append happend (Or.inr hu.unlinked) (by simp) hu.settles hrun
  -- No job was left to be done before the length was asked, so it was that of the file.
  have hasked : (u.whenAsked d.path).memory = u.memory := ((reaches_whenAsked u d.path).waited.idle hu.idle).2.1
  obtain rfl : b = c := by
    rw [hasked, hu.content] at hc
    simpa using hc
  rw [Bytes.overwrite_eq_append_iff (by simp) |>.2 rfl] at hcontent
  exact hu.of_writeStream hrun hcontent

/-! ### Printing -/

/-- The rest of a file is read if there are enough rounds for its chunks. -/
theorem Healthy.wp_readRest {d : Descriptor} (rounds : Nat) (hv : v.Healthy) (hc : v.Settles d.path b)
    (hfile : d.isDirectory = false) (hread : d.flags.read = true) (hrounds : b.length ≤ d.cursor + rounds * Shell.chunk) :
    wp (Shell.readRest rounds d) (fun data _ => data = b.drop d.cursor) (fun _ _ => False) v := by
  induction rounds generalizing d v with
  | zero =>
    exact (List.drop_eq_nil_of_le hrounds).symm
  | succ rounds ih =>
    have hsplit := Bytes.drop_eq_piece_append b d.cursor Shell.chunk
    refine wp_bind.2 (wp_bind.2 ((hv.wp_read hc hfile hread Shell.chunk d.cursor).imp ?_))
    rintro r w ⟨rfl, hr⟩
    refine wp_ite.2 ⟨fun hend => ?_, fun _ => ?_⟩
    · -- The chunk reaches the end, or there was nothing left to read.
      show (b.piece d.cursor Shell.chunk).bytes = b.drop d.cursor
      rcases hend with hended | hnone
      · have hlast : b.length ≤ (b.piece d.cursor Shell.chunk).cursor := of_decide_eq_true hended
        rw [hsplit, List.drop_eq_nil_of_le hlast, List.append_nil]
      · have hchunk : Shell.chunk ≠ 0 := by decide
        rw [List.isEmpty_iff, Bytes.piece, List.take_eq_nil_iff] at hnone
        rw [Bytes.piece, hnone.resolve_left hchunk, List.take_nil]
    · have hkept : w.Settles d.path b := ((hr.mono fun _ ha => ha.leaves).tracked hv hc.file).settles hc
      have hleft : b.length ≤ d.cursor + (b.piece d.cursor Shell.chunk).bytes.length + rounds * Shell.chunk := by
        have hlength : (b.piece d.cursor Shell.chunk).bytes.length = min Shell.chunk (b.length - d.cursor) := by
          simp [Bytes.piece]
        rw [Nat.succ_mul] at hrounds
        omega
      refine wp_bind.2 ((ih (d := { d with cursor := (b.piece d.cursor Shell.chunk).cursor }) (hr.healthy hv) hkept hfile
        hread hleft).imp fun data _ hdata => ?_)
      show (b.piece d.cursor Shell.chunk).bytes ++ data = b.drop d.cursor
      rw [hdata, ← hsplit]

theorem Holds.contentOf_run (h : Holds path p b v) : ∃ w, Shell.contentOf path v = (.ok b, w) := by
  have hwp : wp (Shell.contentOf path) (fun data _ => data = b) (fun _ _ => False) v := by
    refine wp_bind.2 ((h.wp_openAt {} rfl ⟨rfl, rfl, rfl⟩).imp ?_)
    rintro d u ⟨⟨rfl, hfile, hflags, hcursor⟩, hu⟩
    have hshort : b.length ≤ Memory.maxLength := by
      obtain ⟨f, hf, rfl⟩ := Memory.content?_eq_file_iff.1 hu.content
      exact hu.healthy.short.bytes hf
    have hrounds : b.length ≤ d.cursor + (Bytes.offsetLimit / Shell.chunk + 1) * Shell.chunk := by
      have hmany : Memory.maxLength ≤ (Bytes.offsetLimit / Shell.chunk + 1) * Shell.chunk := by decide
      omega
    have hread : d.flags.read = true := by rw [hflags]
    refine (hu.healthy.wp_readRest _ hu.settles hfile hread hrounds).imp fun data _ hdata => ?_
    rw [hdata, hcursor, List.drop_zero]
  obtain ⟨data, w, hrun, rfl⟩ := exists_ok_of_wp hwp
  exact ⟨w, hrun⟩

end Vfs

namespace Shell

open Vfs Text

variable {μ : Type} [LinkMap μ] {s t : Shell Memory μ} {path : String} {c : String} {lines : List String}
  {xs : List Typed} {x : Typed}

/-! ### Lines one after another -/

/-- The shell does some lines one after another, each of them well. Time may pass in between. -/
inductive Takes : Shell Memory μ → List String → Shell Memory μ → Prop
  | done {s : Shell Memory μ} : Takes s [] s
  | line {s t u : Shell Memory μ} {line : String} {lines : List String} {shown : Option String}
      (well : process line s = (.ok shown, t)) (rest : Takes t lines u) : Takes s (line :: lines) u
  | later {s t : Shell Memory μ} {lines : List String} (host store : Nat)
      (rest : Takes { s with space := s.space.clocked host store } lines t) : Takes s lines t

theorem writeLine_of_process (hpath : IsWord path.toList) (x : Typed) {shown : Option String}
    (h : process (x.line path) s = (.ok shown, t)) :
    writeLine path (trimmed x.text) x.append s.space = (.ok (), t.space) := by
  rw [process, Command.ofLine_typed hpath] at h
  simp only [perform, bind_run] at h
  rcases hwrite : writeLine path (trimmed x.text) x.append s.space with ⟨e | _, w⟩
  · rw [hwrite] at h
    cases h
  · rw [hwrite] at h
    obtain ⟨-, rfl⟩ := Prod.mk.inj h
    rfl

theorem process_cat (hpath : IsWord path.toList) {b : Bytes} {w : Vfs Memory μ} (h : contentOf path s.space = (.ok b, w)) :
    (process ("cat " ++ path) s).1 = .ok (some (decoded b)) := by
  rw [process, Command.ofLine_cat hpath]
  simp only [perform, bind_run, h]
  rfl

theorem utf8_written (x : Typed) : utf8 x.written = utf8 (trimmed x.text) ++ [10] := by
  rw [Typed.written, utf8_append]
  rfl

/-- A line sets what the file holds, or adds to it. -/
theorem holds_of_line (hpath : IsWord path.toList) {shown : Option String}
    (h : process (x.line path) s = (.ok shown, t)) (hs : s.space.Healthy) (hidle : s.space.background.queue = [])
    (hheld : x.append = true → ∃ p, Holds path p (utf8 c) s.space) : ∃ p, Holds path p (utf8 (Typed.after c x)) t.space := by
  have hrun := writeLine_of_process hpath x h
  unfold Typed.after
  cases happend : x.append with
  | false =>
    rw [happend] at hrun
    obtain ⟨p, hp⟩ := (hs.wp_writeLine hidle path (trimmed x.text)).ok hrun
    exact ⟨p, by simpa [utf8_written] using hp⟩
  | true =>
    rw [happend] at hrun
    obtain ⟨p, hp⟩ := hheld happend
    exact ⟨p, by simpa [utf8_append, utf8_written] using (hp.wp_writeLine (trimmed x.text)).ok hrun⟩

/-- What the file holds follows the lines. -/
theorem Takes.holds (h : Takes s lines t) (hpath : IsWord path.toList)
    (hlines : lines = xs.map (Typed.line · path)) (hheld : ∃ p, Holds path p (utf8 c) s.space) :
    ∃ p, Holds path p (utf8 (xs.foldl Typed.after c)) t.space := by
  induction h generalizing xs c with
  | done =>
    obtain rfl := List.map_eq_nil_iff.1 hlines.symm
    exact hheld
  | line well rest ih =>
    obtain ⟨x, xs, rfl, rfl, rfl⟩ := List.map_eq_cons_iff.1 hlines.symm
    obtain ⟨p, hp⟩ := hheld
    rw [List.foldl_cons]
    exact ih rfl (holds_of_line hpath well hp.healthy hp.idle fun _ => ⟨p, hp⟩)
  | later host store rest ih =>
    obtain ⟨p, hp⟩ := hheld
    exact ih hlines ⟨p, hp.clocked host store⟩

/-- If the first line replaces the content, nothing need be known of the file before. -/
theorem Takes.holds_of_replaced (h : Takes s lines t) (hpath : IsWord path.toList) (hlines : lines = (x :: xs).map (Typed.line · path)) (hx : x.append = false) (hs : s.space.Healthy)
    (hidle : s.space.background.queue = []) : ∃ p, Holds path p (utf8 ((x :: xs).foldl Typed.after "")) t.space := by
  induction h with
  | done => cases hlines
  | line well rest ih =>
    obtain ⟨rfl, rfl⟩ := List.cons.inj hlines
    rw [List.foldl_cons]
    exact rest.holds hpath rfl (holds_of_line hpath well hs hidle fun happend => absurd happend (by simp [hx]))
  | later host store rest ih => exact ih hlines (hs.clocked host store) hidle

/-- What lines come to is what was written from the last one on that replaced the content. -/
theorem exists_last_replacement (x : Typed) (xs : List Typed) (hx : x.append = false) :
    ∃ before y more, x :: xs = before ++ y :: more ∧ y.append = false ∧ (∀ z ∈ more, z.append = true) ∧
      (x :: xs).foldl Typed.after "" = String.join ((y :: more).map Typed.written) := by
  induction xs using List.reverseRecOn with
  | nil => exact ⟨[], x, [], rfl, hx, by simp, by simp [Typed.after, hx]⟩
  | append_singleton xs z ih =>
    cases hz : z.append with
    | false =>
      refine ⟨x :: xs, z, [], rfl, hz, by simp, ?_⟩
      simp [Typed.after, hz]
    | true =>
      obtain ⟨before, y, more, hsplit, hy, hmore, hjoin⟩ := ih
      refine ⟨before, y, more ++ [z], ?_, hy, ?_, ?_⟩
      · rw [← List.cons_append, hsplit, List.append_assoc, List.cons_append]
      · intro u hu
        rcases List.mem_append.1 hu with hu | hu
        · exact hmore u hu
        · rw [List.mem_singleton.1 hu, hz]
      · rw [← List.cons_append, List.foldl_append, hjoin, ← List.cons_append, List.map_append, String.join_append]
        simp [Typed.after, hz]

theorem Takes.of_isOk {line : String} (h : (process line s).1.isOk = true)
    (rest : Takes (process line s).2 lines t) : Takes s (line :: lines) t := by
  rcases hline : process line s with ⟨e | shown, u⟩
  · rw [hline] at h
    cases h
  · rw [hline] at rest
    exact .line hline rest

/-- A shell works on a namespace that was started on a store without locks and has come to any state in which nothing is
queued. A file is written to by lines that all name it by one word and are all done well, the first of which replaces the
content. Then the line that prints the file shows what was written from the last line on that replaced the content, each text
without the blanks around it and with one end of line, whatever is in the texts and however long they are. -/
theorem written_lines_are_shown {μ : Type} [LinkMap μ] {o : Options} {w w' : World Memory μ} {v : Vfs Memory μ}
    {s t : Shell Memory μ} (hstart : start o w = (.ok v, w')) (hstore : w.files.Reachable)
    (hfree : ∀ p, w.files.isLocked p = false) (descriptors : Table String Descriptor) (run : List Moment)
    (hplayed : (Session.played ⟨v, descriptors⟩ run).space = s.space) (hidle : s.space.background.queue = [])
    {path : String} (hpath : path ≠ "") (hword : ∀ c ∈ path.toList, isBlank c = false) {x : Typed} {xs : List Typed}
    (hx : x.append = false) (htakes : Takes s ((x :: xs).map (Typed.line · path)) t) :
    ∃ before y more, x :: xs = before ++ y :: more ∧ y.append = false ∧ (∀ z ∈ more, z.append = true) ∧
      (process ("cat " ++ path) t).1 = .ok (some (String.join ((y :: more).map Typed.written))) := by
  have hs : s.space.Healthy := hplayed ▸ Session.healthy_played run (healthy_of_start hstart hstore hfree)
  have hpath : IsWord path.toList := ⟨by simpa using hpath, hword⟩
  obtain ⟨p, hp⟩ := htakes.holds_of_replaced hpath rfl hx hs hidle
  obtain ⟨before, y, more, hsplit, hy, hmore, hjoin⟩ := exists_last_replacement x xs hx
  obtain ⟨u, hu⟩ := hp.contentOf_run
  refine ⟨before, y, more, hsplit, hy, hmore, ?_⟩
  rw [process_cat hpath hu, decoded_utf8, hjoin]

/-- A link to a file that is not there yet. -/
def pad : List Moment := [.event (.use (.symlinkAt none "desk/memo" "pad")), .event (.work 1)]

/-- Two lines that replace the content and one that adds to it. -/
def memo : List Typed := [⟨" old\n", false⟩, ⟨" grüße\n  €😀 ", false⟩, ⟨"", true⟩]

/-- The lines go through the link, and an hour passes before the second. -/
theorem written_lines_are_shown_on_pad :
    ∃ (t : Shell Memory Records) (before : List Typed) (y : Typed) (more : List Typed),
      Takes ⟨(Session.played ⟨inMemory, ∅⟩ pad).space, false⟩ (memo.map (Typed.line · "pad")) t ∧
      memo = before ++ y :: more ∧ y.append = false ∧ (∀ z ∈ more, z.append = true) ∧
      (process ("cat " ++ "pad") t).1 = .ok (some (String.join ((y :: more).map Typed.written))) := by
  obtain ⟨hstart, hstore, hfree⟩ := inMemory_started
  have hidle : (Session.played ⟨inMemory, ∅⟩ pad).space.background.queue.length = 0 := by decide +kernel
  obtain ⟨t, htakes⟩ : ∃ t, Takes ⟨(Session.played ⟨inMemory, ∅⟩ pad).space, false⟩ (memo.map (Typed.line · "pad")) t :=
    ⟨_, .of_isOk (by decide +kernel)
      (.later 3600000 3600000 (.of_isOk (by decide +kernel) (.of_isOk (by decide +kernel) .done)))⟩
  have hname : "pad" ≠ "" ∧ ∀ c ∈ "pad".toList, isBlank c = false := ⟨by decide, IsWord.none_blank (by decide)⟩
  obtain ⟨before, y, more, hshown⟩ := written_lines_are_shown hstart hstore hfree ∅ pad rfl
    (List.length_eq_zero_iff.1 hidle) hname.1 hname.2 rfl htakes
  exact ⟨t, before, y, more, htakes, hshown⟩

end Shell

end Filespace
