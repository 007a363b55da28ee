import Filespace.Proofs.MovedSubtrees
import Filespace.Proofs.QueuedWrites

/-!
# How far remembered sizes are right

A size is remembered when an operation has found out how long a file is. Writes that are queued are done later by jobs, and
a job notes nothing. So the length of a file can be more than the size that is remembered of it, and this is the only
difference: since the size was right, only such writes have changed the file (`Since`), while it may have been renamed.

Along one operation a file of a remembered size changes by jobs of the queue that it found (`Ages`), which is a truth that
lasts in the sense of `Lasting`. Renames are followed by hand, since the file is then at another place.
-/

namespace Filespace

open Storage Memory

/-- What a piece of work is to write to the file at a path, if anything. -/
def Work.patchTo? (p : Path) : Work → Option Vfs.Patch
  | link _ => none
  | write q _ offset data => if q = p then some ⟨false, offset, data⟩ else none

theorem Work.patchTo?_eq_none {p : Path} {w : Work} (h : w.writesTo p = false) : w.patchTo? p = none := by
  cases w with
  | link job => rfl
  | write q generation offset data => exact if_neg (of_decide_eq_false h)

namespace Vfs

variable {μ : Type} {u v w : Vfs Memory μ} {s : Session Memory μ} {p q source target : Path} {m : FileMeta}
  {l : List Patch}

/-! ### Queued writes and lengths -/

/-- The writes to a file that are queued, in their order. -/
def queuedTo (v : Vfs Memory μ) (p : Path) : List Patch := v.works.filterMap (Work.patchTo? p)

/-- The bytes of a file after some writes. -/
def Patch.all (l : List Patch) (b : Bytes) : Bytes := l.foldl (fun b x => x.apply b) b

/-- How long a file of a given length is after some queued writes: each makes it reach to its end at least. -/
def Patch.reach (l : List Patch) (n : Nat) : Nat := l.foldl (fun n x => max n (x.offset + x.data.length)) n

theorem Patch.length_all (h : ∀ x ∈ l, x.through = false) (b : Bytes) : (Patch.all l b).length = Patch.reach l b.length := by
  induction l generalizing b with
  | nil => rfl
  | cons x l ih =>
    have hx : (x.apply b).length = max b.length (x.offset + x.data.length) := by
      unfold Patch.apply
      rw [h x List.mem_cons_self]
      exact Bytes.length_overwrite b x.offset x.data
    show (Patch.all l (x.apply b)).length = Patch.reach l (max b.length (x.offset + x.data.length))
    rw [ih fun y hy => h y (List.mem_cons_of_mem _ hy), hx]

/-- Jobs write without handles. -/
theorem through_of_queuedTo {x : Patch} (h : x ∈ v.queuedTo p) : x.through = false := by
  obtain ⟨work, -, hx⟩ := List.mem_filterMap.1 h
  cases work with
  | link job => cases hx
  | write q generation offset data =>
    by_cases hq : q = p
    · rw [Work.patchTo?, if_pos hq] at hx
      cases hx
      rfl
    · rw [Work.patchTo?, if_neg hq] at hx
      cases hx

/-- The file at one path has become the file at another, or the same, by some writes. -/
def Rewritten (q p : Path) (l : List Patch) (v w : Vfs Memory μ) : Prop :=
  ∃ b, v.memory.content? q = some (.file b) ∧ w.memory.content? p = some (.file (Patch.all l b))

theorem Rewritten.trans {r : Path} {l' : List Patch} (h : Rewritten q p l u v) (k : Rewritten p r l' v w) :
    Rewritten q r (l ++ l') u w := by
  obtain ⟨b, hb, hv⟩ := h
  obtain ⟨b', hb', hw⟩ := k
  rw [hv] at hb'
  cases hb'
  refine ⟨b, hb, ?_⟩
  rw [Patch.all, List.foldl_append]
  exact hw

variable [LinkMap μ]

/-- What one job does to a file. -/
theorem rewritten_finished {b : Bytes} (hb : v.memory.content? p = some (.file b)) (j : Job Work) (rest : List (Job Work)) :
    ∃ l, l.Sublist (j.work.patchTo? p).toList ∧ Rewritten p p l v (v.finished j rest) := by
  cases hj : j.work.writesTo p with
  | false => exact ⟨[], List.nil_sublist _, b, hb, (content?_of_atRest? (atRest?_finished v rest hj)).trans hb⟩
  | true =>
    cases hwork : j.work with
    | link job =>
      rw [hwork] at hj
      cases hj
    | write q generation offset data =>
      rw [hwork] at hj
      obtain rfl : q = p := of_decide_eq_true hj
      have hmemory : (v.finished j rest).memory =
          (perform (.write q generation offset data) (v.world, v.detached)).2.1.files := by
        unfold finished
        rw [hwork]
        rfl
      rcases (perform_write q generation offset data (v.world, v.detached)).2.1 with hm | ⟨d, hd, -, hm, -⟩
      · refine ⟨[], List.nil_sublist _, b, hb, ?_⟩
        rw [hmemory]
        exact (congrArg (content? · q) hm).trans hb
      · obtain ⟨d', hd', rfl⟩ := content?_eq_file_iff.1 hb
        obtain rfl : d' = d := by
          have hsame := hd'.symm.trans hd
          cases hsame
          rfl
        refine ⟨[⟨false, offset, data⟩], ?_, d'.bytes, hb, ?_⟩
        · rw [Work.patchTo?, if_pos rfl]
          exact .refl _
        · rw [hmemory]
          refine (congrArg (content? · q) hm).trans ?_
          rw [content?_revised, if_pos rfl]
          rfl

/-! ### Along an operation -/

/-- A file has changed between two states by writes that were queued in the first. What was queued since does not write to
it. -/
def Drifts (p : Path) (v w : Vfs Memory μ) : Prop :=
  ∃ (gone left more : List Work) (l : List Patch), v.works = gone ++ left ∧ w.works = left ++ more ∧ (∀ x ∈ more, x.writesTo p = false) ∧
    l.Sublist (gone.filterMap (Work.patchTo? p)) ∧ Rewritten p p l v w

omit [LinkMap μ] in
theorem drifts_refl (hp : v.memory.kind? p = some .file) : Drifts p v v := by
  obtain ⟨d, hd⟩ := kind?_eq_file_iff.1 hp
  have hb : v.memory.content? p = some (.file d.bytes) := content?_eq_file_iff.2 ⟨d, hd, rfl⟩
  exact ⟨[], v.works, [], [], rfl, (List.append_nil _).symm, fun _ h => absurd h List.not_mem_nil, List.nil_sublist _,
    d.bytes, hb, hb⟩

omit [LinkMap μ] in
theorem Drifts.same (h : Drifts p u v) (k : SameFile p v w) : Drifts p u w := by
  obtain ⟨gone, left, more, l, hu, hv, hmore, hl, b, hb, hcontent⟩ := h
  obtain ⟨hsame, more', hw, hmore'⟩ := k
  refine ⟨gone, left, more ++ more', l, hu, ?_, fun x hx => ?_, hl, b, hb, hsame.trans hcontent⟩
  · rw [hw, hv, List.append_assoc]
  · rcases List.mem_append.1 hx with hx | hx
    · exact hmore x hx
    · exact hmore' x hx

theorem Drifts.job (h : Drifts p u v) {j : Job Work} {rest : List (Job Work)} (hq : v.background.queue = j :: rest) :
    Drifts p u (v.finished j rest) := by
  obtain ⟨gone, left, more, l, hu, hv, hmore, hl, hrewritten⟩ := h
  obtain ⟨l', hl', hdone⟩ : ∃ l, l.Sublist (j.work.patchTo? p).toList ∧ Rewritten p p l v (v.finished j rest) := by
    obtain ⟨_, -, hb⟩ := hrewritten
    exact rewritten_finished hb j rest
  have hrewritten' := hrewritten.trans hdone
  rw [works_eq_cons hq] at hv
  cases left with
  | nil =>
    -- The job was queued in between, so it does not write to the file.
    have hv : more = j.work :: (v.finished j rest).works := hv.symm
    rw [hv] at hmore
    rw [Work.patchTo?_eq_none (hmore _ List.mem_cons_self)] at hl'
    obtain rfl : l' = [] := List.sublist_nil.1 hl'
    rw [List.append_nil] at hrewritten'
    exact ⟨gone, [], _, l, hu, rfl, fun x hx => hmore x (List.mem_cons_of_mem _ hx), hl, hrewritten'⟩
  | cons x left =>
    obtain ⟨rfl, hrest⟩ := List.cons.inj hv
    refine ⟨gone ++ [j.work], left, more, l ++ l', ?_, hrest, hmore, ?_, hrewritten'⟩
    · rw [hu, List.append_assoc]
      rfl
    · rw [List.filterMap_append]
      refine hl.append ?_
      cases hpatch : j.work.patchTo? p with
      | none =>
        rw [hpatch] at hl'
        rwa [List.filterMap_cons_none hpatch]
      | some y =>
        rw [hpatch] at hl'
        rwa [List.filterMap_cons_some hpatch]

omit [LinkMap μ] in
theorem Drifts.rewritten (h : Drifts p v w) : ∃ l, l.Sublist (v.queuedTo p) ∧ Rewritten p p l v w := by
  obtain ⟨gone, left, more, l, hv, -, -, hl, hrewritten⟩ := h
  refine ⟨l, hl.trans ?_, hrewritten⟩
  unfold queuedTo
  rw [hv, List.filterMap_append]
  exact List.sublist_append_left _ _

/-- The size that is remembered is the length of the file. -/
def Right (v : Vfs Memory μ) (p : Path) (m : FileMeta) : Prop :=
  ∃ b, v.memory.content? p = some (.file b) ∧ b.length = m.size

theorem lasting_drifts (u : Vfs Memory μ) :
    Lasting (fun v p _ => Drifts p u v) fun v p m => Right v p m ∨ Drifts p u v where
  file h := by
    obtain ⟨_, _, _, _, -, -, -, -, _, -, hb⟩ := h
    obtain ⟨d, hd, -⟩ := content?_eq_file_iff.1 hb
    exact kind?_eq_file_iff.2 ⟨d, hd⟩
  same := .same
  job hq h := h.job hq
  weaken := Or.inr
  noted h := Or.inl ⟨_, h, rfl⟩

/-- A size is remembered from an earlier state on, and the file has changed by writes that were queued in it. -/
def Ages (u v : Vfs Memory μ) (p : Path) (m : FileMeta) : Prop := u.sizes.get? p = some m ∧ Drifts p u v

/-- The same, without an account of what is queued now. -/
def Aged (u v : Vfs Memory μ) (p : Path) (m : FileMeta) : Prop :=
  u.sizes.get? p = some m ∧ ∃ l : List Patch, l.Sublist (u.queuedTo p) ∧ Rewritten p p l u v

theorem lasting_ages (u : Vfs Memory μ) : Lasting (Ages u) fun v p m => Right v p m ∨ Aged u v p m where
  file {_ _ m} h := (lasting_drifts u).file (m := m) h.2
  same h k := ⟨h.1, h.2.same k⟩
  job hq h := ⟨h.1, h.2.job hq⟩
  weaken h := Or.inr ⟨h.1, h.2.rewritten⟩
  noted h := Or.inl ⟨_, h, rfl⟩

omit [LinkMap μ] in
/-- A write that is queued changes no file yet. -/
theorem KnowsFiles.aged_queued (h : v.KnowsFiles) (p : Path) (offset : Nat) (data : Bytes) :
    (v.queued p offset data).Knows fun w q m => Right w q m ∨ Aged v w q m := by
  intro q m hq
  obtain ⟨d, hd⟩ := kind?_eq_file_iff.1 (h q (by rw [show v.sizes.get? q = some m from hq]; simp))
  have hb : v.memory.content? q = some (.file d.bytes) := content?_eq_file_iff.2 ⟨d, hd, rfl⟩
  exact Or.inr ⟨hq, [], List.nil_sublist _, d.bytes, hb, hb⟩

omit [LinkMap μ] in
theorem KnowsFiles.ages (h : v.KnowsFiles) : v.Knows (Ages v) :=
  fun p m hp => ⟨hp, drifts_refl (h p (by rw [hp]; simp))⟩

/-! ### Along a rename -/

/-- Steps that queue nothing. -/
theorem Reaches.works_suffix {P : Act → Prop} (h : Reaches P v w)
    (hP : ∀ a, P a → Still a ∨ ∃ source target, a = .copy source target) : w.works <:+ v.works := by
  refine h.keeps (I := fun u => u.works <:+ v.works) (fun a x y ha hs hx => ?_) (List.suffix_refl _)
  have hsame : ∀ {x y : Vfs Memory μ}, y.works = x.works → x.works <:+ v.works → y.works <:+ v.works := by
    intro x y hxy hx
    rwa [hxy]
  cases hs with
  | job hq => exact (works_eq_cons hq ▸ List.suffix_cons _ _).trans hx
  | pass | note | lock | unlock | stale | copy => exact hsame rfl hx
  | _ => exact absurd (hP _ ha) (by simp [Still])

omit [LinkMap μ] in
theorem queuedTo_sublist (h : w.works <:+ v.works) (p : Path) : (w.queuedTo p).Sublist (v.queuedTo p) :=
  h.sublist.filterMap _

/-- A truth about a size lasts while another entry is moved. -/
theorem Reaches.lasting_copying {I J : Vfs Memory μ → Path → FileMeta → Prop} (h : Reaches (Copying source target) v w)
    (hI : Lasting I J) (hq : q.under target = false) (hv : I v q m) : I w q m := by
  refine h.keeps (I := fun u => I u q m) ?_ hv
  rintro a x y (rfl | rfl) hstep hx
  · exact hstep.lasting trivial hI hx
  · cases hstep with
    | copy _ _ _ htree =>
      exact hI.same hx (.of_content (congrArg (Option.map Node.content) (htree.same q hq)) rfl)

/-- What becomes of files of remembered sizes when an entry is moved: they are at their place or at the new one, and jobs may have
written to them at both. -/
structure Relocates (source target : Path) (u v w : Vfs Memory μ) : Prop where
  beside : ∀ q m, q.under source = false → q.under target = false → Ages u v q m → Ages u w q m
  moved : ∀ r m, Ages u v (source.join r) m → ∃ l : List Patch,
    l.Sublist (u.queuedTo (source.join r) ++ u.queuedTo (target.join r)) ∧ Rewritten (source.join r) (target.join r) l u w

omit [LinkMap μ] in
theorem Relocates.same {x : Vfs Memory μ} (h : Relocates source target u v w) (hsame : ∀ q, SameFile q w x) :
    Relocates source target u v x where
  beside q m hs ht hv := ⟨hv.1, (h.beside q m hs ht hv).2.same (hsame q)⟩
  moved r m hv := by
    obtain ⟨l, hl, b, hb, hw⟩ := h.moved r m hv
    exact ⟨l, hl, b, hb, (hsame _).1.trans hw⟩

theorem Healthy.wp_moveEntry_relocates (hv : v.Healthy) (h : Movable source target v)
    (hcold : v.ColdBelow source) (hworks : v.works <:+ u.works) :
    wp (moveEntry source target) (fun _ w => Relocates source target u v w) (fun _ _ => False) v := by
  refine ((hv.wp_moveEntry h hcold).and (h.wp_moveEntry_arrives hcold)).mono ?_ fun _ _ he => he.1
  rintro - w ⟨⟨x, hx, f, rfl, hmoved, -⟩, y, y', z, hy, hqueue, harrived, hz, hw⟩
  refine ⟨fun q m hs ht hq => ?_, fun r m hr => ?_⟩
  · refine (lasting_ages u).same (hx.lasting_copying (lasting_ages u) ht hq) (.of_content ?_ rfl)
    exact congrArg (Option.map Node.content) (hmoved.same q hs ht)
  · have hout := Path.not_under_of_beside h.beside (Path.under_join source r)
    obtain ⟨-, hdrift⟩ := hy.lasting_copying (lasting_ages u) hout hr
    obtain ⟨l, hl, b, hb, hcontent⟩ := hdrift.rewritten
    -- The writes to the new place are done after the file has arrived there.
    have harrived := (harrived r).trans hcontent
    have hfile : y'.memory.kind? (target.join r) = some .file := by
      obtain ⟨d, hd, -⟩ := content?_eq_file_iff.1 harrived
      exact kind?_eq_file_iff.2 ⟨d, hd⟩
    have hlate : Drifts (target.join r) y' z :=
      hz.lasting (m := m) (fun a ha => by rw [ha]; trivial) (lasting_drifts y') (drifts_refl hfile)
    obtain ⟨l', hl', b', hb', hcontent'⟩ := hlate.rewritten
    rw [harrived] at hb'
    cases hb'
    have hsuffix : y'.works <:+ u.works := by
      have hcopy : ∀ a, Copying source target a → Still a ∨ ∃ source target, a = .copy source target := by
        rintro a (rfl | rfl)
        · exact Or.inl trivial
        · exact Or.inr ⟨_, _, rfl⟩
      rw [show y'.works = y.works from congrArg (List.map Job.work) hqueue]
      exact (hy.works_suffix hcopy).trans hworks
    refine ⟨l ++ l', hl.append (hl'.trans (queuedTo_sublist hsuffix _)), b, hb, ?_⟩
    rw [Patch.all, List.foldl_append]
    exact (hw r).trans hcontent'

/-- A planned move carries files of remembered sizes along. -/
theorem Planned.wp_relocates {entry : Entry} (h : Planned source target entry v) (hv : v.Healthy) (hcons : v.Consistent)
    (hworks : v.works <:+ u.works) :
    wp (relocate source target entry) (fun _ w => Relocates source target u v w) (fun _ _ => False) v := by
  have hlasting : ∀ {w x : Vfs Memory μ}, Dropped source v w → Relocates source target u w x → Relocates source target u v x :=
    fun hw hx => ⟨fun q m hs ht hq => hx.beside q m hs ht (hw.reaches.lasting (fun _ => Clearing.still) (lasting_ages u) hq),
      fun r m hq => hx.moved r m (hw.reaches.lasting (fun _ => Clearing.still) (lasting_ages u) hq)⟩
  refine h.wp_course hv.closed (fun t ht => ⟨fun q m _ _ hq => ?_, fun r m hr => ?_⟩) (fun w hw hmovable =>
    (hw.reaches.healthy hv).wp_moveEntry_relocates hmovable (fun _ => hw.cold)
      ((hw.reaches.works_suffix fun _ ha => Or.inl ha.still).trans hworks)) (fun w x hw hx => ?_) fun _ w x hw hx => ?_
  · exact (lasting_ages u).same hq ((SameFile.of_content rfl rfl).trans (sameFile_relinked _ _ _ q))
  · -- A link has no files below it.
    have hfile := (lasting_ages u).file hr
    rw [kind?_eq_none_iff.2 (hv.closed.nothing_under (hcons.apart source t ht) (Path.under_join source r))] at hfile
    cases hfile
  · exact (hlasting hw hx).same fun q => (SameFile.of_content rfl rfl).trans (sameFile_relinked _ _ _ q)
  · exact (hlasting hw hx).same fun q => .of_content rfl rfl

/-! ### Along a run -/

/-- A moment of a run leaves a file at its path or renames it, and some of the writes that were queued for it are done. -/
inductive Moment.Brings (s : Session Memory μ) : Moment → Path → Path → List Patch → Prop
  | stay {x : Moment} {p : Path} {l : List Patch} (queued : l.Sublist (s.space.queuedTo p))
      (written : Rewritten p p l s.space (x.happen s).space) : Brings s x p p l
  | rename {b c : Option String} {raw toRaw : String} {source target r : Path} {l : List Patch}
      (source_names : Names b raw false s source) (target_names : Names c toRaw false s target)
      (queued : l.Sublist (s.space.queuedTo (source.join r) ++ s.space.queuedTo (target.join r)))
      (written : Rewritten (source.join r) (target.join r) l s.space ((Operation.renameAt b raw c toRaw).run s).2.space) :
      Brings s (.event (.use (.renameAt b raw c toRaw))) (source.join r) (target.join r) l

theorem Moment.Brings.through {x : Moment} (h : x.Brings s q p l) : ∀ y ∈ l, y.through = false := by
  intro y hy
  cases h with
  | stay hl _ => exact through_of_queuedTo (hl.subset hy)
  | rename _ _ hl _ =>
    rcases List.mem_append.1 (hl.subset hy) with hy | hy
    · exact through_of_queuedTo hy
    · exact through_of_queuedTo hy

theorem Moment.Brings.rewritten {x : Moment} (h : x.Brings s q p l) : Rewritten q p l s.space (x.happen s).space := by
  cases h with
  | stay _ h | rename _ _ _ h => exact h

/-- A rename keeps the sizes that are remembered, with their files. -/
theorem Operation.renamed (hs : s.space.Healthy) (hcons : s.space.Consistent) (hknows : s.space.KnowsFiles)
    (b : Option String) (raw : String) (c : Option String) (toRaw : String) :
    Ended (fun w => ∀ p m, w.sizes.get? p = some m → Ages s.space w p m ∨ ∃ source target r, p = target.join r ∧
        Names b raw false s source ∧ Names c toRaw false s target ∧ s.space.sizes.get? (source.join r) = some m ∧
        ∃ l, l.Sublist (s.space.queuedTo (source.join r) ++ s.space.queuedTo (target.join r)) ∧
          Rewritten (source.join r) (target.join r) l s.space w)
      Any (fun _ => True) (Operation.renameAt b raw c toRaw).run s := by
  refine .bind_base fun d hd => .onBase hs (fun d' hd' hhealthy => ?_) fun _ _ => rfl
  refine Ends.bind (ends_renamePlan d raw d' toRaw s.space).any (fun _ _ => trivial) ?_ hhealthy
  rintro r w hr ⟨source, target, hsource, htarget, ⟨rfl, -⟩ | ⟨entry, rfl, hplan⟩⟩
  · exact .pure fun p m hp => Or.inl (hr.knows (fun _ => tame_of_wait) (lasting_ages _) hknows.ages p m hp)
  · intro hw
    have hages := hr.knows (fun _ => tame_of_wait) (lasting_ages _) hknows.ages
    have hcons' := hr.consistent hhealthy.closed hcons
    have hknows' := hr.knowsFiles (fun _ => tame_of_wait) hknows
    have hsuffix : w.works <:+ s.space.works := hr.works_suffix fun a ha => Or.inl (by rw [ha]; trivial)
    refine ((hplan.wp_relocated hw hcons' hknows').and (hplan.wp_relocates hw hcons' hsuffix)).mono ?_ fun _ _ he => he.1.elim
    rintro - x ⟨hrelocated, hmoved⟩ p m hp
    cases ht : p.under target with
    | true =>
      obtain ⟨r, rfl⟩ := Path.under_iff_exists_join.1 ht
      rw [hrelocated.sizes.there] at hp
      have hr := hages _ _ hp
      exact Or.inr ⟨source, target, r, rfl, ⟨d, hd, congrArg Prod.fst hsource⟩, ⟨d', hd', congrArg Prod.fst htarget⟩, hr.1,
        hmoved.moved r m hr⟩
    | false =>
      cases hs : p.under source with
      | true =>
        rw [hrelocated.sizes.gone p hs] at hp
        cases hp
      | false =>
        rw [hrelocated.sizes.kept p hs ht] at hp
        exact Or.inl (hmoved.beside p m hs ht (hages p m hp))

/-- A size that is remembered is right, or it was remembered before of the same file. -/
theorem Operation.recalls (op : Operation) (hs : s.space.Upright) (hknows : s.space.KnowsFiles) {t : Session Memory μ}
    {r : Except Refusal Value} (hrun : op.run s = (r, t)) (hp : t.space.sizes.get? p = some m) :
    (Right t.space p m ∨ Aged s.space t.space p m) ∨
      ∃ q l, s.space.sizes.get? q = some m ∧ (Moment.event (.use op)).Brings s q p l := by
  have hlasting := lasting_ages s.space
  cases r with
  | error e =>
    have hages := ((op.ended hs.healthy).error hrun).1.knows (fun _ => Operation.Tries.tame) hlasting hknows.ages
    exact Or.inl (hages.weaken hlasting p m hp)
  | ok a =>
    by_cases hrename : ∃ b raw c toRaw, op = .renameAt b raw c toRaw
    · obtain ⟨b, raw, c, toRaw, rfl⟩ := hrename
      rcases (Operation.renamed hs.healthy hs.consistent hknows b raw c toRaw).ok hrun p m hp with
        hages | ⟨source, target, r, rfl, hsource, htarget, hsize, l, hl, hwritten⟩
      · exact Or.inl (hlasting.weaken hages)
      · refine Or.inr ⟨source.join r, l, hsize, .rename hsource htarget hl ?_⟩
        rwa [hrun]
    · refine Or.inl ((op.knows hlasting hs.healthy hknows.ages hknows.aged_queued ?_).ok hrun p m hp)
      exact fun b raw c toRaw e => hrename ⟨b, raw, c, toRaw, e⟩

theorem Moment.recalls (x : Moment) (hs : s.space.Upright) (hknows : s.space.KnowsFiles)
    (hp : (x.happen s).space.sizes.get? p = some m) :
    Right (x.happen s).space p m ∨ ∃ q l, s.space.sizes.get? q = some m ∧ x.Brings s q p l := by
  have hstay : Right (x.happen s).space p m ∨ Aged s.space (x.happen s).space p m →
      Right (x.happen s).space p m ∨ ∃ q l, s.space.sizes.get? q = some m ∧ x.Brings s q p l := by
    rintro (hright | ⟨hsize, l, hl, hwritten⟩)
    · exact Or.inl hright
    · exact Or.inr ⟨p, l, hsize, .stay hl hwritten⟩
  have hlasting := lasting_ages s.space
  have hsame : SameFile p s.space (x.happen s).space → (x.happen s).space.sizes = s.space.sizes →
      Right (x.happen s).space p m ∨ ∃ q l, s.space.sizes.get? q = some m ∧ x.Brings s q p l := by
    intro hfile hsizes
    rw [hsizes] at hp
    exact hstay (hlasting.weaken (hlasting.same (hknows.ages p m hp) hfile))
  cases x with
  | clocks host store => exact hsame (.of_content rfl rfl) rfl
  | event e =>
    cases e with
    | work n =>
      have hages := (reaches_runJobs n s.space).knows (fun _ => tame_of_wait) hlasting hknows.ages
      exact hstay (hages.weaken hlasting p m hp)
    | pace l => exact hsame (.of_content rfl rfl) rfl
    | use op => exact (op.recalls hs hknows rfl hp).elim hstay Or.inr

/-- How a size has come to be remembered of a file by the end of a run: at some moment it was right, and since then the file
was where it is or was renamed, and some writes that were queued for it have been done. -/
inductive Since (s : Session Memory μ) : List Moment → Path → FileMeta → List Patch → Prop
  | right {run : List Moment} {p : Path} {m : FileMeta} (known : (s.played run).space.knownSize? p = some m)
      (right : Right (s.played run).space p m) : Since s run p m []
  | later {run : List Moment} {x : Moment} {q p : Path} {m : FileMeta} {l l' : List Patch} (before : Since s run q m l)
      (known : (s.played (run ++ [x])).space.knownSize? p = some m) (brings : x.Brings (s.played run) q p l') :
      Since s (run ++ [x]) p m (l ++ l')

theorem Session.played_concat (s : Session Memory μ) (run : List Moment) (x : Moment) :
    s.played (run ++ [x]) = x.happen (s.played run) := List.foldl_append

/-- The length of the file is the size and how far the writes reach that were done since. -/
theorem Since.length {run : List Moment} (h : Since s run p m l) :
    ∃ b, (s.played run).space.memory.content? p = some (.file b) ∧ b.length = Patch.reach l m.size := by
  induction h with
  | right _ hright => exact hright
  | @later run x q p m l l' _ _ hbrings ih =>
    obtain ⟨b, hb, hlength⟩ := ih
    obtain ⟨b', hb', hwritten⟩ := hbrings.rewritten
    rw [hb] at hb'
    cases hb'
    refine ⟨Patch.all l' b, ?_, ?_⟩
    · rw [Session.played_concat]
      exact hwritten
    · rw [Patch.length_all hbrings.through, hlength, Patch.reach, Patch.reach, Patch.reach, List.foldl_append]

theorem exists_since (hs : s.space.Upright) (hempty : s.space.sizes = ∅) (run : List Moment)
    (hp : (s.played run).space.knownSize? p = some m) : ∃ l, Since s run p m l := by
  have hknows : s.space.KnowsFiles := knowsFiles_of_empty hempty
  induction run using List.reverseRecOn generalizing p m with
  | nil =>
    have hp : s.space.sizes.get? p = some m := hp
    rw [hempty] at hp
    cases hp
  | append_singleton run x ih =>
    have hknown := hp
    rw [Session.played_concat] at hp
    rcases x.recalls (Session.upright_played run hs) (Session.knowsFiles_played run hs hknows) hp with
      hright | ⟨q, l', hq, hbrings⟩
    · exact ⟨[], .right hknown (by rwa [Session.played_concat])⟩
    · obtain ⟨l, hl⟩ := ih hq
      exact ⟨l ++ l', .later hl hknown hbrings⟩

/-- In every state that a namespace can come to from its start on a store without locks, when no work is queued: a size that
is remembered at a path is that of a file which is there, not hidden by a link. At some moment the size was right. Since
then nothing has changed the file but writes that were queued for it, at the paths where it has been, and its length is the
size or how far these reach, whichever is more. -/
theorem remembered_size_grows_by_queued_writes {μ : Type} [LinkMap μ] {o : Options} {w w' : World Memory μ}
    {v u : Vfs Memory μ} (hstart : start o w = (.ok v, w')) (hstore : w.files.Reachable)
    (hfree : ∀ p, w.files.isLocked p = false) (hlinks : (∀ p, v.links.get? p = none) ∨ v.Consistent)
    (descriptors : Table String Descriptor) (run : List Moment)
    (hplayed : (Session.played ⟨v, descriptors⟩ run).space = u) (hidle : u.background.queue = []) {p : Path} {m : FileMeta}
    (hknown : u.knownSize? p = some m) :
    ∃ l t, Since ⟨v, descriptors⟩ run p m l ∧ (lookup p u).1 = .ok (some (.file (Patch.reach l m.size) t)) := by
  have hv : v.Upright := upright_of_start hstart hstore hfree hlinks
  have hu : u.Upright := hplayed ▸ Session.upright_played (s := ⟨v, descriptors⟩) run hv
  obtain ⟨l, hl⟩ := exists_since (s := ⟨v, descriptors⟩) hv (sizes_of_start hstart hstore) run (hplayed ▸ hknown)
  obtain ⟨b, hb, hlength⟩ := hl.length
  rw [hplayed] at hb
  obtain ⟨d, hd, rfl⟩ := content?_eq_file_iff.1 hb
  have hunlinked : u.links.get? p = none := by
    by_contra hlink
    obtain ⟨t, ht⟩ := Option.ne_none_iff_exists'.1 hlink
    rw [hu.consistent.apart p t ht] at hd
    cases hd
  have hroot : p ≠ .root := by
    rintro rfl
    rw [kind?_eq_directory_iff.1 hu.healthy.closed.root] at hd
    cases hd
  have hwaited := (reaches_runDue u).waited
  refine ⟨l, d.modified, hl, ?_⟩
  rw [hu.healthy.lookup_unlinked_run hunlinked hroot, entryAt, hwaited.links, hunlinked, (hwaited.idle hidle).2.1, hd,
    ← hlength]
  rfl

/-- Where a file is made. -/
def tally : Path := ⟨[⟨"tally", by decide⟩]⟩

/-- Where it is renamed to. -/
def total : Path := ⟨[⟨"total", by decide⟩]⟩

/-- The file is made and written, made longer by a job, and renamed. -/
def tallying : List Moment :=
  [.event (.use (.openAt none "tally" .createFile (some "score"))), .event (.use (.write "score" [1, 2] 0)),
    .event (.use (.release "score")), .event (.use (.writeDetached "score" [7, 8, 9] 1)), .event (.work 1),
    .event (.use (.renameAt none "tally" none "total"))]

/-- Two bytes are remembered of it where it has come to, though it has four. -/
theorem remembered_size_grows_by_queued_writes_to_total :
    (Session.played ⟨inMemory, ∅⟩ tallying).space.background.queue.length = 0 ∧
    (Session.played ⟨inMemory, ∅⟩ tallying).space.knownSize? total = some ⟨2, 0⟩ ∧
    ∃ l t, Since ⟨inMemory, ∅⟩ tallying total ⟨2, 0⟩ l ∧
      (lookup total (Session.played ⟨inMemory, ∅⟩ tallying).space).1 = .ok (some (.file (Patch.reach l 2) t)) := by
  obtain ⟨hstart, hstore, hfree⟩ := inMemory_started
  have hend : (Session.played ⟨inMemory, ∅⟩ tallying).space.background.queue.length = 0 ∧
      (Session.played ⟨inMemory, ∅⟩ tallying).space.knownSize? total = some ⟨2, 0⟩ := by
    decide +kernel
  refine ⟨hend.1, hend.2, ?_⟩
  exact remembered_size_grows_by_queued_writes hstart hstore hfree (Or.inl fun _ => rfl) ∅ tallying rfl
    (List.length_eq_zero_iff.1 hend.1) hend.2

/-- The file is made, and a write to it is queued and done. -/
def counting : List Moment :=
  [.event (.use (.openAt none "tally" .createFile (some "score"))), .event (.use (.writeDetached "score" [7, 8, 9] 0)),
    .event (.work 1)]

/-- It has three bytes then, and none are remembered of it. -/
theorem size_is_not_noted_by_jobs :
    (Session.played ⟨inMemory, ∅⟩ counting).space.background.queue.length = 0 ∧
    (Session.played ⟨inMemory, ∅⟩ counting).space.knownSize? tally = some ⟨0, 0⟩ ∧
    (lookup tally (Session.played ⟨inMemory, ∅⟩ counting).space).1 = .ok (some (.file 3 0)) := by
  decide +kernel

end Vfs

end Filespace
