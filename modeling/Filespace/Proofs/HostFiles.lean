import Filespace.Proofs.HostTrees

/-!
# The files of a host by number

An open file is known by its number, wherever it is in the tree, and also when it was removed. A host is well numbered
(`Host.Numbered`) if no number stands for two files and the next one is free. Moving and removing entries change nothing
about its files (`has_detached`, `has_relocated`), so a handle reads what it read before.
-/

namespace Filespace.Host

open Storage

variable {h h' : Host} {p q source target : Path} {d e : FileData} {serial k : Nat} {f : Sparse → Sparse}

/-- The file is on the host, in the tree or removed. -/
def Has (h : Host) (d : FileData) : Prop := (∃ p, h.nodes.get? p = some (.file d)) ∨ d ∈ h.removed

/-- Files have numbers of their own, all smaller than the next one. -/
structure Numbered (h : Host) : Prop where
  one : ∀ d e, h.Has d → h.Has e → d.serial = e.serial → d = e
  used : ∀ d, h.Has d → d.serial < h.nextSerial

theorem has_of_node? (hnode : h.node? p = some (.file d)) : h.Has d := by
  have hp : p ≠ .root := fun hp => by
    rw [hp] at hnode
    cases hnode
  rw [node?_of_ne_root h hp] at hnode
  exact Or.inl ⟨p, hnode⟩

/-! ### Changes -/

/-- The host with a new file at a place. -/
def created (h : Host) (p : Path) : Host :=
  { h.placed p (.file ⟨h.nextSerial, {}, h.clock⟩) with nextSerial := h.nextSerial + 1 }

theorem has_placed {x : Node} (hfree : h.nodes.get? p = none) : (h.placed p x).Has d ↔ h.Has d ∨ x = .file d := by
  have hget : ∀ q, (h.placed p x).nodes.get? q = if q = p then some x else h.nodes.get? q :=
    fun q => Table.get?_insert h.nodes p q x
  constructor
  · rintro (⟨q, hq⟩ | hd)
    · rw [hget] at hq
      split at hq
      · exact Or.inr (Option.some.inj hq)
      · exact Or.inl (Or.inl ⟨q, hq⟩)
    · exact Or.inl (Or.inr hd)
  · rintro ((⟨q, hq⟩ | hd) | hx)
    · refine Or.inl ⟨q, ?_⟩
      rw [hget, if_neg fun hself => ?_, hq]
      rw [hself, hfree] at hq
      cases hq
    · exact Or.inr hd
    · exact Or.inl ⟨p, by rw [hget, if_pos rfl, hx]⟩

/-- A file that is taken out of the tree is not gone. -/
theorem has_detached : (h.detached p).Has d ↔ h.Has d := by
  have hget : ∀ q, (h.detached p).nodes.get? q = if q.under p = true then none else h.nodes.get? q := by
    intro q
    show (h.nodes.filter fun q _ => !q.under p).get? q = _
    cases hu : q.under p with
    | true => rw [if_pos rfl, Table.get?_filter_of_false (by simp [hu])]
    | false => rw [if_neg (by simp), Table.get?_filter_of_true (by simp [hu])]
  have hgone : d ∈ (h.detached p).removed ↔ (∃ q, h.nodes.get? q = some (.file d) ∧ q.under p = true) ∨ d ∈ h.removed := by
    show d ∈ (h.nodes.rows.filterMap _) ++ h.removed ↔ _
    rw [List.mem_append, List.mem_filterMap]
    refine or_congr ⟨?_, ?_⟩ Iff.rfl
    · rintro ⟨⟨q, x⟩, hrow, hx⟩
      cases x with
      | file e =>
        simp only at hx
        split at hx
        · cases hx
          exact ⟨q, Table.get?_eq_some_iff.2 hrow, ‹_›⟩
        · cases hx
      | directory | link => cases hx
    · rintro ⟨q, hq, hu⟩
      exact ⟨(q, .file d), Table.get?_eq_some_iff.1 hq, if_pos hu⟩
  unfold Has
  rw [hgone]
  constructor
  · rintro (⟨q, hq⟩ | ⟨q, hq, -⟩ | hd)
    · rw [hget] at hq
      split at hq
      · cases hq
      · exact Or.inl ⟨q, hq⟩
    · exact Or.inl ⟨q, hq⟩
    · exact Or.inr hd
  · rintro (⟨q, hq⟩ | hd)
    · by_cases hu : q.under p = true
      · exact Or.inr (Or.inl ⟨q, hq, hu⟩)
      · exact Or.inl ⟨q, by rw [hget, if_neg hu, hq]⟩
    · exact Or.inr (Or.inr hd)

theorem has_relocated (hfree : ∀ r, h.nodes.get? (target.join r) = none) : (h.relocated source target).Has d ↔ h.Has d := by
  have hget : ∀ q, (h.relocated source target).nodes.get? q = (q.relativeTo? target).elim
      (if q.under source = true then none else h.nodes.get? q) fun r => h.nodes.get? (source.join r) := fun q =>
    (Table.get?_moved h.nodes hfree q).trans (by cases q.relativeTo? target <;> rfl)
  refine or_congr ⟨?_, ?_⟩ Iff.rfl
  · rintro ⟨q, hq⟩
    rw [hget] at hq
    cases hr : q.relativeTo? target with
    | some r =>
      rw [hr] at hq
      exact ⟨source.join r, hq⟩
    | none =>
      rw [hr] at hq
      split at hq
      · cases hq
      · exact ⟨q, hq⟩
  · rintro ⟨q, hq⟩
    cases hr : q.relativeTo? source with
    | some r =>
      rw [Path.relativeTo?_eq_some_iff] at hr
      refine ⟨target.join r, ?_⟩
      rw [hget, Path.relativeTo?_join, Option.elim_some, ← hq, hr]
    | none =>
      have htarget : q.relativeTo? target = none := by
        cases ht : q.relativeTo? target with
        | none => rfl
        | some r =>
          rw [Path.relativeTo?_eq_some_iff.1 ht, hfree] at hq
          cases hq
      rw [Path.relativeTo?_eq_none_iff] at hr
      exact ⟨q, by rw [hget, htarget]; simp [hr, hq]⟩

theorem has_updated : (h.updated serial f).Has d ↔ ∃ e, h.Has e ∧ d = e.changed h.clock serial f := by
  have hget : ∀ q, (h.updated serial f).nodes.get? q = (h.nodes.get? q).map (Node.changed h.clock serial f) :=
    fun q => Table.get?_map ..
  constructor
  · rintro (⟨q, hq⟩ | hd)
    · rw [hget, Option.map_eq_some_iff] at hq
      obtain ⟨x, hx, hd⟩ := hq
      cases x with
      | file e => exact ⟨e, Or.inl ⟨q, hx⟩, (Node.file.inj hd).symm⟩
      | directory | link => cases hd
    · obtain ⟨e, he, rfl⟩ := List.mem_map.1 hd
      exact ⟨e, Or.inr he, rfl⟩
  · rintro ⟨e, ⟨q, hq⟩ | he, rfl⟩
    · exact Or.inl ⟨q, by rw [hget, hq]; rfl⟩
    · exact Or.inr (List.mem_map.2 ⟨e, he, rfl⟩)

/-! ### Numbers -/

@[simp] theorem serial_changed (clock : Nat) (d : FileData) : (d.changed clock serial f).serial = d.serial := by
  unfold FileData.changed
  split <;> rfl

theorem Numbered.congr (hn : h.Numbered) (hhas : ∀ d, h'.Has d ↔ h.Has d) (hnext : h'.nextSerial = h.nextSerial) :
    h'.Numbered where
  one d e hd he := hn.one d e ((hhas d).1 hd) ((hhas e).1 he)
  used d hd := hnext ▸ hn.used d ((hhas d).1 hd)

theorem Numbered.updated (hn : h.Numbered) (serial : Nat) (f : Sparse → Sparse) : (h.updated serial f).Numbered where
  one d e hd he hserial := by
    obtain ⟨d', hd', rfl⟩ := has_updated.1 hd
    obtain ⟨e', he', rfl⟩ := has_updated.1 he
    rw [serial_changed, serial_changed] at hserial
    rw [hn.one d' e' hd' he' hserial]
  used d hd := by
    obtain ⟨d', hd', rfl⟩ := has_updated.1 hd
    rw [serial_changed]
    exact hn.used d' hd'

theorem has_created (hfree : h.nodes.get? p = none) :
    (h.created p).Has d ↔ h.Has d ∨ d = ⟨h.nextSerial, {}, h.clock⟩ :=
  (has_placed hfree).trans (or_congr Iff.rfl (Node.file.injEq .. ▸ eq_comm))

theorem Numbered.created (hn : h.Numbered) (hfree : h.nodes.get? p = none) : (h.created p).Numbered where
  one d e hd he hserial := by
    rw [has_created hfree] at hd he
    obtain hd | rfl := hd <;> obtain he | rfl := he
    · exact hn.one d e hd he hserial
    · exact absurd hserial (hn.used d hd).ne
    · exact absurd hserial (hn.used e he).ne'
    · rfl
  used d hd := by
    rw [has_created hfree] at hd
    obtain hd | rfl := hd
    · exact Nat.lt_succ_of_lt (hn.used d hd)
    · exact Nat.lt_succ_self _

/-- The file of a row, if it has the number. -/
def rowFile? (k : Nat) : Path × Node → Option FileData
  | (_, .file d) => if d.serial = k then some d else none
  | _ => none

theorem rowFile?_eq_some_iff {x : Node} : rowFile? k (p, x) = some d ↔ x = .file d ∧ d.serial = k := by
  cases x with
  | file e =>
    simp only [rowFile?, Option.ite_none_right_eq_some, Option.some.injEq, Node.file.injEq]
    exact ⟨fun ⟨hk, he⟩ => ⟨he, he ▸ hk⟩, fun ⟨he, hk⟩ => ⟨he ▸ hk, he⟩⟩
  | directory | link => simp [rowFile?]

theorem fileData?_eq (h : Host) (k : Nat) :
    h.fileData? k = (h.nodes.rows.findSome? (rowFile? k)).or (h.removed.find? fun d => d.serial = k) := by
  rw [Option.or_eq_orElse]
  rfl

/-- What is found by a number is a file with it. -/
theorem has_of_fileData? (hk : h.fileData? k = some d) : h.Has d ∧ d.serial = k := by
  rw [fileData?_eq, Option.or_eq_some_iff] at hk
  obtain hk | ⟨-, hk⟩ := hk
  · obtain ⟨⟨q, x⟩, hrow, hx⟩ := List.exists_of_findSome?_eq_some hk
    obtain ⟨rfl, hserial⟩ := rowFile?_eq_some_iff.1 hx
    exact ⟨Or.inl ⟨q, Table.get?_eq_some_iff.2 hrow⟩, hserial⟩
  · exact ⟨Or.inr (List.mem_of_find?_eq_some hk), by simpa using List.find?_some hk⟩

/-- Every file is found by its number, or another with the same. -/
theorem exists_fileData? (hd : h.Has d) : ∃ e, h.fileData? d.serial = some e := by
  refine Option.ne_none_iff_exists'.1 fun hnone => ?_
  rw [fileData?_eq, Option.or_eq_none_iff, List.findSome?_eq_none_iff, List.find?_eq_none] at hnone
  obtain ⟨q, hq⟩ | hd := hd
  · have hrow := hnone.1 (q, .file d) (Table.get?_eq_some_iff.1 hq)
    rw [rowFile?_eq_some_iff.2 ⟨rfl, rfl⟩] at hrow
    cases hrow
  · simpa using hnone.2 d hd

/-- The data of a file by its number. -/
theorem fileData?_eq_some_iff (hn : h.Numbered) : h.fileData? k = some d ↔ h.Has d ∧ d.serial = k := by
  refine ⟨has_of_fileData?, ?_⟩
  rintro ⟨hd, rfl⟩
  obtain ⟨e, he⟩ := exists_fileData? hd
  obtain ⟨hhas, hserial⟩ := has_of_fileData? he
  rw [he, hn.one e d hhas hd hserial]

/-- A number that is not used yet. -/
theorem fileData?_next (hn : h.Numbered) (i : Nat) : h.fileData? (h.nextSerial + i) = none := by
  refine Option.eq_none_iff_forall_ne_some.2 fun d hd => ?_
  obtain ⟨hhas, hserial⟩ := has_of_fileData? hd
  exact absurd (hn.used d hhas) (by omega)

theorem fileData?_congr (hn : h.Numbered) (hhas : ∀ d, h'.Has d ↔ h.Has d) (hnext : h'.nextSerial = h.nextSerial) (k : Nat) :
    h'.fileData? k = h.fileData? k := by
  refine Option.ext fun d => ?_
  rw [fileData?_eq_some_iff hn, fileData?_eq_some_iff (hn.congr hhas hnext), hhas]

theorem fileData?_updated (hn : h.Numbered) (serial : Nat) (f : Sparse → Sparse) (k : Nat) :
    (h.updated serial f).fileData? k = (h.fileData? k).map (FileData.changed h.clock serial f) := by
  refine Option.ext fun d => ?_
  rw [fileData?_eq_some_iff (hn.updated serial f), has_updated, Option.map_eq_some_iff]
  constructor
  · rintro ⟨⟨e, he, rfl⟩, hk⟩
    rw [serial_changed] at hk
    exact ⟨e, (fileData?_eq_some_iff hn).2 ⟨he, hk⟩, rfl⟩
  · rintro ⟨e, he, rfl⟩
    obtain ⟨he, hk⟩ := (fileData?_eq_some_iff hn).1 he
    exact ⟨⟨e, he, rfl⟩, by rw [serial_changed, hk]⟩

theorem fileData?_created (hn : h.Numbered) (hfree : h.nodes.get? p = none) (k : Nat) :
    (h.created p).fileData? k = if k = h.nextSerial then some ⟨h.nextSerial, {}, h.clock⟩ else h.fileData? k := by
  refine Option.ext fun d => ?_
  rw [fileData?_eq_some_iff (hn.created hfree), has_created hfree]
  split
  · rename_i hk
    constructor
    · rintro ⟨hd | rfl, hserial⟩
      · exact absurd (hserial.trans hk) (hn.used d hd).ne
      · rfl
    · rintro ⟨⟩
      exact ⟨Or.inr rfl, hk.symm⟩
  · rename_i hk
    rw [fileData?_eq_some_iff hn]
    constructor
    · rintro ⟨hd | rfl, hserial⟩
      · exact ⟨hd, hserial⟩
      · exact absurd hserial.symm hk
    · rintro ⟨hd, hserial⟩
      exact ⟨Or.inl hd, hserial⟩

end Filespace.Host
