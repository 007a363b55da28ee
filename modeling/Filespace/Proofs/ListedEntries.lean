import Filespace.Proofs.PlayedRuns
import Filespace.Proofs.Substitutions
import Filespace.Text.Utf8

/-!
# Listings and look-ups agree

A listing is put together from the children of a directory in the store and the links in it, and it may be remembered;
a look-up asks the links first and then the store. Both show one thing: the kind of what is at a path (`kindAt`).

* `mem_mergeListing`: a row of a listing is a name and the kind at its path. Links hide children in it, as they do in a
  look-up.
* `Upright.list_eq`: a listing that is remembered is the one that would be read, and a directory that is there can be read.
* `Upright.statAt_child`: there is no link on the way to a directory of the store, so a path in it stands for itself.

The rows of a table are in the order of characters. In UTF-8 that is the order of bytes (`Text.utf8_lt_utf8`).
-/

namespace Filespace

open Storage Memory Table

/-! ### The order of bytes -/

namespace Text

/-- Bytes are compared one after the other. The second bytes matter only where the first are the same. -/
theorem cons_ofNat_lt {m n : Nat} {l l' : List UInt8} (hn : n < 256) (hle : m ≤ n) (hrest : m = n → l < l') :
    UInt8.ofNat m :: l < UInt8.ofNat n :: l' := by
  rw [List.cons_lt_cons_iff]
  rcases Nat.lt_or_eq_of_le hle with hlt | heq
  · rw [UInt8.lt_iff_toNat_lt, UInt8.toNat_ofNat', UInt8.toNat_ofNat']
    omega
  · right
    exact ⟨congrArg UInt8.ofNat heq, hrest heq⟩

/-- The bytes of a character come before those of any later one, whatever follows them. -/
theorem utf8EncodeChar_append_lt {c d : Char} (h : c < d) (a b : List UInt8) :
    String.utf8EncodeChar c ++ a < String.utf8EncodeChar d ++ b := by
  have hlt : c.val.toNat < d.val.toNat := h
  have hmax : d.val.toNat < 1114112 := by
    rcases d.valid with hlow | hhigh
    · omega
    · exact hhigh.2
  unfold String.utf8EncodeChar
  generalize d.val.toNat = y at hlt hmax
  -- Characters of more bytes start with larger ones. Those of as many bytes are compared digit by digit.
  simp only
  split
  · repeat' split
    all_goals exact cons_ofNat_lt (by omega) (by omega) fun h => by omega
  · rw [if_neg (show ¬ y ≤ 127 by omega)]
    split
    · split
      · exact cons_ofNat_lt (by omega) (by omega) fun h₁ => cons_ofNat_lt (by omega) (by omega) fun h₂ => by omega
      · split
        all_goals exact cons_ofNat_lt (by omega) (by omega) fun h => by omega
    · rw [if_neg (show ¬ y ≤ 2047 by omega)]
      split
      · split
        · exact cons_ofNat_lt (by omega) (by omega) fun h₁ => cons_ofNat_lt (by omega) (by omega) fun h₂ =>
            cons_ofNat_lt (by omega) (by omega) fun h₃ => by omega
        · exact cons_ofNat_lt (by omega) (by omega) fun h => by omega
      · rw [if_neg (show ¬ y ≤ 65535 by omega)]
        exact cons_ofNat_lt (by omega) (by omega) fun h₁ => cons_ofNat_lt (by omega) (by omega) fun h₂ =>
          cons_ofNat_lt (by omega) (by omega) fun h₃ => cons_ofNat_lt (by omega) (by omega) fun h₄ => by omega

/-- The order of characters is the order of bytes. -/
theorem utf8_lt_utf8 {s t : String} (h : s.toList < t.toList) : utf8 s < utf8 t := by
  unfold utf8
  generalize s.toList = l at h
  generalize t.toList = l' at h
  induction h with
  | @nil d l' =>
    obtain ⟨x, bytes, hbytes⟩ := List.exists_cons_of_ne_nil (String.utf8EncodeChar_ne_nil)
    rw [List.flatMap_cons, hbytes]
    exact List.nil_lt_cons x _
  | rel h => exact utf8EncodeChar_append_lt h _ _
  | cons _ ih => exact List.append_left_lt ih

end Text

/-! ### Rows of a listing -/

namespace Links

theorem mem_children {l : Links} {dir : Path} {n : Name} {target : String} :
    (n, target) ∈ l.children dir ↔ l.get? (dir.child n) = some target := by
  unfold children
  rw [List.mem_filterMap]
  constructor
  · rintro ⟨⟨p, t⟩, hrow, h⟩
    simp only at h
    split at h
    · rename_i hp
      obtain ⟨k, rfl⟩ := Path.parent?_eq_some_iff.1 hp
      simp only [Path.name?_child, Option.map_some, Option.some.injEq, Prod.mk.injEq] at h
      obtain ⟨rfl, rfl⟩ := h
      exact get?_eq_some_iff.2 hrow
    · cases h
  · intro h
    exact ⟨(dir.child n, target), get?_eq_some_iff.1 h, by simp⟩

end Links

namespace Path

theorem child?_text (p : Path) (n : Name) : p.child? n.text = .ok (p.child n) := by
  unfold child? Name.ofText?
  rw [dif_pos n.plain]

/-- Only names can be the last part of a path. -/
theorem child?_eq_ok {p c : Path} {s : String} (h : p.child? s = .ok c) : ∃ n, n.text = s ∧ p.child n = c := by
  unfold child? Name.ofText? at h
  by_cases hplain : isPlain s.toList = true
  · rw [dif_pos hplain] at h
    exact ⟨⟨s, hplain⟩, rfl, Except.ok.inj h⟩
  · rw [dif_neg hplain] at h
    cases h

end Path

namespace Vfs

open Storage

/-- Each child of a directory is listed with its kind. -/
theorem get?_kindsOfChildren (m : Memory) (dir : Path) (n : Name) :
    (ofList ((m.children dir).map fun x => (x.1, if x.2.isDirectory then EntryKind.directory else .file))).get? n =
      m.kind? (dir.child n) := by
  -- A child is found in the listing by the node at its path, so there is one row for its name.
  have hrows : ∀ k, (n, k) ∈ ((m.children dir).map fun x => (x.1, if x.2.isDirectory then EntryKind.directory else .file)) →
      m.kind? (dir.child n) = some k := by
    intro k hk
    obtain ⟨x, hx, hrow⟩ := List.mem_map.1 hk
    obtain ⟨rfl, rfl⟩ := Prod.mk.inj hrow
    obtain ⟨node, hnode, hstat⟩ := Option.map_eq_some_iff.1 (mem_children.1 hx)
    rw [kind?, hnode, ← hstat]
    cases node <;> rfl
  cases hkind : m.kind? (dir.child n) with
  | none =>
    refine (get?_insertMany_of_not_mem empty fun k hk => ?_).trans (get?_empty n)
    rw [hrows k hk] at hkind
    cases hkind
  | some k =>
    obtain ⟨node, hnode, rfl⟩ := Option.map_eq_some_iff.1 hkind
    refine get?_insertMany_of_mem empty (List.mem_map.2 ⟨(n, node.stat), ?_, ?_⟩) fun k hk => ?_
    · exact mem_children.2 (by rw [hnode]; rfl)
    · cases node <;> rfl
    · rw [hrows k hk] at hkind
      exact Option.some.inj hkind

variable {μ : Type} {v w : Vfs Memory μ} {dir : Path} {n : Name} {k : EntryKind}

/-- The kinds in a listing by name. A link hides a child of the same name. -/
def kindsByName (children : List (Name × Stat)) (links : List (Name × String)) : Table Name EntryKind :=
  (ofList (children.map fun x => (x.1, if x.2.isDirectory then .directory else .file))).insertMany
    (links.map fun x => (x.1, .link))

theorem mergeListing_eq (children : List (Name × Stat)) (links : List (Name × String)) :
    mergeListing children links = (kindsByName children links).rows.map fun x => ⟨x.1.text, x.2⟩ := rfl

/-- The rows of a listing are in the order of bytes. -/
theorem sorted_mergeListing (children : List (Name × Stat)) (links : List (Name × String)) :
    ((mergeListing children links).map DirEntry.name).Pairwise fun a b => Text.utf8 a < Text.utf8 b := by
  rw [mergeListing_eq, List.map_map, List.pairwise_map]
  exact (kindsByName children links).sorted.imp fun h => Text.utf8_lt_utf8 h

/-- Each name in a directory is listed with the kind of what is at its path. -/
theorem get?_kindsByName (v : Vfs Memory μ) (dir : Path) (n : Name) :
    (kindsByName (v.memory.children dir) (v.links.children dir)).get? n = v.kindAt (dir.child n) := by
  unfold kindsByName kindAt
  cases hlink : v.links.get? (dir.child n) with
  | some target =>
    refine get?_insertMany_of_mem _ (List.mem_map.2 ⟨(n, target), Links.mem_children.2 hlink, rfl⟩) ?_
    intro k hk
    obtain ⟨x, -, hx⟩ := List.mem_map.1 hk
    exact (congrArg Prod.snd hx).symm
  | none =>
    have hnone : ∀ k : EntryKind, (n, k) ∉ (v.links.children dir).map fun x => (x.1, .link) := by
      intro k hk
      obtain ⟨x, hx, hrow⟩ := List.mem_map.1 hk
      obtain rfl : x.1 = n := congrArg Prod.fst hrow
      rw [Links.mem_children.1 hx] at hlink
      cases hlink
    rw [get?_insertMany_of_not_mem _ hnone]
    exact get?_kindsOfChildren v.memory dir n

/-- The rows of a listing are the names in the directory with the kinds of what is there. -/
theorem mem_mergeListing {text : String} : ⟨text, k⟩ ∈ mergeListing (v.memory.children dir) (v.links.children dir) ↔
      ∃ n, n.text = text ∧ v.kindAt (dir.child n) = some k := by
  rw [mergeListing_eq, List.mem_map]
  constructor
  · rintro ⟨x, hx, hrow⟩
    obtain ⟨rfl, rfl⟩ := DirEntry.mk.inj hrow
    exact ⟨x.1, rfl, by rw [← get?_kindsByName, get?_eq_some_iff.2 hx]⟩
  · rintro ⟨n, rfl, hk⟩
    rw [← get?_kindsByName] at hk
    exact ⟨(n, k), get?_eq_some_iff.1 hk, rfl⟩

/-! ### Listing a directory -/

variable [LinkMap μ]

/-- A directory that is there can be read. -/
theorem Healthy.wp_list (hv : v.Healthy) (hnone : v.listings.get? dir = none) (hdir : v.kindAt dir = some .directory) :
    wp (list dir) (fun l _ => ∃ u, Reaches (· = .wait) v u ∧
      l = mergeListing (u.memory.children dir) (u.links.children dir)) (fun _ _ => False) v := by
  unfold list
  rw [wp_bind, wp_get, hnone]
  rw [wp_bind]
  refine (wp_call_sure (fun u hu => ?_) fun u _ => Request.treeWp_list dir u.memory).imp ?_
  · refine Request.sure_list (hu.closed hv.closed) (kind?_eq_directory_iff.1 ?_)
    rw [hu.waited.kind?]
    exact kind?_eq_directory_iff.2 (kindAt_eq_directory_iff.1 hdir).2
  · rintro _ _ ⟨u, m, hu, rfl, hT⟩
    obtain ⟨rfl, -, rfl⟩ := hT
    exact ⟨u, hu, rfl⟩

/-- The listing of a directory has the names in it with their kinds. It may be one that is remembered. -/
theorem Upright.list_eq (hv : v.Upright) (hdir : v.kindAt dir = some .directory) :
    ∃ l, (list dir v).1 = .ok l ∧ (l.map DirEntry.name).Pairwise (fun a b => Text.utf8 a < Text.utf8 b) ∧
      ∀ text k, ⟨text, k⟩ ∈ l ↔ ∃ n, n.text = text ∧ v.kindAt (dir.child n) = some k := by
  -- What is remembered is what is read by a namespace that remembers nothing.
  let w : Vfs Memory μ := { v with listings := v.listings.clear }
  have hw : w.Healthy := Reaches.healthy (.single rfl .note) hv.healthy
  obtain ⟨l, t, hrun, u, hu, rfl⟩ := exists_ok_of_wp (hw.wp_list rfl hdir)
  refine ⟨mergeListing (u.memory.children dir) (u.links.children dir), ?_, sorted_mergeListing _ _, fun text k => ?_⟩
  · rw [← hv.fresh.list_eq hw.closed rfl rfl (fun _ => rfl) dir, hrun]
  · rw [mem_mergeListing]
    simp only [hu.waited.kindAt]
    exact Iff.rfl

/-! ### Paths that stand for themselves -/

omit [LinkMap μ] in
/-- A path without links on the way stands for itself. -/
theorem resolve_display {p : Path} {follow : Bool} (h : Resolver.Settled v.links follow p) :
    resolve none p.display follow v = (.ok p, v) := by
  have habsolute : Resolver.isAbsolute p.display = true := by
    unfold Resolver.isAbsolute Path.display
    rw [String.toList_append]
    rfl
  have hread : v.resolver.relative none p.display = .ok p :=
    (Resolver.relative_of_absolute habsolute v.resolver none).trans p.parse_display
  have hlinks : v.resolver.resolveLinks v.links p follow = .ok p := Resolver.chase_of_settled h
  refine eq_ok_of_wp ?_
  unfold resolve
  rw [wp_bind, wp_get]
  simp only [Option.map_none, hread, hlinks]
  exact ⟨rfl, rfl⟩

omit [LinkMap μ] in
/-- The way to a directory has no links. -/
theorem Consistent.settled (hv : v.Consistent) (hc : v.memory.Closed) (hdir : v.kindAt dir = some .directory) (follow : Bool) :
    Resolver.Settled v.links follow dir := by
  intro l hroot hunder _
  have hl := hc.trail_directories (kindAt_eq_directory_iff.1 hdir).2 l (Path.mem_trail_iff.2 ⟨hunder, hroot⟩)
  rw [Option.eq_none_iff_forall_not_mem]
  intro t ht
  rw [hv.apart l t ht] at hl
  cases hl

omit [LinkMap μ] in
theorem Consistent.settled_child (hv : v.Consistent) (hc : v.memory.Closed) (hdir : v.kindAt dir = some .directory)
    (n : Name) : Resolver.Settled v.links false (dir.child n) := by
  intro l hroot hunder hlast
  rcases Path.child_under_iff.1 hunder with rfl | hunder
  · cases hlast rfl
  · exact hv.settled hc hdir true l hroot hunder fun _ => rfl

theorem Healthy.exists_requireEntry_iff (hv : v.Healthy) {p : Path} :
    (∃ e, (requireEntry p v).1 = .ok e ∧ e.kind = k) ↔ v.kindAt p = some k := by
  obtain ⟨e, w, hrun, -, hkind⟩ := hv.kind_lookup p
  have hrequire : (requireEntry p v).1 = e.elim (.error (.notFound p)) .ok := by
    unfold requireEntry
    rw [bind_run, hrun]
    cases e <;> rfl
  rw [hrequire, ← hkind]
  cases e with
  | none | some => simp

/-- What is at a path in a directory is found by the path, without following it. -/
theorem Upright.statAt_child (hv : v.Upright) (hdir : v.kindAt dir = some .directory) (n : Name) :
    (∃ e, (statAt none (dir.child n).display false v).1 = .ok e ∧ e.kind = k) ↔ v.kindAt (dir.child n) = some k := by
  rw [← hv.healthy.exists_requireEntry_iff]
  unfold statAt
  rw [bind_run, resolve_display (hv.consistent.settled_child hv.healthy.closed hdir n)]

theorem Upright.readDirectoryAt_eq (hv : v.Upright) (hdir : v.kindAt dir = some .directory) :
    readDirectoryAt none dir.display v = list dir v := by
  unfold readDirectoryAt
  rw [bind_run, resolve_display (hv.consistent.settled hv.healthy.closed hdir true)]

/-- Listings and look-ups agree. A namespace is started on a store without locks, with links that fit it or none, and it is
put to any use. Where a look-up then finds a directory, it can be listed, by its path and through a descriptor. The names
stand in the order of their bytes, so that none is there twice. A text is listed with a kind just if it is a name and what
is found at its path, without following it, is of that kind. -/
theorem listings_agree_with_lookups {μ : Type} [LinkMap μ] {o : Options} {w w' : World Memory μ} {v : Vfs Memory μ}
    (hstart : start o w = (.ok v, w')) (hstore : w.files.Reachable) (hfree : ∀ p, w.files.isLocked p = false)
    (hlinks : (∀ p, v.links.get? p = none) ∨ v.Consistent) (descriptors : Table String Descriptor) (run : List Moment)
    (d : Path) (hd : (lookup d (Session.played ⟨v, descriptors⟩ run).space).1 = .ok (some .directory)) :
    let u := (Session.played ⟨v, descriptors⟩ run).space
    ∃ l, (list d u).1 = .ok l ∧ (readDirectoryAt none d.display u).1 = .ok l ∧
      (∀ fd : Descriptor, fd.path = d → fd.isDirectory = true → (readDirectory fd u).1 = .ok l) ∧
      (l.map DirEntry.name).Pairwise (fun a b => Text.utf8 a < Text.utf8 b) ∧
      ∀ n k, ⟨n, k⟩ ∈ l ↔ ∃ c, d.child? n = .ok c ∧ ∃ e, (statAt none c.display false u).1 = .ok e ∧ e.kind = k := by
  intro u
  have hu : u.Upright := Session.upright_played run (upright_of_start hstart hstore hfree hlinks)
  have hdir : u.kindAt d = some .directory := by
    obtain ⟨e, w, hrun, -, hkind⟩ := hu.healthy.kind_lookup d
    rw [hrun] at hd
    rw [← hkind, Except.ok.inj hd]
    rfl
  obtain ⟨l, hlist, hsorted, hrows⟩ := hu.list_eq hdir
  refine ⟨l, hlist, ?_, ?_, hsorted, fun n k => ?_⟩
  · rw [hu.readDirectoryAt_eq hdir, hlist]
  · rintro fd rfl hfd
    rw [readDirectory, if_neg (by rw [hfd]; simp)]
    exact hlist
  · rw [hrows]
    constructor
    · rintro ⟨name, rfl, hk⟩
      exact ⟨d.child name, d.child?_text name, (hu.statAt_child hdir name).2 hk⟩
    · rintro ⟨c, hc, he⟩
      obtain ⟨name, rfl, rfl⟩ := Path.child?_eq_ok hc
      exact ⟨name, rfl, (hu.statAt_child hdir name).1 he⟩

/-- A directory with a file and a link, listed before the link is there. -/
def grove : List Moment :=
  [.event (.use (.createDirectoryAt none "grove")), .event (.use (.openAt none "grove/fern" .createFile none)),
    .event (.use (.readDirectoryAt none "grove")), .event (.use (.symlinkAt none "fern" "grove/moss"))]

/-- The link is listed as one, and nothing is listed under a text that is not a name. -/
theorem listings_agree_with_lookups_in_grove :
    ∃ l, (list ⟨[⟨"grove", by decide⟩]⟩ (Session.played ⟨inMemory, ∅⟩ grove).space).1 = .ok l ∧
      ⟨"moss", .link⟩ ∈ l ∧ ⟨"fern", .file⟩ ∈ l ∧ ⟨"fern", .directory⟩ ∉ l ∧ ∀ k, ⟨"../grove", k⟩ ∉ l := by
  obtain ⟨hstart, hstore, hfree⟩ := inMemory_started
  have hfound : (lookup ⟨[⟨"grove", by decide⟩]⟩ (Session.played ⟨inMemory, ∅⟩ grove).space).1 = .ok (some .directory) ∧
      (statAt none "/grove/fern" false (Session.played ⟨inMemory, ∅⟩ grove).space).1 = .ok (.file 0 0) ∧
      (statAt none "/grove/moss" false (Session.played ⟨inMemory, ∅⟩ grove).space).1 = .ok (.link "fern") := by
    decide +kernel
  obtain ⟨hdir, hfern, hmoss⟩ := hfound
  obtain ⟨l, hl, -, -, -, hrows⟩ := listings_agree_with_lookups hstart hstore hfree (Or.inl fun _ => get?_empty _) ∅
    grove ⟨[⟨"grove", by decide⟩]⟩ hdir
  refine ⟨l, hl, (hrows _ _).2 ⟨_, rfl, _, hmoss, rfl⟩, (hrows _ _).2 ⟨_, rfl, _, hfern, rfl⟩, fun h => ?_, fun k h => ?_⟩
  · obtain ⟨c, hc, e, he, hk⟩ := (hrows _ _).1 h
    cases hc
    cases he.symm.trans hfern
    cases hk
  · obtain ⟨c, hc, -⟩ := (hrows _ _).1 h
    cases hc

end Vfs

end Filespace
