import Filespace.Proofs.MemoryCalls

/-!
# Offsets in words

The sums and differences of offsets in this library are of natural numbers, and a stretch of bytes that is not there is cut
short. On a machine offsets are words of 64 bits and buffers are taken in stretches that have to lie within them. Here the
calls that compute with offsets are written down once more in that manner (`InWords`): each stops, with neither a value nor
a failure, at the first sum or difference that has no word and at the first stretch that is not there.

Main statements: none of them ever stops, and each ends as the call that it stands for, in the same state (`Faithful`).
No more is needed for this than that files are short, and only where they are read.
-/

namespace Filespace

open Storage Memory

variable {ε σ α β : Type}

/-- A call that can also stop. -/
abbrev WordM (ε σ α : Type) : Type := OptionT (ExceptT ε (StateM σ)) α

/-! ### Sums and stretches -/

namespace Word

/-- A call in which nothing is computed. -/
def plain (x : ExceptT ε (StateM σ) α) : WordM ε σ α := OptionT.lift x

/-- The sum of two words. -/
def add (a b : Nat) : WordM ε σ Nat := if a + b < Bytes.offsetLimit then pure (a + b) else failure

/-- The difference of two words. -/
def sub (a b : Nat) : WordM ε σ Nat := if b ≤ a then pure (a - b) else failure

/-- The stretch of a buffer between two positions. -/
def stretch (b : Bytes) (first last : Nat) : WordM ε σ Bytes :=
  if first ≤ last ∧ last ≤ b.length then pure (b.slice first (last - first)) else failure

/-- The buffer with bytes put in the place of a stretch of the same length. -/
def put (b : Bytes) (first last : Nat) (data : Bytes) : WordM ε σ Bytes :=
  if first ≤ last ∧ last ≤ b.length ∧ data.length = last - first then pure (b.take first ++ data ++ b.drop last)
  else failure

end Word

/-! ### Calls that end alike -/

/-- A call does not stop and ends as another one does. -/
def Faithful (x : WordM ε σ α) (y : ExceptT ε (StateM σ) α) (s : σ) : Prop := x.run s = (some <$> y) s

namespace Faithful

variable {x : WordM ε σ α} {y : ExceptT ε (StateM σ) α} {s : σ} {f : α → WordM ε σ β}
  {g : α → ExceptT ε (StateM σ) β}

theorem plain : Faithful (Word.plain y) y s := by
  unfold Faithful
  rw [map_run]
  show (y >>= fun a => pure (some a)) s = _
  rw [bind_run]
  rcases y s with ⟨_ | _, _⟩ <;> rfl

theorem pure {a : α} : Faithful (pure a : WordM ε σ α) (Pure.pure a) s := rfl

theorem throw {e : ε} : Faithful (throwThe ε e : WordM ε σ α) (MonadExcept.throw e) s := rfl

theorem get : Faithful (get : WordM ε σ σ) MonadState.get s := rfl

theorem modify {k : σ → σ} : Faithful (modify k : WordM ε σ PUnit) (modifyGet fun s => (⟨⟩, k s)) s := rfl

theorem bind (hx : Faithful x y s) (hf : ∀ a t, y s = (.ok a, t) → Faithful (f a) (g a) t) :
    Faithful (x >>= f) (y >>= g) s := by
  unfold Faithful at *
  rw [OptionT.run_bind, Option.elimM, bind_run, hx, map_run, map_run, bind_run]
  rcases hy : y s with ⟨e | a, t⟩
  · rfl
  · have hfa := hf a t hy
    rw [map_run] at hfa
    exact hfa

theorem ite {c : Prop} [Decidable c] {x' : WordM ε σ α} {y' : ExceptT ε (StateM σ) α} (h : c → Faithful x y s)
    (h' : ¬ c → Faithful x' y' s) : Faithful (if c then x else x') (if c then y else y') s := by
  split
  · exact h ‹_›
  · exact h' ‹_›

theorem within {c : Prop} [Decidable c] {a : α} {z : ExceptT ε (StateM σ) β} (hc : c) (h : Faithful (f a) z s) :
    Faithful ((if c then Pure.pure a else failure) >>= f) z s := by
  rw [if_pos hc]
  exact h

end Faithful

/-! ### Calls on the store in memory -/

namespace Storage.InWords

open Word (plain)

variable {h : Handle} {m : Memory} {s : Host × Memory}

/-- A call on the store beside a host. -/
def onSecond (x : WordM StorageError Memory α) : WordM StorageError (Host × Memory) α := OptionT.mk (StoreM.onSecond x.run)

theorem faithful_onSecond {x : WordM StorageError Memory α} {y : StoreM Memory α} (h : Faithful x y s.2) :
    Faithful (onSecond x) (StoreM.onSecond y) s := by
  unfold Faithful at *
  rw [map_run] at *
  show StoreM.onSecond x.run s = _
  simp only [StoreM.onSecond, StoreM.within, h]
  rcases y s.2 with ⟨_ | _, _⟩ <;> rfl

/-- Reads into a buffer with so much room. -/
def read (h : Handle) (pos room : Nat) : WordM StorageError Memory Bytes := do
  let bytes := (← get).contentOf h
  if bytes.length ≤ pos then return []
  else
    let left ← Word.sub bytes.length pos
    let last ← Word.add pos (min room left)
    Word.stretch bytes pos last

theorem faithful_read {pos room : Nat} (hlast : pos + room < Bytes.offsetLimit) (m : Memory) :
    Faithful (read h pos room) (Memory.read h pos room) m := by
  refine .bind .get fun t _ _ => ?_
  generalize t.contentOf h = b
  dsimp only
  split
  · rename_i hend
    rw [show b.slice pos room = [] by simp [Bytes.slice, List.drop_eq_nil_of_le hend]]
    exact .pure
  · rename_i hstart
    refine .within (Nat.le_of_not_le hstart) (.within (by omega) ?_)
    rw [Word.stretch, if_pos (by omega), show b.slice pos (pos + min room (b.length - pos) - pos) = b.slice pos room by
      simp [Bytes.slice, List.take_eq_take_iff]]
    exact .pure

/-- Fills a buffer from an offset on, after the bytes that it has already. -/
def fill (h : Handle) (offset : Nat) : (fuel filled : Nat) → Bytes → WordM StorageError (Host × Memory) Bytes
  | 0, filled, buffer => return buffer.take filled
  | fuel + 1, filled, buffer =>
    if buffer.length ≤ filled then return buffer.take filled
    else do
      let room ← Word.stretch buffer filled buffer.length
      let pos ← Word.add offset filled
      let bytes ← onSecond (read h pos room.length)
      if bytes.isEmpty then return buffer.take filled
      else
        let next ← Word.add filled bytes.length
        let buffer ← Word.put buffer filled next bytes
        fill h offset fuel next buffer

theorem faithful_fill {offset filled : Nat} {buffer : Bytes} (hlast : offset + buffer.length < Bytes.offsetLimit)
    (hfilled : filled ≤ buffer.length) (fuel : Nat) (s : Host × Memory) :
    Faithful (fill h offset fuel filled buffer)
      ((buffer.take filled ++ ·) <$> (FileStore.channel h).gather fuel (offset + filled) (buffer.length - filled)) s := by
  induction fuel generalizing filled buffer s with
  | zero =>
    rw [Channel.gather, map_pure, List.append_nil]
    exact .pure
  | succ fuel ih =>
    unfold fill Channel.gather
    by_cases hfull : buffer.length ≤ filled
    · rw [if_pos hfull, if_pos (Nat.sub_eq_zero_of_le hfull), map_pure, List.append_nil]
      exact .pure
    · have hroom : (buffer.slice filled (buffer.length - filled)).length = buffer.length - filled := by
        simp [Bytes.length_slice]
      rw [if_neg hfull, if_neg (by omega), map_bind]
      refine .within (by omega) (.within (by omega) ?_)
      rw [hroom]
      refine .bind (faithful_onSecond (faithful_read (by omega) _)) fun bytes t hread => ?_
      have hbytes : bytes.length ≤ buffer.length - filled := by
        obtain rfl : (s.2.contentOf h).slice (offset + filled) (buffer.length - filled) = bytes :=
          Except.ok.inj (congrArg Prod.fst hread)
        rw [Bytes.length_slice]
        exact Nat.min_le_left _ _
      split
      · rw [map_pure, List.append_nil]
        exact .pure
      · refine .within (by omega) (.within (by omega) ?_)
        have hnext : (buffer.take filled ++ bytes).length = filled + bytes.length := by simp [hfilled]
        have hsame : (buffer.take filled ++ bytes ++ buffer.drop (filled + bytes.length)).length = buffer.length := by
          rw [List.length_append, List.length_drop]
          omega
        have hrest : Faithful (fill h offset fuel (filled + bytes.length)
            (buffer.take filled ++ bytes ++ buffer.drop (filled + bytes.length))) _ t := ih (by omega) (by omega) t
        rw [hsame, List.take_left' hnext] at hrest
        simp only [map_bind, map_pure, ← List.append_assoc, Nat.sub_sub, Nat.add_assoc]
        exact hrest

/-- All offsets in short files are words. -/
theorem lt_offsetLimit {n : Nat} (hn : n ≤ maxLength) : n < Bytes.offsetLimit := Nat.lt_of_le_of_lt hn (by decide)

theorem length_contentOf_le (hshort : m.Short) (h : Handle) : (m.contentOf h).length ≤ maxLength := by
  cases hf : m.fileOf? h with
  | none => simp [contentOf, hf]
  | some f =>
    rw [contentOf_eq hf]
    exact hshort.bytes (fileOf?_eq_some_iff.1 hf).1

/-- Up to `length` bytes from `offset` on, into a buffer of as many bytes as there are. -/
def readExactAt (h : Handle) (length offset : Nat) : WordM StorageError (Host × Memory) Bytes := do
  let size ← plain (FileStore.size (φ := Memory) h)
  let length := min length (size - offset)
  fill h offset length 0 (List.replicate length 0)

theorem faithful_readExactAt (hshort : s.2.Short) (h : Handle) (length offset : Nat) :
    Faithful (readExactAt h length offset) ((FileStore.channel h).readExactAt length offset) s := by
  refine .bind .plain fun size t hsize => ?_
  obtain rfl : (s.2.contentOf h).length = size := Except.ok.inj (congrArg Prod.fst hsize)
  have hword := lt_offsetLimit (length_contentOf_le hshort h)
  generalize hn : min length ((s.2.contentOf h).length - offset) = n
  rcases Nat.eq_zero_or_pos n with rfl | hpos
  · exact .pure
  · have hfill : Faithful (fill h offset n 0 (List.replicate n 0)) _ t :=
      faithful_fill (by rw [List.length_replicate]; omega) (Nat.zero_le _) n t
    simpa using hfill

theorem endOffset_eq_ok_iff {offset length last : Nat} :
    Channel.endOffset offset length = .ok last ↔ offset + length = last ∧ offset + length < Bytes.offsetLimit := by
  unfold Channel.endOffset
  split <;> simp [*]

/-- What is there is made long enough first, and then a stretch of it is replaced. -/
theorem overwrite_eq_put (b : Bytes) (pos : Nat) (data : Bytes) :
    let grown := if b.length < pos + data.length then b.resize (pos + data.length) else b
    pos + data.length ≤ grown.length ∧ grown.take pos ++ data ++ grown.drop (pos + data.length) = b.overwrite pos data := by
  split
  · rename_i hlonger
    refine ⟨Nat.le_of_eq (Bytes.length_resize b _).symm, ?_⟩
    have hfront : (b.resize (pos + data.length)).take pos = b.take pos ++ List.replicate (pos - b.length) 0 := by
      rw [Bytes.resize, List.take_of_length_le (Nat.le_of_lt hlonger), List.take_append, List.take_replicate,
        Nat.min_eq_left (by omega)]
    rw [hfront, Bytes.overwrite, List.drop_eq_nil_of_le (Nat.le_of_eq (Bytes.length_resize b _)),
      List.drop_eq_nil_of_le (Nat.le_of_lt hlonger)]
  · rename_i hlong
    have hlong := Nat.le_of_not_lt hlong
    exact ⟨hlong, by simp [Bytes.overwrite, Nat.sub_eq_zero_of_le (show pos ≤ b.length by omega)]⟩

/-- Writes into a file: makes it long enough and puts the data in the place of what is there. -/
def writeInto (p : Path) (f : FileData) (pos : Nat) (data : Bytes) : WordM StorageError Memory Nat := do
  let last ← plain (StoreM.settle (Channel.endOffset pos data.length))
  plain (checkLength p last)
  let first ← Word.sub last data.length
  let bytes ← Word.put (if f.bytes.length < last then f.bytes.resize last else f.bytes) first last data
  modify fun m => m.put p (.file { f with bytes := bytes, modified := m.clock })
  return bytes.length

theorem faithful_writeInto (p : Path) (f : FileData) (pos : Nat) (data : Bytes) (m : Memory) :
    Faithful (writeInto p f pos data) (Memory.writeInto p f pos data) m := by
  refine .bind .plain fun last _ hlast => .bind .plain fun _ _ _ => ?_
  obtain ⟨rfl, -⟩ := endOffset_eq_ok_iff.1 (congrArg Prod.fst hlast)
  obtain ⟨hthere, hput⟩ := overwrite_eq_put f.bytes pos data
  refine .within (by omega) (.within ⟨by omega, hthere, by omega⟩ ?_)
  rw [Nat.add_sub_cancel_right, hput]
  exact .bind .modify fun _ _ _ => .pure

/-- Writes through a handle. -/
def write (h : Handle) (pos : Nat) (data : Bytes) : WordM StorageError Memory Nat := do
  match (← get).fileOf? h with
  | some f => do
    let _ ← writeInto h.path f pos data
    return data.length
  | none => return data.length

theorem faithful_write (h : Handle) (pos : Nat) (data : Bytes) (m : Memory) :
    Faithful (write h pos data) (Memory.write h pos data) m := by
  refine .bind .get fun t _ _ => ?_
  cases t.fileOf? h with
  | some f => exact .bind (faithful_writeInto _ f pos data _) fun _ _ _ => .pure
  | none => exact .pure

/-- Writes without a handle. -/
def writeAt (p : Path) (offset : Nat) (data : Bytes) : WordM StorageError Memory Nat := do
  let f ← plain (fileAt p)
  if f.locked then throwThe StorageError (.inUse p) else writeInto p f offset data

theorem faithful_writeAt (p : Path) (offset : Nat) (data : Bytes) (m : Memory) :
    Faithful (writeAt p offset data) (Memory.writeAt p offset data) m :=
  .bind .plain fun f t _ => .ite (fun _ => .throw) fun _ => faithful_writeInto p f offset data t

/-- Writes data at an offset, after the bytes of it that are written already. -/
def pour (h : Handle) (data : Bytes) (offset : Nat) : (fuel written : Nat) → WordM StorageError (Host × Memory) Nat
  | 0, written => return written
  | fuel + 1, written =>
    if data.length ≤ written then return written
    else do
      let rest ← Word.stretch data written data.length
      let pos ← Word.add offset written
      let n ← onSecond (write h pos rest)
      if n = 0 then throwThe StorageError .acceptedNothing
      else
        let next ← Word.add written n
        pour h data offset fuel next

theorem faithful_pour {data : Bytes} {offset written : Nat} (hlast : offset + data.length < Bytes.offsetLimit)
    (hwritten : written ≤ data.length) (fuel : Nat) (s : Host × Memory) :
    Faithful (pour h data offset fuel written)
      ((written + ·) <$> (FileStore.channel h).scatter fuel (offset + written) (data.drop written)) s := by
  induction fuel generalizing written s with
  | zero => exact .pure
  | succ fuel ih =>
    unfold pour Channel.scatter
    by_cases hdone : data.length ≤ written
    · rw [if_pos hdone, if_pos (by simp [hdone])]
      exact .pure
    · have hrest : data.slice written (data.length - written) = data.drop written := by
        rw [Bytes.slice, ← List.length_drop, List.take_length]
      rw [if_neg hdone, if_neg (by simpa using hdone), map_bind]
      refine .within (by omega) (.within (by omega) ?_)
      rw [hrest]
      refine .bind (faithful_onSecond (faithful_write h _ _ _)) fun n t hwrite => ?_
      have hn : n ≤ data.length - written := by
        have htaken : wp (StoreM.onSecond (Memory.write h (offset + written) (data.drop written)))
            (fun n _ => n = (data.drop written).length) (fun _ _ => True) s :=
          wp_within.2 ((Memory.wp_write _ _ _ _).mono (fun _ _ h => h.1) fun _ _ _ => trivial)
        rw [htaken.ok hwrite, List.length_drop]
      split
      · exact .throw
      · refine .within (by omega) ?_
        have hnext : Faithful (pour h data offset fuel (written + n)) _ t := ih (by omega) t
        simp only [map_bind, map_pure, List.drop_drop, Nat.add_assoc] at hnext ⊢
        exact hnext

/-- Writes all of `data` at `offset`. -/
def writeAllAt (h : Handle) (data : Bytes) (offset : Nat) : WordM StorageError (Host × Memory) Nat := do
  let _ ← plain (StoreM.settle (Channel.endOffset offset data.length))
  pour h data offset data.length 0

theorem faithful_writeAllAt (h : Handle) (data : Bytes) (offset : Nat) (s : Host × Memory) :
    Faithful (writeAllAt h data offset) ((FileStore.channel h).writeAllAt data offset) s := by
  have hplain : (FileStore.channel (φ := Memory) h).writeAllAt data offset = (do
      let _ ← StoreM.settle (Channel.endOffset offset data.length)
      (FileStore.channel h).scatter data.length offset data) := by
    unfold Channel.writeAllAt
    cases Channel.endOffset offset data.length <;> rfl
  rw [hplain]
  refine .bind .plain fun last t hlast => ?_
  have hpour := faithful_pour (h := h) (endOffset_eq_ok_iff.1 (congrArg Prod.fst hlast)).2 (Nat.zero_le _) data.length t
  simpa using hpour

end Storage.InWords

end Filespace
