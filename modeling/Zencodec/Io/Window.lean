/-
The input buffer of a driver.

`Buf` is a vector of bytes with its capacity, and `Window` the bytes `buf[head..stop]` that a
driver holds, which start at the absolute offset `base`. Reads go into the room that `trySpare`
makes behind them; `position` moves the window, over a fetched buffer if one reaches further.

The allocator decides how much more than asked a reservation gives. `spec_trySpare` says that the
capacity stays within the limit whatever it gives.
-/
import Zencodec.Io.Admission

namespace Zencodec.Io

open Incremental (Input u64Max saturatingAdd)

variable {Ω : Type}

/-! ### Buffers -/

/-- The memory of the host: what the allocator gives beyond the capacity that was asked for, if
it gives it, and the sizes of two tuples. -/
structure Memory (Ω : Type) extends Host Ω where
  grow : ℕ → Ω → Option ℕ × Ω
  fetchedSize : ℕ
  requestSize : ℕ

/-- A vector of bytes. -/
structure Buf where
  data : List UInt8
  capacity : ℕ
  fits : data.length ≤ capacity

namespace Buf

def empty : Buf := ⟨[], 0, le_rfl⟩

instance : Inhabited Buf := ⟨empty⟩

/-- Other bytes in place of those of the buffer, which grows when they do not fit. -/
def replace (buf : Buf) (data : List UInt8) : Buf :=
  ⟨data, max buf.capacity data.length, le_max_right _ _⟩

/-- `Vec::resize`, with zeroes. -/
def resize (buf : Buf) (n : ℕ) : Buf :=
  buf.replace (buf.data.take n ++ List.replicate (n - buf.data.length) 0)

@[simp] theorem data_replace (buf : Buf) (data : List UInt8) : (buf.replace data).data = data :=
  rfl

theorem capacity_replace {buf : Buf} {data : List UInt8} (h : data.length ≤ buf.capacity) :
    (buf.replace data).capacity = buf.capacity :=
  max_eq_left h

theorem length_resize (buf : Buf) (n : ℕ) : (buf.resize n).data.length = n := by
  simp only [resize, data_replace, List.length_append, List.length_take, List.length_replicate]
  omega

theorem capacity_resize {buf : Buf} {n : ℕ} (h : n ≤ buf.capacity) :
    (buf.resize n).capacity = buf.capacity := by
  refine capacity_replace ?_
  have hlen := length_resize buf n
  rw [resize, data_replace] at hlen
  rw [hlen]
  exact h

end Buf

/-- `reserve` for bytes: room for `len` of them. -/
def Memory.reserveBuf (mem : Memory Ω) (buf : Buf) (len : ℕ) : Act Ω InputError Buf :=
  if len ≤ buf.capacity then pure buf
  else Act.foreign fun w =>
    match mem.grow len w with
    | (some more, w) => (.ok ⟨buf.data, max buf.data.length len + more,
        (le_max_left _ _).trans (Nat.le_add_right _ _)⟩, w)
    | (none, w) => (.error (.allocation len), w)

theorem Memory.spec_reserveBuf (mem : Memory Ω) (buf : Buf) (len : ℕ) (w : Ω) :
    Act.Spec (mem.reserveBuf buf len) (fun b _ => b.data = buf.data ∧ len ≤ b.capacity)
      (fun _ _ => True) w := by
  unfold Memory.reserveBuf
  rw [Act.spec_ite]
  refine ⟨fun h => ⟨rfl, h⟩, fun _ => Act.spec_of_run (fun b hb => ?_) (fun _ _ => trivial)⟩
  unfold Act.foreign at hb
  dsimp only at hb
  split at hb
  · cases hb
    exact ⟨rfl, (le_max_right _ _).trans (Nat.le_add_right _ _)⟩
  · cases hb

/-! ### Windows -/

/-- Bytes the driver holds: `buf[head..stop]` starts at absolute `base`. -/
structure Window where
  buf : Buf
  head : ℕ
  stop : ℕ
  base : ℕ
  total : Option ℕ

/-- A buffer and the absolute offset of its first byte. -/
abbrev Fetched := ℕ × Buf

/-- The absolute offset after the last byte, saturating. -/
def Fetched.stop (f : Fetched) : ℕ := saturatingAdd f.1 f.2.data.length

/-- `Iterator::max_by_key`: the last of the greatest. -/
def maxByKey {α : Type} (key : α → ℕ) (l : List α) : Option α :=
  l.foldl (fun best a => match best with
    | none => some a
    | some b => if key b ≤ key a then some a else some b) none

/-- `Vec::swap_remove`, without the element. -/
def swapRemove {α : Type} (l : List α) (i : ℕ) : List α :=
  match l.getLast? with
  | none => l
  | some last => (l.set i last).dropLast

namespace Window

def new : Window := ⟨Buf.empty, 0, 0, 0, none⟩

def len (w : Window) : ℕ := w.stop - w.head

/-- Absolute offset one past the last byte held. -/
def endOffset (w : Window) : ℕ := w.base + w.len

def bytes (w : Window) : List UInt8 := (w.buf.data.take w.stop).drop w.head

def capacity (w : Window) : ℕ := w.buf.capacity

def release (w : Window) : Window := { w with buf := Buf.empty, head := 0, stop := 0 }

def input (w : Window) : Input := ⟨w.base, w.bytes, w.total⟩

/-- Drop `n` bytes from the front. -/
def consume (w : Window) (n : ℕ) : Window :=
  let n := min n w.len
  if w.head + n = w.stop then { w with head := 0, stop := 0, base := w.base + n }
  else { w with head := w.head + n, base := w.base + n }

/-- Forget everything and start at `offset`. -/
def resetTo (w : Window) (offset : ℕ) : Window :=
  { w with head := 0, stop := 0, base := offset }

/-- Take ownership of `buf`, holding bytes from `offset`. -/
def adopt (w : Window) (offset : ℕ) (buf : Buf) : Window :=
  { w with stop := buf.data.length, buf := buf, head := 0, base := offset }

/-- The fetched buffers that contain `offset`, with their positions. -/
def candidates (offset : ℕ) (fetched : List Fetched) : List (Fetched × ℕ) :=
  fetched.zipIdx.filter fun p => decide (p.1.1 ≤ offset ∧ offset < p.1.stop)

/-- Position at `offset`, keeping the longest held prefix there. Answers whether any bytes were
retained. -/
def position (w : Window) (offset : ℕ) (fetched : List Fetched) : Bool × Window × List Fetched :=
  let active := decide (w.base ≤ offset ∧ offset < w.endOffset)
  let activeEnd := if active then w.endOffset else offset
  match (maxByKey (fun p => p.1.stop) (candidates offset fetched)).filter
      fun p => decide (activeEnd < p.1.stop) with
  | some ((start, buf), i) =>
    (true, (w.adopt start buf).consume (offset - start), swapRemove fetched i)
  | none =>
    if active then (true, w.consume (offset - w.base), fetched)
    else (false, w.resetTo offset, fetched)

/-- Move the held bytes to the front. -/
def compact (w : Window) : Window :=
  let data := w.bytes ++ w.buf.data.drop w.len
  { w with buf := w.buf.replace data, head := 0, stop := w.len }

/-- Grow geometrically so a stream of reads zeroes O(total) bytes. -/
def growFor (mem : Memory Ω) (n limit : ℕ) : Act (Window × Ω) InputError Unit := do
  let t ← Act.get
  let want := min (max (t.1.stop + n) (min (t.1.buf.data.length * 2) mem.usizeMax)) limit
  let buf ← Act.focus Prod.snd (fun ω t => (t.1, ω)) (mem.reserveBuf t.1.buf want)
  if limit < buf.capacity then do
    Act.modify fun t => (t.1.release, t.2)
    Act.fail (.limit buf.capacity limit)
  else Act.modify fun t => ({ t.1 with buf := buf.resize want }, t.2)

/-- Room for `n` more bytes after the held bytes. -/
def trySpare (mem : Memory Ω) (n limit : ℕ) : Act (Window × Ω) InputError Unit := do
  let t ← Act.get
  Act.require (t.1.len + n ≤ mem.usizeMax) (.limit u64Max limit)
  Act.require (t.1.len + n ≤ limit) (.limit (t.1.len + n) limit)
  Act.modify fun t =>
    (if t.1.buf.data.length - t.1.stop < n ∧ 0 < t.1.head then t.1.compact else t.1, t.2)
  let t ← Act.get
  if t.1.buf.data.length - t.1.stop < n then growFor mem n limit else pure ()

/-- The `n` bytes after the held ones, which are stale. -/
def spare (w : Window) (n : ℕ) : List UInt8 := (w.buf.data.drop w.stop).take n

/-- What a read left there. -/
def fill (w : Window) (out : List UInt8) : Window :=
  let data := w.buf.data.take w.stop ++ out ++ w.buf.data.drop (w.stop + out.length)
  { w with buf := w.buf.replace data }

/-- Keep `n` of the bytes of the room. -/
def commit (w : Window) (n : ℕ) : Window := { w with stop := w.stop + n }

end Window

/-- How many bytes to hold before stepping a decoder that asked for `minLen` contiguous bytes. -/
def readTarget (usizeMax minLen readSize : ℕ) : ℕ :=
  let unit := max minLen 1
  let readSize := max readSize unit
  min ((readSize + unit - 1) / unit * unit) usizeMax

/-! ### Shape and capacity -/

namespace Window

variable {w : Window} {fetched : List Fetched} {offset n limit : ℕ}

/-- The held bytes are in the buffer. -/
structure InBuf (w : Window) : Prop where
  head_le : w.head ≤ w.stop
  stop_le : w.stop ≤ w.buf.data.length

theorem inBuf_new : new.InBuf := ⟨le_rfl, le_rfl⟩

theorem InBuf.consume (h : w.InBuf) (n : ℕ) : (w.consume n).InBuf := by
  have := h.head_le
  have := h.stop_le
  unfold Window.consume
  dsimp only
  split
  · exact ⟨le_rfl, Nat.zero_le _⟩
  · refine ⟨?_, h.stop_le⟩
    have : w.len = w.stop - w.head := rfl
    dsimp only
    omega

@[simp] theorem buf_consume (w : Window) (n : ℕ) : (w.consume n).buf = w.buf := by
  unfold Window.consume
  dsimp only
  split <;> rfl

theorem inBuf_adopt (w : Window) (offset : ℕ) (buf : Buf) : (w.adopt offset buf).InBuf :=
  ⟨Nat.zero_le _, le_rfl⟩

theorem inBuf_resetTo (w : Window) (offset : ℕ) : (w.resetTo offset).InBuf :=
  ⟨le_rfl, Nat.zero_le _⟩

theorem length_bytes (h : w.InBuf) : w.bytes.length = w.len := by
  rw [bytes, List.length_drop, List.length_take, min_eq_left h.stop_le, len]

/-- Compaction permutes the buffer. -/
theorem length_compact (h : w.InBuf) : w.compact.buf.data.length = w.buf.data.length := by
  have := h.stop_le
  have hlen : w.len = w.stop - w.head := rfl
  rw [compact, Buf.data_replace, List.length_append, length_bytes h, List.length_drop]
  omega

theorem capacity_compact (h : w.InBuf) : w.compact.buf.capacity = w.buf.capacity := by
  refine Buf.capacity_replace ?_
  have hlen := length_compact h
  rw [compact, Buf.data_replace] at hlen
  exact hlen ▸ w.buf.fits

theorem inBuf_compact (h : w.InBuf) : w.compact.InBuf := by
  refine ⟨Nat.zero_le _, ?_⟩
  rw [length_compact h]
  exact (Nat.sub_le _ _).trans h.stop_le

/-- A read writes in the room only. -/
theorem length_fill {out : List UInt8} (h : w.stop + out.length ≤ w.buf.data.length) :
    (w.fill out).buf.data.length = w.buf.data.length := by
  simp only [fill, Buf.data_replace, List.length_append, List.length_take, List.length_drop]
  omega

theorem capacity_fill {out : List UInt8} (h : w.stop + out.length ≤ w.buf.data.length) :
    (w.fill out).buf.capacity = w.buf.capacity := by
  refine Buf.capacity_replace ?_
  have hlen := length_fill h
  rw [fill, Buf.data_replace] at hlen
  exact hlen ▸ w.buf.fits

theorem InBuf.fill {out : List UInt8} (h : w.InBuf)
    (hout : w.stop + out.length ≤ w.buf.data.length) : (w.fill out).InBuf :=
  ⟨h.head_le, (length_fill hout).symm ▸ h.stop_le⟩

/-- The same bytes at the same place, wherever they are in the buffer. -/
structure Same (w w' : Window) : Prop where
  bytes : w'.bytes = w.bytes
  base : w'.base = w.base
  total : w'.total = w.total

theorem Same.refl (w : Window) : w.Same w := ⟨rfl, rfl, rfl⟩

theorem bytes_compact (h : w.InBuf) : w.compact.bytes = w.bytes := by
  show ((w.bytes ++ w.buf.data.drop w.len).take w.len).drop 0 = w.bytes
  rw [List.drop_zero, ← length_bytes h, List.take_left]

/-- Room for `n` bytes, with everything else as it was. -/
structure Roomy (w : Window) (n limit : ℕ) (w' : Window) : Prop where
  inBuf : w'.InBuf
  capacity : w.capacity ≤ limit → w'.capacity ≤ limit
  room : w'.stop + n ≤ w'.buf.data.length
  same : w.Same w'

/-- No room, and maybe the held bytes are gone. -/
structure Cramped (w : Window) (limit : ℕ) (w' : Window) : Prop where
  inBuf : w'.InBuf
  capacity : w.capacity ≤ limit → w'.capacity ≤ limit
  base : w'.base = w.base
  total : w'.total = w.total
  bytes : w'.bytes = w.bytes ∨ w'.bytes = []

theorem InBuf.cramped (h : w.InBuf) : w.Cramped limit w :=
  ⟨h, id, rfl, rfl, .inl rfl⟩

theorem spec_growFor {mem : Memory Ω} {ω : Ω} (h : w.InBuf) (hn : w.stop + n ≤ limit)
    (hlen : w.buf.data.length ≤ w.stop + n) :
    Act.Spec (growFor mem n limit) (fun _ t => w.Roomy n limit t.1)
      (fun _ t => w.Cramped limit t.1) (w, ω) := by
  have hwant : w.stop + n ≤
      min (max (w.stop + n) (min (w.buf.data.length * 2) mem.usizeMax)) limit :=
    le_min (le_max_left _ _) hn
  unfold growFor
  simp only [Act.spec_bind, Act.spec_get, Act.spec_focus, Act.spec_ite, Act.spec_modify,
    Act.spec_fail]
  refine (mem.spec_reserveBuf _ _ _).mono (fun buf _ hbuf => ⟨fun _ => ?_, fun hfits => ?_⟩)
    (fun _ _ _ => h.cramped)
  · exact ⟨⟨le_rfl, le_rfl⟩, fun _ => Nat.zero_le _, rfl, rfl, .inr rfl⟩
  · have hstop : w.stop ≤ w.buf.data.length := h.stop_le
    have htake : (buf.resize (min (max (w.stop + n)
        (min (w.buf.data.length * 2) mem.usizeMax)) limit)).data.take w.stop =
        w.buf.data.take w.stop := by
      rw [Buf.resize, Buf.data_replace, hbuf.1, List.take_append_of_le_length, List.take_take,
        min_eq_left (by omega)]
      rw [List.length_take]
      omega
    refine ⟨⟨h.head_le, ?_⟩, ?_, ?_, ?_, rfl, rfl⟩
    · rw [Buf.length_resize]
      exact (Nat.le_add_right _ _).trans hwant
    · exact fun _ => (Buf.capacity_resize hbuf.2).trans_le (not_lt.mp hfits)
    · rw [Buf.length_resize]
      exact hwant
    · exact congrArg (List.drop w.head) htake

theorem spec_trySpare {mem : Memory Ω} {ω : Ω} (h : w.InBuf) :
    Act.Spec (trySpare mem n limit) (fun _ t => w.Roomy n limit t.1)
      (fun _ t => w.Cramped limit t.1) (w, ω) := by
  unfold trySpare
  simp only [Act.spec_bind, Act.spec_get, Act.spec_require, Act.spec_modify, Act.spec_ite,
    Act.spec_pure, decide_eq_true_eq]
  refine ⟨fun _ => ⟨fun hfits => ?_, fun _ => h.cramped⟩, fun _ => h.cramped⟩
  have hlen : w.len = w.stop - w.head := rfl
  have hhead := h.head_le
  have hstop := h.stop_le
  by_cases hcompact : w.buf.data.length - w.stop < n ∧ 0 < w.head
  · rw [if_pos hcompact]
    have hc := inBuf_compact h
    have hcstop : w.compact.stop = w.len := rfl
    have hcapacity : w.compact.capacity = w.capacity := capacity_compact h
    refine ⟨fun hgrow => ?_, fun hroom => ?_⟩
    · refine (spec_growFor hc (by omega) (by omega)).mono ?_ ?_
      · intro _ t ht
        exact ⟨ht.inBuf, fun hcap => ht.capacity (hcapacity.trans_le hcap), ht.room,
          ht.same.bytes.trans (bytes_compact h), ht.same.base, ht.same.total⟩
      · intro _ t ht
        exact ⟨ht.inBuf, fun hcap => ht.capacity (hcapacity.trans_le hcap), ht.base, ht.total,
          bytes_compact h ▸ ht.bytes⟩
    · exact ⟨hc, hcapacity.trans_le, by have := hc.stop_le; omega, bytes_compact h, rfl, rfl⟩
  · rw [if_neg hcompact]
    refine ⟨fun hgrow => spec_growFor h ?_ (by omega), fun hroom => ?_⟩
    · -- Without room and not moved: the held bytes are in front already.
      have hzero : w.head = 0 := by
        by_contra hne
        exact hcompact ⟨hgrow, Nat.pos_of_ne_zero hne⟩
      omega
    · exact ⟨h, id, by omega, Same.refl w⟩

theorem length_spare (h : w.stop + n ≤ w.buf.data.length) : (w.spare n).length = n := by
  rw [spare, List.length_take, List.length_drop]
  omega

end Window

/-! ### Lookup among the fetched buffers -/

theorem maxByKey_some {α : Type} {key : α → ℕ} {l : List α} {a : α} (h : maxByKey key l = some a) :
    a ∈ l ∧ ∀ b ∈ l, key b ≤ key a := by
  induction l using List.reverseRecOn generalizing a with
  | nil => cases h
  | append_singleton l b ih =>
    rw [maxByKey, List.foldl_append, ← maxByKey] at h
    simp only [List.foldl_cons, List.foldl_nil] at h
    cases hbest : maxByKey key l with
    | none =>
      have hnil : l = [] := by
        rcases List.eq_nil_or_concat l with hnil | ⟨init, c, rfl⟩
        · exact hnil
        · rw [List.concat_eq_append, maxByKey, List.foldl_append] at hbest
          simp only [List.foldl_cons, List.foldl_nil] at hbest
          split at hbest
          · cases hbest
          · split at hbest <;> cases hbest
      subst hnil
      rw [hbest] at h
      cases h
      simp
    | some best =>
      obtain ⟨hmem, hmax⟩ := ih hbest
      rw [hbest] at h
      dsimp only at h
      split at h
      · next hle =>
        cases h
        refine ⟨List.mem_append_right _ (List.mem_singleton_self _), fun c hc => ?_⟩
        rcases List.mem_append.mp hc with hc | hc
        · exact (hmax c hc).trans hle
        · exact (congrArg key (List.mem_singleton.mp hc)).le
      · next hlt =>
        cases h
        refine ⟨List.mem_append_left _ hmem, fun c hc => ?_⟩
        rcases List.mem_append.mp hc with hc | hc
        · exact hmax c hc
        · exact List.mem_singleton.mp hc ▸ (not_le.mp hlt).le

theorem swapRemove_perm {α : Type} {l : List α} {i : ℕ} {a : α} (h : l[i]? = some a) :
    l.Perm (a :: swapRemove l i) := by
  rcases List.eq_nil_or_concat l with rfl | ⟨init, last, rfl⟩
  · cases h
  rw [List.concat_eq_append] at h ⊢
  have hlast : (init ++ [last]).getLast? = some last := by simp
  rw [swapRemove, hlast]
  dsimp only
  rcases lt_or_ge i init.length with hlt | hge
  · rw [List.getElem?_append_left hlt] at h
    obtain ⟨hi, rfl⟩ := List.getElem?_eq_some_iff.mp h
    rw [List.set_append_left _ _ hlt, List.dropLast_concat]
    -- The last element takes the place of the removed one.
    have hset : init.set i last = init.take i ++ last :: init.drop (i + 1) :=
      List.set_eq_take_append_cons_drop.trans (if_pos hi)
    have hsplit : init = init.take i ++ init[i] :: init.drop (i + 1) := by
      rw [List.getElem_cons_drop, List.take_append_drop]
    rw [hset]
    calc (init ++ [last]).Perm (last :: init) := List.perm_append_singleton last init
      _ = last :: (init.take i ++ init[i] :: init.drop (i + 1)) := by rw [← hsplit]
      List.Perm _ (last :: init[i] :: (init.take i ++ init.drop (i + 1))) :=
        List.Perm.cons _ List.perm_middle
      List.Perm _ (init[i] :: last :: (init.take i ++ init.drop (i + 1))) := List.Perm.swap _ _ _
      List.Perm _ (init[i] :: (init.take i ++ last :: init.drop (i + 1))) :=
        List.Perm.cons _ List.perm_middle.symm
  · rw [List.getElem?_append_right hge] at h
    have hzero : i - init.length = 0 := by
      by_contra hne
      rw [List.getElem?_eq_none (by rw [List.length_singleton]; omega)] at h
      cases h
    rw [hzero] at h
    obtain rfl : last = a := by simpa using h
    have hi : i = init.length := by omega
    rw [hi, List.set_append_right _ _ le_rfl, Nat.sub_self, List.set_cons_zero,
      List.dropLast_concat]
    exact List.perm_append_singleton last init

namespace Window

theorem mem_candidates {offset : ℕ} {fetched : List Fetched} {p : Fetched × ℕ}
    (h : p ∈ candidates offset fetched) :
    fetched[p.2]? = some p.1 ∧ p.1.1 ≤ offset ∧ offset < p.1.stop := by
  obtain ⟨hmem, hle⟩ := List.mem_filter.mp h
  exact ⟨List.mem_zipIdx_iff_getElem?.mp hmem, of_decide_eq_true hle⟩

/-- What `position` does: it adopts a fetched buffer, or keeps what it has, or starts anew. -/
theorem position_cases (w : Window) (offset : ℕ) (fetched : List Fetched) :
    (∃ f i, fetched[i]? = some f ∧ f.1 ≤ offset ∧ offset < f.stop ∧
      w.position offset fetched =
        (true, (w.adopt f.1 f.2).consume (offset - f.1), swapRemove fetched i)) ∨
    (w.base ≤ offset ∧ offset < w.endOffset ∧
      w.position offset fetched = (true, w.consume (offset - w.base), fetched)) ∨
    w.position offset fetched = (false, w.resetTo offset, fetched) := by
  unfold position
  dsimp only
  split
  · next start buf i hfound =>
    obtain ⟨hmax, -⟩ := Option.filter_eq_some_iff.mp hfound
    obtain ⟨hget, hstart, hstop⟩ := mem_candidates (maxByKey_some hmax).1
    exact .inl ⟨(start, buf), i, hget, hstart, hstop, rfl⟩
  · split
    · next hactive =>
      obtain ⟨hbase, hend⟩ := of_decide_eq_true hactive
      exact .inr (.inl ⟨hbase, hend, rfl⟩)
    · exact .inr (.inr rfl)

end Window

end Zencodec.Io
