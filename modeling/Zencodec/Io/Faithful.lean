/-
A random-access driver offers the bytes of its source.

The window is moved, compacted, grown, read behind and swapped for a fetched buffer, and several
fetched buffers are there beside it. `Faithful` says that all of them hold bytes of the source at
their offsets, and that the buffer in play is one of them.

What is offered is then a part of the source (`offer_faithful`), and what a read adds behind the
held bytes stays one (`fillLoop_faithful`), whether it succeeded or failed.
-/
import Zencodec.Io.Retained

namespace Zencodec.Io

open Incremental (ByteRange Input InputRequest u64Max saturatingAdd)

variable {Ω ε SE : Type}

/-! ### Results -/

theorem mapError_eq_ok {α β γ : Type} {f : β → γ} {r : Except β α} {a : α} :
    r.mapError f = .ok a ↔ r = .ok a := by
  cases r <;> simp [Except.mapError]

theorem mapError_eq_error {α β γ : Type} {f : β → γ} {r : Except β α} {e : γ} :
    r.mapError f = .error e ↔ ∃ b, r = .error b ∧ f b = e := by
  cases r <;> simp [Except.mapError]

theorem spec_foreign {σ α : Type} {f : σ → Except ε α × σ} {Q : α → σ → Prop} {E : ε → σ → Prop}
    {s : σ} (hok : ∀ a, (f s).1 = .ok a → Q a (f s).2)
    (herr : ∀ e, (f s).1 = .error e → E e (f s).2) :
    Act.Spec (Act.foreign f) Q E s :=
  Act.spec_of_run hok herr

/-! ### Bytes at an offset -/

/-- The bytes stand in `src` at the offset, or there are none. -/
def Shows (src : List UInt8) (offset : ℕ) (bytes : List UInt8) : Prop := bytes <+: src.drop offset

namespace Shows

variable {src bytes more : List UInt8} {offset : ℕ}

theorem nil (src : List UInt8) (offset : ℕ) : Shows src offset [] := List.nil_prefix

theorem span (src : List UInt8) (start stop : ℕ) :
    Shows src start ((src.take stop).drop start) := by
  rw [List.drop_take]
  exact List.take_prefix _ _

theorem drop (h : Shows src offset bytes) (n : ℕ) : Shows src (offset + n) (bytes.drop n) := by
  have hdrop := List.IsPrefix.drop h n
  rwa [List.drop_drop] at hdrop

theorem take (h : Shows src offset bytes) (n : ℕ) : Shows src offset (bytes.take n) :=
  (List.take_prefix n bytes).trans h

theorem append (h : Shows src offset bytes) (hmore : Shows src (offset + bytes.length) more) :
    Shows src offset (bytes ++ more) := by
  obtain ⟨rest, hrest⟩ := h
  have htail : src.drop (offset + bytes.length) = rest := by
    rw [← List.drop_drop, ← hrest, List.drop_left]
  obtain ⟨last, hlast⟩ := hmore
  refine ⟨last, ?_⟩
  rw [List.append_assoc, hlast, htail, hrest]

/-- What is there ends within the source. -/
theorem stop_le (h : Shows src offset bytes) : bytes = [] ∨ offset + bytes.length ≤ src.length := by
  have hlen := h.length_le
  rw [List.length_drop] at hlen
  cases bytes with
  | nil => exact .inl rfl
  | cons b bs =>
    rw [List.length_cons] at hlen ⊢
    exact .inr (by omega)

end Shows

/-! ### Sources -/

/-- A source over `src`: what it reads is there, however little it is. -/
structure ReadAt.Over (source : ReadAt Ω SE) (src : List UInt8) : Prop where
  length_le : src.length ≤ u64Max
  asSlice : (∀ w, source.asSlice w = none) ∨ ∀ w, source.asSlice w = some src
  readAt : ∀ offset out w n, (source.readAt offset out w).1.1 = .ok n →
    Shows src offset ((source.readAt offset out w).1.2.take n)
  readExactAt : ∀ offset out w, (source.readExactAt offset out w).1.1 = .ok () →
    Shows src offset (source.readExactAt offset out w).1.2
  readManyAt : ∀ reqs w, (source.readManyAt reqs w).1.1 = .ok () →
    List.Forall₂ (fun (r : ℕ × List UInt8) out => Shows src r.1 out) reqs
      (source.readManyAt reqs w).1.2

/-! ### The window -/

namespace Window

variable {src : List UInt8} {w w' : Window} {n limit : ℕ}

/-- What the window holds is in the source. -/
structure Over (src : List UInt8) (w : Window) : Prop where
  inBuf : w.InBuf
  shows : Shows src w.base w.bytes

theorem bytes_consume (w : Window) (n : ℕ) : (w.consume n).bytes = w.bytes.drop (min n w.len) := by
  have hlen : w.len = w.stop - w.head := rfl
  unfold consume
  dsimp only
  split
  · next hall =>
    have hnil : w.bytes.length ≤ min n w.len := by
      rw [bytes, List.length_drop, List.length_take]
      omega
    rw [List.drop_eq_nil_of_le hnil]
    rfl
  · rw [bytes, bytes, List.drop_drop]

theorem base_consume (w : Window) (n : ℕ) : (w.consume n).base = w.base + min n w.len := by
  unfold consume
  dsimp only
  split <;> rfl

theorem total_consume (w : Window) (n : ℕ) : (w.consume n).total = w.total := by
  unfold consume
  dsimp only
  split <;> rfl

theorem len_consume (h : w.InBuf) (n : ℕ) : (w.consume n).len = w.len - min n w.len := by
  rw [← length_bytes (h.consume n), bytes_consume, List.length_drop, length_bytes h]

theorem Over.consume (h : w.Over src) (n : ℕ) : (w.consume n).Over src := by
  refine ⟨h.inBuf.consume n, ?_⟩
  rw [bytes_consume, base_consume]
  exact h.shows.drop _

theorem over_resetTo (src : List UInt8) (w : Window) (offset : ℕ) : (w.resetTo offset).Over src :=
  ⟨inBuf_resetTo w offset, Shows.nil _ _⟩

theorem over_release (src : List UInt8) (w : Window) : w.release.Over src :=
  ⟨⟨le_rfl, le_rfl⟩, Shows.nil _ _⟩

theorem over_adopt (w : Window) {offset : ℕ} {buf : Buf} (h : Shows src offset buf.data) :
    (w.adopt offset buf).Over src := by
  refine ⟨inBuf_adopt w offset buf, ?_⟩
  show Shows src offset ((buf.data.take buf.data.length).drop 0)
  rw [List.take_length, List.drop_zero]
  exact h

theorem Over.same (h : w.Over src) (hin : w'.InBuf) (hsame : w.Same w') : w'.Over src := by
  refine ⟨hin, ?_⟩
  rw [hsame.bytes, hsame.base]
  exact h.shows

theorem Over.cramped (h : w.Over src) (hc : w.Cramped limit w') : w'.Over src := by
  refine ⟨hc.inBuf, ?_⟩
  rw [hc.base]
  rcases hc.bytes with heq | heq <;> rw [heq]
  · exact h.shows
  · exact Shows.nil _ _

theorem Over.with_total (h : w.Over src) (total : Option ℕ) :
    Over src { w with total := total } := ⟨⟨h.inBuf.head_le, h.inBuf.stop_le⟩, h.shows⟩

/-- A read that is not committed changes nothing that is held. -/
theorem bytes_fill {out : List UInt8} (h : w.InBuf) : (w.fill out).bytes = w.bytes := by
  have hle : w.stop ≤ (w.buf.data.take w.stop).length := by
    rw [List.length_take]
    exact le_min le_rfl h.stop_le
  show ((w.buf.data.take w.stop ++ out ++ _).take w.stop).drop w.head = _
  rw [List.append_assoc, List.take_append_of_le_length hle, List.take_take, min_self]
  rfl

/-- What is committed of a read comes after what was held. -/
theorem bytes_commit_fill {out : List UInt8} (h : w.InBuf) (hn : n ≤ out.length) :
    ((w.fill out).commit n).bytes = w.bytes ++ out.take n := by
  have htake : (w.buf.data.take w.stop).length = w.stop := by
    rw [List.length_take]
    exact min_eq_left h.stop_le
  show ((w.buf.data.take w.stop ++ out ++ _).take (w.stop + n)).drop w.head = _
  have hsplit : (w.buf.data.take w.stop ++ out ++ w.buf.data.drop (w.stop + out.length)).take
      (w.stop + n) = w.buf.data.take w.stop ++ out.take n := by
    have hlong : w.stop + n ≤ (w.buf.data.take w.stop ++ out).length := by
      rw [List.length_append, htake]
      omega
    rw [List.take_append_of_le_length hlong, List.take_append, htake, List.take_take]
    congr 1
    · rw [min_eq_right (Nat.le_add_right _ _)]
    · rw [Nat.add_sub_cancel_left]
  rw [hsplit, List.drop_append_of_le_length (by rw [htake]; exact h.head_le)]
  rfl

theorem Over.fill {out : List UInt8} (h : w.Over src)
    (hout : w.stop + out.length ≤ w.buf.data.length) : (w.fill out).Over src := by
  refine ⟨h.inBuf.fill hout, ?_⟩
  rw [bytes_fill h.inBuf]
  exact h.shows

theorem Over.commit_fill {out : List UInt8} (h : w.Over src)
    (hout : w.stop + out.length ≤ w.buf.data.length) (hn : n ≤ out.length)
    (hread : Shows src w.endOffset (out.take n)) : ((w.fill out).commit n).Over src := by
  have hin := h.inBuf.fill hout
  refine ⟨⟨hin.head_le.trans (Nat.le_add_right _ _), ?_⟩, ?_⟩
  · show w.stop + n ≤ (w.fill out).buf.data.length
    rw [length_fill hout]
    omega
  · rw [bytes_commit_fill h.inBuf hn]
    refine h.shows.append ?_
    rw [length_bytes h.inBuf]
    exact hread

theorem len_same (h : w.InBuf) (hin : w'.InBuf) (hsame : w.Same w') : w'.len = w.len := by
  rw [← length_bytes h, ← length_bytes hin, hsame.bytes]

theorem endOffset_consume (h : w.InBuf) (n : ℕ) : (w.consume n).endOffset = w.endOffset := by
  rw [endOffset, endOffset, base_consume, len_consume h]
  have := min_le_right n w.len
  omega

theorem len_commit_fill (h : w.InBuf) (out : List UInt8) (n : ℕ) :
    ((w.fill out).commit n).len = w.len + n := by
  show w.stop + n - w.head = w.stop - w.head + n
  have := h.head_le
  omega

/-- The held bytes, and `n` more after them. -/
structure Extended (src : List UInt8) (w : Window) (n : ℕ) (w' : Window) : Prop where
  held : w'.Over src
  base : w'.base = w.base
  len : w'.len = w.len + n
  total : w'.total = w.total

theorem Extended.endOffset (h : Extended src w n w') : w'.endOffset = w.endOffset + n := by
  rw [Window.endOffset, Window.endOffset, h.base, h.len, Nat.add_assoc]

/-- What is committed of a read into the room extends the window. -/
theorem Over.extend {s : Window} {out : List UInt8} (h : w.Over src) (hin : s.InBuf)
    (hsame : w.Same s) (hout : s.stop + out.length ≤ s.buf.data.length) (hn : n ≤ out.length)
    (hread : Shows src w.endOffset (out.take n)) :
    Extended src w n ((s.fill out).commit n) := by
  have hlen := len_same h.inBuf hin hsame
  have hend : s.endOffset = w.endOffset := by
    rw [Window.endOffset, Window.endOffset, hsame.base, hlen]
  refine ⟨(h.same hin hsame).commit_fill hout hn (hend.symm ▸ hread), hsame.base, ?_, hsame.total⟩
  rw [len_commit_fill hin, hlen]

/-- A read that is not committed leaves what was held. -/
theorem Over.unread {s : Window} {out : List UInt8} (h : w.Over src) (hin : s.InBuf)
    (hsame : w.Same s) (hout : s.stop + out.length ≤ s.buf.data.length) :
    Extended src w 0 (s.fill out) :=
  h.extend hin hsame hout (Nat.zero_le _) (Shows.nil _ _)

/-- The window ends within the addresses. -/
theorem Over.endOffset_le (h : w.Over src) (hsrc : src.length ≤ u64Max) (hbase : w.base ≤ u64Max) :
    w.endOffset ≤ u64Max := by
  rw [endOffset, ← length_bytes h.inBuf]
  rcases h.shows.stop_le with hnil | hle
  · rw [hnil]
    exact hbase
  · exact hle.trans hsrc

end Window

/-! ### The cursor -/

/-- Whether input was offered, and that a source in memory is driven as one from then on. -/
structure Mode (source : ReadAt Ω SE) (src : List UInt8) (opts : DriveOptions) (on : Bool)
    (opts' : DriveOptions) (started : Bool) (slice : Option SliceCursor) : Prop where
  opts_eq : opts' = opts
  started_eq : started = on
  inMemory : slice.isSome = true → ∀ w, source.asSlice w = some src
  notInMemory : started = true → slice = none → ∀ w, source.asSlice w = none

/-- A fetched buffer is in the source, and within the limit. -/
structure Holds (src : List UInt8) (limit : ℕ) (f : Fetched) : Prop where
  shows : Shows src f.1 f.2.data
  small : f.2.data.length ≤ limit

/-- What a cursor with `opts` holds is in the source, and the buffer in play is one that it
holds. -/
structure Faithful (source : ReadAt Ω SE) (src : List UInt8) (opts : DriveOptions) (on : Bool)
    (c : ReadAtCursor) : Prop where
  window : c.window.Over src
  fetched : ∀ f ∈ c.fetched, Holds src opts.limits.inputBytes f
  inPlay : ∀ i skip, c.fromFetched = some (i, skip) →
    ∃ f, c.fetched[i]? = some f ∧ skip ≤ f.2.data.length
  mode : Mode source src opts on c.opts c.started c.slice

/-- The window is in play. -/
structure Idle (source : ReadAt Ω SE) (src : List UInt8) (opts : DriveOptions) (on : Bool)
    (c : ReadAtCursor) : Prop extends Faithful source src opts on c where
  idle : c.fromFetched = none

namespace ReadAtCursor

/-- What the cursor offers when the source is not in memory. -/
def offered (c : ReadAtCursor) : Input :=
  match c.fromFetched with
  | some (i, skip) =>
    (c.fetched[i]?).elim c.window.input fun f => ⟨f.1 + skip, f.2.data.drop skip, c.window.total⟩
  | none => c.window.input

/-- What is offered next, with the hint of the length if nothing was offered before. -/
def shown (source : ReadAt Ω SE) (t : ReadAtCursor × Ω) : Input :=
  if t.1.started then t.1.offered else { t.1.offered with totalLen := source.lenHint t.2 }

theorem offered_of_idle {c : ReadAtCursor} (h : c.fromFetched = none) :
    c.offered = c.window.input := by
  rw [offered, h]

end ReadAtCursor

section Calls

variable {mem : Memory Ω} {o : Overflow} {source : ReadAt Ω SE} {src : List UInt8}
  {opts : DriveOptions} {on : Bool} {c : ReadAtCursor} {t : ReadAtCursor × Ω}

/-- The window is put in play. -/
theorem Faithful.idle (h : Faithful source src opts on c) :
    Idle source src opts on { c with fromFetched := none } :=
  ⟨⟨h.window, h.fetched, fun _ _ hp => (by cases hp), h.mode⟩, rfl⟩

theorem Idle.with_window (h : Idle source src opts on c) {w : Window} (hw : w.Over src) :
    Idle source src opts on { c with window := w } :=
  ⟨⟨hw, h.fetched, h.inPlay, h.mode⟩, h.idle⟩

theorem Idle.with_total (h : Idle source src opts on c) (total : Option ℕ) :
    Idle source src opts on { c with window := { c.window with total := total } } :=
  h.with_window (h.window.with_total total)

theorem Idle.with_fetched (h : Idle source src opts on c) {fetched : List Fetched}
    (hf : ∀ f ∈ fetched, Holds src opts.limits.inputBytes f) :
    Idle source src opts on { c with fetched := fetched } :=
  ⟨⟨h.window, hf, fun i skip hp => (by rw [h.idle] at hp; cases hp), h.mode⟩, h.idle⟩

theorem Idle.makeRoom (h : Idle source src opts on c) (usizeMax target : ℕ) (limits : IoLimits) :
    Idle source src opts on
      { c with fetched := makeRoom usizeMax c.window c.fetched target limits } := by
  refine h.with_fetched fun f hf => h.fetched f ?_
  unfold Io.makeRoom at hf
  dsimp only at hf
  split at hf
  · cases hf
  · exact hf

/-- A fetched buffer is put in play. -/
theorem Faithful.play (h : Faithful source src opts on c) {i skip : ℕ} {f : Fetched}
    (hf : c.fetched[i]? = some f) (hskip : skip ≤ f.2.data.length) :
    Faithful source src opts on { c with fromFetched := some (i, skip) } := by
  refine ⟨h.window, h.fetched, fun j skip' hp => ?_, h.mode⟩
  cases hp
  exact ⟨f, hf, hskip⟩

/-! ### Offering and taking -/

/-- What never fails returns. -/
theorem exists_ok {α : Type} {x : Drive Ω ε SE α} {Q : α → ReadAtCursor × Ω → Prop}
    (h : Act.Spec x Q (fun _ _ => False) t) : ∃ a, (x t).1 = .ok a ∧ Q a (x t).2 := by
  cases hr : (x t).1 with
  | ok a => exact ⟨a, rfl, h.run.1 a hr⟩
  | error e => exact (h.run.2 e hr).elim

theorem Faithful.shows_offered (h : Faithful source src opts on c) :
    Shows src c.offered.offset c.offered.bytes := by
  unfold ReadAtCursor.offered
  cases hplay : c.fromFetched with
  | none => exact h.window.shows
  | some p =>
    obtain ⟨f, hf, -⟩ := h.inPlay p.1 p.2 hplay
    dsimp only
    rw [hf]
    exact (h.fetched f (List.mem_of_getElem? hf)).shows.drop p.2

/-- A cursor that starts shows what it showed, unless the source is in memory. -/
theorem start_faithful (hsrc : source.Over src) (h : Faithful source src opts on t.1) :
    Act.Spec (ReadAtCursor.start source : Drive Ω ε SE Unit)
      (fun _ t' => Faithful source src opts true t'.1 ∧
        ((∀ w, source.asSlice w = none) → t'.1.offered = ReadAtCursor.shown source t))
      (fun _ _ => False) t := by
  simp only [ReadAtCursor.start, Act.spec_bind, Act.spec_get, Act.spec_ite]
  refine ⟨fun hon => ⟨?_, fun _ => (if_pos hon).symm⟩, fun hoff => ⟨fun hmem => ?_,
    fun hnone => ⟨?_, fun _ => ?_⟩⟩⟩
  · exact ⟨h.window, h.fetched, h.inPlay, h.mode.opts_eq, hon, h.mode.inMemory,
      h.mode.notInMemory⟩
  · have hall : ∀ w, source.asSlice w = some src := hsrc.asSlice.resolve_left fun hnone => by
      rw [hnone] at hmem
      cases hmem
    refine ⟨⟨h.window, h.fetched, h.inPlay, h.mode.opts_eq, rfl, fun _ => hall,
      fun _ hs => (by cases hs)⟩, fun hnone => ?_⟩
    rw [hnone] at hmem
    cases hmem
  · have hall : ∀ w, source.asSlice w = none := hsrc.asSlice.resolve_right fun hall => by
      rw [hall] at hnone
      exact hnone rfl
    exact ⟨h.window.with_total _, h.fetched, h.inPlay, h.mode.opts_eq, rfl, h.mode.inMemory,
      fun _ _ => hall⟩
  · -- The hint of the length is taken now, and is what an offer showed before.
    unfold ReadAtCursor.shown ReadAtCursor.offered
    rw [if_neg hoff]
    cases hplay : t.1.fromFetched with
    | none => rfl
    | some p =>
      obtain ⟨f, hf, -⟩ := h.inPlay p.1 p.2 hplay
      dsimp only
      rw [hf]
      rfl

/-- An offer is a part of the source, and never fails. -/
theorem offer_faithful (hsrc : source.Over src) (h : Faithful source src opts on t.1) :
    Act.Spec (ReadAtCursor.offer source : Drive Ω ε SE Input)
      (fun input t' => Shows src input.offset input.bytes ∧ Faithful source src opts true t'.1)
      (fun _ _ => False) t := by
  rw [ReadAtCursor.offer, Act.spec_bind]
  refine (start_faithful hsrc h).mono (fun _ t' ht' => ?_) fun _ _ h => h
  obtain ⟨ht', -⟩ := ht'
  simp only [Act.spec_bind, Act.spec_get]
  cases hslice : t'.1.slice with
  | some cursor =>
    -- A cursor over a slice is there only where the source is in memory.
    have hall := ht'.mode.inMemory (by rw [hslice]; rfl)
    simp only [hall t'.2, Act.spec_bind, Act.spec_getOr_some, update, Act.spec_modify,
      Act.spec_pure]
    exact ⟨Shows.span _ _ _, ht'.window, ht'.fetched, ht'.inPlay, ht'.mode.opts_eq,
      ht'.mode.started_eq, fun _ => hall, fun _ hs => (by cases hs)⟩
  | none =>
    cases hplay : t'.1.fromFetched with
    | some p =>
      obtain ⟨f, hf, hskip⟩ := ht'.inPlay p.1 p.2 hplay
      dsimp only
      rw [hf, Act.spec_bind, Act.spec_getOr_some, Act.spec_bind, Act.spec_require]
      refine ⟨fun _ => ⟨?_, ht'⟩, fun hno => ?_⟩
      · exact (ht'.fetched f (List.mem_of_getElem? hf)).shows.drop p.2
      · exact of_decide_eq_false hno hskip
    | none => exact ⟨ht'.window.shows, ht'⟩

theorem Faithful.slice_eq (h : Faithful source src opts on c)
    (hnone : ∀ w, source.asSlice w = none) (w : Ω) : c.slice = none := by
  cases hs : c.slice with
  | none => rfl
  | some cursor =>
    have hall := h.mode.inMemory (by rw [hs]; rfl) w
    rw [hnone] at hall
    cases hall

/-- What is offered of a source that is not in memory, and offered again. -/
theorem offer_shown (hsrc : source.Over src) (h : Faithful source src opts on t.1)
    (hnone : ∀ w, source.asSlice w = none) :
    Act.Spec (ReadAtCursor.offer source : Drive Ω ε SE Input)
      (fun input t' => input = ReadAtCursor.shown source t ∧ Faithful source src opts true t'.1 ∧
        ReadAtCursor.shown source t' = ReadAtCursor.shown source t) (fun _ _ => False) t := by
  rw [ReadAtCursor.offer, Act.spec_bind]
  refine (start_faithful hsrc h).mono (fun _ t' ht' => ?_) fun _ _ h => h
  obtain ⟨ht', hstart⟩ := ht'
  have hoffered := hstart hnone
  have hshown : ReadAtCursor.shown source t' = t'.1.offered := if_pos ht'.mode.started_eq
  rw [← hoffered]
  simp only [Act.spec_bind, Act.spec_get, ht'.slice_eq hnone t'.2]
  unfold ReadAtCursor.offered at hshown ⊢
  cases hplay : t'.1.fromFetched with
  | none =>
    rw [hplay] at hshown
    exact ⟨rfl, ht', hshown⟩
  | some p =>
    obtain ⟨f, hf, hskip⟩ := ht'.inPlay p.1 p.2 hplay
    rw [hplay] at hshown
    dsimp only at hshown ⊢
    rw [hf] at hshown ⊢
    rw [Act.spec_bind, Act.spec_getOr_some, Act.spec_bind, Act.spec_require]
    exact ⟨fun _ => ⟨rfl, ht', hshown⟩, fun hno => of_decide_eq_false hno hskip⟩

theorem take_faithful (h : Faithful source src opts on c) (consumed : ℕ) :
    Faithful source src opts on (c.take mem consumed) := by
  unfold ReadAtCursor.take
  split
  · next cursor hslice =>
    refine ⟨h.window, h.fetched, h.inPlay, h.mode.opts_eq, h.mode.started_eq, fun _ => ?_,
      fun _ hs => (by cases hs)⟩
    exact h.mode.inMemory (by rw [hslice]; rfl)
  · split
    · next i skip hplay =>
      obtain ⟨f, hf, hskip⟩ := h.inPlay i skip hplay
      refine h.play hf ?_
      rw [hf]
      exact min_le_right _ _
    · exact ⟨h.window.consume consumed, h.fetched, h.inPlay, h.mode⟩

/-! ### Reading behind the held bytes -/

theorem roomLeft_spec : Act.Spec (ReadAtCursor.roomLeft mem o : Drive Ω ε SE ℕ)
    (fun _ t' => t' = t) (fun _ t' => t' = t) t := by
  unfold ReadAtCursor.roomLeft
  simp only [Act.spec_bind, Act.spec_get, Act.spec_getOr]
  exact ⟨fun _ _ => trivial, fun _ => trivial⟩

theorem le_readTarget {usizeMax minLen : ℕ} (readSize : ℕ) (h : minLen ≤ usizeMax) :
    minLen ≤ readTarget usizeMax minLen readSize := by
  unfold readTarget
  dsimp only
  refine le_min ?_ h
  have hpos : 0 < max minLen 1 := by omega
  have hone : 1 ≤ (max readSize (max minLen 1) + max minLen 1 - 1) / max minLen 1 := by
    rw [Nat.le_div_iff_mul_le hpos]
    omega
  calc minLen ≤ 1 * max minLen 1 := by omega
    _ ≤ _ := Nat.mul_le_mul_right _ hone

/-- What a read that succeeded leaves behind the held bytes, before it is committed. -/
structure ReadBehind {α : Type} (read : List UInt8 → Ω → (Except SE α × List UInt8) × Ω) (want : ℕ)
    (c c' : ReadAtCursor) (a : α) : Prop where
  read : ∃ (s : Window) (out : List UInt8) (w : Ω), c.window.Same s ∧ s.InBuf ∧
    s.stop + (read out w).1.2.length ≤ s.buf.data.length ∧ out.length = want ∧
    (read out w).1.1 = .ok a ∧ c' = { c with window := s.fill (read out w).1.2 }

theorem readBehind_faithful {α : Type} (want limit : ℕ)
    {read : List UInt8 → Ω → (Except SE α × List UInt8) × Ω}
    (hread : ∀ out w, (read out w).1.2.length = out.length) (h : Idle source src opts on t.1) :
    Act.Spec (readBehind mem want limit read : Drive Ω ε SE α)
      (fun a t' => ReadBehind read want t.1 t'.1 a)
      (fun _ t' => Idle source src opts on t'.1) t := by
  unfold readBehind onWindow readInto
  simp only [Act.spec_bind, Act.spec_focus, Act.spec_mapError]
  refine (Window.spec_trySpare h.window.inBuf).mono (fun _ s hs => ?_) fun _ s hs =>
    h.with_window (h.window.cramped hs)
  have hlen : (s.1.spare want).length = want := Window.length_spare hs.room
  have hroom : s.1.stop + (read (s.1.spare want) s.2).1.2.length ≤ s.1.buf.data.length := by
    rw [hread, hlen]
    exact hs.room
  refine Act.spec_of_run (fun a ha => ⟨s.1, s.1.spare want, s.2, hs.same, hs.inBuf, hroom, hlen, ?_,
    rfl⟩) fun _ _ => h.with_window ((h.window.same hs.inBuf hs.same).fill hroom)
  exact mapError_eq_ok.mp ha

/-- The bytes that are committed after it are held as well. -/
theorem ReadBehind.commit {α : Type} {read : List UInt8 → Ω → (Except SE α × List UInt8) × Ω}
    {want n : ℕ} {c' : ReadAtCursor} {a : α} (hr : ReadBehind read want c c' a)
    (h : Idle source src opts on c) (hlen : ∀ out w, (read out w).1.2.length = out.length)
    (hn : n ≤ want)
    (hshows : ∀ out w, (read out w).1.1 = .ok a →
      Shows src c.window.endOffset ((read out w).1.2.take n)) :
    Idle source src opts on { c' with window := c'.window.commit n } ∧
      Window.Extended src c.window n (c'.window.commit n) := by
  obtain ⟨s, out, w, hsame, hin, hroom, hout, hok, rfl⟩ := hr.read
  have hext := h.window.extend hin hsame hroom (n := n) (by rw [hlen, hout]; exact hn)
    (hshows out w hok)
  exact ⟨h.with_window hext.held, hext⟩

/-- A read holds what came, as many bytes as it says. -/
theorem readAt_faithful (hsrc : source.Over src) (want room : ℕ)
    (h : Idle source src opts on t.1) :
    Act.Spec (readBehind mem want room (source.readAt t.1.window.endOffset) : Drive Ω ε SE ℕ)
      (fun n t' => n ≤ want ∧
        Idle source src opts on { t'.1 with window := t'.1.window.commit n } ∧
        Window.Extended src t.1.window n (t'.1.window.commit n))
      (fun _ t' => Idle source src opts on t'.1) t := by
  have hlen : ∀ out w, (source.readAt t.1.window.endOffset out w).1.2.length = out.length :=
    source.length_readAt _
  refine (readBehind_faithful want room hlen h).mono (fun n u hu => ?_) fun _ _ hu => hu
  have hn : n ≤ want := by
    obtain ⟨_, out, w, _, _, _, hout, hok, _⟩ := hu.read
    exact hout ▸ source.le_of_readAt _ out w n hok
  exact ⟨hn, hu.commit h hlen hn fun out w hok => hsrc.readAt _ out w n hok⟩

/-- Reading forward ends with as much as was asked for, or at the end. -/
theorem fillLoop_faithful (hsrc : source.Over src) (target fuel : ℕ) :
    ∀ {t : ReadAtCursor × Ω}, Idle source src opts on t.1 →
    Act.Spec (ReadAtCursor.fillLoop mem o source target fuel : Drive Ω ε SE Unit)
      (fun _ t' => Idle source src opts on t'.1 ∧ t'.1.window.base = t.1.window.base ∧
        (t.1.window.base + target ≤ u64Max → target ≤ mem.usizeMax →
          target - t.1.window.len < fuel ∨ t.1.window.total = some t.1.window.endOffset →
          target ≤ t'.1.window.len ∨ t'.1.window.total = some t'.1.window.endOffset))
      (fun _ t' => Idle source src opts on t'.1) t := by
  induction fuel with
  | zero => exact fun h => ⟨h, rfl, fun _ _ hfuel => hfuel.imp_left fun h => absurd h (by omega)⟩
  | succ fuel ih =>
    intro t h
    unfold ReadAtCursor.fillLoop
    simp only [Act.spec_bind, Act.spec_get, Act.spec_ite, Act.spec_pure]
    refine ⟨fun hmore => ?_, fun hdone => ⟨h, trivial, fun _ _ _ => ?_⟩⟩
    · refine roomLeft_spec.mono (fun room t' ht' => ?_) fun _ t' ht' => ht' ▸ h
      obtain rfl := ht'
      have hread : Act.Spec (readBehind mem _ room _ : Drive Ω ε SE ℕ) _ _ t' :=
        readAt_faithful hsrc (min (target - t'.1.window.len)
          (min (u64Max - t'.1.window.endOffset) mem.usizeMax)) room h
      unfold readBehind at hread
      rw [Act.spec_bind] at hread
      refine hread.mono (fun _ s hs => hs.mono (fun n u hu => ?_) fun _ _ hu => hu) fun _ _ hs => hs
      obtain ⟨hn, hidle, hext⟩ := hu
      have hbase := hext.base
      have hend := hext.endOffset
      unfold update
      simp only [Act.spec_modify]
      refine ⟨fun hshort => ?_, fun hfull => ?_⟩
      · -- A short read ends the loop.
        refine (ih (hidle.with_total _)).mono (fun _ v hv => ?_)
          fun _ _ hv => hv
        obtain ⟨hv, hvbase, hvdone⟩ := hv
        refine ⟨hv, hvbase.trans hbase, fun haddr husize _ => hvdone ?_ husize (.inr ?_)⟩
        · exact hbase.symm ▸ haddr
        · exact congrArg some hend.symm
      · -- A full read makes progress.
        refine (ih hidle).mono (fun _ v hv => ?_) fun _ _ hv => hv
        obtain ⟨hv, hvbase, hvdone⟩ := hv
        refine ⟨hv, hvbase.trans hbase, fun haddr husize hfuel => hvdone ?_ husize (.inl ?_)⟩
        · exact hbase.symm ▸ haddr
        · have hfuel' := hfuel.resolve_right hmore.2
          have hstop : t'.1.window.endOffset = t'.1.window.base + t'.1.window.len := rfl
          have hlen := hext.len
          have := hmore.1
          show target - (u.1.window.commit n).len < fuel
          omega
    · by_contra hno
      rw [not_or, not_le] at hno
      exact hdone hno

end Calls

end Zencodec.Io
