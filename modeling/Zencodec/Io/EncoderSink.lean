/-
The transcode sink.

`EncoderSink` lends its strip buffer to a decoder and pushes each strip into an
encoder when the next one is asked for, or at the end.  The encoder is any state
machine; the decoder makes any sequence of calls and may go on after an error.

* `Relayed` — the invariant: what was lent is what was pushed, and then at most the
  strip that is pending (`relayed_run`);
* `relays_iff` — a strip that the encoder refused is forgotten, so a finished file
  lacks rows precisely when the encoder, having refused a strip, completes all the
  same (`refused_strip_forgotten`);
* `relays_of_failing` — an encoder that keeps its contract never does.
-/
import Zencodec.Lib.Slices

namespace Zencodec.Transcode

open Slices

/-- Rows as they are passed to an encoder. -/
structure Strip (D : Type) where
  width : ℕ
  rows : ℕ
  descriptor : D
  bytes : Bytes
  deriving DecidableEq, Repr

/-- The pixel views: how many bytes a pixel takes, and what a view over bytes at an address
is refused for.  The shared and the mutable view check the same. -/
structure Views (D : Type) where
  bytesPerPixel : D → ℕ
  /-- `PixelSlice::new`: address, length, width, rows, stride and descriptor. -/
  newSlice : ℕ → ℕ → ℕ → ℕ → ℕ → D → Option String
  /-- `PixelSliceMut::new` -/
  newSliceMut : ℕ → ℕ → ℕ → ℕ → ℕ → D → Option String
  same : newSlice = newSliceMut

/-- An encoder, as far as the sink calls it. -/
structure Encoder (E D T O ε : Type) where
  begin : E → ℕ → ℕ → D → E × Except ε T
  pushRows : E → Strip D → E × Except ε Unit
  consumeOutput : E → ℕ → E
  takeOutput : E → E
  finish : E → Except ε O

inductive SinkError (ε : Type)
  | message (text : String)
  | encoder (e : ε)
  deriving DecidableEq, Repr

/-- Failure of the last `finish`. -/
inductive EncoderSinkError (ε : Type)
  | sink (e : SinkError ε)
  | encoder (e : ε)
  deriving DecidableEq, Repr

/-- The strip buffer and where it lies. -/
structure Buffer where
  address : ℕ
  bytes : Bytes
  deriving DecidableEq, Repr

def usizeMax : ℕ := 2 ^ 64 - 1

/-- `strip.resize(len, 0)` where it is shorter; a grown buffer may move. -/
def Buffer.grow (b : Buffer) (len address : ℕ) : Buffer :=
  if b.bytes.length < len then
    ⟨address, b.bytes ++ List.replicate (len - b.bytes.length) 0⟩
  else b

structure EncoderSink (E D T : Type) where
  encoder : Option E
  strip : Buffer
  /-- Rows, width and descriptor of the strip that waits. -/
  pending : Option (ℕ × ℕ × D)
  rowsPushed : ℕ
  timing : Option T
  deriving DecidableEq, Repr

variable {E D T O ε : Type}

/-- The outcome of a call: the sink, what the caller gets, and the strip passed to the
encoder, with whether the encoder accepted it. -/
structure Outcome (E D T ε α : Type) where
  sink : EncoderSink E D T
  result : Except (SinkError ε) α
  push : Option (Strip D × Bool)

def alreadyFinished : SinkError ε := .message "EncoderSink: encoder already finished"

namespace EncoderSink

def new (encoder : E) : EncoderSink E D T where
  encoder := some encoder
  strip := ⟨0, []⟩
  pending := none
  rowsPushed := 0
  timing := none

variable (views : Views D) (encoder : Encoder E D T O ε)

def pushPending (s : EncoderSink E D T) : Outcome E D T ε Unit :=
  match s.pending with
  | none => ⟨s, .ok (), none⟩
  | some (rows, width, desc) =>
    let s := { s with pending := none }
    let stride := width * views.bytesPerPixel desc
    let bytes := s.strip.bytes.take (stride * rows)
    match views.newSlice s.strip.address bytes.length width rows stride desc with
    | some text => ⟨s, .error (.message ("EncoderSink: " ++ text)), none⟩
    | none => match s.encoder with
      | none => ⟨s, .error alreadyFinished, none⟩
      | some enc =>
        let slice : Strip D := ⟨width, rows, desc, bytes⟩
        let pushed := encoder.pushRows enc slice
        let s := { s with encoder := some pushed.1 }
        match pushed.2 with
        | .error e => ⟨s, .error (.encoder e), some (slice, false)⟩
        | .ok () =>
          ⟨{ s with rowsPushed := (s.rowsPushed + rows) % 2 ^ 64 }, .ok (), some (slice, true)⟩

/-- `finish(mut self)` -/
def finishEncoder (s : EncoderSink E D T) :
    Except (EncoderSinkError ε) O × Option (Strip D × Bool) :=
  let pushed := s.pushPending views encoder
  match pushed.result with
  | .error e => (.error (.sink e), pushed.push)
  | .ok () => match pushed.sink.encoder with
    | none => (.error (.sink alreadyFinished), pushed.push)
    | some enc => match encoder.finish enc with
      | .error e => (.error (.encoder e), pushed.push)
      | .ok out => (.ok out, pushed.push)

/-- `DecodeRowSink::begin` -/
def begin (s : EncoderSink E D T) (width height : ℕ) (desc : D) : Outcome E D T ε Unit :=
  match s.encoder with
  | none => ⟨s, .error alreadyFinished, none⟩
  | some enc =>
    let begun := encoder.begin enc width height desc
    let s := { s with encoder := some begun.1 }
    match begun.2 with
    | .error e => ⟨s, .error (.encoder e), none⟩
    | .ok timing => ⟨{ s with timing := some timing }, .ok (), none⟩

/-- `DecodeRowSink::provide_next_buffer`; the result is the length of the bytes lent. -/
def provideNextBuffer (s : EncoderSink E D T) (height width : ℕ) (desc : D) (address : ℕ) :
    Outcome E D T ε ℕ :=
  let pushed := s.pushPending views encoder
  match pushed.result with
  | .error e => ⟨pushed.sink, .error e, pushed.push⟩
  | .ok () =>
    let stride := width * views.bytesPerPixel desc
    let len := stride * height
    if len > usizeMax then
      ⟨pushed.sink, .error (.message "EncoderSink: strip too large"), pushed.push⟩
    else
      let strip := pushed.sink.strip.grow len address
      let s := { pushed.sink with strip, pending := some (height, width, desc) }
      match views.newSliceMut strip.address len width height stride desc with
      | some text => ⟨s, .error (.message ("EncoderSink: " ++ text)), pushed.push⟩
      | none => ⟨s, .ok len, pushed.push⟩

end EncoderSink

/-! ### Runs -/

/-- What a decoder leaves in the bytes it is lent. -/
structure Fill where
  write : Bytes → Bytes
  length_write : ∀ b, (write b).length = b.length

/-- The calls on a sink, and the caller's draining of its encoder. -/
inductive Call (D : Type)
  | begin (width height : ℕ) (desc : D)
  | provide (height width : ℕ) (desc : D) (address : ℕ) (fill : Fill)
  | finish
  | consume (n : ℕ)
  | take

/-- A sink with its history: the strips lent, as the decoder left them, and those passed to
the encoder, with whether it accepted them. -/
structure Run (E D T : Type) where
  sink : EncoderSink E D T
  lent : List (Strip D)
  pushed : List (Strip D × Bool)

/-- The decoder writes into the bytes it was lent. -/
def EncoderSink.written (s : EncoderSink E D T) (len : ℕ) (fill : Fill) : EncoderSink E D T :=
  { s with strip := { s.strip with
      bytes := fill.write (s.strip.bytes.take len) ++ s.strip.bytes.drop len } }

namespace Run

variable (views : Views D) (encoder : Encoder E D T O ε)

def start (e : E) : Run E D T where
  sink := .new e
  lent := []
  pushed := []

def step (r : Run E D T) : Call D → Run E D T
  | .begin width height desc => { r with sink := (r.sink.begin encoder width height desc).sink }
  | .provide height width desc address fill =>
    let out := r.sink.provideNextBuffer views encoder height width desc address
    let pushed := r.pushed ++ out.push.toList
    match out.result with
    | .error _ => { r with sink := out.sink, pushed }
    | .ok len =>
      let sink := out.sink.written len fill
      { sink, pushed, lent := r.lent ++ [⟨width, height, desc, sink.strip.bytes.take len⟩] }
  | .finish =>
    let out := r.sink.pushPending views encoder
    { r with sink := out.sink, pushed := r.pushed ++ out.push.toList }
  | .consume n => { r with sink := { r.sink with
      encoder := r.sink.encoder.map fun e => encoder.consumeOutput e n } }
  | .take => { r with sink := { r.sink with
      encoder := r.sink.encoder.map encoder.takeOutput } }

def run (r : Run E D T) (calls : List (Call D)) : Run E D T :=
  calls.foldl (step views encoder) r

end Run

/-! ### What is relayed -/

/-- The rows of the strips that the encoder accepted. -/
def acceptedRows (pushed : List (Strip D × Bool)) : ℕ :=
  ((pushed.filter (·.2)).map fun p => p.1.rows).sum

@[simp] theorem acceptedRows_nil : acceptedRows ([] : List (Strip D × Bool)) = 0 := rfl

@[simp] theorem acceptedRows_append (p q : List (Strip D × Bool)) :
    acceptedRows (p ++ q) = acceptedRows p + acceptedRows q := by
  simp [acceptedRows]

namespace EncoderSink

variable (views : Views D) (encoder : Encoder E D T O ε)

/-- The view over the strip that waits is refused. -/
def Refused (s : EncoderSink E D T) (rows width : ℕ) (desc : D) : Prop :=
  let stride := width * views.bytesPerPixel desc
  views.newSlice s.strip.address (stride * rows) width rows stride desc ≠ none

instance instDecidableRefused (s : EncoderSink E D T) (rows width : ℕ) (desc : D) :
    Decidable (s.Refused views rows width desc) :=
  inferInstanceAs (Decidable (_ ≠ none))

/-- The strip over the buffer, as the decoder left it. -/
def slice (s : EncoderSink E D T) (rows width : ℕ) (desc : D) : Strip D :=
  ⟨width, rows, desc, s.strip.bytes.take (width * views.bytesPerPixel desc * rows)⟩

/-- The strip that was lent and not yet pushed. -/
def waiting (s : EncoderSink E D T) : List (Strip D) :=
  match s.pending with
  | none => []
  | some (rows, width, desc) =>
    if s.Refused views rows width desc then [] else [s.slice views rows width desc]

/-- The strip that waits lies within the buffer. -/
def Fits (s : EncoderSink E D T) : Prop :=
  ∀ rows width desc, s.pending = some (rows, width, desc) →
    width * views.bytesPerPixel desc * rows ≤ s.strip.bytes.length

/-- The encoder accepts the strip that waits, and then finishes. -/
def Completes (s : EncoderSink E D T) : Prop :=
  ∃ enc, s.encoder = some enc ∧
    match s.pending with
    | none => ∃ out, encoder.finish enc = .ok out
    | some (rows, width, desc) => ¬ s.Refused views rows width desc ∧
        (encoder.pushRows enc (s.slice views rows width desc)).2 = .ok () ∧
        ∃ out, encoder.finish (encoder.pushRows enc (s.slice views rows width desc)).1 = .ok out

variable {views encoder}

/-- What pushing the pending strip does. -/
structure Pushed (views : Views D) (s : EncoderSink E D T) (out : Outcome E D T ε Unit) :
    Prop where
  strips : out.push.toList.map (·.1) = s.waiting views
  encoder : ∃ e, out.sink.encoder = some e
  pending : out.sink.pending = none
  strip : out.sink.strip = s.strip
  rows : out.sink.rowsPushed = s.rowsPushed ∧ acceptedRows out.push.toList = 0 ∨
    out.sink.rowsPushed = (s.rowsPushed + acceptedRows out.push.toList) % 2 ^ 64
  accepted : out.result = .ok () → ∀ p ∈ out.push.toList, p.2 = true

theorem pushPending_none {s : EncoderSink E D T} (h : s.pending = none) :
    s.pushPending views encoder = ⟨s, .ok (), none⟩ := by
  rw [pushPending, h]

/-- The pending strip, read under the name `slice`. -/
theorem pushPending_some (encoder : Encoder E D T O ε)
    {s : EncoderSink E D T} {e : E} {rows width : ℕ} {desc : D}
    (h : s.pending = some (rows, width, desc)) (he : s.encoder = some e)
    (hfits : s.Fits views) :
    (s.Refused views rows width desc → ∃ text, s.pushPending views encoder =
      ⟨{ s with pending := none }, .error (.message text), none⟩) ∧
    (¬ s.Refused views rows width desc →
      let strip := s.slice views rows width desc
      let pushed := encoder.pushRows e strip
      (∀ er, pushed.2 = .error er → s.pushPending views encoder =
        ⟨{ s with pending := none, encoder := some pushed.1 }, .error (.encoder er),
          some (strip, false)⟩) ∧
      (pushed.2 = .ok () → s.pushPending views encoder =
        ⟨{ s with
            pending := none, encoder := some pushed.1
            rowsPushed := (s.rowsPushed + rows) % 2 ^ 64 }, .ok (), some (strip, true)⟩)) := by
  have hlen := List.length_take_of_le (hfits rows width desc h)
  constructor
  · intro hr
    obtain ⟨text, ht⟩ := Option.ne_none_iff_exists'.mp hr
    exact ⟨_, by simp only [pushPending, h, hlen, ht]; rfl⟩
  · intro hr
    have hn := not_not.mp hr
    refine ⟨fun er hp => ?_, fun hp => ?_⟩
    · simp only [slice] at hp ⊢
      simp only [pushPending, h, hlen, hn, he, hp]
    · simp only [slice] at hp ⊢
      simp only [pushPending, h, hlen, hn, he, hp]

theorem waiting_none {s : EncoderSink E D T} (h : s.pending = none) :
    s.waiting views = [] := by
  rw [waiting, h]

theorem waiting_refused {s : EncoderSink E D T} {rows width : ℕ} {desc : D}
    (h : s.pending = some (rows, width, desc)) (hr : s.Refused views rows width desc) :
    s.waiting views = [] := by
  rw [waiting, h]
  exact if_pos hr

theorem waiting_some {s : EncoderSink E D T} {rows width : ℕ} {desc : D}
    (h : s.pending = some (rows, width, desc)) (hr : ¬ s.Refused views rows width desc) :
    s.waiting views = [s.slice views rows width desc] := by
  rw [waiting, h]
  exact if_neg hr

/-- What the decoder writes does not change the view. -/
theorem refused_written {s : EncoderSink E D T} {len : ℕ} {fill : Fill} {rows width : ℕ}
    {desc : D} : (s.written len fill).Refused views rows width desc ↔
      s.Refused views rows width desc :=
  Iff.rfl

/-- What waits is read off the mark and the buffer. -/
theorem waiting_congr {s s' : EncoderSink E D T} (hs : s.strip = s'.strip)
    (hp : s.pending = s'.pending) : s.waiting views = s'.waiting views := by
  cases s
  cases s'
  cases hs
  cases hp
  rfl

/-- One spec of `pushPending`; the callers below read it only. -/
theorem pushPending_spec {s : EncoderSink E D T} {e : E} (he : s.encoder = some e)
    (hfits : s.Fits views) : Pushed views s (s.pushPending views encoder) := by
  rcases hp : s.pending with _ | ⟨rows, width, desc⟩
  · rw [pushPending_none hp]
    exact ⟨by simp [waiting_none hp], ⟨e, he⟩, hp, rfl, .inl ⟨rfl, rfl⟩, by simp⟩
  obtain ⟨refused, taken⟩ := pushPending_some encoder hp he hfits
  by_cases hr : s.Refused views rows width desc
  · obtain ⟨text, ht⟩ := refused hr
    rw [ht]
    exact ⟨by simp [waiting_refused hp hr], ⟨e, he⟩, rfl, rfl, .inl ⟨rfl, rfl⟩, by simp⟩
  · obtain ⟨failed, done⟩ := taken hr
    rcases hres : (encoder.pushRows e (s.slice views rows width desc)).2 with er | ⟨⟩
    · rw [failed er hres]
      exact ⟨by simp [waiting_some hp hr], ⟨_, rfl⟩, rfl, rfl, .inl ⟨rfl, rfl⟩, by simp⟩
    · rw [done hres]
      refine ⟨by simp [waiting_some hp hr], ⟨_, rfl⟩, rfl, rfl, .inr ?_, by simp⟩
      simp [acceptedRows, slice]

/-- `finishEncoder` is ok exactly when the encoder completes. -/
theorem finishEncoder_isOk (encoder : Encoder E D T O ε)
    {s : EncoderSink E D T} {e : E} (he : s.encoder = some e)
    (hfits : s.Fits views) :
    (∃ out, (s.finishEncoder views encoder).1 = .ok out) ↔ s.Completes views encoder := by
  rcases hp : s.pending with _ | ⟨rows, width, desc⟩
  · rw [finishEncoder, pushPending_none hp, Completes]
    rcases hf : encoder.finish e with er | out <;> simp [he, hp, hf]
  obtain ⟨refused, taken⟩ := pushPending_some encoder hp he hfits
  by_cases hr : s.Refused views rows width desc
  · obtain ⟨text, ht⟩ := refused hr
    rw [finishEncoder, ht, Completes]
    simp [hp, hr]
  · obtain ⟨failed, done⟩ := taken hr
    rcases hres : (encoder.pushRows e (s.slice views rows width desc)).2 with er | ⟨⟩
    · rw [finishEncoder, failed er hres, Completes]
      simp [he, hp, hr, hres]
    · rw [finishEncoder, done hres, Completes]
      rcases hf : encoder.finish (encoder.pushRows e (s.slice views rows width desc)).1
        with er | out <;> simp [he, hp, hr, hres, hf]

/-- What a finished sink passed on last. -/
theorem finishEncoder_push (s : EncoderSink E D T) :
    (s.finishEncoder views encoder).2 = (s.pushPending views encoder).push := by
  simp only [finishEncoder]
  split
  · rfl
  · split
    · rfl
    · split <;> rfl

theorem pushPending_of_finishEncoder {s : EncoderSink E D T} {out : O}
    (h : (s.finishEncoder views encoder).1 = .ok out) :
    (s.pushPending views encoder).result = .ok () := by
  simp only [finishEncoder] at h
  split at h
  · simp at h
  · assumption

end EncoderSink

namespace Run

open EncoderSink

variable (views : Views D) (encoder : Encoder E D T O ε)

/-- What was lent is what was pushed and then what waits. -/
structure Relayed (r : Run E D T) : Prop where
  present : ∃ e, r.sink.encoder = some e
  fits : r.sink.Fits views
  lent : r.lent = r.pushed.map (·.1) ++ r.sink.waiting views
  rows : r.sink.rowsPushed = acceptedRows r.pushed % 2 ^ 64

variable {views encoder}

theorem relayed_start (e : E) : (start e : Run E D T).Relayed views where
  present := ⟨e, rfl⟩
  fits := by
    intro rows width desc h
    simp [start, EncoderSink.new] at h
  lent := by simp [start, EncoderSink.new, waiting]
  rows := rfl

/-- Only the encoder and the timing change. -/
theorem Relayed.congr {r : Run E D T} (h : r.Relayed views) {sink : EncoderSink E D T} {e : E}
    (he : sink.encoder = some e) (hs : sink.strip = r.sink.strip)
    (hp : sink.pending = r.sink.pending) (hr : sink.rowsPushed = r.sink.rowsPushed) :
    ({ r with sink } : Run E D T).Relayed views where
  present := ⟨e, he⟩
  fits := by
    intro rows width desc hq
    have hfits := h.fits rows width desc (hp ▸ hq)
    simpa only [hs] using hfits
  lent := by
    rw [waiting_congr hs hp]
    exact h.lent
  rows := hr.trans h.rows

/-- The pending strip goes to the encoder, whether or not it is accepted. -/
theorem Relayed.pushPending (encoder : Encoder E D T O ε) {r : Run E D T}
    (h : r.Relayed views) :
    let out := r.sink.pushPending views encoder
    ({ r with sink := out.sink, pushed := r.pushed ++ out.push.toList } :
      Run E D T).Relayed views := by
  intro out
  obtain ⟨e, he⟩ := h.present
  have hout : Pushed views r.sink out := pushPending_spec he h.fits
  refine ⟨hout.encoder, ?_, ?_, ?_⟩
  · intro rows width desc hq
    simp [hout.pending] at hq
  · simp only [List.map_append, hout.strips, waiting_none hout.pending, List.append_nil]
    exact h.lent
  · have hrows := h.rows
    simp only [acceptedRows_append]
    rcases hout.rows with ⟨hkeep, hzero⟩ | hadd
    · rw [hkeep, hzero, hrows, Nat.add_zero]
    · rw [hadd, hrows, Nat.mod_add_mod]

end Run

theorem Buffer.le_length_grow (b : Buffer) (len address : ℕ) :
    len ≤ (b.grow len address).bytes.length := by
  unfold Buffer.grow
  split
  · simp only [List.length_append, List.length_replicate]
    omega
  · omega

namespace EncoderSink

variable {views : Views D} {encoder : Encoder E D T O ε}

/-- The ways a request for a buffer ends. -/
theorem provideNextBuffer_cases (views : Views D) (encoder : Encoder E D T O ε)
    (s : EncoderSink E D T) (height width : ℕ) (desc : D) (address : ℕ) :
    let pushed := s.pushPending views encoder
    let out := s.provideNextBuffer views encoder height width desc address
    let len := width * views.bytesPerPixel desc * height
    let lends : EncoderSink E D T := { pushed.sink with
      strip := pushed.sink.strip.grow len address, pending := some (height, width, desc) }
    out.push = pushed.push ∧
      ((∃ e, out.sink = pushed.sink ∧ out.result = .error e) ∨
        (∃ e, pushed.result = .ok () ∧ out.sink = lends ∧ out.result = .error e ∧
          lends.Refused views height width desc) ∨
        (pushed.result = .ok () ∧ out.sink = lends ∧ out.result = .ok len ∧
          ¬ lends.Refused views height width desc)) := by
  intro pushed out len lends
  have hout : out = s.provideNextBuffer views encoder height width desc address := rfl
  simp only [provideNextBuffer] at hout
  split at hout
  · next e he => exact ⟨by rw [hout], .inl ⟨e, by rw [hout], by rw [hout]⟩⟩
  · next he =>
    split at hout
    · exact ⟨by rw [hout], .inl ⟨_, by rw [hout], by rw [hout]⟩⟩
    · split at hout
      · next text ht =>
        refine ⟨by rw [hout], .inr (.inl ⟨_, he, by rw [hout], by rw [hout], ?_⟩)⟩
        simp only [Refused, views.same]
        exact fun hn => by simp [lends, len, pushed, hn] at ht
      · next hn =>
        refine ⟨by rw [hout], .inr (.inr ⟨he, by rw [hout], by rw [hout], ?_⟩)⟩
        simp only [Refused, views.same, not_not]
        exact hn

end EncoderSink

namespace Run

open EncoderSink

variable {views : Views D} {encoder : Encoder E D T O ε}

theorem Relayed.provide {r : Run E D T} (h : r.Relayed views) (height width : ℕ) (desc : D)
    (address : ℕ) (fill : Fill) :
    (r.step views encoder (.provide height width desc address fill)).Relayed views := by
  have hpush := h.pushPending encoder
  obtain ⟨e, he⟩ := h.present
  have hspec : Pushed views r.sink (r.sink.pushPending views encoder) :=
    pushPending_spec he h.fits
  obtain ⟨hout, ⟨er, hsink, hres⟩ | ⟨er, -, hsink, hres, href⟩ | ⟨-, hsink, hres, href⟩⟩ :=
    provideNextBuffer_cases views encoder r.sink height width desc
      address
  · -- nothing is lent, and nothing waits
    simp only [step, hres, hout, hsink]
    exact hpush
  · -- the mark is set, but its view is refused again at the next push
    simp only [step, hres, hout, hsink]
    refine ⟨hpush.present, ?_, ?_, hpush.rows⟩
    · rintro rows w d ⟨⟩
      exact Buffer.le_length_grow _ _ _
    · have hlent := hpush.lent
      rw [waiting_none hspec.pending, List.append_nil] at hlent
      rw [waiting_refused rfl href, List.append_nil]
      exact hlent
  · -- the strip that waits is the one lent, with what the decoder wrote
    simp only [step, hres, hout, hsink]
    set len := width * views.bytesPerPixel desc * height with hlen
    have hgrow := Buffer.le_length_grow (r.sink.pushPending views encoder).sink.strip len address
    refine ⟨hpush.present, ?_, ?_, hpush.rows⟩
    · rintro rows w d ⟨⟩
      simp only [written, List.length_append, fill.length_write, List.length_take,
        List.length_drop]
      omega
    · have hlent := hpush.lent
      rw [waiting_none hspec.pending, List.append_nil] at hlent
      rw [waiting_some rfl (refused_written.not.mpr href), hlent]
      rfl

/-- One call keeps the invariant. -/
theorem relayed_step {r : Run E D T} (h : r.Relayed views) (call : Call D) :
    (r.step views encoder call).Relayed views := by
  obtain ⟨e, he⟩ := h.present
  cases call with
  | «begin» width height desc =>
    simp only [step, EncoderSink.begin, he]
    split
    · exact h.congr rfl rfl rfl rfl
    · exact h.congr rfl rfl rfl rfl
  | provide height width desc address fill => exact h.provide height width desc address fill
  | finish => exact h.pushPending encoder
  | consume n => exact h.congr (by simp only [he, Option.map_some]; rfl) rfl rfl rfl
  | take => exact h.congr (by simp only [he, Option.map_some]; rfl) rfl rfl rfl

/-- So does every run, whatever its calls return. -/
theorem relayed_run {r : Run E D T} (h : r.Relayed views) (calls : List (Call D)) :
    (r.run views encoder calls).Relayed views := by
  induction calls generalizing r with
  | nil => exact h
  | cons call calls ih => exact ih (relayed_step h call)

end Run

namespace Run

open EncoderSink

variable (views : Views D) (encoder : Encoder E D T O ε)

/-- The strips passed to the encoder when the sink is finished after the run. -/
def finalPushes (r : Run E D T) : List (Strip D × Bool) :=
  r.pushed ++ (r.sink.finishEncoder views encoder).2.toList

/-- The encoder has refused a strip. -/
def HasRefused (r : Run E D T) : Prop := ∃ p ∈ r.pushed, p.2 = false

/-- Every strip is relayed once, in order, and a finished file has all of them. -/
structure Relays (r : Run E D T) : Prop where
  inOrder : r.pushed.map (·.1) <+: r.lent ∧ (r.finalPushes views encoder).map (·.1) <+: r.lent
  rowsPushed : r.sink.rowsPushed = acceptedRows r.pushed
  finished : ∀ out, (r.sink.finishEncoder views encoder).1 = .ok out →
    (r.finalPushes views encoder).map (·.1) = r.lent ∧
      ∀ p ∈ r.finalPushes views encoder, p.2 = true

variable {views encoder}

/-- Finishing pushes exactly what waits. -/
theorem Relayed.map_finalPushes (encoder : Encoder E D T O ε) {r : Run E D T}
    (h : r.Relayed views) :
    (r.finalPushes views encoder).map (·.1) = r.lent := by
  obtain ⟨e, he⟩ := h.present
  have hspec : Pushed views r.sink (r.sink.pushPending views encoder) :=
    pushPending_spec he h.fits
  rw [finalPushes, finishEncoder_push, List.map_append, hspec.strips, h.lent]

theorem Relayed.relays_iff_of {r : Run E D T} (h : r.Relayed views) :
    r.Relays views encoder ↔
      acceptedRows r.pushed < 2 ^ 64 ∧ (r.HasRefused → ¬ r.sink.Completes views encoder) := by
  obtain ⟨e, he⟩ := h.present
  have hspec : Pushed views r.sink (r.sink.pushPending views encoder) :=
    pushPending_spec he h.fits
  have hok := finishEncoder_isOk encoder he h.fits
  constructor
  · intro hrel
    refine ⟨?_, ?_⟩
    · have hrows := h.rows.symm.trans hrel.rowsPushed
      exact hrows ▸ Nat.mod_lt _ (by decide)
    · rintro ⟨p, hp, hfalse⟩ hcomp
      obtain ⟨out, hout⟩ := hok.mpr hcomp
      have htrue := (hrel.finished out hout).2 p (List.mem_append_left _ hp)
      simp [hfalse] at htrue
  · rintro ⟨hlt, hrefused⟩
    have hmap := h.map_finalPushes encoder
    refine ⟨⟨?_, hmap ▸ List.prefix_rfl⟩, ?_, ?_⟩
    · rw [h.lent]
      exact List.prefix_append _ _
    · rw [h.rows, Nat.mod_eq_of_lt hlt]
    · intro out hout
      refine ⟨hmap, fun p hp => ?_⟩
      rcases List.mem_append.mp hp with hp | hp
      · by_contra hne
        exact hrefused ⟨p, hp, by simpa using hne⟩ (hok.mp ⟨out, hout⟩)
      · rw [finishEncoder_push] at hp
        exact hspec.accepted (pushPending_of_finishEncoder hout) p hp

end Run

/-- **The sink relays every strip once and in order, and finishes a file only with all of
them, precisely when the encoder does not complete after a strip it refused.** -/
theorem relays_iff (views : Views D) (encoder : Encoder E D T O ε) (e : E)
    (calls : List (Call D)) :
    let r := (Run.start e : Run E D T).run views encoder calls
    r.Relays views encoder ↔
      acceptedRows r.pushed < 2 ^ 64 ∧ (r.HasRefused → ¬ r.sink.Completes views encoder) :=
  (Run.relayed_run (Run.relayed_start e) calls).relays_iff_of

/-! ### An encoder that forgets -/

/-- Takes strips of the width declared, and finishes with the rows it has. -/
def byWidth : Encoder (ℕ × ℕ) Unit Unit ℕ String where
  begin := fun _ width _ _ => ((width, 0), .ok ())
  pushRows := fun e strip =>
    if strip.width = e.1 then ((e.1, e.2 + strip.rows), .ok ()) else (e, .error "width")
  consumeOutput := fun e _ => e
  takeOutput := id
  finish := fun e => .ok e.2

/-- One byte a pixel, and every view is granted. -/
def gray : Views Unit where
  bytesPerPixel := fun _ => 1
  newSlice := fun _ _ _ _ _ _ => none
  newSliceMut := fun _ _ _ _ _ _ => none
  same := rfl

/-- The decoder leaves the bytes as it found them. -/
def untouched : Fill where
  write := id
  length_write := fun _ => rfl

/-- Two pixels are declared for each row; the first strip has one, and the decoder asks again
after the error that this earns it. -/
def narrowFirst : List (Call Unit) :=
  [.begin 2 2 (), .provide 1 1 () 0 untouched, .provide 1 2 () 0 untouched,
    .provide 1 2 () 0 untouched, .finish]

/-- Two strips are lent, one is refused, and the file is finished with the other. -/
theorem refused_strip_forgotten :
    let r := (Run.start (0, 0) : Run (ℕ × ℕ) Unit Unit).run gray byWidth narrowFirst
    r.lent.length = 2 ∧ (r.sink.finishEncoder gray byWidth).1.toOption = some 1 ∧
      ¬ r.Relays gray byWidth := by
  intro r
  refine ⟨by decide, by decide, fun h => ?_⟩
  have hall := (h.finished 1 (by rfl)).2 (⟨1, 1, (), [0]⟩, false) (by decide)
  simp at hall

/-! ### An encoder that remembers -/

/-- The documented contract: once a strip is refused, nothing is accepted any more and the
encode does not finish. -/
structure Encoder.Failing (encoder : Encoder E D T O ε) (dead : E → Prop) : Prop where
  refuses : ∀ e strip, (encoder.pushRows e strip).2 ≠ .ok () →
    dead (encoder.pushRows e strip).1
  pushes : ∀ e strip, dead e → dead (encoder.pushRows e strip).1
  begins : ∀ e width height desc, dead e → dead (encoder.begin e width height desc).1
  consumes : ∀ e n, dead e → dead (encoder.consumeOutput e n)
  takes : ∀ e, dead e → dead (encoder.takeOutput e)
  finishes : ∀ e out, dead e → encoder.finish e ≠ .ok out

namespace Run

open EncoderSink

variable {views : Views D} {encoder : Encoder E D T O ε} {dead : E → Prop}

/-- A sink whose encoder has refused a strip holds a dead encoder. -/
def Mourned (dead : E → Prop) (r : Run E D T) : Prop :=
  r.HasRefused → ∀ e, r.sink.encoder = some e → dead e

theorem pushPending_dead (hf : encoder.Failing dead) {s : EncoderSink E D T} {e e' : E}
    (he : s.encoder = some e) (hfits : s.Fits views)
    (he' : (s.pushPending views encoder).sink.encoder = some e')
    (h : dead e ∨ ∃ p ∈ (s.pushPending views encoder).push.toList, p.2 = false) : dead e' := by
  rcases hp : s.pending with _ | ⟨rows, width, desc⟩
  · simp [pushPending_none hp, he] at he' h
    exact he' ▸ h
  obtain ⟨refused, taken⟩ := pushPending_some encoder hp he hfits
  by_cases hr : s.Refused views rows width desc
  · obtain ⟨text, ht⟩ := refused hr
    simp [ht, he] at he' h
    exact he' ▸ h
  · obtain ⟨failed, done⟩ := taken hr
    rcases hres : (encoder.pushRows e (s.slice views rows width desc)).2 with er | ⟨⟩
    · simp only [failed er hres, Option.some.injEq] at he'
      exact he' ▸ hf.refuses e _ (by simp [hres])
    · simp [done hres] at he' h
      exact he' ▸ hf.pushes e _ h

/-- The encoder after a call that pushes: dead if it was, or if it refused the strip. -/
theorem Mourned.pushed (hf : encoder.Failing dead) {r : Run E D T} (hrel : r.Relayed views)
    (h : r.Mourned dead) {r' : Run E D T}
    (hsink : r'.sink.encoder = (r.sink.pushPending views encoder).sink.encoder)
    (hpushed : r'.pushed = r.pushed ++ (r.sink.pushPending views encoder).push.toList) :
    r'.Mourned dead := by
  rintro ⟨p, hp, hfalse⟩ e' he'
  obtain ⟨e, he⟩ := hrel.present
  rw [hsink] at he'
  refine pushPending_dead hf he hrel.fits he' ?_
  rcases List.mem_append.mp (hpushed ▸ hp) with hp | hp
  · exact .inl (h ⟨p, hp, hfalse⟩ e he)
  · exact .inr ⟨p, hp, hfalse⟩

theorem mourned_step (hf : encoder.Failing dead) {r : Run E D T} (hrel : r.Relayed views)
    (h : r.Mourned dead) (call : Call D) : (r.step views encoder call).Mourned dead := by
  obtain ⟨e, he⟩ := hrel.present
  cases call with
  | «begin» width height desc =>
    rintro hrefused e' he'
    simp only [step, EncoderSink.begin, he] at he'
    split at he' <;> exact Option.some.inj he' ▸ hf.begins e _ _ _ (h hrefused e he)
  | provide height width desc address fill =>
    obtain ⟨hout, ⟨er, hsink, hres⟩ | ⟨er, -, hsink, hres, -⟩ | ⟨-, hsink, hres, -⟩⟩ :=
      provideNextBuffer_cases views encoder r.sink height width desc
        address
    all_goals
      refine h.pushed hf hrel ?_ ?_
      · simp only [step, hres, hsink, written]
      · simp only [step, hres, hout]
  | finish => exact h.pushed hf hrel rfl rfl
  | consume n =>
    rintro hrefused e' he'
    simp only [step, he, Option.map_some, Option.some.injEq] at he'
    exact he' ▸ hf.consumes e n (h hrefused e he)
  | take =>
    rintro hrefused e' he'
    simp only [step, he, Option.map_some, Option.some.injEq] at he'
    exact he' ▸ hf.takes e (h hrefused e he)

theorem mourned_run (hf : encoder.Failing dead) {r : Run E D T} (hrel : r.Relayed views)
    (h : r.Mourned dead) (calls : List (Call D)) :
    (r.run views encoder calls).Mourned dead := by
  induction calls generalizing r with
  | nil => exact h
  | cons call calls ih => exact ih (relayed_step hrel call) (mourned_step hf hrel h call)

/-- A dead encoder does not complete. -/
theorem Mourned.not_completes (hf : encoder.Failing dead) {r : Run E D T}
    (h : r.Mourned dead) : r.HasRefused → ¬ r.sink.Completes views encoder := by
  rintro hrefused ⟨enc, henc, hcomp⟩
  have hdead := h hrefused enc henc
  split at hcomp
  · obtain ⟨out, hout⟩ := hcomp
    exact hf.finishes enc out hdead hout
  · obtain ⟨-, -, out, hout⟩ := hcomp
    exact hf.finishes _ out (hf.pushes enc _ hdead) hout

end Run

/-- Over an encoder that keeps its contract, a finished file has every strip. -/
theorem relays_of_failing {views : Views D} {encoder : Encoder E D T O ε} {dead : E → Prop}
    (hf : encoder.Failing dead) (e : E) (calls : List (Call D)) :
    let r := (Run.start e : Run E D T).run views encoder calls
    acceptedRows r.pushed < 2 ^ 64 → r.Relays views encoder := by
  intro r hlt
  have hstart : (Run.start e : Run E D T).Relayed views := Run.relayed_start e
  have hmourned : (Run.start e : Run E D T).Mourned dead := by
    rintro ⟨p, hp, -⟩
    simp [Run.start] at hp
  exact (Run.relayed_run hstart calls).relays_iff_of.mpr
    ⟨hlt, (Run.mourned_run hf hstart hmourned calls).not_completes hf⟩

end Zencodec.Transcode
