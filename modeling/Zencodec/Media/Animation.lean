/-
Animation timing over video adapters.

The encoder turns the durations of frames into timestamps on its clock, and the decoder turns
timestamps back into durations, with one frame of lookahead and a duration of its own for the
last frame. What lies between them (codec, muxer, demuxer) is a parameter.

* `spec_pushFrameExact` — an accepted frame moves the clock on, a refused one leaves it;
* `stamped_of_pushed` — after any pushes the timestamps are those of the accepted frames;
* `reads_of_stamped` — reading gives back their durations, from timestamps one after another;
* `animation_timing` — both together.
-/
import Zencodec.Lib.Act
import Zencodec.Time.Elapsed

namespace Zencodec.Animation

open Time

structure FrameTiming where
  pts : Option Timestamp
  durationTicks : Option ℕ
  deriving DecidableEq

/-- `ε` is an error of a part: a codec, a container or a conversion. -/
inductive AdaptError (ε : Type) where
  | demux (e : ε)
  | decode (e : ε)
  | encode (e : ε)
  | mux (e : ε)
  | convert (e : ε)
  | beginTwice
  | time (e : TimingError)
  | animationTiming
  | missingTimestamp
  | shape
  | frameCountMismatch
  deriving DecidableEq

/-! ### The encoder -/

/-- The output configuration of a video encoder. -/
structure CodecConfig where
  timeBase : TimeBase
  /-- The coded width and height of a video track. -/
  video : Option (ℕ × ℕ)

/-- A video encoder, a muxer and a capture, which share a state `Ω`. -/
structure EncoderParts (Ω π φ ε : Type) where
  outputConfig : Ω → Option CodecConfig
  /-- The width and height of the pixels. -/
  size : π → ℕ × ℕ
  /-- `TrackInfo::video(..).build()` succeeds. -/
  track : CodecConfig → Bool
  /-- `Muxer::begin`, with whether the output streams. -/
  beginMux : CodecConfig → Act Ω (AdaptError ε) Bool
  capture : π → CodecConfig → FrameTiming → Act Ω (AdaptError ε) φ
  /-- `send_frame_until_accepted`, with the packets it writes. -/
  send : φ → Act Ω (AdaptError ε) Unit

structure AnimationVideoEncoder where
  nextPts : Timestamp
  begun : Bool
  pushed : ℕ
  declared : Option ℕ
  lagFrames : ℕ

inductive AnimationOutputTiming where
  | atFinish
  | streaming (lag : ℕ)

section Calls

variable {τ Ω ε α : Type}

/-- A call of a part by an adapter with a state `τ` of its own. -/
def call (x : Act Ω (AdaptError ε) α) : Act (τ × Ω) (Abort (AdaptError ε)) α :=
  Act.focus Prod.snd (fun ω s => (s.1, ω)) (Act.mapError .refused x)

theorem spec_call {x : Act Ω (AdaptError ε) α} {Q : α → τ × Ω → Prop}
    {E : Abort (AdaptError ε) → τ × Ω → Prop} {s : τ × Ω} : Act.Spec (call x) Q E s ↔
      Act.Spec x (fun a ω => Q a (s.1, ω)) (fun e ω => E (.refused e) (s.1, ω)) s.2 := by
  rw [call, Act.spec_focus, Act.spec_mapError]

/-- A computation with times. -/
def timed {σ : Type} (f : TimingError → AdaptError ε) (x : Option (Except TimingError α)) :
    Act σ (Abort (AdaptError ε)) α :=
  match x with
  | none => Act.fail .panicked
  | some (.error e) => Act.fail (.refused (f e))
  | some (.ok a) => Act.pure a

end Calls

abbrev Pushing (Ω ε : Type) := Act (AnimationVideoEncoder × Ω) (Abort (AdaptError ε))

section Encoder

variable {Ω π φ ε : Type}

variable (parts : EncoderParts Ω π φ ε)

theorem zero_ticks_ge : -2 ^ 63 ≤ (0 : ℤ) := by decide

theorem zero_ticks_lt : (0 : ℤ) < 2 ^ 63 := by decide

def AnimationVideoEncoder.new (lagFrames : ℕ) (ω : Ω) :
    Except (AdaptError ε) AnimationVideoEncoder :=
  match parts.outputConfig ω with
  | none => .error .shape
  | some cfg => .ok ⟨⟨0, cfg.timeBase, zero_ticks_ge, zero_ticks_lt⟩, false, 0, none, lagFrames⟩

def beginInner (width height : ℕ) (frameCount : Option ℕ) :
    Pushing Ω ε AnimationOutputTiming := do
  let s ← Act.get
  Act.require (!s.1.begun) (.refused .beginTwice)
  let cfg ← Act.getOr (parts.outputConfig s.2) (.refused .shape)
  let video ← Act.getOr cfg.video (.refused .shape)
  Act.require (decide (video = (width, height))) (.refused .shape)
  Act.require (parts.track cfg) (.refused .shape)
  let streams ← call (parts.beginMux cfg)
  Act.modify fun s => ({ s.1 with begun := true, declared := frameCount }, s.2)
  if frameCount.any (· ≤ s.1.lagFrames) then Act.pure .atFinish
  else if streams then Act.pure (.streaming s.1.lagFrames)
  else Act.pure .atFinish

/-- The first frame begins the output. -/
def beginFirst (pixels : π) : Pushing Ω ε Unit := do
  let s ← Act.get
  if s.1.begun then Act.pure ()
  else do
    let _ ← beginInner parts (parts.size pixels).1 (parts.size pixels).2 none
    Act.pure ()

def pushFrameExact (o : Overflow) (pixels : π) (duration : FrameDuration) :
    Pushing Ω ε Unit := do
  let s ← Act.get
  Act.require (!s.1.declared.any (· ≤ s.1.pushed)) (.refused .frameCountMismatch)
  let ticks ← timed (fun _ => .animationTiming) (durationToTicks o duration s.1.nextPts.base)
  let next ← timed .time (s.1.nextPts.checkedAdd o duration)
  beginFirst parts pixels
  let t ← Act.get
  let cfg ← Act.getOr (parts.outputConfig t.2) (.refused .shape)
  let frame ← call (parts.capture pixels cfg ⟨some s.1.nextPts, some ticks⟩)
  call (parts.send frame)
  Act.modify fun s => ({ s.1 with nextPts := next }, s.2)
  let pushed ← Act.getOr (o.nat 32 (s.1.pushed + 1)) .panicked
  Act.modify fun s => ({ s.1 with pushed := pushed }, s.2)

/-- The parts take each frame once and with its timing, or report an error and take none. -/
structure Faithful (taken : Ω → List FrameTiming) (timing : φ → FrameTiming) : Prop where
  beginMux : ∀ cfg ω, taken (parts.beginMux cfg ω).2 = taken ω
  capture : ∀ pixels cfg t ω, Act.Spec (parts.capture pixels cfg t)
    (fun frame ω' => timing frame = t ∧ taken ω' = taken ω) (fun _ ω' => taken ω' = taken ω) ω
  send : ∀ frame ω, Act.Spec (parts.send frame)
    (fun _ ω' => taken ω' = taken ω ++ [timing frame]) (fun _ ω' => taken ω' = taken ω) ω

/-- The parts refuse nothing. -/
structure Willing : Prop where
  config : ∀ ω pixels, ∃ cfg, parts.outputConfig ω = some cfg ∧
    cfg.video = some (parts.size pixels) ∧ parts.track cfg = true
  beginMux : ∀ cfg ω, ∃ streams ω', parts.beginMux cfg ω = (.ok streams, ω')
  capture : ∀ pixels cfg t ω, ∃ frame ω', parts.capture pixels cfg t ω = (.ok frame, ω')
  send : ∀ frame ω, ∃ ω', parts.send frame ω = (.ok (), ω')

/-! ### Ticks -/

/-- A duration is a whole number of ticks, or refused; no build overflows. -/
theorem durationToTicks_cases (o : Overflow) (d : FrameDuration) (base : TimeBase) :
    (∃ n : ℕ, durationToTicks o d base = some (.ok n) ∧ n < 2 ^ 64 ∧
      d.seconds = n * base.seconds) ∨ ∃ e, durationToTicks o d base = some (.error e) := by
  have hnum : d.numerator * base.den < 2 ^ 128 :=
    (Nat.mul_lt_mul'' d.numerator_lt base.den_lt).trans (by decide)
  have hden : d.denominator * base.num < 2 ^ 128 :=
    (Nat.mul_lt_mul'' d.denominator_lt base.num_lt).trans (by decide)
  have hpos : 0 < d.denominator * base.num := Nat.mul_pos d.denominator_pos base.num_pos
  rw [durationToTicks, u128, u128, o.nat_of_lt hnum, o.nat_of_lt hden]
  simp only [Option.bind_eq_bind, Option.bind_some]
  by_cases hdvd : d.denominator * base.num ∣ d.numerator * base.den
  · rw [if_neg (not_not.mpr hdvd)]
    by_cases hfits : d.numerator * base.den / (d.denominator * base.num) < 2 ^ 64
    · refine .inl ⟨_, if_pos hfits, hfits, ?_⟩
      obtain ⟨n, hn⟩ := hdvd
      rw [hn, Nat.mul_div_cancel_left _ hpos, FrameDuration.seconds, TimeBase.seconds]
      have hd : (d.denominator : ℚ) ≠ 0 := Nat.cast_ne_zero.mpr d.denominator_pos.ne'
      have hb : (base.den : ℚ) ≠ 0 := Nat.cast_ne_zero.mpr base.den_pos.ne'
      have hcast : (d.numerator : ℚ) * base.den = d.denominator * base.num * n := by
        exact_mod_cast hn
      field_simp
      linarith
    · exact .inr ⟨_, if_neg hfits⟩
  · exact .inr ⟨_, if_pos hdvd⟩

theorem checkedAdd_eq (o : Overflow) (t : Timestamp) {d : FrameDuration} {n : ℕ} (hn : n < 2 ^ 64)
    (h : d.seconds = n * t.base.seconds) :
    t.checkedAdd o d = some (Timestamp.tryNew (t.ticks + n) t.base) := by
  have hge := t.ticks_ge
  have hlt := t.ticks_lt
  rw [Timestamp.checkedAdd, durationToTicks_eq o d t.base hn h]
  show (i128 o (t.ticks + n)).bind _ = _
  rw [i128, o.int_of_mem (by omega) (by omega)]
  rfl

/-! ### Pushing frames -/

/-- The clock, the count and what was taken are the same. -/
structure SameClock (taken : Ω → List FrameTiming) (s t : AnimationVideoEncoder × Ω) : Prop where
  nextPts : t.1.nextPts = s.1.nextPts
  pushed : t.1.pushed = s.1.pushed
  taken : taken t.2 = taken s.2

/-- A frame of so many ticks was taken. -/
structure Took (o : Overflow) (taken : Ω → List FrameTiming) (d : FrameDuration)
    (s t : AnimationVideoEncoder × Ω) (n : ℕ) : Prop where
  seconds : d.seconds = n * s.1.nextPts.base.seconds
  ticks : t.1.nextPts.ticks = s.1.nextPts.ticks + n
  base : t.1.nextPts.base = s.1.nextPts.base
  pushed : o.nat 32 (s.1.pushed + 1) = some t.1.pushed
  taken : taken t.2 = taken s.2 ++ [⟨some s.1.nextPts, some n⟩]

variable {parts} {taken : Ω → List FrameTiming} {timing : φ → FrameTiming}

theorem keeps_call {α : Type} {x : Act Ω (AdaptError ε) α} (s : AnimationVideoEncoder × Ω)
    (h : ∀ ω, Act.Spec x (fun _ ω' => taken ω' = taken ω) (fun _ ω' => taken ω' = taken ω) ω) :
    Act.Keeps (call x : Pushing Ω ε α) (SameClock taken s) := by
  intro t ht
  rw [spec_call]
  exact (h t.2).mono (fun _ _ hω => ⟨ht.nextPts, ht.pushed, hω.trans ht.taken⟩)
    fun _ _ hω => ⟨ht.nextPts, ht.pushed, hω.trans ht.taken⟩

theorem keeps_beginInner (hf : Faithful parts taken timing) (width height : ℕ)
    (frameCount : Option ℕ) (s : AnimationVideoEncoder × Ω) :
    Act.Keeps (beginInner parts width height frameCount) (SameClock taken s) := by
  have hbegin (cfg : CodecConfig) (ω : Ω) : Act.Spec (parts.beginMux cfg)
      (fun _ ω' => taken ω' = taken ω) (fun _ ω' => taken ω' = taken ω) ω :=
    Act.spec_of_run (fun _ _ => hf.beginMux cfg ω) fun _ _ => hf.beginMux cfg ω
  unfold beginInner
  refine Act.keeps_get.bind fun t => (Act.keeps_require _ _).bind fun _ =>
    (Act.keeps_getOr _ _).bind fun cfg => (Act.keeps_getOr _ _).bind fun video =>
    (Act.keeps_require _ _).bind fun _ => (Act.keeps_require _ _).bind fun _ =>
    (keeps_call s (hbegin cfg)).bind fun streams =>
    (Act.keeps_modify fun t ht => ⟨ht.nextPts, ht.pushed, ht.taken⟩).bind fun _ => ?_
  exact Act.keeps_ite _ (Act.keeps_pure _)
    (Act.keeps_ite _ (Act.keeps_pure _) (Act.keeps_pure _))

theorem keeps_beginFirst (hf : Faithful parts taken timing) (pixels : π)
    (s : AnimationVideoEncoder × Ω) :
    Act.Keeps (beginFirst parts pixels) (SameClock taken s) :=
  Act.keeps_get.bind fun _ => Act.keeps_ite _ (Act.keeps_pure _)
    ((keeps_beginInner hf _ _ _ s).bind fun _ => Act.keeps_pure _)

/-- An accepted frame moves the clock on; a refused one leaves it, the count and the output. -/
theorem spec_pushFrameExact (hf : Faithful parts taken timing) (o : Overflow) (pixels : π)
    (d : FrameDuration) (s : AnimationVideoEncoder × Ω) :
    Act.Spec (pushFrameExact parts o pixels d) (fun _ t => ∃ n, Took o taken d s t n)
      (fun e t => e ≠ .panicked → SameClock taken s t) s := by
  have hsame : SameClock taken s s := ⟨rfl, rfl, rfl⟩
  unfold pushFrameExact
  simp only [Act.spec_bind, Act.spec_get, Act.spec_require]
  refine ⟨fun _ => ?_, fun _ _ => hsame⟩
  rcases durationToTicks_cases o d s.1.nextPts.base with ⟨n, hticks, hn, hsec⟩ | ⟨e, herr⟩
  swap
  · rw [herr]
    exact fun _ => hsame
  rw [hticks, checkedAdd_eq o s.1.nextPts hn hsec]
  show Act.Spec (timed _ (some (Timestamp.tryNew _ _))) _ _ s
  cases hnext : Timestamp.tryNew (s.1.nextPts.ticks + n) s.1.nextPts.base with
  | error e => exact fun _ => hsame
  | ok next =>
    obtain ⟨hnextTicks, hnextBase⟩ := Timestamp.tryNew_eq_ok hnext
    refine (keeps_beginFirst hf pixels s s hsame).mono (fun _ t ht => ?_) (fun _ t ht _ => ht)
    rw [Act.spec_getOr]
    refine ⟨fun cfg _ => ?_, fun _ _ => ht⟩
    rw [spec_call]
    refine (hf.capture pixels cfg _ t.2).mono (fun frame ω hframe => ?_) fun _ ω hω _ =>
      ⟨ht.nextPts, ht.pushed, hω.trans ht.taken⟩
    obtain ⟨htiming, hω⟩ := hframe
    rw [spec_call]
    refine (hf.send frame ω).mono (fun _ ω' hsent => ?_) fun _ ω' hω' _ =>
      ⟨ht.nextPts, ht.pushed, hω'.trans (hω.trans ht.taken)⟩
    -- from here on only the count can fail, by a panic
    show Act.Spec (Act.getOr (o.nat 32 (s.1.pushed + 1)) Abort.panicked) _ _ _
    rw [Act.spec_getOr]
    refine ⟨fun pushed hpushed => ⟨n, hsec, hnextTicks, hnextBase, hpushed, ?_⟩,
      fun _ hne => absurd rfl hne⟩
    show taken ω' = _
    rw [hsent, hω, ht.taken, htiming]

/-! ### Runs of pushes -/

/-- Timestamps one after another from a tick on, and the tick that follows them. -/
inductive Stamped (base : TimeBase) : ℤ → List FrameDuration → List FrameTiming → ℤ → Prop
  | nil (t : ℤ) : Stamped base t [] [] t
  | cons {t u : ℤ} {d : FrameDuration} {ds : List FrameDuration} {p : Timestamp} {n : ℕ}
      {ts : List FrameTiming} (seconds : d.seconds = n * base.seconds) (ticks : p.ticks = t)
      (clock : p.base = base) (rest : Stamped base (t + n) ds ts u) :
      Stamped base t (d :: ds) (⟨some p, some n⟩ :: ts) u

theorem Stamped.snoc {base : TimeBase} {t u : ℤ} {ds : List FrameDuration}
    {ts : List FrameTiming} (h : Stamped base t ds ts u) {d : FrameDuration} {n : ℕ}
    {p : Timestamp} (seconds : d.seconds = n * base.seconds) (ticks : p.ticks = u)
    (clock : p.base = base) :
    Stamped base t (ds ++ [d]) (ts ++ [⟨some p, some n⟩]) (u + n) := by
  induction h with
  | nil t => exact .cons seconds ticks clock (.nil _)
  | cons seconds' ticks' clock' _ ih => exact .cons seconds' ticks' clock' (ih ticks)

/-- A run of calls in which the frames of these durations are accepted, whatever is refused. -/
inductive Pushed (parts : EncoderParts Ω π φ ε) (o : Overflow) :
    AnimationVideoEncoder × Ω → List FrameDuration → AnimationVideoEncoder × Ω → Prop
  | start (s : AnimationVideoEncoder × Ω) : Pushed parts o s [] s
  | begin_ {s t : AnimationVideoEncoder × Ω} {ds : List FrameDuration} (width height : ℕ)
      (frameCount : Option ℕ) : Pushed parts o s ds t →
      Pushed parts o s ds (beginInner parts width height frameCount t).2
  | accepted {s t u : AnimationVideoEncoder × Ω} {ds : List FrameDuration} {pixels : π}
      {d : FrameDuration} : Pushed parts o s ds t →
      pushFrameExact parts o pixels d t = (.ok (), u) → Pushed parts o s (ds ++ [d]) u
  | refused {s t u : AnimationVideoEncoder × Ω} {ds : List FrameDuration} {pixels : π}
      {d : FrameDuration} {e : AdaptError ε} : Pushed parts o s ds t →
      pushFrameExact parts o pixels d t = (.error (.refused e), u) → Pushed parts o s ds u

/-- Nothing was pushed so far. -/
structure Fresh (taken : Ω → List FrameTiming) (base : TimeBase)
    (s : AnimationVideoEncoder × Ω) : Prop where
  ticks : s.1.nextPts.ticks = 0
  base : s.1.nextPts.base = base
  pushed : s.1.pushed = 0
  taken : taken s.2 = []

/-- The clock, the count and the output are those of the accepted frames. -/
structure Clocked (taken : Ω → List FrameTiming) (base : TimeBase) (ds : List FrameDuration)
    (s : AnimationVideoEncoder × Ω) : Prop where
  clock : s.1.nextPts.base = base
  pushed : s.1.pushed = ds.length
  stamped : Stamped base 0 ds (taken s.2) s.1.nextPts.ticks

theorem Clocked.same {base : TimeBase} {ds : List FrameDuration}
    {s t : AnimationVideoEncoder × Ω} (h : Clocked taken base ds s) (hst : SameClock taken s t) :
    Clocked taken base ds t where
  clock := by rw [hst.nextPts, h.clock]
  pushed := by rw [hst.pushed, h.pushed]
  stamped := by
    rw [hst.taken, hst.nextPts]
    exact h.stamped

/-- What the run leaves, while the count fits. -/
theorem clocked_of_pushed (hf : Faithful parts taken timing) {o : Overflow} {base : TimeBase}
    {s t : AnimationVideoEncoder × Ω} {ds : List FrameDuration} (hs : Fresh taken base s)
    (h : Pushed parts o s ds t) (hlen : ds.length < 2 ^ 32) : Clocked taken base ds t := by
  induction h with
  | start =>
    refine ⟨hs.base, hs.pushed, ?_⟩
    rw [hs.taken, hs.ticks]
    exact .nil 0
  | begin_ width height frameCount _ ih =>
    exact (ih hlen).same (keeps_beginInner hf width height frameCount _ _ ⟨rfl, rfl, rfl⟩).state
  | @accepted t u ds pixels d _ hrun ih =>
    rw [List.length_append, List.length_singleton] at hlen
    have hprev := ih ((Nat.le_succ _).trans_lt hlen)
    obtain ⟨n, htook⟩ := (spec_pushFrameExact hf o pixels d t).run.1 () (by rw [hrun])
    rw [hrun] at htook
    have hpushed := htook.pushed
    rw [hprev.pushed, o.nat_of_lt hlen] at hpushed
    refine ⟨htook.base.trans hprev.clock, ?_, ?_⟩
    · rw [List.length_append, List.length_singleton]
      exact (Option.some.inj hpushed).symm
    · rw [htook.taken, htook.ticks]
      exact hprev.stamped.snoc (by rw [htook.seconds, hprev.clock]) rfl hprev.clock
  | @refused t u ds pixels d e _ hrun ih =>
    have hsame := (spec_pushFrameExact hf o pixels d t).run.2 (.refused e) (by rw [hrun])
    rw [hrun] at hsame
    exact (ih hlen).same (hsame (by simp))

/-! ### Pushing without refusals -/

theorem spec_beginFirst_willing (hw : Willing parts) (pixels : π) (s : AnimationVideoEncoder × Ω) :
    Act.Spec (beginFirst parts pixels)
      (fun _ t => ∀ k, t.1.declared = some k → s.1.declared = some k) (fun _ _ => False) s := by
  unfold beginFirst
  simp only [Act.spec_bind, Act.spec_get, Act.spec_ite]
  refine ⟨fun _ k hk => hk, fun hbegun => ?_⟩
  obtain ⟨cfg, hcfg, hvideo, htrack⟩ := hw.config s.2 pixels
  obtain ⟨streams, ω, hmux⟩ := hw.beginMux cfg s.2
  rw [beginInner]
  simp only [Act.spec_bind, Act.spec_get, hbegun, hcfg, hvideo, htrack, Act.spec_getOr_some,
    spec_call, Act.spec_require, decide_true]
  refine ⟨fun _ => ⟨fun _ => ⟨fun _ => ?_, fun hno => by cases hno⟩, fun hno => by cases hno⟩,
    fun hno => by cases hno⟩
  refine Act.spec_of_eq hmux ?_
  rw [Act.spec_modify, if_neg (by simp)]
  split <;> exact fun k hk => by cases hk

/-- Room for another frame: it is counted, was declared, and ends on the clock. -/
theorem pushFrameExact_willing (hw : Willing parts) (o : Overflow) (pixels : π)
    {d : FrameDuration} {n : ℕ} {s : AnimationVideoEncoder × Ω}
    (hsec : d.seconds = n * s.1.nextPts.base.seconds) (hticks : 0 ≤ s.1.nextPts.ticks)
    (hfits : s.1.nextPts.ticks + n < 2 ^ 63) (hcount : s.1.pushed + 1 < 2 ^ 32)
    (hdeclared : ∀ k, s.1.declared = some k → s.1.pushed < k) :
    ∃ t, pushFrameExact parts o pixels d s = (.ok (), t) ∧
      ∀ k, t.1.declared = some k → s.1.declared = some k := by
  have hspec : Act.Spec (pushFrameExact parts o pixels d)
      (fun _ t => ∀ k, t.1.declared = some k → s.1.declared = some k) (fun _ _ => False) s := by
    have hroom : (s.1.declared.any (· ≤ s.1.pushed)) = false := by
      cases hd : s.1.declared with
      | none => rfl
      | some k => simpa using hdeclared k hd
    have hn : n < 2 ^ 64 := by omega
    have hnext : Timestamp.tryNew (s.1.nextPts.ticks + n) s.1.nextPts.base =
        .ok ⟨s.1.nextPts.ticks + n, s.1.nextPts.base, by omega, hfits⟩ :=
      dif_pos ⟨by omega, hfits⟩
    unfold pushFrameExact
    simp only [Act.spec_bind, Act.spec_get, Act.spec_require, hroom]
    refine ⟨fun _ => ?_, fun hno => by cases hno⟩
    rw [durationToTicks_eq o d s.1.nextPts.base hn hsec, checkedAdd_eq o s.1.nextPts hn hsec, hnext]
    refine (spec_beginFirst_willing hw pixels s).mono (fun _ t ht => ?_) fun _ _ hno => hno
    obtain ⟨cfg, hcfg, -, -⟩ := hw.config t.2 pixels
    rw [hcfg, Act.spec_getOr_some, spec_call]
    obtain ⟨frame, ω, hcapture⟩ := hw.capture pixels cfg ⟨some s.1.nextPts, some n⟩ t.2
    refine Act.spec_of_eq hcapture ?_
    rw [spec_call]
    obtain ⟨ω', hsend⟩ := hw.send frame ω
    refine Act.spec_of_eq hsend ?_
    show Act.Spec (Act.getOr (o.nat 32 (s.1.pushed + 1)) Abort.panicked) _ _ _
    rw [o.nat_of_lt hcount, Act.spec_getOr_some]
    exact ht
  have hrun := hspec.run
  cases hres : pushFrameExact parts o pixels d s with
  | mk r t =>
    rw [hres] at hrun
    cases r with
    | ok u => exact ⟨t, rfl, hrun.1 u rfl⟩
    | error e => exact (hrun.2 e rfl).elim

theorem Stamped.le {base : TimeBase} {t u : ℤ} {ds : List FrameDuration} {ts : List FrameTiming}
    (h : Stamped base t ds ts u) : t ≤ u := by
  induction h with
  | nil t => exact le_rfl
  | cons _ _ _ _ ih => omega

theorem seconds_nonneg (d : FrameDuration) : 0 ≤ d.seconds :=
  div_nonneg (Nat.cast_nonneg _) (Nat.cast_nonneg _)

/-- Frames whose durations are whole numbers of ticks, and fit the clock together. -/
theorem pushed_willing (hf : Faithful parts taken timing) (hw : Willing parts) (o : Overflow)
    {base : TimeBase} {s : AnimationVideoEncoder × Ω} (hs : Fresh taken base s)
    (frames : List (π × FrameDuration)) : ∀ (ds : List FrameDuration)
      (t : AnimationVideoEncoder × Ω), Pushed parts o s ds t →
      (∀ x ∈ frames, ∃ n : ℕ, x.2.seconds = n * base.seconds) →
      t.1.nextPts.ticks * base.seconds + (frames.map fun x => x.2.seconds).sum <
        2 ^ 63 * base.seconds →
      ds.length + frames.length < 2 ^ 32 →
      (∀ k, t.1.declared = some k → ds.length + frames.length ≤ k) →
      ∃ u, Act.each (fun x => pushFrameExact parts o x.1 x.2) frames t = (.ok (), u) ∧
        Pushed parts o s (ds ++ frames.map Prod.snd) u := by
  induction frames with
  | nil =>
    intro ds t ht _ _ _ _
    exact ⟨t, rfl, by simpa using ht⟩
  | cons x frames ih =>
    intro ds t ht hticks hfits hlen hdeclared
    rw [List.length_cons] at hlen hdeclared
    have hclocked := clocked_of_pushed hf hs ht (by omega)
    obtain ⟨n, hn⟩ := hticks x List.mem_cons_self
    have hpos := base.seconds_pos
    have hrest : 0 ≤ (frames.map fun x => x.2.seconds).sum :=
      List.sum_nonneg fun q hq => by
        obtain ⟨y, -, rfl⟩ := List.mem_map.mp hq
        exact seconds_nonneg y.2
    rw [List.map_cons, List.sum_cons, hn] at hfits
    have hend : t.1.nextPts.ticks + n < 2 ^ 63 := by
      have hlt : ((t.1.nextPts.ticks + n : ℤ) : ℚ) * base.seconds < 2 ^ 63 * base.seconds := by
        push_cast
        linarith
      exact_mod_cast lt_of_mul_lt_mul_right hlt hpos.le
    obtain ⟨u, hrun, hkeep⟩ := pushFrameExact_willing hw o x.1 (by rw [hn, hclocked.clock])
      hclocked.stamped.le hend (by rw [hclocked.pushed]; omega)
      fun k hk => by
        have := hdeclared k hk
        rw [hclocked.pushed]
        omega
    obtain ⟨m, htook⟩ := (spec_pushFrameExact hf o x.1 x.2 t).run.1 () (by rw [hrun])
    rw [hrun] at htook
    obtain ⟨v, hv, hpushed⟩ := ih (ds ++ [x.2]) u (.accepted ht hrun)
      (fun y hy => hticks y (List.mem_cons_of_mem _ hy)) (by
        have hsec : x.2.seconds = m * base.seconds := by rw [htook.seconds, hclocked.clock]
        rw [htook.ticks]
        push_cast
        linarith) (by simp only [List.length_append, List.length_singleton]; omega)
      (fun k hk => by
        have := hdeclared k (hkeep k hk)
        simp only [List.length_append, List.length_singleton]
        omega)
    refine ⟨v, (Act.bind_of_ok hrun).trans hv, ?_⟩
    rwa [List.append_assoc] at hpushed

end Encoder

/-! ### The decoder -/

/-- What the demuxer and the video decoder do, in order; `φ` is a decoded frame. -/
inductive Answers (φ ε : Type) where
  /-- The input ends, and the decoder delivers its last frames. -/
  | done (frames : List φ)
  /-- A call fails, after the decoder delivered some frames. -/
  | failed (frames : List φ) (e : AdaptError ε) (rest : Answers φ ε)
  /-- The headers, with the index of the first video track. -/
  | headers (track : ℕ) (rest : Answers φ ε)
  | configChanged (track : ℕ) (rest : Answers φ ε)
  /-- A packet, with the frames that the decoder delivers when it is sent. -/
  | packet (track : ℕ) (frames : List φ) (rest : Answers φ ε)
  | other (rest : Answers φ ε)

structure VideoAnimationDecoder (φ ε : Type) where
  answers : Answers φ ε
  track : Option ℕ
  pending : List φ
  eos : Bool
  finalDuration : FrameDuration
  index : ℕ

structure AnimationFrame (κ : Type) where
  canvas : κ
  duration : FrameDuration
  index : ℕ
  pts : Option Timestamp

section Decoder

variable {Ω φ κ ε : Type}

/-- `fill`, from the answers to come. -/
def fillFrom (min : ℕ) (answers : Answers φ ε) (dec : VideoAnimationDecoder φ ε) :
    Except (AdaptError ε) Unit × VideoAnimationDecoder φ ε :=
  if min ≤ dec.pending.length ∨ dec.eos = true then (.ok (), { dec with answers := answers })
  else
    match answers with
    | .done frames => (.ok (),
        { dec with pending := dec.pending ++ frames, eos := true, answers := .done [] })
    | .failed frames e rest => (.error e,
        { dec with pending := dec.pending ++ frames, answers := rest })
    | .headers track rest => fillFrom min rest { dec with track := some track }
    | .configChanged _ rest => fillFrom min rest dec
    | .packet track frames rest =>
      if some track = dec.track then
        fillFrom min rest { dec with pending := dec.pending ++ frames }
      else fillFrom min rest dec
    | .other rest => fillFrom min rest dec

def fill (min : ℕ) : Act (VideoAnimationDecoder φ ε) (AdaptError ε) Unit :=
  fun dec => fillFrom min dec.answers dec

/-- How long a frame lasts: until the next one, or as long as it is said for the last one. -/
def lasts {σ : Type} (o : Overflow) (timing : φ → FrameTiming) (finalDuration : FrameDuration)
    (pts : Timestamp) : List φ → Act σ (Abort (AdaptError ε)) FrameDuration
  | [] => Act.pure finalDuration
  | next :: _ => do
    let nextPts ← Act.getOr (timing next).pts (.refused .missingTimestamp)
    timed .time (pts.durationUntil o nextPts)

def renderNextFrame (o : Overflow) (timing : φ → FrameTiming)
    (render : φ → Act Ω (AdaptError ε) κ) :
    Act (VideoAnimationDecoder φ ε × Ω) (Abort (AdaptError ε)) (Option (AnimationFrame κ)) := do
  Act.focus Prod.fst (fun dec s => (dec, s.2)) (Act.mapError .refused (fill 2))
  let s ← Act.get
  match s.1.pending with
  | [] => Act.pure none
  | frame :: rest => do
    Act.modify fun s => ({ s.1 with pending := rest }, s.2)
    let pts ← Act.getOr (timing frame).pts (.refused .missingTimestamp)
    let duration ← lasts o timing s.1.finalDuration pts rest
    let canvas ← call (render frame)
    let index ← Act.getOr (o.nat 32 (s.1.index + 1)) .panicked
    Act.modify fun s => ({ s.1 with index := index }, s.2)
    Act.pure (some ⟨canvas, duration, s.1.index, some pts⟩)

/-- The frames that the answers deliver, unless a call fails. -/
def delivered : Option ℕ → Answers φ ε → Option (List φ)
  | _, .done frames => some frames
  | _, .failed _ _ _ => none
  | _, .headers track rest => delivered (some track) rest
  | track, .configChanged _ rest => delivered track rest
  | track, .packet k first rest =>
    (delivered track rest).map fun frames => if some k = track then first ++ frames else frames
  | track, .other rest => delivered track rest

/-- The frames that are still to be shown. -/
structure Coming (dec : VideoAnimationDecoder φ ε) (frames : List φ) : Prop where
  before : dec.eos = false → ∃ later, delivered dec.track dec.answers = some later ∧
    frames = dec.pending ++ later
  after : dec.eos = true → frames = dec.pending

/-- The lookahead succeeds, with frames enough or all that are left. -/
structure Filled (min : ℕ) (dec : VideoAnimationDecoder φ ε) (frames : List φ)
    (r : Except (AdaptError ε) Unit × VideoAnimationDecoder φ ε) : Prop where
  ok : r.1 = .ok ()
  coming : Coming r.2 frames
  finalDuration : r.2.finalDuration = dec.finalDuration
  index : r.2.index = dec.index
  pending : r.2.pending = frames ∨ min ≤ r.2.pending.length

theorem filled_of_full {min : ℕ} {answers : Answers φ ε} {dec : VideoAnimationDecoder φ ε}
    {frames : List φ} (h : Coming { dec with answers := answers } frames)
    (hfull : min ≤ dec.pending.length ∨ dec.eos = true) :
    Filled min dec frames (.ok (), { dec with answers := answers }) :=
  ⟨rfl, h, rfl, rfl, hfull.symm.imp (fun heos => (h.after heos).symm) id⟩

/-- The loop, by induction on what the parts answer. -/
theorem fillFrom_filled (min : ℕ) (answers : Answers φ ε) (dec : VideoAnimationDecoder φ ε)
    {frames : List φ} (h : Coming { dec with answers := answers } frames) :
    Filled min dec frames (fillFrom min answers dec) := by
  induction answers generalizing dec frames with
  | done fs =>
    unfold fillFrom
    split
    · next hfull => exact filled_of_full h hfull
    · next hfull =>
      obtain ⟨later, hlater, hframes⟩ := h.before (by simpa using (not_or.mp hfull).2)
      obtain rfl := Option.some.inj hlater
      exact ⟨rfl, ⟨(fun hno => by cases hno), fun _ => hframes⟩, rfl, rfl, .inl hframes.symm⟩
  | failed fs e rest ih =>
    unfold fillFrom
    split
    · next hfull => exact filled_of_full h hfull
    · next hfull =>
      obtain ⟨later, hlater, -⟩ := h.before (by simpa using (not_or.mp hfull).2)
      cases hlater
  | headers track rest ih =>
    unfold fillFrom
    split
    · next hfull => exact filled_of_full h hfull
    · have hrest := ih { dec with track := some track } ⟨h.before, h.after⟩
      exact ⟨hrest.ok, hrest.coming, hrest.finalDuration, hrest.index, hrest.pending⟩
  | configChanged track rest ih =>
    unfold fillFrom
    split
    · next hfull => exact filled_of_full h hfull
    · exact ih dec ⟨h.before, h.after⟩
  | packet track fs rest ih =>
    unfold fillFrom
    split
    · next hfull => exact filled_of_full h hfull
    · next hfull =>
      have heos : dec.eos = false := by simpa using (not_or.mp hfull).2
      obtain ⟨later, hlater, hframes⟩ := h.before heos
      obtain ⟨others, hothers, rfl⟩ := Option.map_eq_some_iff.mp hlater
      have hno {P : Prop} : dec.eos = true → P := fun htrue => by
        rw [heos] at htrue
        cases htrue
      dsimp only
      split
      · next hours =>
        rw [if_pos hours, ← List.append_assoc] at hframes
        have hrest := ih { dec with pending := dec.pending ++ fs }
          ⟨fun _ => ⟨others, hothers, hframes⟩, hno⟩
        exact ⟨hrest.ok, hrest.coming, hrest.finalDuration, hrest.index, hrest.pending⟩
      · next hours =>
        rw [if_neg hours] at hframes
        exact ih dec ⟨fun _ => ⟨others, hothers, hframes⟩, hno⟩
  | other rest ih =>
    unfold fillFrom
    split
    · next hfull => exact filled_of_full h hfull
    · exact ih dec ⟨h.before, h.after⟩

/-! ### Reading back -/

/-- The time between two instants of one clock is the duration of the ticks between them. -/
theorem durationUntil_eq_ticks (o : Overflow) {p q : Timestamp} {d : FrameDuration} {n : ℕ}
    (hp : 0 ≤ p.ticks) (hq : q.ticks = p.ticks + n) (hbase : q.base = p.base)
    (hsec : d.seconds = n * p.base.seconds) : p.durationUntil o q = some (.ok d) := by
  have hsub : q.instant - p.instant = d.seconds := by
    rw [hsec, Timestamp.instant, Timestamp.instant, hq, hbase]
    push_cast
    ring
  have hnear : p.Near q := by
    have hlt := q.ticks_lt
    have hn : n < 2 ^ 63 := by omega
    have hprod : n * (p.base.num * p.base.den) < 2 ^ 127 := by
      calc n * (p.base.num * p.base.den) < 2 ^ 63 * (2 ^ 32 * 2 ^ 32) :=
            Nat.mul_lt_mul'' hn (Nat.mul_lt_mul'' p.base.num_lt p.base.den_lt)
        _ = 2 ^ 127 := by norm_num
    have hden : (p.base.den : ℚ) ≠ 0 := Nat.cast_ne_zero.mpr p.base.den_pos.ne'
    have hval : (q.instant - p.instant) * (p.base.den * q.base.den) =
        ((n * (p.base.num * p.base.den) : ℕ) : ℚ) := by
      rw [hsub, hsec, hbase, TimeBase.seconds]
      push_cast
      field_simp
    rw [Timestamp.Near, hval]
    refine ⟨?_, by exact_mod_cast hprod⟩
    have hzero : (0 : ℚ) ≤ ((n * (p.base.num * p.base.den) : ℕ) : ℚ) := Nat.cast_nonneg _
    linarith
  obtain ⟨r, hr, helapsed⟩ := elapsed_of_near hnear o
  have hle : p.instant ≤ q.instant := by
    have := div_nonneg (Nat.cast_nonneg (α := ℚ) d.numerator) (Nat.cast_nonneg d.denominator)
    rw [← FrameDuration.seconds, ← hsub] at this
    exact sub_nonneg.mp this
  rw [hr, ((helapsed.exact hle).ok_iff d).mpr hsub.symm]

/-- Calls of `render_next_frame` until it has no more frames. -/
inductive Reads (o : Overflow) (timing : φ → FrameTiming) (render : φ → Act Ω (AdaptError ε) κ) :
    VideoAnimationDecoder φ ε × Ω → List (AnimationFrame κ) → Prop
  | done {s t : VideoAnimationDecoder φ ε × Ω} :
      renderNextFrame o timing render s = (.ok none, t) → Reads o timing render s []
  | frame {s t : VideoAnimationDecoder φ ε × Ω} {f : AnimationFrame κ}
      {fs : List (AnimationFrame κ)} : renderNextFrame o timing render s = (.ok (some f), t) →
      Reads o timing render t fs → Reads o timing render s (f :: fs)

/-- Frames with these durations, which follow each other from an instant on. -/
inductive Follows (base : TimeBase) : ℚ → ℕ → List FrameDuration → List (AnimationFrame κ) → Prop
  | nil (start : ℚ) (index : ℕ) : Follows base start index [] []
  | cons {start : ℚ} {index : ℕ} {ds : List FrameDuration} {f : AnimationFrame κ} {p : Timestamp}
      {fs : List (AnimationFrame κ)} (pts : f.pts = some p) (clock : p.base = base)
      (instant : p.instant = start) (index_eq : f.index = index)
      (rest : Follows base (start + f.duration.seconds) (index + 1) ds fs) :
      Follows base start index (f.duration :: ds) (f :: fs)

section Reading

variable {timing : φ → FrameTiming} {render : φ → Act Ω (AdaptError ε) κ}

/-- The lookahead of two frames, as a part of the whole state. -/
theorem fill_filled (s : VideoAnimationDecoder φ ε × Ω) {frames : List φ}
    (h : Coming s.1 frames) : ∃ dec, (Act.focus Prod.fst (fun dec s => (dec, s.2))
      (Act.mapError Abort.refused (fill 2)) :
        Act (VideoAnimationDecoder φ ε × Ω) (Abort (AdaptError ε)) Unit) s = (.ok (), (dec, s.2)) ∧
      Filled 2 s.1 frames (.ok (), dec) := by
  have hfilled := fillFrom_filled 2 s.1.answers s.1 h
  refine ⟨(fillFrom 2 s.1.answers s.1).2, ?_, ?_⟩
  · show ((fillFrom 2 s.1.answers s.1).1.mapError Abort.refused, _) = _
    rw [hfilled.ok]
    rfl
  · exact ⟨rfl, hfilled.coming, hfilled.finalDuration, hfilled.index, hfilled.pending⟩

theorem renderNextFrame_none (o : Overflow) {s : VideoAnimationDecoder φ ε × Ω}
    (h : Coming s.1 []) : ∃ t, renderNextFrame o timing render s = (.ok none, t) := by
  obtain ⟨dec, hrun, hfilled⟩ := fill_filled s h
  have hpending : dec.pending = [] := by
    cases heos : dec.eos with
    | true => exact (hfilled.coming.after heos).symm
    | false =>
      obtain ⟨later, -, hframes⟩ := hfilled.coming.before heos
      exact (List.append_eq_nil_iff.mp hframes.symm).1
  refine ⟨(dec, s.2), ?_⟩
  unfold renderNextFrame
  rw [Act.bind_of_ok hrun]
  show (match dec.pending with | [] => _ | frame :: rest => _ :
    Act (VideoAnimationDecoder φ ε × Ω) _ _) (dec, s.2) = _
  rw [hpending]
  rfl

/-- What the next call shows. -/
structure Shows (s t : VideoAnimationDecoder φ ε × Ω) (fs : List φ) (p : Timestamp)
    (d : FrameDuration) (f : AnimationFrame κ) : Prop where
  duration : f.duration = d
  index : f.index = s.1.index
  pts : f.pts = some p
  coming : Coming t.1 fs
  next : t.1.index = s.1.index + 1
  finalDuration : t.1.finalDuration = s.1.finalDuration

theorem renderNextFrame_some (o : Overflow) {s : VideoAnimationDecoder φ ε × Ω} {frame : φ}
    {fs : List φ} {p : Timestamp} {d : FrameDuration} (h : Coming s.1 (frame :: fs))
    (hp : (timing frame).pts = some p) (hlast : fs = [] → s.1.finalDuration = d)
    (hnext : ∀ g rest, fs = g :: rest →
      ∃ q, (timing g).pts = some q ∧ p.durationUntil o q = some (.ok d))
    (hrender : ∀ ω, ∃ canvas ω', render frame ω = (.ok canvas, ω'))
    (hindex : s.1.index + 1 < 2 ^ 32) :
    ∃ f t, renderNextFrame o timing render s = (.ok (some f), t) ∧ Shows s t fs p d f := by
  obtain ⟨dec, hrun, hfilled⟩ := fill_filled s h
  -- the first frame is here, and the second too if there is one
  obtain ⟨rest, hpending, hrest, hcoming⟩ : ∃ rest, dec.pending = frame :: rest ∧
      (∃ later, fs = rest ++ later ∧ (rest = [] → later = [])) ∧
      Coming { dec with pending := rest } fs := by
    cases heos : dec.eos with
    | true =>
      refine ⟨fs, (hfilled.coming.after heos).symm, ⟨[], by simp, fun _ => rfl⟩, ?_⟩
      exact ⟨(fun hno => by cases hno), fun _ => rfl⟩
    | false =>
      obtain ⟨later, hlater, hframes⟩ := hfilled.coming.before heos
      cases hpending : dec.pending with
      | nil => rcases hfilled.pending with hall | hmin <;> simp [hpending] at *
      | cons x rest =>
        rw [hpending, List.cons_append, List.cons.injEq] at hframes
        obtain ⟨rfl, hfs⟩ := hframes
        refine ⟨rest, rfl, ⟨later, hfs, fun hnil => ?_⟩, fun _ => ⟨later, hlater, hfs⟩,
          (fun htrue => by cases htrue)⟩
        rcases hfilled.pending with hall | hmin
        · simpa [hpending, hfs] using hall
        · simp [hpending, hnil] at hmin
  obtain ⟨later, hfs, hnil⟩ := hrest
  have hlasts : lasts o timing dec.finalDuration p rest (ε := ε)
      ({ dec with pending := rest }, s.2) = (.ok d, ({ dec with pending := rest }, s.2)) := by
    cases rest with
    | nil =>
      rw [← hlast (by simp [hfs, hnil rfl]), ← hfilled.finalDuration]
      rfl
    | cons g rest =>
      obtain ⟨q, hq, huntil⟩ := hnext g (rest ++ later) hfs
      rw [lasts, hq, Act.getOr_some_bind, huntil]
      rfl
  obtain ⟨canvas, ω, hcanvas⟩ := hrender s.2
  have hcall : call (render frame) ({ dec with pending := rest }, s.2) =
      (.ok canvas, ({ dec with pending := rest }, ω)) := by
    show ((render frame s.2).1.mapError Abort.refused, (_, (render frame s.2).2)) = _
    rw [hcanvas]
    rfl
  have hcount : o.nat 32 (dec.index + 1) = some (dec.index + 1) :=
    o.nat_of_lt (hfilled.index ▸ hindex)
  refine ⟨⟨canvas, d, dec.index, some p⟩, ({ dec with pending := rest, index := dec.index + 1 }, ω),
    ?_, ⟨rfl, hfilled.index, rfl, ⟨hcoming.before, hcoming.after⟩, congrArg (· + 1) hfilled.index,
      hfilled.finalDuration⟩⟩
  unfold renderNextFrame
  rw [Act.bind_of_ok hrun]
  show (match dec.pending with | [] => _ | frame :: rest => _ :
    Act (VideoAnimationDecoder φ ε × Ω) _ _) (dec, s.2) = _
  rw [hpending]
  show ((Act.getOr (timing frame).pts (Abort.refused AdaptError.missingTimestamp) >>=
    fun pts => _) : Act _ _ _) ({ dec with pending := rest }, s.2) = _
  rw [hp, Act.getOr_some_bind, Act.bind_of_ok hlasts, Act.bind_of_ok hcall, hcount]
  rfl

/-- Frames that are stamped one after another are read back with their durations. -/
theorem reads_of_stamped (o : Overflow) {base : TimeBase}
    (hrender : ∀ frame ω, ∃ canvas ω', render frame ω = (.ok canvas, ω')) {t u : ℤ}
    {ds : List FrameDuration} {ts : List FrameTiming} (h : Stamped base t ds ts u) (ht : 0 ≤ t) :
    ∀ (s : VideoAnimationDecoder φ ε × Ω) (fs : List φ), Coming s.1 fs →
      fs.map (fun f => (timing f).pts) = ts.map FrameTiming.pts →
      (∀ d, ds.getLast? = some d → s.1.finalDuration = d) →
      s.1.index + ds.length < 2 ^ 32 →
      ∃ frames, Reads o timing render s frames ∧
        Follows base (t * base.seconds) s.1.index ds frames := by
  induction h with
  | nil t =>
    intro s fs hcoming hfs _ _
    obtain rfl : fs = [] := List.map_eq_nil_iff.mp hfs
    obtain ⟨t', hrun⟩ := renderNextFrame_none o hcoming
    exact ⟨[], .done hrun, .nil _ _⟩
  | @cons t u d ds p n ts hsec hticks hbase hrest ih =>
    intro s fs hcoming hfs hfinal hindex
    rw [List.length_cons] at hindex
    obtain ⟨frame, fs, rfl, hframe, hfs⟩ := List.map_eq_cons_iff.mp hfs
    have hlast : fs = [] → s.1.finalDuration = d := by
      rintro rfl
      obtain rfl : ts = [] := List.map_eq_nil_iff.mp hfs.symm
      cases hrest
      exact hfinal d rfl
    have hnext : ∀ g rest, fs = g :: rest →
        ∃ q, (timing g).pts = some q ∧ p.durationUntil o q = some (.ok d) := by
      rintro g rest rfl
      cases hrest with
      | nil => cases hfs
      | @cons _ _ _ _ q m _ _ hqticks hqbase _ =>
        rw [List.map_cons, List.map_cons, List.cons.injEq] at hfs
        exact ⟨q, hfs.1, durationUntil_eq_ticks o (hticks ▸ ht) (hqticks.trans (by rw [hticks]))
          (hqbase.trans hbase.symm) (by rw [hsec, hbase])⟩
    obtain ⟨f, s', hrun, hshows⟩ := renderNextFrame_some o hcoming hframe hlast hnext
      (hrender frame) (by omega)
    obtain ⟨frames, hreads, hfollows⟩ := ih (by omega) s' fs hshows.coming hfs
      (fun d' hd' => by
        rw [hshows.finalDuration]
        refine hfinal d' ?_
        cases ds with
        | nil => cases hd'
        | cons _ _ => rwa [List.getLast?_cons_cons])
      (by rw [hshows.next]; omega)
    refine ⟨f :: frames, .frame hrun hreads, ?_⟩
    rw [← hshows.duration]
    refine .cons hshows.pts hbase ?_ hshows.index ?_
    · rw [Timestamp.instant, hticks, hbase]
    · rw [hshows.next] at hfollows
      rw [hshows.duration, hsec]
      have hadd : ((t + n : ℤ) : ℚ) * base.seconds = t * base.seconds + n * base.seconds := by
        push_cast
        ring
      rwa [hadd] at hfollows

end Reading

end Decoder

/-! ### There and back -/

section Both

variable {Ω Ω' π φ φ' κ ε ε' : Type}

/-- A demuxer and a decoder that deliver what was taken, each frame once, in order and with its
timing, to a fresh animation decoder. -/
structure Carried (taken : List FrameTiming) (timing : φ' → FrameTiming)
    (dec : VideoAnimationDecoder φ' ε') : Prop where
  delivered : ∃ frames, delivered dec.track dec.answers = some frames ∧
    frames.map (fun f => (timing f).pts) = taken.map FrameTiming.pts
  pending : dec.pending = []
  eos : dec.eos = false
  index : dec.index = 0

/-- Timing survives the two adapters: a refused frame leaves the clock, the count and the output;
whatever is refused, the accepted frames are read back with their durations and from the sums of
those before; and durations that are whole numbers of ticks are accepted while they fit the
clock. -/
theorem animation_timing {parts : EncoderParts Ω π φ ε} {taken : Ω → List FrameTiming}
    {timing : φ → FrameTiming} (hf : Faithful parts taken timing) {base : TimeBase}
    {s : AnimationVideoEncoder × Ω} (hs : Fresh taken base s) (o : Overflow) :
    (∀ pixels d t e u, pushFrameExact parts o pixels d t = (.error (.refused e), u) →
      SameClock taken t u) ∧
    (∀ ds t, Pushed parts o s ds t → ds.length < 2 ^ 32 →
      t.1.pushed = ds.length ∧
      ∀ (timing' : φ' → FrameTiming) (render : φ' → Act Ω' (AdaptError ε') κ),
        (∀ frame ω, ∃ canvas ω', render frame ω = (.ok canvas, ω')) →
        ∀ (dec : VideoAnimationDecoder φ' ε') (ω : Ω'), Carried (taken t.2) timing' dec →
          (∀ d, ds.getLast? = some d → dec.finalDuration = d) →
          ∃ frames, Reads o timing' render (dec, ω) frames ∧ Follows base 0 0 ds frames) ∧
    (Willing parts → ∀ frames : List (π × FrameDuration),
      (∀ x ∈ frames, ∃ n : ℕ, x.2.seconds = n * base.seconds) →
      (frames.map fun x => x.2.seconds).sum < 2 ^ 63 * base.seconds →
      frames.length < 2 ^ 32 → (∀ k, s.1.declared = some k → frames.length ≤ k) →
      ∃ t, Act.each (fun x => pushFrameExact parts o x.1 x.2) frames s = (.ok (), t) ∧
        Pushed parts o s (frames.map Prod.snd) t) := by
  refine ⟨fun pixels d t e u hrun => ?_, fun ds t ht hlen => ?_,
    fun hw frames hticks hfits hlen hdeclared => ?_⟩
  · have hsame := (spec_pushFrameExact hf o pixels d t).run.2 (.refused e) (by rw [hrun])
    rw [hrun] at hsame
    exact hsame (by simp)
  · have hclocked := clocked_of_pushed hf hs ht hlen
    refine ⟨hclocked.pushed, fun timing' render hrender dec ω hcarried hfinal => ?_⟩
    obtain ⟨fs, hfs, hpts⟩ := hcarried.delivered
    have hcoming : Coming dec fs := by
      refine ⟨fun _ => ⟨fs, hfs, by rw [hcarried.pending, List.nil_append]⟩, fun heos => ?_⟩
      rw [hcarried.eos] at heos
      cases heos
    obtain ⟨frames, hreads, hfollows⟩ := reads_of_stamped o hrender hclocked.stamped le_rfl
      (dec, ω) fs hcoming hpts hfinal (by rw [hcarried.index]; omega)
    rw [hcarried.index, Int.cast_zero, zero_mul] at hfollows
    exact ⟨frames, hreads, hfollows⟩
  · have hpushed := pushed_willing hf hw o hs frames [] s (.start s) hticks
      (by rwa [hs.ticks, Int.cast_zero, zero_mul, zero_add]) (by simpa using hlen)
      (by simpa using hdeclared)
    rwa [List.nil_append] at hpushed

end Both

/-! ### Two films -/

/-- An encoder and a muxer that take everything, and remember its timing. -/
def plainParts (clock : TimeBase) : EncoderParts (List FrameTiming) Unit FrameTiming Unit where
  outputConfig _ := some ⟨clock, some (1, 1)⟩
  size _ := (1, 1)
  track _ := true
  beginMux _ := Act.pure true
  capture _ _ t := Act.pure t
  send frame := Act.modify (· ++ [frame])

theorem plainParts_faithful (clock : TimeBase) : Faithful (plainParts clock) id id :=
  ⟨fun _ _ => rfl, fun _ _ _ _ => ⟨rfl, rfl⟩, fun _ _ => rfl⟩

theorem plainParts_willing (clock : TimeBase) : Willing (plainParts clock) :=
  ⟨fun _ _ => ⟨_, rfl, rfl, rfl⟩, fun _ _ => ⟨_, _, rfl⟩, fun _ _ _ _ => ⟨_, _, rfl⟩,
    fun _ _ => ⟨_, rfl⟩⟩

/-- An encoder that was just made. -/
def plainEncoder (clock : TimeBase) : AnimationVideoEncoder × List FrameTiming :=
  (⟨⟨0, clock, zero_ticks_ge, zero_ticks_lt⟩, false, 0, none, 0⟩, [])

theorem plainEncoder_fresh (clock : TimeBase) : Fresh id clock (plainEncoder clock) :=
  ⟨rfl, rfl, rfl, rfl⟩

theorem one_lt_u64 : 1 < 2 ^ 64 := by decide

theorem fifty_lt_u32 : 50 < 2 ^ 32 := by decide

theorem twentyFive_lt_u32 : 25 < 2 ^ 32 := by decide

def fortyMillis : FrameDuration :=
  ⟨1, 25, Nat.succ_pos 24, one_lt_u64, twentyFive_lt_u32, Nat.coprime_one_left 25⟩

def twentyMillis : FrameDuration :=
  ⟨1, 50, Nat.succ_pos 49, one_lt_u64, fifty_lt_u32, Nat.coprime_one_left 50⟩

/-- Two frames of 40 and 20 milliseconds, there and back. -/
theorem animation_timing_plain : ∃ t frames,
    Act.each (fun x => pushFrameExact (plainParts .millis) .panics x.1 x.2)
      [((), fortyMillis), ((), twentyMillis)] (plainEncoder .millis) = (.ok (), t) ∧
    Reads (ε := Unit) .panics id (fun _ => Act.pure ())
      (⟨.headers 0 (.done t.2), none, [], false, twentyMillis, 0⟩, ()) frames ∧
    Follows .millis 0 0 [fortyMillis, twentyMillis] frames := by
  obtain ⟨-, hread, hpush⟩ := @animation_timing (List FrameTiming) Unit Unit FrameTiming
    FrameTiming Unit Unit Unit _ _ _ (plainParts_faithful .millis) _ _
    (plainEncoder_fresh .millis) .panics
  obtain ⟨t, hrun, hpushed⟩ := hpush (plainParts_willing .millis)
    [((), fortyMillis), ((), twentyMillis)]
    (by
      intro x hx
      simp only [List.mem_cons, List.not_mem_nil, or_false] at hx
      rcases hx with rfl | rfl
      · refine ⟨40, ?_⟩
        norm_num [fortyMillis, FrameDuration.seconds, TimeBase.seconds, TimeBase.millis]
      · refine ⟨20, ?_⟩
        norm_num [twentyMillis, FrameDuration.seconds, TimeBase.seconds, TimeBase.millis])
    (by norm_num [fortyMillis, twentyMillis, FrameDuration.seconds, TimeBase.seconds,
      TimeBase.millis])
    (by decide) (fun k hk => by cases hk)
  obtain ⟨frames, hreads, hfollows⟩ := (hread _ t hpushed (by decide)).2 id
    (fun _ => Act.pure ()) (fun _ ω => ⟨(), ω, rfl⟩)
    ⟨.headers 0 (.done t.2), none, [], false, twentyMillis, 0⟩ ()
    ⟨⟨t.2, rfl, rfl⟩, rfl, rfl, rfl⟩ (fun d hd => Option.some.inj hd)
  exact ⟨t, frames, hrun, hreads, hfollows⟩

/-- A tick each second. -/
def secondClock : TimeBase :=
  ⟨1, 1, Nat.one_pos, Nat.one_pos, one_lt_u32, one_lt_u32, Nat.coprime_one_left 1⟩

theorem longFrame_lt_u64 : 4611686018427387904 < 2 ^ 64 := by decide

def longFrame : FrameDuration :=
  ⟨4611686018427387904, 1, Nat.one_pos, longFrame_lt_u64, one_lt_u32, Nat.coprime_one_right _⟩

/-- Two frames of `2 ^ 62` seconds, each a whole number of ticks, end beyond the clock: the second
is refused, though no part refuses anything. -/
theorem animation_overflow : Faithful (plainParts secondClock) id id ∧
    Willing (plainParts secondClock) ∧ Fresh id secondClock (plainEncoder secondClock) ∧
    (∃ n : ℕ, longFrame.seconds = n * secondClock.seconds) ∧
    (Act.each (fun x => pushFrameExact (plainParts secondClock) .panics x.1 x.2)
      [((), longFrame), ((), longFrame)] (plainEncoder secondClock)).1 =
        .error (.refused (.time .overflow)) := by
  refine ⟨plainParts_faithful _, plainParts_willing _, plainEncoder_fresh _,
    ⟨4611686018427387904, ?_⟩, ?_⟩
  · norm_num [longFrame, FrameDuration.seconds, TimeBase.seconds, secondClock]
  · decide +kernel

end Zencodec.Animation
