/-
`WholeFileIncremental`: incremental decoding for a codec that needs the whole file.

While the input is incomplete it asks for a growing prefix, probing the header on what it has;
once the input reaches the end of the source it runs the job's push decoder on it, and reports
all rows at once.

`stepPolled_to` lists what a step does; `needMore_satisfied_iff` says when the request that it
makes is one that the input at hand already satisfies.
-/
import Mathlib.Algebra.Order.Group.Nat
import Zencodec.Incremental.Contract

namespace Zencodec.Incremental

variable {δ ι τ ε Ω : Type}

/-- A decode job: what its header probe says of a prefix, and what its one-shot push decoder
does on the complete bytes. `ι` is the type of image information; the world `Ω` holds the sink. -/
structure DecodeJob (δ ι ε Ω : Type) where
  probe : List UInt8 → Except ε ι
  pushDecoder : List UInt8 → List δ → Ω → Except ε (OutputInfo δ) × Ω

/-- First prefix asked for when probing the header. -/
def firstProbe : ℕ := 4096

structure WholeFile (δ ι ε Ω : Type) where
  job : Option (DecodeJob δ ι ε Ω)
  preferred : List δ
  info : Option ι
  /-- The header probe has succeeded, or given up for want of more input. -/
  probed : Bool
  want : ℕ
  /-- The one request. -/
  needed : InputRequest
  /-- Set once the decode has run: the next step reports `done`. -/
  decoded : Option (OutputInfo δ)

/-- Whether these bytes run to the end of the source. -/
def Input.reachesEnd (input : Input) : Bool := input.totalLen == some input.stop

/-- Final rows from `y` on. -/
def BatchMeta.finalRows (y : ℕ) : BatchMeta := ⟨y, 0, true⟩

namespace WholeFile

def new (job : DecodeJob δ ι ε Ω) (preferred : List δ) : WholeFile δ ι ε Ω :=
  ⟨some job, preferred, none, false, firstProbe, .atLeast 0 firstProbe, none⟩

/-- Whether the input is the whole source. -/
def complete (input : Input) : Bool := input.offset == 0 && input.reachesEnd

/-- Bytes held from the start of the source on. -/
def held (input : Input) : ℕ := if input.offset = 0 then input.bytes.length else 0

/-- How much to ask for: all when the length is known, otherwise twice what was offered.
`usizeMax` is the range of `usize`, to which a length is cut. -/
def wanted (usizeMax : ℕ) (s : WholeFile δ ι ε Ω) (input : Input) : ℕ :=
  match input.totalLen with
  | some total => total % (usizeMax + 1)
  | none => max (max s.want (min (held input * 2) usizeMax)) (held input + 1)

/-- Ask for more of the file from offset 0. -/
def needMore (usizeMax : ℕ) (s : WholeFile δ ι ε Ω) (input : Input) : WholeFile δ ι ε Ω :=
  let want := wanted usizeMax s input
  { s with want := min (want * 2) usizeMax, needed := .atLeast 0 want }

/-- The reply about the one-shot decode. -/
def delivered (len : ℕ) : Except ε (OutputInfo δ) → Except (StepError τ ε) (Progress δ)
  | .ok out => .ok ⟨len, .rows (.finalRows 0) out.height⟩
  | .error e => .error (.codec e)

/-- Run the push decoder on the complete bytes; it takes the job. -/
def decode (s : WholeFile δ ι ε Ω) (input : Input) (w : Ω) :
    Except (StepError τ ε) (Progress δ) × WholeFile δ ι ε Ω × Ω :=
  match s.job with
  | none => (.error .finished, s, w)
  | some job =>
    let (out, w) := job.pushDecoder input.bytes s.preferred w
    (delivered input.bytes.length out, { s with job := none, decoded := out.toOption }, w)

/-- The step after its pulse check. -/
def stepPolled (usizeMax : ℕ) (s : WholeFile δ ι ε Ω) (input : Input) (w : Ω) :
    Except (StepError τ ε) (Progress δ) × WholeFile δ ι ε Ω × Ω :=
  match s.decoded with
  | some out => (.ok ⟨0, .done out⟩, s, w)
  | none =>
    if s.probed then
      if complete input then s.decode input w
      else (.ok ⟨0, .need⟩, s.needMore usizeMax input, w)
    else
      match s.job with
      | none => (.error .finished, s, w)
      | some job =>
        match job.probe (if input.offset = 0 then input.bytes else []) with
        | .ok info =>
          (.ok ⟨0, .metadata .headerReady⟩, { s with info := some info, probed := true }, w)
        | .error _ =>
          -- A complete file that does not probe is left to the decoder.
          if complete input then { s with probed := true }.decode input w
          else (.ok ⟨0, .need⟩, s.needMore usizeMax input, w)

def step (usizeMax : ℕ) (s : WholeFile δ ι ε Ω) (input : Input) (pulse : Option (Pulse Ω))
    (w : Ω) : Except (StepError τ ε) (Progress δ) × WholeFile δ ι ε Ω × Ω :=
  match checkPulse pulse w with
  | (.error reason, w) => (.error (.cancelled reason), s, w)
  | (.ok (), w) => s.stepPolled usizeMax input w

def requested (s : WholeFile δ ι ε Ω) : List InputRequest := [s.needed]

def outputDescriptor (s : WholeFile δ ι ε Ω) : Option δ := s.decoded.map OutputInfo.nativeFormat

/-! ### What a step does -/

/-- What a step does after its pulse check, with a job at hand or the decode behind it. -/
inductive StepTo (usizeMax : ℕ) (s : WholeFile δ ι ε Ω) (input : Input) (w : Ω) :
    Except (StepError τ ε) (Progress δ) → WholeFile δ ι ε Ω → Ω → Prop
  | done {out : OutputInfo δ} : s.decoded = some out →
      StepTo usizeMax s input w (.ok ⟨0, .done out⟩) s w
  | header {info : ι} : s.decoded = none → s.probed = false →
      StepTo usizeMax s input w (.ok ⟨0, .metadata .headerReady⟩)
        { s with info := some info, probed := true } w
  | need : s.decoded = none → complete input = false →
      StepTo usizeMax s input w (.ok ⟨0, .need⟩) (s.needMore usizeMax input) w
  | decode {job : DecodeJob δ ι ε Ω} {s' : WholeFile δ ι ε Ω} : s.decoded = none →
      s.job = some job → complete input = true → s'.job = none →
      s'.decoded = (job.pushDecoder input.bytes s.preferred w).1.toOption →
      StepTo usizeMax s input w
        (delivered input.bytes.length (job.pushDecoder input.bytes s.preferred w).1) s'
        (job.pushDecoder input.bytes s.preferred w).2

theorem decode_to (usizeMax : ℕ) {s t : WholeFile δ ι ε Ω} {input : Input} {w : Ω}
    {job : DecodeJob δ ι ε Ω} (hjob : s.job = some job) (hdecoded : s.decoded = none)
    (hcomplete : complete input = true) (ht : t.job = s.job)
    (hpreferred : t.preferred = s.preferred) :
    let out := t.decode (τ := τ) input w
    StepTo usizeMax s input w out.1 out.2.1 out.2.2 := by
  rw [decode, ht, hjob, hpreferred]
  exact .decode hdecoded hjob hcomplete rfl rfl

theorem stepPolled_to (usizeMax : ℕ) {s : WholeFile δ ι ε Ω} (input : Input) (w : Ω)
    (h : s.job.isSome = true ∨ s.decoded.isSome = true) :
    let out := s.stepPolled (τ := τ) usizeMax input w
    StepTo usizeMax s input w out.1 out.2.1 out.2.2 := by
  rw [stepPolled]
  split
  · next out hout => exact .done hout
  · next hdecoded =>
    obtain ⟨job, hjob⟩ := Option.isSome_iff_exists.mp (h.resolve_right (by simp [hdecoded]))
    split
    · next hprobed =>
      split
      · next hcomplete => exact decode_to usizeMax hjob hdecoded hcomplete rfl rfl
      · next hcomplete => exact .need hdecoded (by simpa using hcomplete)
    · next hprobed =>
      split
      · next hnone => rw [hjob] at hnone; cases hnone
      · split
        · exact .header hdecoded (by simpa using hprobed)
        · split
          · next hcomplete => exact decode_to usizeMax hjob hdecoded hcomplete rfl rfl
          · next hcomplete => exact .need hdecoded (by simpa using hcomplete)

/-- The request is one that the input satisfies if and only if a known length is cut to no more
than what the input holds. -/
theorem needMore_satisfied_iff (usizeMax : ℕ) (s : WholeFile δ ι ε Ω) {input : Input}
    (h : complete input = false) :
    (s.needMore usizeMax input).needed.isSatisfiedBy input = true ↔
      input.offset = 0 ∧ ∃ total, input.totalLen = some total ∧
        total % (usizeMax + 1) ≤ input.bytes.length := by
  have hneeded : (s.needMore usizeMax input).needed = .atLeast 0 (wanted usizeMax s input) := rfl
  rw [hneeded, InputRequest.isSatisfiedBy, Bool.and_eq_true, beq_iff_eq]
  refine and_congr_right fun hoffset => ?_
  have hend : (input.totalLen == some input.stop) = false := by
    rw [complete, hoffset] at h
    simpa [Input.reachesEnd] using h
  rw [hend, Bool.or_false, decide_eq_true_eq, wanted]
  cases htotal : input.totalLen with
  | none =>
    -- The prefix asked for is longer than the one at hand.
    have hheld : held input = input.bytes.length := if_pos hoffset
    refine iff_of_false (fun hle => ?_) (fun ⟨total, hsome, _⟩ => by cases hsome)
    have := (le_max_right _ _).trans hle
    omega
  | some total =>
    exact ⟨fun hle => ⟨total, rfl, hle⟩, fun ⟨_, hsome, hle⟩ => Option.some_inj.mp hsome ▸ hle⟩

end WholeFile

end Zencodec.Incremental
