/-
`StagedEncode`: encode everything before the destination sees anything.

A push resolves the frame through policy, converts it, sends it and stages the packets that
come out. `finish` drains the encoder, drops it, and only then publishes the staged packets.
An operation takes the state and puts it back when it succeeds. The encoder, the policy and
the conversions are foreign objects, functions of the world.
-/
import Zencodec.Media.Output

open Zencodec.Incremental Zencodec.Session

namespace Zencodec.Media

variable {Ω ε φ ι τ κ ν ρ ϱ : Type}

/-! ### Frames, configurations and offers -/

/-- What is read of a frame `φ`: its interpretation `ι`, its timing `τ` and their bounded
facts `κ`. -/
structure FrameView (φ ι τ κ : Type) where
  interpretation : φ → ι
  timing : φ → τ
  facts : ι → τ → κ
  factsTiming : κ → τ

/-- The facts of a frame. -/
def FrameView.of (view : FrameView φ ι τ κ) (frame : φ) : κ :=
  view.facts (view.interpretation frame) (view.timing frame)

structure CodecConfig where
  codec : CodecId
  privateData : Option (List UInt8)
  epoch : ℕ
  timeBase : TimeBase
  video : Option VideoTrackInfo
  deriving DecidableEq, Repr

/-- `VideoEncoder`: frames `φ` in, packets out; `ν` is a fidelity. -/
structure VideoEncoder (Ω φ ν ε : Type) where
  send : φ → Option (Pulse Ω) → Act Ω (SessionError ε) SendStatus
  receive : Option (Pulse Ω) → Act Ω (SessionError ε) (Receive (Packet PacketPayload))
  endInput : Act Ω (SessionError ε) Unit
  outputConfig : Ω → Option CodecConfig
  outputFidelity : Ω → Option ν

structure FrameConversionOffer (κ : Type) where
  encoderInput : κ
  preservesSamples : Bool := false
  preservesExtendedRange : Bool := false
  assumedChromaSiting : Option ℕ := none
  admittedBytes : ℕ := 0
  deriving DecidableEq, Repr

inductive FrameRoute where
  | continueSequence | beginSegment
  deriving DecidableEq, Repr

inductive OutputSchedule where
  | finishFirst | live
  deriving DecidableEq, Repr

structure FrameRouteOffer (κ ν : Type) where
  route : FrameRoute
  fidelity : Option ν := none
  conversion : Option (FrameConversionOffer κ) := none
  destination : Option DestinationFacts := none
  staging : Option StagingFacts := none
  outputSchedule : Option OutputSchedule := none
  admittedEncodedBytes : ℕ := 0
  deriving DecidableEq, Repr

/-! ### Failures -/

inductive EncodeStage where
  | prepare | policy | convert | encode | finish | publish | terminal
  deriving DecidableEq, Repr

/-- `staged::Refusal`. -/
inductive EncodeRefusal where
  | configurationUnavailable | videoConfigurationRequired | offerMismatch | conversionMismatch
  | receivePendingWithoutPacket | earlyEnd | configurationChanged | inputAfterEnd | emptyPacket
  | terminal | noAdmittedFrames | policyChangedAfterInput
  deriving DecidableEq, Repr

/-- Why an operation stopped. `foreign` is a cause of a policy or a conversion, `running` is no
failure: the iterations of a loop are used up. -/
inductive EncodeCause (ε : Type) where
  | cancelled (reason : StopReason)
  | refusal (r : EncodeRefusal)
  | session (e : SessionError ε)
  | staging (e : Cause ε)
  | output (e : OutputFailure ε)
  | invalidPacket (e : OutputCause ε)
  | zeroDimension
  | foreign (e : ε)
  | running
  deriving DecidableEq, Repr

/-- `OperationPolicy`, with `resolve_frame_route`: `ϱ` is a preset and `ρ` the record of a
decision, which a refusal has too. -/
structure Policy (Ω κ ν ϱ ρ ε : Type) where
  checkWorkspace : Act Ω ε Unit
  resolve : κ → Option κ → FrameRouteOffer κ ν → ϱ → Option (Pulse Ω) → Act Ω (ρ × ε) ρ

/-- `OperationReport`: the last sixteen records, oldest first, and how many were dropped. -/
structure OperationReport (ρ : Type) where
  records : List ρ := []
  dropped : ℕ := 0
  deriving DecidableEq, Repr

def OperationReport.record (report : OperationReport ρ) (r : ρ) : OperationReport ρ :=
  if report.records.length = 16 then
    ⟨report.records.tail ++ [r], saturatingAdd report.dropped 1⟩
  else ⟨report.records ++ [r], report.dropped⟩

/-- `staged::Failure`. -/
structure EncodeFailure (ε ρ : Type) where
  stage : EncodeStage
  emitted : ℕ
  report : OperationReport ρ
  cause : EncodeCause ε
  deriving DecidableEq, Repr

/-! ### The operation -/

/-- `State`. -/
structure EncodeState (Ω φ κ ν ε : Type) where
  encoder : VideoEncoder Ω φ ν ε
  output : Output Ω ε
  config : CodecConfig
  fidelity : Option ν
  packets : Staging Ω ε
  previous : Option κ

structure StagedEncode (Ω φ κ ν ϱ ρ ε : Type) where
  state : Option (EncodeState Ω φ κ ν ε)
  policy : Policy Ω κ ν ϱ ρ ε
  preset : ϱ
  report : OperationReport ρ
  policyChangedAfterInput : Bool

/-- The foreign objects that every operation uses: how frames are read, the machine, the
pulse that never stops, and how many iterations a loop may take. -/
structure Surroundings (Ω φ ι τ κ : Type) where
  view : FrameView φ ι τ κ
  host : Host Ω
  noPulse : Pulse Ω
  fuel : ℕ

/-- `check`. -/
def pulseCheck (pulse : Pulse Ω) : Act (Traced Ω) (EncodeCause ε) Unit :=
  untraced (Act.mapError .cancelled (Act.foreign pulse.check))

/-- The state of a running operation beside the stage that it has reached. -/
abbrev Running (Ω φ κ ν ρ ε : Type) : Type :=
  EncodeStage × OperationReport ρ × EncodeState Ω φ κ ν ε × Traced Ω

/-- `x` on the world of a running operation. -/
def inWorld {α : Type} (x : Act (Traced Ω) (EncodeCause ε) α) :
    Act (Running Ω φ κ ν ρ ε) (EncodeCause ε) α :=
  Act.focus (fun t => t.2.2.2) (fun w t => (t.1, t.2.1, t.2.2.1, w)) x

def enterStage (stage : EncodeStage) : Act (Running Ω φ κ ν ρ ε) (EncodeCause ε) Unit :=
  Act.modify fun t => (stage, t.2)

def record (r : ρ) : Act (Running Ω φ κ ν ρ ε) (EncodeCause ε) Unit :=
  Act.modify fun t => (t.1, t.2.1.record r, t.2.2)

/-- `stage_packet`. -/
def stagePacket (host : Host Ω) (packet : Packet PacketPayload) (pulse : Pulse Ω) :
    Act (Running Ω φ κ ν ρ ε) (EncodeCause ε) Unit := do
  let (_, _, state, _) ← Act.get
  Act.lift ((state.output.validatePacket packet).mapError .invalidPacket)
  Act.require (!packet.isEmpty) (.refusal .emptyPacket)
  Act.focus (fun t => (t.2.2.1.packets, t.2.2.2.1))
    (fun p t => (t.1, t.2.1, { t.2.2.1 with packets := p.1 }, p.2, t.2.2.2.2))
    (Act.mapError .staging (Staging.push host packet pulse))

/-- `encoder.receive`, whose packets are recorded as emitted. -/
def receive (encoder : VideoEncoder Ω φ ν ε) (pulse : Option (Pulse Ω)) :
    Act (Traced Ω) (EncodeCause ε) (Receive (Packet PacketPayload)) := fun t =>
  let (r, w) := Act.mapError .session (encoder.receive pulse) t.1
  match r with
  | .ok (.ready packet) => (.ok (.ready packet), w, t.2 ++ [.emitted packet.contents])
  | r => (r, w, t.2)

/-- `same_config`. -/
def sameConfig (a b : CodecConfig) : Bool :=
  a.codec == b.codec && a.privateData == b.privateData && a.epoch == b.epoch
    && a.timeBase == b.timeBase && a.video == b.video

/-- The configuration and fidelity are still those of the preparation. -/
def checkConfiguration [DecidableEq ν] : Act (Running Ω φ κ ν ρ ε) (EncodeCause ε) Unit := do
  let (_, _, state, w, _) ← Act.get
  Act.require
    ((state.encoder.outputConfig w).any (sameConfig · state.config)
      && state.encoder.outputFidelity w == state.fidelity)
    (.refusal .configurationChanged)

/-- The loop that offers the frame until it is accepted. -/
def sendLoop (host : Host Ω) (frame : φ) (pulse : Option (Pulse Ω)) (localPulse : Pulse Ω) :
    ℕ → Act (Running Ω φ κ ν ρ ε) (EncodeCause ε) Unit
  | 0 => Act.fail .running
  | fuel + 1 => do
    inWorld (pulseCheck localPulse)
    let (_, _, state, _) ← Act.get
    let status ← inWorld (untraced (Act.mapError .session (state.encoder.send frame pulse)))
    match status with
    | .accepted => pure ()
    | .receivePending => do
      let r ← inWorld (receive state.encoder pulse)
      match r with
      | .ready packet => do
        stagePacket host packet localPulse
        sendLoop host frame pulse localPulse fuel
      | _ => Act.fail (.refusal .receivePendingWithoutPacket)

/-- The loop that stages what is ready, until the encoder needs input (`atEnd = false`) or
has ended (`atEnd = true`). -/
def receiveLoop (host : Host Ω) (atEnd : Bool) (pulse : Option (Pulse Ω))
    (localPulse : Pulse Ω) : ℕ → Act (Running Ω φ κ ν ρ ε) (EncodeCause ε) Unit
  | 0 => Act.fail .running
  | fuel + 1 => do
    inWorld (pulseCheck localPulse)
    let (_, _, state, _) ← Act.get
    let r ← inWorld (receive state.encoder pulse)
    match r, atEnd with
    | .ready packet, _ => do
      stagePacket host packet localPulse
      receiveLoop host atEnd pulse localPulse fuel
    | .needInput, false => pure ()
    | .endOfStream, false => Act.fail (.refusal .earlyEnd)
    | .endOfStream, true => pure ()
    | .needInput, true => Act.fail (.refusal .inputAfterEnd)

/-- The closure of `push_converted`. -/
def pushRun [DecidableEq κ] [DecidableEq ι] [DecidableEq τ] [DecidableEq ν]
    (s : Surroundings Ω φ ι τ κ) (policy : Policy Ω κ ν ϱ ρ ε) (preset : ϱ)
    (policyChanged : Bool) (input : φ) (target : ι) (conversion : FrameConversionOffer κ)
    (execute : φ → Act Ω ε φ) (pulse : Option (Pulse Ω)) :
    Act (Running Ω φ κ ν ρ ε) (EncodeCause ε) Unit := do
  let localPulse := pulse.getD s.noPulse
  inWorld (pulseCheck localPulse)
  Act.require (!policyChanged) (.refusal .policyChangedAfterInput)
  let (_, _, state, w, _) ← Act.get
  Act.require (state.encoder.outputFidelity w == state.fidelity) (.refusal .configurationChanged)
  Act.require
    (conversion.encoderInput == s.view.facts target (s.view.factsTiming conversion.encoderInput))
    (.refusal .offerMismatch)
  let offer : FrameRouteOffer κ ν :=
    { route := if state.previous.isNone then .beginSegment else .continueSequence
      fidelity := state.fidelity
      conversion := some conversion
      destination := some state.output.facts
      staging := some state.packets.facts
      outputSchedule := some .finishFirst
      admittedEncodedBytes := state.packets.admittedMemory w }
  let decision ← inWorld (untraced (Act.attempt
    (policy.resolve (s.view.of input) state.previous offer preset pulse)))
  match decision with
  | .ok r => record r
  | .error (r, e) => do
    record r
    Act.fail (.foreign e)
  enterStage .convert
  let converted ← inWorld (untraced (Act.mapError .foreign (execute input)))
  inWorld (pulseCheck localPulse)
  Act.require
    (s.view.interpretation converted == target
      && s.view.timing converted == s.view.factsTiming conversion.encoderInput)
    (.refusal .conversionMismatch)
  enterStage .encode
  sendLoop s.host converted pulse localPulse s.fuel
  receiveLoop s.host false pulse localPulse s.fuel
  checkConfiguration
  Act.modify fun t => (t.1, t.2.1, { t.2.2.1 with previous := some (s.view.of input) }, t.2.2.2)
  inWorld (pulseCheck localPulse)

/-- The closure `drain` of `finish`. -/
def finishRun [DecidableEq ν] (s : Surroundings Ω φ ι τ κ) (policyChanged : Bool)
    (pulse : Option (Pulse Ω)) :
    Act (Running Ω φ κ ν ρ ε) (EncodeCause ε) Unit := do
  let localPulse := pulse.getD s.noPulse
  inWorld (pulseCheck localPulse)
  Act.require (!policyChanged) (.refusal .policyChangedAfterInput)
  let (_, _, state, _) ← Act.get
  Act.require state.previous.isSome (.refusal .noAdmittedFrames)
  inWorld (untraced (Act.mapError .session state.encoder.endInput))
  receiveLoop s.host true pulse localPulse s.fuel
  checkConfiguration
  inWorld (pulseCheck localPulse)

/-! ### Publication -/

/-- The staged packets, the bytes emitted so far, the output and the world. -/
abbrev Publishing (Ω ε : Type) : Type := Staging Ω ε × ℕ × Output Ω ε × Traced Ω

/-- `packets.next` while publishing. -/
def nextPacket (pulse : Pulse Ω) :
    Act (Publishing Ω ε) (EncodeCause ε) (Option (Packet PacketPayload)) :=
  Act.focus (fun t => (t.1, t.2.2.2.1)) (fun p t => (p.1, t.2.1, t.2.2.1, p.2, t.2.2.2.2))
    (Act.mapError .staging (Staging.next pulse))

/-- An operation of the output while publishing, after which `emitted` is up to date. -/
def publishing (x : Act (Output Ω ε × Traced Ω) (OutputFailure ε) Unit) :
    Act (Publishing Ω ε) (EncodeCause ε) Unit := do
  Act.focus (fun t => (t.2.2.1, t.2.2.2)) (fun o t => (t.1, t.2.1, o.1, o.2))
    (Act.mapError .output x)
  Act.modify fun t => (t.1, t.2.2.1.stats.emitted, t.2.2)

/-- The loop over the staged packets, with the one at hand. -/
def publishLoop (pulse : Option (Pulse Ω)) (noPulse : Pulse Ω) (outputFuel : ℕ) :
    ℕ → Option (Packet PacketPayload) → Act (Publishing Ω ε) (EncodeCause ε) Unit
  | _, none => pure ()
  | 0, some _ => Act.fail .running
  | fuel + 1, some held => do
    publishing (Output.send held pulse noPulse outputFuel)
    let packet ← nextPacket (pulse.getD noPulse)
    publishLoop pulse noPulse outputFuel fuel packet

/-- The closure `publish` of `finish`. -/
def publishRun (pulse : Option (Pulse Ω)) (noPulse : Pulse Ω) (fuel : ℕ) :
    Act (Publishing Ω ε) (EncodeCause ε) Stats := do
  let localPulse := pulse.getD noPulse
  Act.focus (fun t => (t.1, t.2.2.2.1)) (fun p t => (p.1, t.2.1, t.2.2.1, p.2, t.2.2.2.2))
    (Act.mapError .staging (Staging.beginReplay localPulse))
  let packet ← nextPacket localPulse
  publishing (PreparedOutput.publish localPulse fuel)
  publishLoop pulse noPulse fuel fuel packet
  Act.focus (fun t => (t.2.2.1, t.2.2.2)) (fun o t => (t.1, t.2.1, o.1, o.2))
    (Act.mapError .output (Output.finish pulse noPulse fuel))

/-! ### Operations -/

structure Completed (ρ : Type) where
  stats : Stats
  report : OperationReport ρ
  deriving DecidableEq, Repr

/-- The emitted count of an output failure inside the cause. -/
def EncodeCause.emitted : EncodeCause ε → Option ℕ
  | .output f => some f.emitted
  | _ => none

namespace StagedEncode

/-- `failure_after`. -/
def failureAfter (stage : EncodeStage) (report : OperationReport ρ) (cause : EncodeCause ε) (emitted : ℕ) :
    EncodeFailure ε ρ := ⟨stage, cause.emitted.getD emitted, report, cause⟩

/-- `with_staging`. -/
def withStaging (s : Surroundings Ω φ ι τ κ) (encoder : VideoEncoder Ω φ ν ε) (mux : Muxer Ω ε)
    (destination : Destination Ω ε) (policy : Policy Ω κ ν ϱ ρ ε) (preset : ϱ)
    (staging : Staging Ω ε) (pulse : Option (Pulse Ω)) :
    Act (Traced Ω) (EncodeFailure ε ρ) (StagedEncode Ω φ κ ν ϱ ρ ε) := do
  let localPulse := pulse.getD s.noPulse
  Act.mapError (failureAfter .prepare {} · 0) (pulseCheck localPulse)
  Act.mapError (failureAfter .policy {} · 0) (untraced (Act.mapError .foreign policy.checkWorkspace))
  Act.mapError (failureAfter .prepare {} · 0) do
    let (w, _) ← Act.get
    let config ← Act.getOr (encoder.outputConfig w) (.refusal .configurationUnavailable)
    let video ← Act.getOr config.video (.refusal .videoConfigurationRequired)
    Act.require (video.codedWidth != 0 && video.codedHeight != 0) .zeroDimension
    let track : TrackInfo :=
      ⟨0, config.codec, config.timeBase, config.privateData, config.epoch, some video⟩
    let output ← Act.mapError .output (PreparedOutput.new mux destination [track] localPulse)
    let (w, _) ← Act.get
    pure ⟨some ⟨encoder, output.output, config, encoder.outputFidelity w, staging, none⟩,
      policy, preset, {}, false⟩

/-- `with_policy_set`. -/
def withPolicySet (preset : ϱ) (job : StagedEncode Ω φ κ ν ϱ ρ ε) : StagedEncode Ω φ κ ν ϱ ρ ε :=
  { job with
    policyChangedAfterInput :=
      job.policyChangedAfterInput || job.state.any fun state => state.previous.isSome
    preset := preset }

def isFailed (job : StagedEncode Ω φ κ ν ϱ ρ ε) : Bool := job.state.isNone

/-- `push_converted`: the state is taken, and put back on success only. -/
def pushConverted [DecidableEq κ] [DecidableEq ι] [DecidableEq τ] [DecidableEq ν]
    (s : Surroundings Ω φ ι τ κ) (input : φ) (target : ι) (conversion : FrameConversionOffer κ)
    (execute : φ → Act Ω ε φ) (pulse : Option (Pulse Ω)) :
    Act (StagedEncode Ω φ κ ν ϱ ρ ε × Traced Ω) (EncodeFailure ε ρ) Unit := fun (job, w) =>
  match job.state with
  | none => (.error (failureAfter .terminal job.report (.refusal .terminal) 0), job, w)
  | some state =>
    let (r, stage, report, state, w) :=
      pushRun s job.policy job.preset job.policyChangedAfterInput input target conversion execute
        pulse (.policy, job.report, state, w)
    match r with
    | .ok _ => (.ok (), { job with state := some state, report := report }, w)
    | .error cause =>
      (.error (failureAfter stage report cause 0), { job with state := none, report := report }, w)

/-- `push`: the frame itself. -/
def push [DecidableEq κ] [DecidableEq ι] [DecidableEq τ] [DecidableEq ν]
    (s : Surroundings Ω φ ι τ κ) (input : φ) (pulse : Option (Pulse Ω)) :
    Act (StagedEncode Ω φ κ ν ϱ ρ ε × Traced Ω) (EncodeFailure ε ρ) Unit :=
  pushConverted s input (s.view.interpretation input)
    { encoderInput := s.view.of input, preservesSamples := true, preservesExtendedRange := true }
    pure pulse

/-- `finish`, which consumes the operation. -/
def finish [DecidableEq ν] (s : Surroundings Ω φ ι τ κ) (pulse : Option (Pulse Ω)) :
    Act (StagedEncode Ω φ κ ν ϱ ρ ε × Traced Ω) (EncodeFailure ε ρ) (Completed ρ) := fun (job, w) =>
  match job.state with
  | none => (.error (failureAfter .terminal job.report (.refusal .terminal) 0), job, w)
  | some state =>
    let (r, _, report, state, w) :=
      finishRun s job.policyChangedAfterInput pulse (.finish, job.report, state, w)
    let job := { job with state := none, report := report }
    match r with
    | .error cause => (.error (failureAfter .finish report cause 0), job, w)
    | .ok _ =>
      -- the encoder is dropped here
      let (r, _, emitted, _, w) :=
        publishRun pulse s.noPulse s.fuel (state.packets, 0, state.output, w)
      match r with
      | .ok stats => (.ok ⟨stats, report⟩, job, w)
      | .error cause => (.error (failureAfter .publish report cause emitted), job, w)

end StagedEncode

end Zencodec.Media
