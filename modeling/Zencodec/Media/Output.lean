/-
Container output: a muxer, and the destination that its bytes are drained to.

The muxer and the destination are foreign objects: their methods are functions of the world
`Ω`. The trace beside the world records every call that hands something on: packets that an
encoder emits, packets and the end of the stream that reach the muxer, bytes that are
offered to the destination. Loops that wait on foreign objects run for at most `fuel`
iterations and fail with `running` when these are used up.
-/
import Zencodec.Media.Staging
import Zencodec.Session.Protocol

open Zencodec.Incremental Zencodec.Session

namespace Zencodec.Media

variable {Ω σ ε α : Type}

/-! ### Tracks -/

inductive CodecId where
  | av1 | vp9 | vp8 | h264 | hevc | other (name : String)
  deriving DecidableEq, Repr

structure VideoTrackInfo where
  codedWidth : ℕ
  codedHeight : ℕ
  display : Option (ℕ × ℕ)
  color : Option (ℕ × ℕ × ℕ × Bool)
  deriving DecidableEq, Repr

/-- What a muxer is told of a track. -/
structure TrackInfo where
  index : ℕ
  codec : CodecId
  timeBase : TimeBase
  codecPrivate : Option (List UInt8)
  configEpoch : ℕ
  video : Option VideoTrackInfo
  deriving DecidableEq, Repr

/-! ### Foreign objects -/

/-- `Destination`, with the I/O errors that its driver makes and recognizes. -/
structure Destination (Ω ε : Type) where
  canPatch : Bool
  write : List UInt8 → Act Ω ε ℕ
  position : ℕ → Act Ω ε Unit
  flush : Act Ω ε Unit
  interrupted : ε → Bool
  writeZero : ε
  invalidData : ε

structure MuxHint where
  forwardOnly : Bool
  deriving DecidableEq, Repr

structure MuxTiming where
  streams : Bool
  patchesAtFinish : Bool
  deriving DecidableEq, Repr

/-- Bytes to write over earlier output. -/
structure Patch where
  offset : ℕ
  bytes : List UInt8
  deriving DecidableEq, Repr

structure MuxFinish where
  tail : List UInt8
  patches : List Patch
  deriving DecidableEq, Repr

inductive PatchError where
  | outOfRange
  deriving DecidableEq, Repr

structure Muxer (Ω ε : Type) where
  beginExactTiming : List TrackInfo → MuxHint → Act Ω (SessionError ε) MuxTiming
  writePacket : Packet PacketPayload → Option (Pulse Ω) → Act Ω (SessionError ε) Unit
  pendingOutput : Ω → List UInt8
  consumeOutput : ℕ → Ω → Ω
  finish : Option (Pulse Ω) → Act Ω (SessionError ε) MuxFinish

/-! ### The trace -/

/-- A call that hands something on. `pending` and `muxFinished` record the bytes that the
muxer hands out, `write` the bytes offered to the destination and how many of them it took. -/
inductive Event where
  | emitted (packet : Packet (List UInt8))
  | muxed (packet : Packet (List UInt8))
  | muxFinished (tail : List UInt8)
  | pending (bytes : List UInt8)
  | write (bytes : List UInt8) (taken : ℕ)
  | position (offset : ℕ)
  | flush
  deriving DecidableEq, Repr

/-- The world and what was handed on so far. -/
abbrev Traced (Ω : Type) : Type := Ω × List Event

/-- A foreign call that is not recorded. -/
def untraced (x : Act Ω ε α) : Act (Traced Ω) ε α := Act.focus Prod.fst (fun w t => (w, t.2)) x

/-- A foreign call with its record. -/
def traced (event : Except ε α → Event) (x : Act Ω ε α) : Act (Traced Ω) ε α := fun t =>
  ((x t.1).1, (x t.1).2, t.2 ++ [event (x t.1).1])

/-! ### Output -/

/-- Why output stopped. `running` is no failure: the iterations of a loop are used up. -/
inductive OutputCause (ε : Type) where
  | session (e : SessionError ε)
  | patch (e : PatchError)
  | io (e : ε)
  | running
  deriving DecidableEq, Repr

inductive OutputStage where
  | prepare | packet | drain | finish | patch
  deriving DecidableEq, Repr

/-- `output::Failure`. -/
structure OutputFailure (ε : Type) where
  stage : OutputStage
  emitted : ℕ
  cause : OutputCause ε
  deriving DecidableEq, Repr

structure Stats where
  emitted : ℕ := 0
  patches : ℕ := 0
  patchBytes : ℕ := 0
  maxPending : ℕ := 0
  deriving DecidableEq, Repr

/-- `Output`; `mux` is `none` when it was taken and not put back. -/
structure Output (Ω ε : Type) where
  mux : Option (Muxer Ω ε)
  destination : Destination Ω ε
  tracks : List TrackInfo
  timing : MuxTiming
  exactTiming : Bool
  stats : Stats

structure DestinationFacts where
  seekBack : Bool
  streams : Bool
  patchesAtFinish : Bool
  exactTiming : Bool
  deriving DecidableEq, Repr

/-- `stopped`. -/
def stopped (pulse : Pulse Ω) : Act (Traced Ω) (OutputCause ε) Unit :=
  untraced (Act.mapError (fun r => .session (.cancelled r)) (Act.foreign pulse.check))

/-- `write_all`, which counts the bytes taken in the state. -/
def writeAll (destination : Destination Ω ε) (pulse : Pulse Ω) :
    ℕ → List UInt8 → Act (ℕ × Traced Ω) (OutputCause ε) Unit
  | 0, _ => Act.fail .running
  | fuel + 1, bytes =>
    if bytes = [] then onWorld (stopped pulse)
    else do
      onWorld (stopped pulse)
      let r ← Act.attempt (onWorld (traced (fun r => .write bytes (r.toOption.getD 0))
        (destination.write bytes)))
      match r with
      | .ok 0 => Act.fail (.io destination.writeZero)
      | .ok (n + 1) =>
        if n + 1 ≤ bytes.length then do
          let (count, _) ← Act.get
          let count ← Act.getOr (checkedAdd count (n + 1)) (.io destination.invalidData)
          Act.modify fun t => (count, t.2)
          writeAll destination pulse fuel (bytes.drop (n + 1))
        else Act.fail (.io destination.invalidData)
      | .error e =>
        if destination.interrupted e then writeAll destination pulse fuel bytes
        else Act.fail (.io e)

/-- `OutputFinish::validate`: the length of the whole stream. -/
def MuxFinish.validate (f : MuxFinish) (emitted : ℕ) : Except PatchError ℕ :=
  match checkedAdd emitted f.tail.length with
  | none => .error .outOfRange
  | some total =>
    if f.patches.all fun p =>
      match checkedAdd p.offset p.bytes.length with
      | none => false
      | some stop => decide (stop ≤ total) then .ok total
    else .error .outOfRange

namespace Output

/-- Bytes written to the destination count as emitted. -/
def append (destination : Destination Ω ε) (pulse : Pulse Ω) (fuel : ℕ) (bytes : List UInt8) :
    Act (Output Ω ε × Traced Ω) (OutputCause ε) Unit :=
  Act.focus (fun t => (t.1.stats.emitted, t.2))
    (fun c t => ({ t.1 with stats := { t.1.stats with emitted := c.1 } }, c.2))
    (writeAll destination pulse fuel bytes)

def sawPending (n : ℕ) : Act (Output Ω ε × Traced Ω) (OutputCause ε) Unit :=
  Act.modify fun (o, w) =>
    ({ o with stats := { o.stats with maxPending := max o.stats.maxPending n } }, w)

/-- `drain`: the pending bytes of the muxer go to the destination. -/
def drain (mux : Muxer Ω ε) (pulse : Pulse Ω) (fuel : ℕ) :
    Act (Output Ω ε × Traced Ω) (OutputCause ε) Unit := do
  let (output, w, _) ← Act.get
  let bytes := mux.pendingOutput w
  Act.modify fun (o, w, trace) => (o, w, trace ++ [.pending bytes])
  sawPending bytes.length
  append output.destination pulse fuel bytes
  Act.modify fun (o, w, trace) => (o, mux.consumeOutput bytes.length w, trace)

def facts (o : Output Ω ε) : DestinationFacts :=
  ⟨o.destination.canPatch, o.timing.streams, o.timing.patchesAtFinish, o.exactTiming⟩

/-- `validate_packet`. -/
def validatePacket (o : Output Ω ε) (packet : Packet PacketPayload) :
    Except (OutputCause ε) Unit :=
  match o.tracks.find? fun track => track.index == packet.track with
  | none => .error (.session (.protocol .notConfigured))
  | some track =>
    if packet.configEpoch ≠ track.configEpoch then
      .error (.session (.protocol .epochMismatch))
    else if [packet.pts, packet.dts].reduceOption.any fun t => t.base != track.timeBase then
      .error (.session (.protocol .clockMismatch))
    else .ok ()

/-- Failures carry the stage and the bytes emitted so far. -/
def failing (stage : OutputStage) (x : Act (Output Ω ε × Traced Ω) (OutputCause ε) α) :
    Act (Output Ω ε × Traced Ω) (OutputFailure ε) α := fun t =>
  ((x t).1.mapError fun cause => ⟨stage, (x t).2.1.stats.emitted, cause⟩, (x t).2)

/-- The muxer, taken out of the output. -/
def takeMux (stage : OutputStage) : Act (Output Ω ε × Traced Ω) (OutputFailure ε) (Muxer Ω ε) := do
  let (output, _) ← Act.get
  Act.modify fun (o, w) => ({ o with mux := none }, w)
  failing stage (Act.getOr output.mux (.session .finished))

def send (packet : Packet PacketPayload) (pulse : Option (Pulse Ω)) (noPulse : Pulse Ω) (fuel : ℕ) :
    Act (Output Ω ε × Traced Ω) (OutputFailure ε) Unit := do
  let localPulse := pulse.getD noPulse
  let mux ← takeMux .packet
  failing .packet do
    onWorld (stopped localPulse)
    let (output, _) ← Act.get
    Act.lift (output.validatePacket packet)
    onWorld (Act.mapError .session (traced (fun _ => .muxed packet.contents)
      (mux.writePacket packet pulse)))
    drain mux localPulse fuel
  Act.modify fun (o, w) => ({ o with mux := some mux }, w)

/-- The loop over the patches. -/
def applyPatches (pulse : Pulse Ω) (fuel : ℕ) :
    List Patch → Act (Output Ω ε × Traced Ω) (OutputFailure ε) Unit
  | [] => pure ()
  | patch :: patches => do
    let (output, _) ← Act.get
    failing .patch (onWorld (Act.mapError .io (traced (fun _ => .position patch.offset)
      (output.destination.position patch.offset))))
    failing .patch (onWorld (do
      let _ ← Act.withLocal 0 (writeAll output.destination pulse fuel patch.bytes)
      pure ()))
    Act.modify fun (o, w) =>
      ({ o with stats := { o.stats with patchBytes := o.stats.patchBytes + patch.bytes.length } }, w)
    applyPatches pulse fuel patches

/-- The end of `finish`, where the stream is `total` bytes long. -/
def close (patched : Bool) (total : ℕ) (pulse : Pulse Ω) :
    Act (Output Ω ε × Traced Ω) (OutputFailure ε) Stats := do
  let (output, _) ← Act.get
  if patched then
    failing .patch (onWorld (Act.mapError .io (traced (fun _ => .position total)
      (output.destination.position total))))
  else pure ()
  failing .finish (onWorld (stopped pulse))
  failing .finish (onWorld (Act.mapError .io (traced (fun _ => .flush) output.destination.flush)))
  failing .finish (onWorld (stopped pulse))
  pure output.stats

def finish (pulse : Option (Pulse Ω)) (noPulse : Pulse Ω) (fuel : ℕ) :
    Act (Output Ω ε × Traced Ω) (OutputFailure ε) Stats := do
  let localPulse := pulse.getD noPulse
  let mux ← takeMux .finish
  failing .finish (onWorld (stopped localPulse))
  let finish ← failing .finish (onWorld (Act.mapError .session
    (traced (fun r => .muxFinished (r.toOption.elim [] MuxFinish.tail)) (mux.finish pulse))))
  let (output, _) ← Act.get
  let total ← failing .finish (Act.lift ((finish.validate output.stats.emitted).mapError .patch))
  failing .finish (Act.require
    (finish.patches.isEmpty || output.destination.canPatch && output.timing.patchesAtFinish)
    (.session (.unsupported .forwardOnlyLayout)))
  failing .finish (sawPending finish.tail.length)
  failing .finish (append output.destination localPulse fuel finish.tail)
  Act.modify fun (o, w) =>
    ({ o with stats := { o.stats with patches := finish.patches.length } }, w)
  applyPatches localPulse fuel finish.patches
  close (decide (0 < finish.patches.length)) total localPulse

end Output

/-! ### Preparation -/

/-- A begun muxer and its destination, before the header is published. -/
structure PreparedOutput (Ω ε : Type) where
  output : Output Ω ε

namespace PreparedOutput

/-- `Output::prepare_unpublished` with `begin_exact_timing`. -/
def new (mux : Muxer Ω ε) (destination : Destination Ω ε) (tracks : List TrackInfo)
    (pulse : Pulse Ω) : Act (Traced Ω) (OutputFailure ε) (PreparedOutput Ω ε) :=
  Act.mapError (fun cause => ⟨.prepare, 0, cause⟩) do
    stopped pulse
    let timing ← untraced (Act.mapError .session
      (mux.beginExactTiming tracks ⟨!destination.canPatch⟩))
    Act.require (!timing.patchesAtFinish || destination.canPatch)
      (.session (.unsupported .forwardOnlyLayout))
    stopped pulse
    pure ⟨⟨some mux, destination, tracks, timing, true, {}⟩⟩

def facts (p : PreparedOutput Ω ε) : DestinationFacts := p.output.facts

def validatePacket (p : PreparedOutput Ω ε) (packet : Packet PacketPayload) :
    Except (OutputCause ε) Unit := p.output.validatePacket packet

/-- `publish`, on the output that it turns into. -/
def publish (pulse : Pulse Ω) (fuel : ℕ) :
    Act (Output Ω ε × Traced Ω) (OutputFailure ε) Unit := do
  let mux ← Output.takeMux .drain
  Output.failing .drain (Output.drain mux pulse fuel)
  Act.modify fun (o, w) => ({ o with mux := some mux }, w)

end PreparedOutput

end Zencodec.Media
