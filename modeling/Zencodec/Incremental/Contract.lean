/-
The contract of incremental decoding: inputs, requests, events and errors.

`Input` is a run of bytes at an absolute offset, `InputRequest` is what a decoder needs
next and `Progress` is what one step reports. `ControlledProgress` adds the suspension at
a decision boundary, and `BoundaryAction.permits` says which reply the facts allow.
-/
import Mathlib.Algebra.Ring.Nat
import Mathlib.Data.List.Basic

namespace Zencodec.Incremental

/-- The values of a `u64`. -/
def u64Max : ℕ := 2 ^ 64 - 1

/-- `u64::saturating_add`. -/
def saturatingAdd (a b : ℕ) : ℕ := min (a + b) u64Max

/-! ### Inputs and requests -/

/-- Bytes offered to one step. -/
structure Input where
  offset : ℕ
  bytes : List UInt8
  totalLen : Option ℕ
  deriving DecidableEq, Repr

/-- Absolute offset one past the last byte. -/
def Input.stop (input : Input) : ℕ := saturatingAdd input.offset input.bytes.length

def Input.empty : Input := ⟨0, [], none⟩

structure ByteRange where
  offset : ℕ
  length : ℕ
  deriving DecidableEq, Repr

inductive InputRequest where
  | atLeast (offset minLen : ℕ)
  | range (r : ByteRange)
  | len
  deriving DecidableEq, Repr

def InputRequest.offset : InputRequest → Option ℕ
  | .atLeast offset _ => some offset
  | .range r => some r.offset
  | .len => none

/-- Whether `input` satisfies this request. -/
def InputRequest.isSatisfiedBy (input : Input) : InputRequest → Bool
  | .atLeast offset minLen =>
    input.offset == offset
      && (decide (minLen ≤ input.bytes.length) || input.totalLen == some input.stop)
  | .range r =>
    input.offset == r.offset
      && (decide (r.length ≤ input.bytes.length) || input.totalLen == some input.stop)
  | .len => input.totalLen.isSome

/-! ### Interpretation and its boundaries

`δ` is the type of pixel descriptors. -/

inductive InterpretationState where
  | pending | provisional | final | unavailable
  deriving DecidableEq, Repr

inductive InterpretationUnavailable where
  | lateColorMetadata | forbiddenColorMetadata | incompleteColorMetadata | unsupportedColor
  | unqualifiedOutput
  deriving DecidableEq, Repr

/-- Facts exposed before affected decode output. -/
structure InterpretationFacts (δ : Type) where
  width : ℕ
  height : ℕ
  descriptor : Option δ
  state : InterpretationState
  unavailable : Option InterpretationUnavailable
  deriving DecidableEq, Repr

/-- Identity of one suspension. -/
structure BoundaryId where
  val : ℕ
  deriving DecidableEq, Repr

structure DecodeBoundary (δ : Type) where
  id : BoundaryId
  facts : InterpretationFacts δ
  deriving DecidableEq, Repr

inductive BoundaryAction where
  | continueReading | adoptInterpretation
  deriving DecidableEq, Repr

/-- Whether the facts permit this reply. -/
def BoundaryAction.permits {δ : Type} (facts : InterpretationFacts δ) : BoundaryAction → Bool
  | .continueReading => facts.state == .pending || facts.state == .provisional
  | .adoptInterpretation =>
    facts.state == .final && facts.descriptor.isSome && facts.unavailable.isNone

inductive ControlError where
  | unhandledBoundary | notControlled | invalidReply | outputBeforeInterpretation
  | finalInterpretationChanged | inconsistentFacts | identityExhausted
  deriving DecidableEq, Repr

/-! ### Progress and errors -/

/-- The shape of the decoded output; `Fused` reads its size and native format. -/
structure OutputInfo (δ : Type) where
  width : ℕ
  height : ℕ
  nativeFormat : δ
  deriving DecidableEq, Repr

structure BatchMeta where
  y : ℕ
  pass : ℕ
  isFinal : Bool
  deriving DecidableEq, Repr

inductive MetadataUpdate where
  | headerReady | colorReady | updated
  deriving DecidableEq, Repr

/-- What one step produced. -/
inductive Event (δ : Type) where
  | need
  | rows (batch : BatchMeta) (rows : ℕ)
  | metadata (update : MetadataUpdate)
  | done (info : OutputInfo δ)
  deriving DecidableEq, Repr

/-- The result of one step: how many bytes it took from the input, and what happened. -/
structure Progress (δ : Type) where
  consumed : ℕ
  event : Event δ
  deriving DecidableEq, Repr

/-- The result of one controlled step. -/
inductive ControlledProgress (δ : Type) where
  | decode (p : Progress δ)
  | suspended (consumed : ℕ) (boundary : DecodeBoundary δ)
  deriving DecidableEq, Repr

/-- Why a pulse tripped. -/
inductive StopReason where
  | cancelled | timedOut
  deriving DecidableEq, Repr

/-- A boxed error that a sink returns: its own cause of type `τ`, a cause that a guard
kept a share of, or a control error of a guard. -/
inductive SinkError (τ : Type) where
  | cause (e : τ)
  | retained (e : SinkError τ)
  | control (e : ControlError)
  deriving DecidableEq, Repr

/-- Why a step failed; `ε` is the codec's own error type. -/
inductive StepError (τ ε : Type) where
  | codec (e : ε)
  | sink (e : SinkError τ)
  | cancelled (reason : StopReason)
  | finished
  | control (e : ControlError)
  deriving DecidableEq, Repr

/-! ### Pulses -/

/-- A stop signal, polled by `check`: a foreign object, so its answer is a function of the
world `Ω`. -/
structure Pulse (Ω : Type) where
  check : Ω → Except StopReason Unit × Ω

/-- `pulse.unwrap_or(&NoPulse).check()`. -/
def checkPulse {Ω : Type} (pulse : Option (Pulse Ω)) (w : Ω) : Except StopReason Unit × Ω :=
  match pulse with
  | some pulse => pulse.check w
  | none => (.ok (), w)

/-- The same pulse in a world that also holds a `γ`. -/
def Pulse.beside {Ω γ : Type} (pulse : Pulse Ω) : Pulse (Ω × γ) where
  check := fun (w, c) => let (r, w) := pulse.check w; (r, w, c)

end Zencodec.Incremental
