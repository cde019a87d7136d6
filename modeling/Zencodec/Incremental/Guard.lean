/-
Row sinks and the guard that holds output back.

A sink is a foreign object with effects, so each of its methods is a function of a world
`Ω`. `GuardedSink` is the sink that `Fused` hands to a native decoder:
its methods refuse every effect before final facts are adopted, and remember the refusal
even if the decoder ignores it.
-/
import Zencodec.Incremental.Contract

namespace Zencodec.Incremental

variable {δ τ ε κ Ω : Type}

/-- Where rows go. The lent pixels themselves are left out: no adapter looks at them. -/
structure Sink (δ τ Ω : Type) where
  maxBufferRows : Ω → ℕ
  start : ℕ → ℕ → δ → Ω → Except (SinkError τ) Unit × Ω
  provideNextBuffer : ℕ → ℕ → ℕ → δ → Ω → Except (SinkError τ) Unit × Ω
  providePassBuffer : BatchMeta → ℕ → ℕ → δ → Ω → Except (SinkError τ) Unit × Ω
  acceptsProvisional : Ω → Bool
  finish : Ω → Except (SinkError τ) Unit × Ω

/-! ### The guard -/

/-- What a guarded sink remembers during one native call. -/
structure Guard (δ τ : Type) where
  facts : Option (InterpretationFacts δ)
  refused : Option ControlError
  sinkError : Option (SinkError τ)

namespace Guard

/-- A guard at the start of a native call. -/
def new (facts : Option (InterpretationFacts δ)) : Guard δ τ := ⟨facts, none, none⟩

/-- What `check` finds wrong with a request of this shape. -/
def objection [DecidableEq δ] (self : Guard δ τ) (width : Option ℕ) (extent : Option (ℕ × ℕ))
    (descriptor : Option δ) : Option ControlError :=
  match self.facts with
  | none => some .outputBeforeInterpretation
  | some facts =>
    if width.any (fun w => w != facts.width)
        || descriptor.any (fun d => facts.descriptor != some d)
        || extent.any (fun e => decide (2 ^ 32 ≤ e.1 + e.2) || decide (facts.height < e.1 + e.2))
    then some .inconsistentFacts else none

/-- Refuse after a sink error or a refusal, and a request that the facts do not allow. -/
def check [DecidableEq δ] (self : Guard δ τ) (width : Option ℕ) (extent : Option (ℕ × ℕ))
    (descriptor : Option δ) : Except (SinkError τ) Unit × Guard δ τ :=
  match self.sinkError with
  | some cause => (.error (.retained cause), self)
  | none =>
    match self.refused.or (self.objection width extent descriptor) with
    | some error => (.error (.control error), { self with refused := some error })
    | none => (.ok (), self)

/-- Keep a share of the sink's error, and hand it on. -/
def retainSinkFailure (self : Guard δ τ) (result : Except (SinkError τ) Unit) :
    Except (SinkError τ) Unit × Guard δ τ :=
  match result with
  | .ok _ => (.ok (), self)
  | .error e => (.error (.retained e), { self with sinkError := some e })

/-- Check a request, then pass it to the sink and retain its failure. -/
def through [DecidableEq δ] (self : Guard δ τ) (width : Option ℕ) (extent : Option (ℕ × ℕ))
    (descriptor : Option δ) (call : Ω → Except (SinkError τ) Unit × Ω) (w : Ω) :
    Except (SinkError τ) Unit × Ω × Guard δ τ :=
  match self.check width extent descriptor with
  | (.error e, self) => (.error e, w, self)
  | (.ok _, self) =>
    let (result, w) := call w
    let (result, self) := self.retainSinkFailure result
    (result, w, self)

/-- `begin`: the height must also be the whole height of the facts. -/
def start [DecidableEq δ] (self : Guard δ τ) (sink : Sink δ τ Ω) (width height : ℕ)
    (descriptor : δ) (w : Ω) : Except (SinkError τ) Unit × Ω × Guard δ τ :=
  match self.check (some width) (some (0, height)) (some descriptor) with
  | (.error e, self) => (.error e, w, self)
  | (.ok _, self) =>
    if self.facts.any (fun facts => facts.height != height) then
      (.error (.control .inconsistentFacts), w, { self with refused := some .inconsistentFacts })
    else
      let (result, w) := sink.start width height descriptor w
      let (result, self) := self.retainSinkFailure result
      (result, w, self)

end Guard

/-- `sink` behind a guard, whose memory lives in the world of the native call. -/
def guardedSink [DecidableEq δ] (sink : Sink δ τ Ω) : Sink δ τ (Ω × Guard δ τ) where
  maxBufferRows := fun (w, _) => sink.maxBufferRows w
  start := fun width height descriptor (w, guard) =>
    guard.start sink width height descriptor w
  provideNextBuffer := fun y height width descriptor (w, guard) =>
    guard.through (some width) (some (y, height)) (some descriptor)
      (sink.provideNextBuffer y height width descriptor) w
  providePassBuffer := fun batch height width descriptor (w, guard) =>
    guard.through (some width) (some (batch.y, height)) (some descriptor)
      (sink.providePassBuffer batch height width descriptor) w
  acceptsProvisional := fun (w, guard) =>
    guard.facts.isSome && guard.refused.isNone && guard.sinkError.isNone
      && sink.acceptsProvisional w
  finish := fun (w, guard) => guard.through none none none sink.finish w

/-! ### Native decoders -/

/-- A native decoder with state `σ`: each method is given the sink and the pulse it may
call, in any world. -/
structure NativeDecoder (σ δ τ ε κ : Type) where
  step : ∀ {Ω : Type}, Input → Sink δ τ Ω → Option (Pulse Ω) → σ → Ω →
    Except (StepError τ ε) (Progress δ) × σ × Ω
  stepControlled : ∀ {Ω : Type}, Input → Sink δ τ Ω → Option (Pulse Ω) → σ → Ω →
    Except (StepError τ ε) (ControlledProgress δ) × σ × Ω
  resume : ∀ {Ω : Type}, BoundaryId → BoundaryAction → Option (Pulse Ω) → σ → Ω →
    Except (StepError τ ε) Unit × σ × Ω
  takeDetails : σ → Option κ × σ

/-- One call of a native decoder, with its answer. -/
inductive NativeCall (δ τ ε κ : Type) where
  | step (answer : Except (StepError τ ε) (Progress δ))
  | stepControlled (answer : Except (StepError τ ε) (ControlledProgress δ))
  | resume (answer : Except (StepError τ ε) Unit)
  | takeDetails (answer : Option κ)

/-- The same decoder, which also writes down every call it gets. -/
def NativeDecoder.logged (dec : NativeDecoder σ δ τ ε κ) :
    NativeDecoder (σ × List (NativeCall δ τ ε κ)) δ τ ε κ where
  step := fun input sink pulse (inner, calls) w =>
    let (answer, inner, w) := dec.step input sink pulse inner w
    (answer, (inner, calls ++ [.step answer]), w)
  stepControlled := fun input sink pulse (inner, calls) w =>
    let (answer, inner, w) := dec.stepControlled input sink pulse inner w
    (answer, (inner, calls ++ [.stepControlled answer]), w)
  resume := fun id action pulse (inner, calls) w =>
    let (answer, inner, w) := dec.resume id action pulse inner w
    (answer, (inner, calls ++ [.resume answer]), w)
  takeDetails := fun (inner, calls) =>
    let (answer, inner) := dec.takeDetails inner
    (answer, (inner, calls ++ [.takeDetails answer]))

end Zencodec.Incremental
