/-
`Fused`: the termination rules of a decoder, enforced from outside.

`step`, `stepControlled`, `resume` and `takeDetails` are the four entry points of the
adapter. Each works on the adapter's own record `Fused`, which holds the native state, and
on the world of the sink and the pulse. `serve` is one call of any of the four, so that a
run is a list of `Op`s.
-/
import Zencodec.Incremental.Guard

namespace Zencodec.Incremental

variable {σ δ τ ε κ Ω : Type}

inductive FusedState (δ : Type) where
  | running
  | suspended (boundary : DecodeBoundary δ)
  | done (info : OutputInfo δ)
  | failed

structure Fused (σ δ : Type) where
  inner : σ
  state : FusedState δ
  controlled : Bool
  interpretation : Option (InterpretationFacts δ)
  detailsTaken : Bool

namespace Fused

/-- `Fused::new` and `Fused::controlled`. -/
def new (inner : σ) (controlled : Bool) : Fused σ δ := ⟨inner, .running, controlled, none, false⟩

/-- The state after an ordinary native progress. -/
def stateAfter : Event δ → FusedState δ
  | .done info => .done info
  | _ => .running

def step (dec : NativeDecoder σ δ τ ε κ) (input : Input) (sink : Sink δ τ Ω)
    (pulse : Option (Pulse Ω)) (self : Fused σ δ) (w : Ω) :
    Except (StepError τ ε) (Progress δ) × Fused σ δ × Ω :=
  match self.state with
  | .done info => (.ok ⟨0, .done info⟩, self, w)
  | .failed => (.error .finished, self, w)
  | .suspended _ => (.error (.control .unhandledBoundary), { self with state := .failed }, w)
  | .running =>
    if self.controlled then
      (.error (.control .unhandledBoundary), { self with state := .failed }, w)
    else
      match checkPulse pulse w with
      | (.error reason, w) => (.error (.cancelled reason), { self with state := .failed }, w)
      | (.ok _, w) =>
        let (answer, inner, w) := dec.step input sink pulse self.inner w
        let self := { self with inner := inner, state := .failed }
        match answer with
        | .error e => (.error e, self, w)
        | .ok p =>
          match checkPulse pulse w with
          | (.error reason, w) => (.error (.cancelled reason), self, w)
          | (.ok _, w) => (.ok p, { self with state := stateAfter p.event }, w)

/-- The checks of a controlled native progress, and the state they lead to. -/
def accept [DecidableEq δ] (interpretation : Option (InterpretationFacts δ)) :
    ControlledProgress δ → Except ControlError (FusedState δ)
  | .decode ⟨_, .done info⟩ =>
    match interpretation with
    | none => .error .outputBeforeInterpretation
    | some facts =>
      if facts.width != info.width || facts.height != info.height
          || facts.descriptor != some info.nativeFormat
      then .error .inconsistentFacts else .ok (.done info)
  | .decode ⟨_, .rows _ _⟩ =>
    if interpretation.isNone then .error .outputBeforeInterpretation else .ok .running
  | .decode _ => .ok .running
  | .suspended _ boundary =>
    if interpretation.any (fun facts => facts != boundary.facts)
    then .error .finalInterpretationChanged else .ok (.suspended boundary)

/-- The native step behind the guard, and what is made of its answer. -/
def stepGuarded [DecidableEq δ] (dec : NativeDecoder σ δ τ ε κ) (input : Input)
    (sink : Sink δ τ Ω) (pulse : Option (Pulse Ω)) (self : Fused σ δ) (w : Ω) :
    Except (StepError τ ε) (ControlledProgress δ) × Fused σ δ × Ω :=
  let (result, inner, w, guard) :=
    dec.stepControlled input (guardedSink sink) (pulse.map Pulse.beside) self.inner
      (w, Guard.new self.interpretation)
  let self := { self with inner := inner, state := .failed }
  match guard.refused, guard.sinkError with
  | some error, _ => (.error (.control error), self, w)
  | none, some cause => (.error (.sink (.retained cause)), self, w)
  | none, none =>
    match result with
    | .error e => (.error e, self, w)
    | .ok progress =>
      match checkPulse pulse w with
      | (.error reason, w) => (.error (.cancelled reason), self, w)
      | (.ok _, w) =>
        match accept self.interpretation progress with
        | .error e => (.error (.control e), self, w)
        | .ok state => (.ok progress, { self with state := state }, w)

def stepControlled [DecidableEq δ] (dec : NativeDecoder σ δ τ ε κ) (input : Input)
    (sink : Sink δ τ Ω) (pulse : Option (Pulse Ω)) (self : Fused σ δ) (w : Ω) :
    Except (StepError τ ε) (ControlledProgress δ) × Fused σ δ × Ω :=
  let self := { self with controlled := true }
  match self.state with
  | .done info => (.ok (.decode ⟨0, .done info⟩), self, w)
  | .failed => (.error .finished, self, w)
  | .suspended boundary =>
    match checkPulse pulse w with
    | (.error reason, w) => (.error (.cancelled reason), { self with state := .failed }, w)
    | (.ok _, w) => (.ok (.suspended 0 boundary), self, w)
  | .running =>
    match checkPulse pulse w with
    | (.error reason, w) => (.error (.cancelled reason), { self with state := .failed }, w)
    | (.ok _, w) => stepGuarded dec input sink pulse self w

def resume [DecidableEq δ] (dec : NativeDecoder σ δ τ ε κ) (id : BoundaryId)
    (action : BoundaryAction) (pulse : Option (Pulse Ω)) (self : Fused σ δ) (w : Ω) :
    Except (StepError τ ε) Unit × Fused σ δ × Ω :=
  let state := self.state
  let self := { self with state := .failed }
  match state with
  | .suspended boundary =>
    match checkPulse pulse w with
    | (.error reason, w) => (.error (.cancelled reason), self, w)
    | (.ok _, w) =>
      if boundary.id != id || !action.permits boundary.facts then
        (.error (.control .invalidReply), self, w)
      else
        let (answer, inner, w) := dec.resume id action pulse self.inner w
        let self := { self with inner := inner }
        match answer with
        | .error e => (.error e, self, w)
        | .ok _ =>
          match checkPulse pulse w with
          | (.error reason, w) => (.error (.cancelled reason), self, w)
          | (.ok _, w) =>
            let interpretation :=
              if action == .adoptInterpretation then some boundary.facts else self.interpretation
            (.ok (), { self with interpretation := interpretation, state := .running }, w)
  | _ => (.error .finished, self, w)

def takeDetails (dec : NativeDecoder σ δ τ ε κ) (self : Fused σ δ) : Option κ × Fused σ δ :=
  match self.state with
  | .done _ =>
    if self.detailsTaken then (none, self)
    else
      let (details, inner) := dec.takeDetails self.inner
      (details, { self with detailsTaken := true, inner := inner })
  | _ => (none, self)

end Fused

/-! ### Runs -/

/-- One call on the adapter, with the sink and the pulse its caller passes. -/
inductive Op (δ τ Ω : Type) where
  | step (input : Input) (sink : Sink δ τ Ω) (pulse : Option (Pulse Ω))
  | stepControlled (input : Input) (sink : Sink δ τ Ω) (pulse : Option (Pulse Ω))
  | resume (id : BoundaryId) (action : BoundaryAction) (pulse : Option (Pulse Ω))
  | takeDetails

/-- What the caller gets back. -/
inductive Reply (δ τ ε κ : Type) where
  | progress (p : Progress δ)
  | suspended (consumed : ℕ) (boundary : DecodeBoundary δ)
  | resumed
  | details (details : Option κ)
  | error (e : StepError τ ε)
  deriving DecidableEq, Repr

namespace Reply

def ofStep : Except (StepError τ ε) (Progress δ) → Reply δ τ ε κ
  | .ok p => .progress p
  | .error e => .error e

def ofStepControlled : Except (StepError τ ε) (ControlledProgress δ) → Reply δ τ ε κ
  | .ok (.decode p) => .progress p
  | .ok (.suspended consumed boundary) => .suspended consumed boundary
  | .error e => .error e

def ofResume : Except (StepError τ ε) Unit → Reply δ τ ε κ
  | .ok _ => .resumed
  | .error e => .error e

end Reply

/-- One call on the adapter. -/
def serve [DecidableEq δ] (dec : NativeDecoder σ δ τ ε κ) (s : Fused σ δ × Ω) :
    Op δ τ Ω → Reply δ τ ε κ × Fused σ δ × Ω
  | .step input sink pulse =>
    let (r, s) := Fused.step dec input sink pulse s.1 s.2
    (.ofStep r, s)
  | .stepControlled input sink pulse =>
    let (r, s) := Fused.stepControlled dec input sink pulse s.1 s.2
    (.ofStepControlled r, s)
  | .resume id action pulse =>
    let (r, s) := Fused.resume dec id action pulse s.1 s.2
    (.ofResume r, s)
  | .takeDetails =>
    let (details, self) := s.1.takeDetails dec
    (.details details, self, s.2)

end Zencodec.Incremental
