/-
The decoder over a coroutine: `step`, `step_controlled`, `resume` and `take_details`.

The future, the sink and the pulse are foreign code; the future and the sink may unwind. The log,
newest entry first, is what a reader of the calls would see: the calls of the sink, the polls of
the future, what it handed over and what was delivered.
-/
import Zencodec.Coroutine.Context
import Zencodec.Lib.Act
import Zencodec.Lib.Runs

namespace Zencodec.Coroutine

open Zencodec.Operation (Fault)

/-! ### Input -/

structure Input where
  offset : ℕ
  bytes : List UInt8
  totalLen : Option ℕ
  deriving DecidableEq, Repr

/-- `Input::end`, which saturates. -/
def Input.stop (input : Input) : ℕ := min (input.offset + input.bytes.length) (u64End - 1)

variable {γ δ χ ρ ε Ω : Type}

/-- Where a request starts and ends in an input, and whether it reads ahead. -/
def InputRequest.span (input : Input) : InputRequest → Option (ℕ × ℕ × Bool)
  | .atLeast offset _ => some (offset, input.stop, true)
  | .range offset length => some (offset, min (offset + length) (u64End - 1), false)
  | .len => none

/-- The needs in order, fed from the position `front` on; `takenTo` is how far that took. -/
def feedNeeds (input : Input) (front : ℕ) :
    List InputRequest → ℕ → InputStore → Except InputError ℕ × InputStore
  | [], takenTo, store => (.ok takenTo, store)
  | r :: rest, takenTo, store =>
    match r.span input with
    | none => feedNeeds input front rest takenTo store
    | some (offset, stop, sequential) =>
      let lo := max offset front
      let hi := min stop input.stop
      if hi ≤ lo then feedNeeds input front rest takenTo store
      else
        let slice := (input.bytes.drop (lo - input.offset)).take (hi - lo)
        match store.feed lo slice with
        | .error e => (.error e, store)
        | .ok (stored, store) =>
          if stored = slice.length || sequential then
            feedNeeds input front rest (max takenTo (lo + stored)) store
          -- the store is full: only up to where storing stopped
          else (.ok (max takenTo (lo + stored)), store)

/-- `absorb`: what the outstanding reads need of the input from its byte `start` on. -/
def absorb (s : Shared δ χ ρ) (input : Input) (start : ℕ) :
    Except InputError ℕ × Shared δ χ ρ :=
  let s := { s with input := s.input.learnTotal input.totalLen }
  match checkedEnd input.offset start, checkedEnd input.offset input.bytes.length with
  | .error e, _ | _, .error e => (.error e, s)
  | .ok front, .ok _ =>
    if input.stop ≤ front then (.ok start, s)
    else
      match feedNeeds input front s.need front s.input with
      | (.error e, store) => (.error e, { s with input := store, need := [] })
      | (.ok takenTo, store) => (.ok (takenTo - input.offset), { s with input := store })

/-! ### The machine -/

inductive State (δ : Type) where
  | running
  /-- The future has returned; what it handed over goes out first. -/
  | finishing (info : OutputInfo δ)
  | done (info : OutputInfo δ)
  | failed
  deriving DecidableEq, Repr

structure Decoder (γ δ χ ρ : Type) where
  shared : Shared δ χ ρ
  future : γ
  state : State δ := .running
  begun : Bool := false
  acceptsProvisional : Bool := false
  need : List InputRequest := []
  details : Option (DecodeDetails χ) := none
  /-- Rows of which the strips up to the position are delivered. -/
  pendingRows : Option (PendingRows δ × ℕ) := none
  deriving DecidableEq, Repr

/-- A call of a method of the sink. -/
inductive SinkCall (δ : Type) where
  | maxBufferRows
  | begin (width height : ℕ) (descriptor : δ)
  | acceptsProvisional
  | nextBuffer (y count width : ℕ) (descriptor : δ)
  | passBuffer (batch : BatchMeta) (count width : ℕ) (descriptor : δ)
  | finish
  deriving DecidableEq, Repr

inductive Entry (δ : Type) where
  | sink (call : SinkCall δ)
  /-- The call of the sink unwound. -/
  | unwound (call : SinkCall δ)
  | polled
  /-- The future handed over an item, and found the slots so. -/
  | handed (item : Item δ) (found : Slots)
  /-- The future returned, and left the slots so. -/
  | returned (left : Slots)
  /-- A reply adopted the facts. -/
  | adopted (facts : InterpretationFacts δ)
  /-- Rows were copied into the buffers of the sink, which takes `max` at a time. -/
  | strip (batch : BatchMeta) (lines : List (List UInt8)) (max : ℕ)
  | update (update : MetadataUpdate)
  | done
  deriving DecidableEq, Repr

structure Machine (γ δ χ ρ Ω : Type) where
  decoder : Decoder γ δ χ ρ
  world : Ω
  log : List (Entry δ) := []

/-- The geometry of a buffer that the sink provides. -/
structure Geometry (δ : Type) where
  width : ℕ
  rows : ℕ
  descriptor : δ
  deriving DecidableEq, Repr

/-- The foreign code that a call is given, and `PixelSlice::new`. -/
structure Host (δ ρ Ω : Type) where
  check : Ω → Option ρ × Ω
  sliceOk : PendingRows δ → Bool
  maxBufferRows : Act Ω (Fault Empty) {n : ℕ // 0 < n}
  begin : ℕ → ℕ → δ → Act Ω (Fault Unit) Unit
  acceptsProvisional : Act Ω (Fault Empty) Bool
  nextBuffer : ℕ → ℕ → ℕ → δ → Act Ω (Fault Unit) (Geometry δ)
  passBuffer : BatchMeta → ℕ → ℕ → δ → Act Ω (Fault Unit) (Geometry δ)
  finish : Act Ω (Fault Unit) Unit

inductive StepError (ρ ε : Type) where
  | codec (e : ε)
  | sink
  | cancelled (reason : ρ)
  | finished
  | control (e : ControlError)
  deriving DecidableEq, Repr

inductive Event (δ : Type) where
  | need
  | rows (batch : BatchMeta) (count : ℕ)
  | metadata (update : MetadataUpdate)
  | done (info : OutputInfo δ)
  /-- `ControlledProgress::Suspended` -/
  | suspended (boundary : DecodeBoundary δ)
  deriving DecidableEq, Repr

structure Progress (δ : Type) where
  consumed : ℕ
  event : Event δ
  deriving DecidableEq, Repr

/-- A computation of the decoder. -/
abbrev Step (γ δ χ ρ ε Ω α : Type) : Type := Act (Machine γ δ χ ρ Ω) (Fault (StepError ρ ε)) α

variable {α ι : Type}

def stop (e : StepError ρ ε) : Step γ δ χ ρ ε Ω α := Act.fail (.failed e)

/-- A change of the decoder. -/
def update (f : Decoder γ δ χ ρ → Decoder γ δ χ ρ) : Step γ δ χ ρ ε Ω Unit :=
  Act.modify fun m => { m with decoder := f m.decoder }

def setState (state : State δ) : Step γ δ χ ρ ε Ω Unit := update fun d => { d with state := state }

def note (entry : Entry δ) : Step γ δ χ ρ ε Ω Unit :=
  Act.modify fun m => { m with log := entry :: m.log }

/-- Fail for good. -/
def refuse (e : StepError ρ ε) : Step γ δ χ ρ ε Ω α := do
  setState .failed
  stop e

/-- Fail for good where `x` fails; unwinding passes through. -/
def orRefuse (x : Step γ δ χ ρ ε Ω α) : Step γ δ χ ρ ε Ω α := fun m =>
  match x m with
  | (.error (.failed e), m) => (.error (.failed e), { m with decoder.state := .failed })
  | other => other

/-- A call of the sink, whose error is `err`. -/
def onSink (call : SinkCall δ) (err : ι → StepError ρ ε) (x : Act Ω (Fault ι) α) :
    Step γ δ χ ρ ε Ω α := do
  note (.sink call)
  match ← Act.attempt (Act.focus Machine.world (fun w m => { m with world := w }) x) with
  | .ok a => return a
  | .error (.failed e) => stop (err e)
  | .error .unwound => do
    note (.unwound call)
    Act.fail .unwound

def checkPulse (host : Host δ ρ Ω) : Step γ δ χ ρ ε Ω (Option ρ) := fun m =>
  (.ok (host.check m.world).1, { m with world := (host.check m.world).2 })

/-- `pulse.check()?` -/
def checkStop (host : Host δ ρ Ω) : Step γ δ χ ρ ε Ω Unit := do
  match ← checkPulse host with
  | some reason => stop (.cancelled reason)
  | none => pure ()

/-! ### The sink -/

def checkInterpretation : Step γ δ χ ρ ε Ω Unit := do
  let s := (← Act.get).decoder.shared
  match s.controlFailure with
  | some e => stop (.control e)
  | none =>
    if s.controlled && (s.boundary.isSome || s.adopted.isNone) then
      stop (.control .outputBeforeInterpretation)
    else pure ()

def beginIfReady (host : Host δ ρ Ω) : Step γ δ χ ρ ε Ω Unit := do
  checkInterpretation
  let d := (← Act.get).decoder
  if d.begun then pure ()
  else
    match d.shared.info, d.shared.descriptor with
    | some info, some descriptor => do
      onSink (.begin info.width info.height descriptor) (fun _ => .sink)
        (host.begin info.width info.height descriptor)
      let accepts ← onSink .acceptsProvisional Empty.elim host.acceptsProvisional
      update fun d =>
        { d with
          shared.acceptsProvisional := accepts, acceptsProvisional := accepts, begun := true }
    | _, _ => pure ()

variable [DecidableEq δ] [DecidableEq χ]

/-- The largest `u32`. -/
def u32Max : ℕ := 4294967295

def copyRows (host : Host δ ρ Ω) (rows : PendingRows δ) (offset count limit : ℕ) :
    Step γ δ χ ρ ε Ω Unit := do
  let d := (← Act.get).decoder
  if !rows.batch.isFinal && !d.acceptsProvisional then stop .sink
  else if !host.sliceOk rows then stop .sink
  else if u32Max < rows.batch.y + rows.rows then stop .sink
  else if count = 0 then pure ()
  else do
    let batch := { rows.batch with y := rows.batch.y + offset }
    let geometry ←
      if batch.isFinal then
        onSink (.nextBuffer batch.y count rows.width rows.descriptor) (fun _ => .sink)
          (host.nextBuffer batch.y count rows.width rows.descriptor)
      else
        onSink (.passBuffer batch count rows.width rows.descriptor) (fun _ => .sink)
          (host.passBuffer batch count rows.width rows.descriptor)
    if geometry ≠ ⟨rows.width, count, rows.descriptor⟩ then stop .sink
    else note (.strip batch ((rows.lines.drop offset).take count) limit)

def deliverRows (host : Host δ ρ Ω) (rows : PendingRows δ) (offset consumed : ℕ) :
    Step γ δ χ ρ ε Ω (Progress δ) := do
  let state := (← Act.get).decoder.state
  setState .failed
  checkInterpretation
  let limit ← onSink .maxBufferRows Empty.elim host.maxBufferRows
  let count := min limit.1 (rows.rows - offset)
  copyRows host rows offset count limit.1
  update fun d =>
    { d with
      pendingRows := if offset + count < rows.rows then some (rows, offset + count) else none
      state := state
      need := [] }
  return ⟨consumed, .rows { rows.batch with y := rows.batch.y + offset } count⟩

/-- The final result differs from what was adopted, or from its own details. -/
def inconsistent (s : Shared δ χ ρ) (info : OutputInfo δ) : Bool :=
  (s.details.any fun details =>
    details.info.width ≠ info.width || details.info.height ≠ info.height ||
      (s.adopted.isSome && s.info.any fun old =>
        old.orientation ≠ details.info.orientation ||
          old.sourceColor ≠ details.info.sourceColor)) ||
  (s.controlled && s.adopted.any fun facts =>
    facts.width ≠ info.width || facts.height ≠ info.height ||
      facts.descriptor ≠ some info.nativeFormat)

def finishSink (host : Host δ ρ Ω) : Step γ δ χ ρ ε Ω Unit := do
  let d := (← Act.get).decoder
  (if d.begun then onSink .finish (fun _ => .sink) host.finish else pure ())

/-- The decoder of a completed decode: input is dropped, and the details can be taken. -/
def Decoder.complete (info : OutputInfo δ) (d : Decoder γ δ χ ρ) : Decoder γ δ χ ρ :=
  { d with
    state := .done info
    need := []
    shared.input := d.shared.input.clear
    shared.info := if d.shared.details.isSome then none else d.shared.info
    shared.details := none
    details := d.shared.details }

def finish (host : Host δ ρ Ω) (info : OutputInfo δ) (consumed : ℕ) :
    Step γ δ χ ρ ε Ω (Progress δ) := do
  setState .failed
  if inconsistent (← Act.get).decoder.shared info then stop (.control .inconsistentFacts)
  else do
    beginIfReady host
    checkStop host
    finishSink host
    checkStop host
    update (Decoder.complete info)
    note .done
    return ⟨consumed, .done info⟩

/-! ### The loop -/

/-- What the future left for the decoder. -/
inductive Pending (δ : Type) where
  | boundary (boundary : DecodeBoundary δ)
  | rows (rows : PendingRows δ)
  | metadata (update : MetadataUpdate)
  | need
  | stalled
  deriving DecidableEq, Repr

/-- The operations of a poll, and what they hand over, the newest first. -/
def runOps : List (Op δ χ) → Shared δ χ ρ → Shared δ χ ρ × List (Entry δ)
  | [], s => (s, [])
  | op :: ops, s =>
    ((runOps ops (op.apply s)).1,
      (runOps ops (op.apply s)).2 ++ (op.handed s).map fun item => .handed item s.slots)

/-- What the log says of the end of a poll. -/
def Polled.noted (polled : Polled δ ε) (s : Shared δ χ ρ) : List (Entry δ) :=
  match polled with
  | .ready _ => [.returned s.slots]
  | _ => []

/-- One poll of the future. A caught panic never permits another one. -/
def pollFuture (co : Future γ δ χ ρ ε) : Step γ δ χ ρ ε Ω (Polled δ ε) := do
  setState .failed
  let d := (← Act.get).decoder
  let (ops, polled, future) := co.poll d.future d.shared
  let (shared, items) := runOps ops d.shared
  update fun d => { d with shared := shared, future := future }
  Act.modify fun m => { m with log := polled.noted shared ++ items ++ .polled :: m.log }
  match polled with
  | .unwound => Act.fail .unwound
  | _ => return polled

/-- Control failures first, then a boundary, rows, an update or a need. -/
def takeEvent : Step γ δ χ ρ ε Ω (Pending δ) := do
  let s := (← Act.get).decoder.shared
  match s.controlFailure with
  | some e => refuse (.control e)
  | none =>
    match s.boundary with
    | some boundary =>
      if s.rows.isSome then refuse (.control .outputBeforeInterpretation)
      else return .boundary boundary
    | none =>
      match s.rows with
      | some rows => do
        update fun d => { d with shared.rows := none }
        return .rows rows
      | none =>
        match s.metadata with
        | some u => do
          update fun d => { d with shared.metadata := none }
          return .metadata u
        | none => return if s.need = [] then .stalled else .need

def absorbInput (fromInput : CoroutineError → ε) (input : Input) (start : ℕ) :
    Step γ δ χ ρ ε Ω ℕ := do
  setState .failed
  let (r, shared) := absorb (← Act.get).decoder.shared input start
  update fun d => { d with shared := shared }
  match r with
  | .error e => stop (.codec (fromInput (.input e)))
  | .ok n => do
    setState .running
    return n

def publishRows (host : Host δ ρ Ω) (fromInput : CoroutineError → ε) (rows : PendingRows δ)
    (consumed : ℕ) : Step γ δ χ ρ ε Ω (Progress δ) := do
  let s := (← Act.get).decoder.shared
  if s.controlled && (s.descriptor ≠ some rows.descriptor ||
      !(s.info.any fun info => info.width = rows.width)) then
    refuse (.control .inconsistentFacts)
  else do
    orRefuse (beginIfReady host)
    if !(← Act.get).decoder.begun then refuse (.codec (fromInput .rowsBeforeHeader))
    else deliverRows host rows 0 consumed

def publishUpdate (host : Host δ ρ Ω) (u : MetadataUpdate) (consumed : ℕ) :
    Step γ δ χ ρ ε Ω (Progress δ) := do
  let s := (← Act.get).decoder.shared
  (if !s.controlled && u.isHeaderReady then orRefuse (beginIfReady host) else pure ())
  note (.update u)
  return ⟨consumed, .metadata u⟩

/-- The error of the future, or else a cancellation; without either the decoder goes on. -/
def checkPolled (host : Host δ ρ Ω) : Polled δ ε → Step γ δ χ ρ ε Ω Unit
  | .failed e => do
    update fun d => { d with need := [] }
    stop (.codec e)
  | _ => do
    match ← checkPulse host with
    | some reason => do
      update fun d => { d with shared.cancelled := some reason }
      stop (.cancelled reason)
    | none => setState .running

/-- A future that returned `info`: what it left goes out before the end. -/
def completePoll (host : Host δ ρ Ω) (fromInput : CoroutineError → ε) (info : OutputInfo δ)
    (consumed : ℕ) : Pending δ → Step γ δ χ ρ ε Ω (Progress δ)
  | .boundary _ => refuse (.control .inconsistentFacts)
  | .rows rows => do
    update fun d => { d with state := .finishing info, need := [] }
    publishRows host fromInput rows consumed
  | .metadata u => do
    update fun d => { d with state := .finishing info, need := [] }
    publishUpdate host u consumed
  | .need | .stalled => finish host info consumed

/-- Poll until there is something to report. Each turn but the last takes bytes of the input, so
there are no more turns than bytes and one. -/
def drive (host : Host δ ρ Ω) (fromInput : CoroutineError → ε) (co : Future γ δ χ ρ ε)
    (input : Input) : ℕ → ℕ → Step γ δ χ ρ ε Ω (Progress δ)
  | 0, _ => refuse (.codec (fromInput .stalled))
  | turns + 1, consumed => do
    let polled ← pollFuture co
    let event ← takeEvent
    checkPolled host polled
    match polled, event with
    | .ready info, _ => completePoll host fromInput info consumed event
    | _, .boundary boundary => do
      update fun d => { d with need := [] }
      return ⟨consumed, .suspended boundary⟩
    | _, .rows rows => publishRows host fromInput rows consumed
    | _, .metadata u => publishUpdate host u consumed
    | _, .need => do
      -- the same input may hold what the future now asks for
      let more ← absorbInput fromInput input consumed
      if consumed < more then drive host fromInput co input turns more
      else do
        update fun d => { d with need := d.shared.need }
        return ⟨consumed, .need⟩
    | _, .stalled => refuse (.codec (fromInput .stalled))

/-- The part of `advance` for a decoder that runs or finishes. -/
def advanceLive (host : Host δ ρ Ω) (fromInput : CoroutineError → ε) (co : Future γ δ χ ρ ε)
    (input : Input) : Step γ δ χ ρ ε Ω (Progress δ) := do
  match ← checkPulse host with
  | some reason => do
    update fun d =>
      { d with pendingRows := none, shared.cancelled := some reason, state := .failed }
    stop (.cancelled reason)
  | none =>
    let d := (← Act.get).decoder
    match d.shared.boundary, d.pendingRows, d.state with
    | some boundary, _, _ => return ⟨0, .suspended boundary⟩
    | none, some (rows, offset), _ => do
      update fun d => { d with pendingRows := none }
      deliverRows host rows offset 0
    | none, none, .finishing info => finish host info 0
    | none, none, _ => do
      let consumed ← absorbInput fromInput input 0
      drive host fromInput co input (input.bytes.length + 1) consumed

def advance (host : Host δ ρ Ω) (fromInput : CoroutineError → ε) (co : Future γ δ χ ρ ε)
    (input : Input) : Step γ δ χ ρ ε Ω (Progress δ) := do
  match (← Act.get).decoder.state with
  | .done info => return ⟨0, .done info⟩
  | .failed => stop .finished
  | _ => advanceLive host fromInput co input

/-! ### The calls -/

/-- A failed decoder gives up its details. -/
def Machine.cleanup (m : Machine γ δ χ ρ Ω) : Machine γ δ χ ρ Ω :=
  match m.decoder.state with
  | .failed => { m with decoder.shared.details := none, decoder.details := none }
  | _ => m

/-- `with_details_cleanup`: when the call ends, by unwinding too. -/
def withDetailsCleanup (x : Step γ δ χ ρ ε Ω α) : Step γ δ χ ρ ε Ω α := fun m =>
  ((x m).1, (x m).2.cleanup)

def step (host : Host δ ρ Ω) (fromInput : CoroutineError → ε) (co : Future γ δ χ ρ ε)
    (input : Input) : Step γ δ χ ρ ε Ω (Progress δ) := withDetailsCleanup do
  let d := (← Act.get).decoder
  match d.state with
  | .failed => stop .finished
  | _ =>
    if d.shared.controlled then refuse (.control .unhandledBoundary)
    else do
      let p ← advance host fromInput co input
      match p.event with
      | .suspended _ => refuse (.control .unhandledBoundary)
      | _ => return p

def stepControlled (host : Host δ ρ Ω) (fromInput : CoroutineError → ε) (co : Future γ δ χ ρ ε)
    (input : Input) : Step γ δ χ ρ ε Ω (Progress δ) := withDetailsCleanup do
  let d := (← Act.get).decoder
  match d.state with
  | .failed => stop .finished
  | _ =>
    if !d.shared.controlled then refuse (.control .notControlled)
    else advance host fromInput co input

def adopt (facts : InterpretationFacts δ) : Step γ δ χ ρ ε Ω Unit := do
  update fun d => { d with shared.adopted := some facts }
  note (.adopted facts)

def resume (host : Host δ ρ Ω) (id : BoundaryId) (action : BoundaryAction) :
    Step γ δ χ ρ ε Ω Unit := withDetailsCleanup do
  let state := (← Act.get).decoder.state
  setState .failed
  match state with
  | .running => do
    checkStop host
    let s := (← Act.get).decoder.shared
    if !s.controlled then stop (.control .notControlled)
    else
      match s.controlFailure, s.boundary with
      | some e, _ => stop (.control e)
      | none, none => stop (.control .invalidReply)
      | none, some boundary => do
        update fun d => { d with shared.boundary := none }
        if boundary.id ≠ id || !action.permits boundary.facts || s.reply.isSome then
          stop (.control .invalidReply)
        else if !s.agrees boundary.facts then stop (.control .inconsistentFacts)
        else do
          (if action = .adoptInterpretation then adopt boundary.facts else pure ())
          update fun d => { d with shared.reply := some (id, action), state := .running }
  | _ => stop .finished

def takeDetails : Step γ δ χ ρ ε Ω (Option (DecodeDetails χ)) := do
  let d := (← Act.get).decoder
  match d.state with
  | .done _ => do
    update fun d => { d with details := none }
    return d.details
  | _ => return none

/-- A call of the decoder. -/
inductive Call where
  | step (input : Input)
  | stepControlled (input : Input)
  | resume (id : BoundaryId) (action : BoundaryAction)
  | takeDetails
  deriving DecidableEq, Repr

/-- How a call returned. -/
inductive Answer (δ χ ρ ε : Type) where
  | progress (p : Progress δ)
  | resumed
  | details (details : Option (DecodeDetails χ))
  | failed (e : StepError ρ ε)
  | unwound
  deriving DecidableEq, Repr

def answer (f : α → Answer δ χ ρ ε) : Except (Fault (StepError ρ ε)) α → Answer δ χ ρ ε
  | .ok a => f a
  | .error (.failed e) => .failed e
  | .error .unwound => .unwound

def call (host : Host δ ρ Ω) (fromInput : CoroutineError → ε) (co : Future γ δ χ ρ ε)
    (m : Machine γ δ χ ρ Ω) : Call → Answer δ χ ρ ε × Machine γ δ χ ρ Ω
  | .step input =>
    (answer .progress (step host fromInput co input m).1, (step host fromInput co input m).2)
  | .stepControlled input =>
    (answer .progress (stepControlled host fromInput co input m).1,
      (stepControlled host fromInput co input m).2)
  | .resume id action =>
    (answer (ε := ε) (fun _ => .resumed) (resume host id action m).1,
      (resume (ε := ε) host id action m).2)
  | .takeDetails =>
    (answer (ε := ε) .details (takeDetails (ε := ε) m).1, (takeDetails (ρ := ρ) (ε := ε) m).2)

/-- `with_options`, or with `controlled` as `CoroutineDecoder::controlled` leaves it. -/
def Machine.new (controlled : Bool) (store : InputStore) (future : γ) (w : Ω) :
    Machine γ δ χ ρ Ω :=
  { decoder := { shared := { controlled := controlled, input := store }, future := future }
    world := w }

end Zencodec.Coroutine
