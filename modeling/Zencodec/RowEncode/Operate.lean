/-
The loop that feeds an encoder.

An encoder that takes rows is given the next batch of them; one that pulls them is called with
the filler, and what it does with it is a `Dialogue`: it may fill as often as it likes, look at
the answers and end as it likes. `turn` is one round of the loop of `run`, and `events` are the
strips lent, the fills refused and the output offered, in order.

The stage that a failure is reported with, the choice among the routes that are offered, and
what becomes of the output are left out; the last two are parameters.
-/
import Zencodec.Lib.Dialogue
import Zencodec.RowEncode.Filler

namespace Zencodec.RowEncode

/-! ### Routes -/

inductive InputAcquisition
  | borrowedRaster
  | directRows
  | diskReplay
  | memorySnapshot
  deriving DecidableEq

inductive ReplayEvidence
  | immutableBorrow
  | unknown
  | verifiedHash
  | privateSnapshot
  deriving DecidableEq

structure EncodeRouteOffer where
  acquisition : InputAcquisition
  replay : ReplayEvidence

/-- What the routes depend on: the source, and whether the storage can be prepared. -/
structure Resources where
  single : Bool
  borrowed : Bool
  positional : Bool
  /-- The file for the raw rows is given and large enough. -/
  disk : Bool
  hashes : Bool
  memory : Bool

namespace Resources

variable (r : Resources)

def diskEligible : Bool := !r.single && !r.borrowed && r.disk

def hashAvailable : Bool := !r.single && !r.borrowed && (r.positional || r.diskEligible) && r.hashes

def memoryAvailable : Bool := !r.single && !r.borrowed && r.memory

/-- The routes that are offered, each once. -/
def offers : List EncodeRouteOffer :=
  (if r.borrowed then [⟨.borrowedRaster, .immutableBorrow⟩]
    else if r.single || (r.positional && r.hashAvailable) then
      [⟨.directRows, if r.single then .unknown else .verifiedHash⟩]
    else []) ++
  (if r.diskEligible && r.hashAvailable then [⟨.diskReplay, .verifiedHash⟩] else []) ++
  (if r.memoryAvailable then [⟨.memorySnapshot, .privateSnapshot⟩] else [])

end Resources

/-- Zeroed storage for some rows. -/
def blank (desc : Description φ κ) (count : ℕ) : List Row :=
  List.replicate count (List.replicate desc.rowBytes 0)

/-- The filler of a route, before the first pass. -/
def Filler.start (desc : Description φ κ) (route : EncodeRouteOffer) (origin : ℕ)
    (identity : Option (List UInt64)) (declared : SourcePasses) : Filler κ where
  store :=
    match route.acquisition with
    | .memorySnapshot => .memory (blank desc desc.height)
    | .diskReplay => .disk origin
    | .borrowedRaster | .directRows => .none
  hashes := if route.replay = .verifiedHash then some (List.replicate desc.height 0) else none
  identity := if route.acquisition = .directRows then identity else none
  declared
  pass := none
  finalStarted := false
  nextRow := 0
  fills := 0
  failure := none
  boundary := .read

/-! ### The encoder -/

inductive Request (ω φ : Type)
  | fill (d : Demand φ)
  /-- Anything else that the encoder does. -/
  | touch (f : ω → ω)

structure Answer (ω : Type) where
  filled : Bool
  rows : List Row
  world : ω

inductive PullProgress
  | filled
  | done
  /-- A value that is added later. -/
  | other
  deriving DecidableEq

/-- The encoder; its state `ε` is that of the startup at first. -/
structure Encoder (ω φ κ ε : Type) where
  /-- `startup.start` -/
  start : ε → Act ω κ ε
  pendingOutput : ε → List UInt8
  consumeOutput : ε → ℕ → ε
  pullRows : ε → Dialogue (Request ω φ) (Answer ω) (Except κ PullProgress × ε)
  pushRows : ε → List Row → Act ω κ ε

inductive InputRequirement
  | rows
  | replay
  deriving DecidableEq

structure Plan where
  input : InputRequirement
  /-- `OutputPhase::FinalPass` -/
  finalPhase : Bool
  batchRows : ℕ
  batchRows_pos : 0 < batchRows

/-! ### The loop -/

/-- A strip as it was lent to the encoder. -/
structure Strip where
  pass : ℕ
  first : ℕ
  finalPass : Bool
  rows : List Row
  deriving DecidableEq

inductive Event
  | lent (strip : Strip)
  | refused
  | offered (output : List UInt8)

structure Job (ω κ ε : Type) where
  desk : Desk ω κ
  encoder : ε
  buffer : List Row
  events : List Event

section Operations

variable {ω κ φ ε α : Type} [DecidableEq φ]

def atDesk (x : Act (Desk ω κ) (Cause κ) α) : Act (Job ω κ ε) (Cause κ) α :=
  Act.focus Job.desk (fun desk job => { job with desk }) x

def note (event : Event) : Act (Job ω κ ε) (Cause κ) Unit :=
  Act.modify fun job => { job with events := job.events ++ [event] }

variable (e : Env ω κ) (desc : Description φ κ) (input : Input) (encoder : Encoder ω φ κ ε)
  (deliver : List UInt8 → Act ω κ Unit) (plan : Plan)

/-- How the filler answers, and what is noted of it. -/
def answer (request : Request ω φ) (s : Desk ω κ × List Event) :
    Answer ω × Desk ω κ × List Event :=
  match request with
  | .fill d =>
    let (filled, desk) := fill e desc input d s.1
    let event := if filled then .lent ⟨d.pass, d.first, d.finalPass, desk.rows⟩ else .refused
    (⟨filled, desk.rows, desk.world⟩, desk, s.2 ++ [event])
  | .touch f =>
    let desk := { s.1 with world := f s.1.world }
    (⟨true, [], desk.world⟩, desk, s.2)

/-- `Delivery::drain` -/
def drain : Act (Job ω κ ε) (Cause κ) Unit := do
  let pending := encoder.pendingOutput (← Act.get).encoder
  note (.offered pending)
  atDesk (onWorld (deliver pending))
  Act.modify fun job => { job with encoder := encoder.consumeOutput job.encoder pending.length }

/-- `filler.failure.take()` -/
def takeFailure : Act (Job ω κ ε) (Cause κ) Unit := do
  match (← Act.get).desk.filler.failure with
  | none => pure ()
  | some (_, cause) =>
    atDesk (updateFiller fun f => { f with failure := none })
    Act.fail cause

def push (rows : List Row) : Act (Job ω κ ε) (Cause κ) Unit := do
  let next ← atDesk (onWorld (encoder.pushRows (← Act.get).encoder rows))
  Act.modify fun job => { job with encoder := next }

/-- The first push opens the only pass. -/
def openPass : Act (Desk ω κ) (Cause κ) Unit := do
  if (← Act.get).filler.pass.isNone then beginPass e desc 0 true

/-- A row of a raster is checked where it is. -/
def checkRow (first y : ℕ) : Act (Desk ω κ) (Cause κ) Unit := do
  updateFiller fun f => { f with boundary := if desc.exactDepth.isSome then .encode else .read }
  onWorld e.check
  checkExact desc (first + y) y

/-- `push_borrowed`, but for the push: the rows of the raster become the strip. -/
def borrowStrip (pixels : List Row) (count : ℕ) : Act (Desk ω κ) (Cause κ) Unit := do
  updateFiller fun f => { f with boundary := .read }
  onWorld e.check
  openPass e desc
  let first := (← Act.get).filler.nextRow
  demand (count ≠ 0 && (checkedAdd u32Max first count).any (· ≤ desc.height))
    (.requestOrder 0 first)
  validate e
  Act.modify fun s =>
    { s with rows := (List.range count).map fun y => pixels.getD (first + y) [] }
  Act.each (checkRow e desc first) (List.range count)
  updateFiller fun f => { f with boundary := .read }
  onWorld e.check
  validate e
  touchWorld (e.advance count)
  onWorld e.check
  validate e
  updateFiller fun f => { f with nextRow := first + count, boundary := .encode }

/-- The next batch for an encoder that takes rows. -/
def pushBatch : Act (Job ω κ ε) (Cause κ) Unit := do
  let job ← Act.get
  let first := job.desk.filler.nextRow
  let count := min plan.batchRows (desc.height - first)
  match input with
  | .raster pixels =>
    atDesk (borrowStrip e desc pixels count)
    let rows := (← Act.get).desk.rows
    note (.lent ⟨0, first, true, rows⟩)
    push encoder rows
  | .source =>
    let _ ← Act.getOr (checkedMul u64Max desc.rowBytes count) (.refusal .overflow)
    let d : Demand φ := ⟨0, true, first, desc.width, desc.format, job.buffer.take count⟩
    Act.modify fun job =>
      let answered := (answer e desc input (.fill d) (job.desk, job.events)).2
      { job with
        desk := answered.1
        events := answered.2
        buffer := answered.1.rows ++ job.buffer.drop count }
    takeFailure
    push encoder ((← Act.get).buffer.take count)

/-- `encoder.pull_rows(&mut filler)` -/
def consult : Act (Job ω κ ε) (Cause κ) (Except κ PullProgress × ε) := Act.foreign fun job =>
  let played := (encoder.pullRows job.encoder).play (answer e desc input) (job.desk, job.events)
  (.ok played.1, { job with desk := played.2.1, events := played.2.2 })

/-- One call of an encoder that pulls: whether the loop goes on. -/
def pull : Act (Job ω κ ε) (Cause κ) Bool := do
  let answered ← consult e desc input encoder
  takeFailure
  let progress ← Act.lift (answered.1.mapError .other)
  Act.modify fun job => { job with encoder := answered.2 }
  let fills := (← Act.get).desk.filler.fills
  if progress = .filled ∧ fills = 1 then pure true
  else if progress = .done ∧ fills = 0 then
    atDesk (complete e desc)
    pure false
  else Act.fail (.refusal .pullProtocol)

/-- The rows are all there. -/
def finished (f : Filler κ) : Bool := plan.input = .rows && f.nextRow = desc.height

/-- Output waits that may only follow the final pass. -/
def early (job : Job ω κ ε) : Bool :=
  plan.input = .replay && plan.finalPhase && !job.desk.filler.finalStarted &&
    !(encoder.pendingOutput job.encoder).isEmpty

/-- What a round does with the encoder. -/
def feed : Act (Job ω κ ε) (Cause κ) Bool := do
  match plan.input with
  | .rows =>
    pushBatch e desc input encoder plan
    pure true
  | .replay => pull e desc input encoder

/-- One round of the loop: whether it goes on. -/
def turn : Act (Job ω κ ε) (Cause κ) Bool := do
  atDesk (onWorld e.check)
  atDesk (validate e)
  let job ← Act.get
  if finished desc plan job.desk.filler then pure false
  else
    atDesk (demand (!early encoder plan job) (.earlyOutput job.desk.filler.pass))
    drain encoder deliver
    atDesk (updateFiller fun f => { f with fills := 0 })
    feed e desc input encoder plan

/-- The loop, for some rounds: whether it was left. -/
def loop : ℕ → Act (Job ω κ ε) (Cause κ) Bool
  | 0 => pure false
  | rounds + 1 => do
    if ← turn e desc input encoder deliver plan then loop rounds else pure true

/-- What is shown to the control before the encoder starts. -/
def total (declared : SourcePasses) : Option ℕ :=
  declared.max.bind fun m => if m = declared.min then some (m * desc.height) else none

/-- From the filler to the end of the loop and `complete`. -/
def run (rounds : ℕ) : Act (Job ω κ ε) (Cause κ) Bool := do
  atDesk (validate e)
  atDesk (touchWorld (e.setTotal (total desc (← Act.get).desk.filler.declared)))
  atDesk (onWorld e.check)
  atDesk (validate e)
  let started ← atDesk (onWorld (encoder.start (← Act.get).encoder))
  Act.modify fun job => { job with encoder := started }
  if ← loop e desc input encoder deliver plan rounds then
    atDesk (complete e desc)
    pure true
  else pure false

end Operations

/-! ### What a run starts from -/

def Input.isRaster : Input → Bool
  | .raster _ => true
  | .source => false

theorem le_of_some {n m : ℕ} (h : some n = some m) : n ≤ m := Nat.le_of_eq (Option.some.inj h)

theorem one_le_of_some (m : ℕ) (h : some 1 = some m) : 1 ≤ m := le_of_some h

/-- `SourcePasses::ONCE` -/
def SourcePasses.once : SourcePasses := ⟨1, some 1, Nat.one_pos, one_le_of_some⟩

/-- A route out of those that are offered, for a plan and an input. -/
structure Setup (desc : Description φ κ) (input : Input) (plan : Plan) (ω ε : Type) where
  resources : Resources
  route : EncodeRouteOffer
  offered : route ∈ resources.offers
  declared : SourcePasses
  once : plan.input = .rows → declared = .once
  single : resources.single = decide (declared.max = some 1)
  borrowed : resources.borrowed = input.isRaster
  origin : ℕ
  identity : Option (List UInt64)
  world : ω
  startup : ε

/-- The job before `run`. -/
def Setup.job {desc : Description φ κ} {input : Input} {plan : Plan}
    (s : Setup desc input plan ω ε) : Job ω κ ε where
  desk := ⟨.start desc s.route s.origin s.identity s.declared, [], s.world⟩
  encoder := s.startup
  buffer := blank desc (min plan.batchRows desc.height)
  events := []

end Zencodec.RowEncode
