/-
What a decode coroutine sees: the shared state and the futures over it.

A future is polled under the lock, so one poll of one future is one operation on `Shared`. `Op`
lists the operations a coroutine has; a coroutine is any function that answers a poll with the
operations it makes and how it returns.
-/
import Zencodec.Coroutine.Store
import Zencodec.Operation.Latch

namespace Zencodec.Coroutine

/-! ### What is passed between the parties -/

inductive InputRequest where
  | atLeast (offset minLen : ℕ)
  | range (offset length : ℕ)
  | len
  deriving DecidableEq, Repr

inductive MetadataUpdate where
  | headerReady
  | colorReady
  | updated
  deriving DecidableEq, Repr

def MetadataUpdate.isHeaderReady : MetadataUpdate → Bool
  | .headerReady | .colorReady | .updated => true

structure BatchMeta where
  y : ℕ
  pass : ℕ
  isFinal : Bool
  deriving DecidableEq, Repr

/-- Rows that the coroutine handed over. -/
structure PendingRows (δ : Type) where
  batch : BatchMeta
  width : ℕ
  lines : List (List UInt8)
  descriptor : δ
  deriving DecidableEq, Repr

def PendingRows.rows {δ : Type} (r : PendingRows δ) : ℕ := r.lines.length

/-- The fields of the image information that the decoder compares. -/
structure ImageInfo (χ : Type) where
  width : ℕ
  height : ℕ
  orientation : ℕ
  sourceColor : χ
  deriving DecidableEq, Repr

/-- The owned result details. -/
structure DecodeDetails (χ : Type) where
  info : ImageInfo χ
  deriving DecidableEq, Repr

structure OutputInfo (δ : Type) where
  width : ℕ
  height : ℕ
  nativeFormat : δ
  deriving DecidableEq, Repr

inductive InterpretationState where
  | pending
  | provisional
  | final
  | unavailable
  deriving DecidableEq, Repr

inductive InterpretationUnavailable where
  | lateColorMetadata
  | forbiddenColorMetadata
  | incompleteColorMetadata
  | unsupportedColor
  | unqualifiedOutput
  deriving DecidableEq, Repr

structure InterpretationFacts (δ : Type) where
  width : ℕ
  height : ℕ
  descriptor : Option δ
  state : InterpretationState
  unavailable : Option InterpretationUnavailable
  deriving DecidableEq, Repr

abbrev BoundaryId : Type := ℕ

structure DecodeBoundary (δ : Type) where
  id : BoundaryId
  facts : InterpretationFacts δ
  deriving DecidableEq, Repr

inductive BoundaryAction where
  | continueReading
  | adoptInterpretation
  deriving DecidableEq, Repr

def BoundaryAction.permits {δ : Type} (facts : InterpretationFacts δ) : BoundaryAction → Bool
  | .continueReading => facts.state = .pending || facts.state = .provisional
  | .adoptInterpretation =>
    facts.state = .final && facts.descriptor.isSome && facts.unavailable.isNone

inductive ControlError where
  | unhandledBoundary
  | notControlled
  | invalidReply
  | outputBeforeInterpretation
  | finalInterpretationChanged
  | inconsistentFacts
  | identityExhausted
  deriving DecidableEq, Repr

/-- `CoroutineError`, as far as the decoder itself raises it. -/
inductive CoroutineError where
  | input (e : InputError)
  | stalled
  | rowsBeforeHeader
  deriving DecidableEq, Repr

/-- What a poll of a future returned. -/
inductive Poll (α : Type) where
  | pending
  | ready (a : α)
  deriving DecidableEq, Repr

def Poll.isPending {α : Type} : Poll α → Bool
  | .pending => true
  | .ready _ => false

/-- Why a future of the context failed. -/
inductive FutureError (ρ : Type) where
  | input (e : InputError)
  | control (e : ControlError)
  | cancelled (reason : ρ)
  deriving DecidableEq, Repr

/-! ### The shared state -/

/-- `Shared`, without the scratch vectors, the spare row buffer and the storage budget. -/
structure Shared (δ χ ρ : Type) where
  controlled : Bool
  boundary : Option (DecodeBoundary δ) := none
  reply : Option (BoundaryId × BoundaryAction) := none
  adopted : Option (InterpretationFacts δ) := none
  controlFailure : Option ControlError := none
  input : InputStore
  need : List InputRequest := []
  rows : Option (PendingRows δ) := none
  metadata : Option MetadataUpdate := none
  info : Option (ImageInfo χ) := none
  details : Option (DecodeDetails χ) := none
  descriptor : Option δ := none
  acceptsProvisional : Bool := false
  cancelled : Option ρ := none
  deriving DecidableEq, Repr

variable {δ χ ρ : Type} [DecidableEq δ] [DecidableEq χ]

/-- Whether facts are those of the image information and the descriptor. -/
def Shared.agrees (s : Shared δ χ ρ) (facts : InterpretationFacts δ) : Bool :=
  facts.descriptor = s.descriptor &&
    s.info.any fun info => info.width = facts.width && info.height = facts.height

/-! ### Reads -/

/-- The reads of one `ReadMany`. -/
inductive Reads where
  | one (offset len : ℕ)
  | sequential (offset len : ℕ)
  | many (reqs : List (ℕ × ℕ))
  deriving DecidableEq, Repr

def Reads.isSequential : Reads → Bool
  | .sequential _ _ => true
  | _ => false

def Reads.spans : Reads → List (ℕ × ℕ)
  | .one offset len | .sequential offset len => [(offset, len)]
  | .many reqs => reqs

/-- One read against the store: satisfied, or the requests for what is missing. -/
def checkRead (s : InputStore) (sequential : Bool) (offset len : ℕ) :
    Except InputError (Option (List InputRequest)) := do
  let _ ← checkedEnd offset len
  if s.cap < len then
    throw (.readExceedsInputCap len s.cap)
  if (s.tryRead offset len).isSome then
    return none
  if s.beyondEnd offset len then
    throw (.unexpectedEof offset len s.total)
  let gaps := s.missing offset len
  if sequential then
    -- one request, from the first missing byte to the end of the read
    let first := gaps.head?.elim offset Prod.fst
    return some [.atLeast first (offset + len - first)]
  return some (gaps.map fun g => .range g.1 g.2)

/-- The reads in order, until one fails: what is missing, what is satisfied, and the error. -/
def checkReads (s : InputStore) (sequential : Bool) :
    List (ℕ × ℕ) → List InputRequest × List (ℕ × ℕ) × Option InputError
  | [] => ([], [], none)
  | (offset, len) :: rest =>
    match checkRead s sequential offset len with
    | .error e => ([], [], some e)
    | .ok none =>
      ((checkReads s sequential rest).1, (offset, len) :: (checkReads s sequential rest).2.1,
        (checkReads s sequential rest).2.2)
    | .ok (some requests) =>
      (requests ++ (checkReads s sequential rest).1, (checkReads s sequential rest).2.1,
        (checkReads s sequential rest).2.2)

def releaseAll : List (ℕ × ℕ) → InputStore → Option InputError × InputStore
  | [], s => (none, s)
  | (offset, len) :: rest, s =>
    match s.release offset len with
    | .ok s => releaseAll rest s
    | .error e => (some e, s)

/-- `ReadMany::poll` -/
def pollRead (reads : Reads) (s : Shared δ χ ρ) :
    Poll (Except (FutureError ρ) Unit) × Shared δ χ ρ :=
  match s.cancelled with
  | some reason => (.ready (.error (.cancelled reason)), s)
  | none =>
    let checked := checkReads s.input reads.isSequential reads.spans
    let s := { s with need := checked.1 }
    match checked.2.2 with
    | some e => (.ready (.error (.input e)), s)
    | none =>
      if checked.1 = [] then
        let released := releaseAll checked.2.1 s.input
        match released.1 with
        | some e => (.ready (.error (.input e)), { s with input := released.2 })
        | none => (.ready (.ok ()), { s with input := released.2 })
      else (.pending, s)

/-- `Len::poll` -/
def pollLen (s : Shared δ χ ρ) : Poll (Except (FutureError ρ) ℕ) × Shared δ χ ρ :=
  match s.cancelled with
  | some reason => (.ready (.error (.cancelled reason)), s)
  | none =>
    match s.input.total with
    | some total => (.ready (.ok total), s)
    | none => (.pending, { s with need := [.len] })

/-! ### Output -/

/-- The first poll of `WriteRows`, made of rows that could be staged. -/
def pollRows (rows : PendingRows δ) (s : Shared δ χ ρ) :
    Poll (Except (FutureError ρ) Unit) × Shared δ χ ρ :=
  match s.controlFailure with
  | some e => (.ready (.error (.control e)), s)
  | none =>
    if s.controlled && (s.adopted.isNone || s.boundary.isSome) then
      (.ready (.error (.control .outputBeforeInterpretation)), s)
    else
      match s.cancelled with
      | some reason => (.ready (.error (.cancelled reason)), s)
      | none => (.pending, { s with rows := some rows })

/-- The first poll of `Announce`. -/
def pollAnnounce (update : MetadataUpdate) (s : Shared δ χ ρ) :
    Poll (Except (FutureError ρ) Unit) × Shared δ χ ρ :=
  match s.cancelled with
  | some reason => (.ready (.error (.cancelled reason)), s)
  | none => (.pending, { s with metadata := some update })

/-! ### Interpretation -/

/-- New information changes what was adopted. -/
def changesInfo (s : Shared δ χ ρ) (info : ImageInfo χ) : Bool :=
  s.adopted.isSome && s.info.any fun old => old ≠ info

def setInfo (info : ImageInfo χ) (s : Shared δ χ ρ) : Shared δ χ ρ :=
  { s with
    controlFailure := if changesInfo s info then some .finalInterpretationChanged
      else s.controlFailure
    info := some info }

def setDetails (details : DecodeDetails χ) (s : Shared δ χ ρ) : Shared δ χ ρ :=
  { s with
    controlFailure := if changesInfo s details.info then some .finalInterpretationChanged
      else s.controlFailure
    details := some details }

def setOutputDescriptor (descriptor : δ) (s : Shared δ χ ρ) : Shared δ χ ρ :=
  { s with
    controlFailure := if s.adopted.isSome && s.descriptor ≠ some descriptor then
        some .finalInterpretationChanged
      else s.controlFailure
    descriptor := some descriptor }

/-- The first poll of `Interpret`, with the identity that the process would issue. -/
def pollInterpret (facts : InterpretationFacts δ) (fresh : Option BoundaryId)
    (s : Shared δ χ ρ) : Poll (Except (FutureError ρ) BoundaryAction) × Shared δ χ ρ :=
  match s.cancelled with
  | some reason => (.ready (.error (.cancelled reason)), s)
  | none =>
    match s.controlFailure with
    | some e => (.ready (.error (.control e)), s)
    | none =>
      if !s.controlled then (.ready (.error (.control .unhandledBoundary)), s)
      else if s.boundary.isSome || s.reply.isSome then
        (.ready (.error (.control .invalidReply)), s)
      else
        match s.adopted with
        | some adopted =>
          if adopted = facts then (.ready (.ok .adoptInterpretation), s)
          else (.ready (.error (.control .finalInterpretationChanged)), s)
        | none =>
          if !s.agrees facts then (.ready (.error (.control .inconsistentFacts)), s)
          else
            match fresh with
            | none => (.ready (.error (.control .identityExhausted)), s)
            | some id => (.pending, { s with boundary := some ⟨id, facts⟩ })

/-- A later poll of the `Interpret` that issued `id`. -/
def pollReply (id : Option BoundaryId) (s : Shared δ χ ρ) :
    Poll (Except (FutureError ρ) BoundaryAction) × Shared δ χ ρ :=
  match s.cancelled with
  | some reason => (.ready (.error (.cancelled reason)), s)
  | none =>
    match s.controlFailure with
    | some e => (.ready (.error (.control e)), s)
    | none =>
      if !s.controlled then (.ready (.error (.control .unhandledBoundary)), s)
      else
        match s.reply with
        | some (replied, action) =>
          if some replied = id then (.ready (.ok action), { s with reply := none })
          else (.ready (.error (.control .invalidReply)), { s with reply := none })
        | none => (.pending, s)

/-! ### Coroutines -/

/-- What a coroutine can do to the shared state. A poll of a future that has handed over its rows
or update does nothing, and so does making or dropping a future. -/
inductive Op (δ χ : Type) where
  | read (reads : Reads)
  /-- `seek`, and the end of `read_exact`. -/
  | seek (offset : ℕ)
  | len
  | writeRows (rows : PendingRows δ)
  | announce (update : MetadataUpdate)
  | setInfo (info : ImageInfo χ)
  | setDetails (details : DecodeDetails χ)
  | setOutputDescriptor (descriptor : δ)
  | interpretation (facts : InterpretationFacts δ) (fresh : Option BoundaryId)
  | reply (id : Option BoundaryId)
  deriving DecidableEq, Repr

def Op.apply (s : Shared δ χ ρ) : Op δ χ → Shared δ χ ρ
  | .read reads => (pollRead reads s).2
  | .seek offset => { s with input := s.input.releaseBefore offset }
  | .len => (pollLen s).2
  | .writeRows rows => (pollRows rows s).2
  | .announce update => (pollAnnounce update s).2
  | .setInfo info => Coroutine.setInfo info s
  | .setDetails details => Coroutine.setDetails details s
  | .setOutputDescriptor descriptor => Coroutine.setOutputDescriptor descriptor s
  | .interpretation facts fresh => (pollInterpret facts fresh s).2
  | .reply id => (pollReply id s).2

/-- What the coroutine hands over for delivery. -/
inductive Item (δ : Type) where
  | rows (rows : PendingRows δ)
  | update (update : MetadataUpdate)
  deriving DecidableEq, Repr

/-- Which of the slots for rows and for an update are full. -/
structure Slots where
  rows : Bool
  update : Bool
  deriving DecidableEq, Repr

def Shared.slots (s : Shared δ χ ρ) : Slots := ⟨s.rows.isSome, s.metadata.isSome⟩

/-- What an operation hands over. -/
def Op.handed (s : Shared δ χ ρ) : Op δ χ → List (Item δ)
  | .writeRows rows => if (pollRows rows s).1.isPending then [.rows rows] else []
  | .announce update => if (pollAnnounce update s).1.isPending then [.update update] else []
  | _ => []

/-- How a poll of the coroutine returned. -/
inductive Polled (δ ε : Type) where
  | pending
  | ready (info : OutputInfo δ)
  | failed (e : ε)
  | unwound
  deriving DecidableEq, Repr

/-- A decode future with states `γ`. -/
structure Future (γ δ χ ρ ε : Type) where
  poll : γ → Shared δ χ ρ → List (Op δ χ) × Polled δ ε × γ

end Zencodec.Coroutine
