/-
Driving a stage over a random-access source.

A `ReadAtCursor` offers its window, or a buffer that it fetched, takes what the stage consumed
and serves what the stage needs next. `serve` reads forward into the window, or fetches a batch
of ranges, or asks for the length. A `Call` is one of the three, in any order.

The source and the allocator act on the world `Ω`. Counters of steps and reads are left out.
-/
import Zencodec.Io.Fetch

namespace Zencodec.Io

open Incremental (ByteRange Input InputRequest u64Max)

variable {Ω ε SE : Type}

/-! ### Sources -/

/-- A random-access source. A read leaves as many bytes in its buffer as there were, and counts
no more of them. -/
structure ReadAt (Ω SE : Type) where
  asSlice : Ω → Option (List UInt8)
  lenHint : Ω → Option ℕ
  len : Ω → Except SE ℕ × Ω
  readAt : ℕ → List UInt8 → Ω → (Except SE ℕ × List UInt8) × Ω
  readExactAt : ℕ → List UInt8 → Ω → (Except SE Unit × List UInt8) × Ω
  readManyAt : List (ℕ × List UInt8) → Ω → (Except SE Unit × List (List UInt8)) × Ω
  length_readAt : ∀ offset out w, (readAt offset out w).1.2.length = out.length
  le_of_readAt : ∀ offset out w n, (readAt offset out w).1.1 = .ok n → n ≤ out.length
  length_readExactAt : ∀ offset out w, (readExactAt offset out w).1.2.length = out.length
  length_readManyAt : ∀ reqs w,
    (readManyAt reqs w).1.2.map List.length = reqs.map fun r => r.2.length

/-- What a read at `offset` leaves in `out`, over the bytes `src`. -/
def overwrite (src : List UInt8) (offset : ℕ) (out : List UInt8) : List UInt8 :=
  (src.drop offset).take out.length ++ out.drop (src.length - offset)

theorem length_overwrite (src : List UInt8) (offset : ℕ) (out : List UInt8) :
    (overwrite src offset out).length = out.length := by
  simp only [overwrite, List.length_append, List.length_take, List.length_drop]
  omega

/-- A source over the bytes `src`, which reads as much as there is and does not know its length
in advance. -/
def streamSource (src : List UInt8) : ReadAt Unit Unit where
  asSlice := fun _ => none
  lenHint := fun _ => none
  len := fun w => (.ok src.length, w)
  readAt := fun offset out w =>
    ((.ok (min out.length (src.length - offset)), overwrite src offset out), w)
  readExactAt := fun offset out w =>
    ((if offset + out.length ≤ src.length then .ok () else .error (), overwrite src offset out), w)
  readManyAt := fun reqs w =>
    ((if reqs.all fun r => decide (r.1 + r.2.length ≤ src.length) then .ok () else .error (),
      reqs.map fun r => overwrite src r.1 r.2), w)
  length_readAt := fun offset out _ => length_overwrite src offset out
  le_of_readAt := fun _ out _ _ h => (Except.ok.inj h) ▸ min_le_left _ _
  length_readExactAt := fun offset out _ => length_overwrite src offset out
  length_readManyAt := fun reqs _ => by
    rw [List.map_map]
    exact List.map_congr_left fun r _ => length_overwrite src r.1 r.2

/-- Failure of a drive: of the stage, of the source, of the protocol, or of admission. -/
inductive DriveFailure (ε SE : Type) where
  | step (e : ε)
  | source (e : SE)
  | protocol (v : ProtocolViolation)
  | input (e : InputError)
  deriving DecidableEq, Repr

/-! ### The cursor -/

/-- Tuning for the drivers. -/
structure DriveOptions where
  maxGap : ℕ
  readSize : ℕ
  limits : IoLimits

/-- Drives a stage over bytes already in memory: `start..stop` is what it offers. -/
structure SliceCursor where
  start : ℕ
  stop : ℕ
  window : ℕ
  deriving DecidableEq, Repr

namespace SliceCursor

def new (window : ℕ) : SliceCursor := ⟨0, 0, max window 1⟩

/-- The input to offer, clamped to `bytes`. -/
def offer (c : SliceCursor) (bytes : List UInt8) : Input × SliceCursor :=
  let stop := min c.stop bytes.length
  let start := min c.start stop
  (⟨start, (bytes.take stop).drop start, some bytes.length⟩,
    { c with start := start, stop := stop })

def take (c : SliceCursor) (consumed : ℕ) : SliceCursor :=
  { c with start := c.start + min consumed (c.stop - c.start) }

end SliceCursor

structure ReadAtCursor where
  opts : DriveOptions
  window : Window
  started : Bool
  fetched : List Fetched
  fromFetched : Option (ℕ × ℕ)
  slice : Option SliceCursor

namespace ReadAtCursor

def new (opts : DriveOptions) : ReadAtCursor := ⟨opts, Window.new, false, [], none, none⟩

/-- Retained driver-owned payload capacity. -/
def retainedInputCapacity (usizeMax : ℕ) (c : ReadAtCursor) : ℕ :=
  min (c.window.capacity + fetchedCapacity usizeMax c.fetched) usizeMax

end ReadAtCursor

/-- What a driver does on its state and the world. -/
abbrev Drive (Ω ε SE : Type) := Act (ReadAtCursor × Ω) (Halt (DriveFailure ε SE))

section Lifts

variable {α : Type}

def onWindow (x : Act (Window × Ω) InputError α) : Drive Ω ε SE α :=
  Act.focus (fun t => (t.1.window, t.2)) (fun s t => ({ t.1 with window := s.1 }, s.2))
    (Act.mapError (fun e => .error (.input e)) x)

def onMemory (x : Act Ω InputError α) : Drive Ω ε SE α :=
  Act.focus Prod.snd (fun w t => (t.1, w)) (Act.mapError (fun e => .error (.input e)) x)

/-- What may panic, such as planning. -/
def onPlan (x : Act Ω (Halt InputError) α) : Drive Ω ε SE α :=
  Act.focus Prod.snd (fun w t => (t.1, w))
    (Act.mapError (fun e => match e with
      | .error e => .error (.input e)
      | .panic => .panic) x)

def orInput (r : Except InputError α) : Drive Ω ε SE α :=
  Act.lift (r.mapError fun e => .error (.input e))

def update (f : ReadAtCursor → ReadAtCursor) : Drive Ω ε SE Unit := Act.modify fun t => (f t.1, t.2)

/-- Let the source read into the `n` bytes after the held ones. -/
def readInto (read : List UInt8 → Ω → (Except SE α × List UInt8) × Ω) (n : ℕ) : Drive Ω ε SE α :=
  Act.foreign fun t =>
    let r := read (t.1.window.spare n) t.2
    (r.1.1.mapError fun e => .error (.source e),
      ({ t.1 with window := t.1.window.fill r.1.2 }, r.2))

end Lifts

namespace ReadAtCursor

variable (mem : Memory Ω) (o : Overflow) (source : ReadAt Ω SE)

/-! ### Offering and taking -/

/-- The first offer detects an in-memory source and starts the length hint. -/
def start : Drive Ω ε SE Unit := do
  let t ← Act.get
  if t.1.started then pure ()
  else if (source.asSlice t.2).isSome then
    update fun c => { c with started := true, slice := some (.new c.opts.readSize) }
  else
    update fun c => { c with
      started := true
      window := { c.window with total := source.lenHint t.2 } }

def offer : Drive Ω ε SE Input := do
  start source
  let t ← Act.get
  match t.1.slice with
  | some cursor =>
    -- The source stays in memory.
    let bytes ← Act.getOr (source.asSlice t.2) .panic
    update fun c => { c with slice := some (cursor.offer bytes).2 }
    pure (cursor.offer bytes).1
  | none =>
    match t.1.fromFetched with
    | some (i, skip) =>
      let f ← Act.getOr t.1.fetched[i]? .panic
      Act.require (skip ≤ f.2.data.length) .panic
      pure ⟨f.1 + skip, f.2.data.drop skip, t.1.window.total⟩
    | none => pure t.1.window.input

/-- Drop `consumed` bytes from the offered front. -/
def take (consumed : ℕ) (c : ReadAtCursor) : ReadAtCursor :=
  match c.slice with
  | some cursor => { c with slice := some (cursor.take consumed) }
  | none =>
    match c.fromFetched with
    | some (i, skip) =>
      let len := (c.fetched[i]?).elim 0 fun f => f.2.data.length
      { c with fromFetched := some (i, min (min (skip + consumed) mem.usizeMax) len) }
    | none => { c with window := c.window.consume consumed }

/-! ### Serving -/

/-- What the fetched buffers leave of the limit. -/
def roomLeft : Drive Ω ε SE ℕ := do
  let t ← Act.get
  Act.getOr (o.sub (mem.usizeMax + 1) t.1.opts.limits.inputBytes
    (fetchedCapacity mem.usizeMax t.1.fetched)) .panic

def position (offset : ℕ) : Drive Ω ε SE Bool := do
  let t ← Act.get
  let (retained, window, fetched) := t.1.window.position offset t.1.fetched
  update fun c => { c with window := window, fetched := fetched }
  pure retained

/-- Read until the window holds `target` bytes or the source ends. -/
def fillLoop (target : ℕ) : ℕ → Drive Ω ε SE Unit
  | 0 => pure ()
  | fuel + 1 => do
    let t ← Act.get
    let held := t.1.window.len
    let stop := t.1.window.endOffset
    if held < target ∧ t.1.window.total ≠ some stop then do
      let want := min (target - held) (min (u64Max - stop) mem.usizeMax)
      let limit ← roomLeft mem o
      onWindow (Window.trySpare mem want limit)
      let n ← readInto (source.readAt stop) want
      update fun c => { c with window := c.window.commit n }
      -- A short read marks the end.
      if n < want then
        update fun c => { c with window := { c.window with total := some (stop + n) } }
      fillLoop target fuel
    else pure ()

def serveAtLeast (offset minLen : ℕ) : Drive Ω ε SE Unit := do
  update fun c => { c with fromFetched := none }
  let _ ← position offset
  let t ← Act.get
  if max minLen 1 ≤ t.1.window.len then pure ()
  else do
    orInput t.1.opts.limits.reading
    let target := min (min (readTarget mem.usizeMax minLen t.1.opts.readSize)
      t.1.opts.limits.inputBytes) (min (u64Max - offset) mem.usizeMax)
    update fun c => { c with
      fetched := makeRoom mem.usizeMax c.window c.fetched target c.opts.limits }
    fillLoop mem o source target (target + 1)

/-- Read the missing tail of a range whose first bytes are in the window. -/
def readTail (first : ByteRange) : Drive Ω ε SE Unit := do
  let t ← Act.get
  let stop := t.1.window.endOffset
  let missing ← Act.getOr (o.sub (u64Max + 1) first.stop stop) .panic
  let missing := missing % (mem.usizeMax + 1)
  orInput t.1.opts.limits.reading
  update fun c => { c with
    fetched := makeRoom mem.usizeMax c.window c.fetched (first.length % (mem.usizeMax + 1))
      c.opts.limits }
  let limit ← roomLeft mem o
  onWindow (Window.trySpare mem missing limit)
  readInto (source.readExactAt stop) missing
  update fun c => { c with window := c.window.commit missing }

/-- `chunks_mut`: `n` elements at a time, the first of them being collected. -/
def chunks {α : Type} (n : ℕ) : List α → List α → List (List α)
  | acc, [] => if acc.isEmpty then [] else [acc]
  | acc, a :: l =>
    if n ≤ acc.length then acc :: chunks n [a] l else chunks n (acc ++ [a]) l

/-- Fill the buffers batch by batch. -/
def readBatches : List (List Fetched) → Act Ω SE (List Fetched)
  | [] => pure []
  | batch :: rest => do
    let filled ← Act.foreign fun w =>
      let r := source.readManyAt (batch.map fun f => (f.1, f.2.data)) w
      (r.1.1.map fun _ => (batch.zip r.1.2).map fun p => (p.1.1, p.1.2.replace p.2), r.2)
    let others ← readBatches rest
    pure (filled ++ others)

/-- A new round: every range request, coalesced, batch by batch. -/
def fetchRound (first : ByteRange) (requests : List InputRequest) : Drive Ω ε SE Unit := do
  let t ← Act.get
  let limits := t.1.opts.limits
  let coalesced ← onPlan (plan mem.toHost o first requests t.1.opts.maxGap limits)
  -- The buffers of the last round are reused, and given up on failure. A plan allows reads, so
  -- there is something in a batch.
  update fun c => { c with window := c.window.release, fetched := [] }
  let pending ← onMemory (allocateRanges mem coalesced limits t.1.fetched)
  onMemory (mem.reserve (.allocation (min (pending.length * mem.requestSize) mem.usizeMax)))
  let pending ← Act.focus Prod.snd (fun w t => (t.1, w))
    (Act.mapError (fun e => .error (.source e))
      (readBatches source (chunks limits.inFlight [] pending)))
  -- Publish only complete reads.
  update fun c => { c with fetched := pending }
  let found ← Act.getOr (findHolding o first pending) .panic
  let i ← Act.getOr found .panic
  let f ← Act.getOr pending[i]? .panic
  update fun c => { c with fromFetched := some (i, first.offset - f.1) }

def serveRange (first : ByteRange) (requests : List InputRequest) : Drive Ω ε SE Unit := do
  let t ← Act.get
  if t.1.window.base ≤ first.offset ∧ first.stop ≤ t.1.window.endOffset then
    update fun c => { c with
      fromFetched := none
      window := c.window.consume (first.offset - c.window.base) }
  else do
    let found ← Act.getOr (findHolding o first t.1.fetched) .panic
    match found with
    | some i => do
      let f ← Act.getOr t.1.fetched[i]? .panic
      update fun c => { c with fromFetched := some (i, first.offset - f.1) }
    | none => do
      update fun c => { c with fromFetched := none }
      let retained ← position first.offset
      if retained then readTail mem o source first
      else fetchRound mem o source first requests

def serveLen : Drive Ω ε SE Unit := do
  update fun c => { c with fromFetched := none }
  let t ← Act.get
  if t.1.window.total.isNone then do
    orInput t.1.opts.limits.reading
    let total ← Act.foreign fun t =>
      ((source.len t.2).1.mapError fun e => .error (.source e), (t.1, (source.len t.2).2))
    update fun c => { c with window := { c.window with total := some total } }
  else pure ()

/-- Make the input for the first of `requests` available. -/
def serve (requests : List InputRequest) : Drive Ω ε SE Unit := do
  let t ← Act.get
  let request ← orInput (select requests t.1.opts.limits)
  match request with
  | .atLeast offset minLen => serveAtLeast mem o source offset minLen
  | .range first => serveRange mem o source first requests
  | .len => serveLen source

/-! ### Calls -/

inductive Call where
  | offer
  | take (consumed : ℕ)
  | serve (requests : List InputRequest)
  deriving DecidableEq, Repr

/-- A driver's call, as a computation on the cursor and the world. -/
def call : Call → Drive Ω ε SE Unit
  | .offer => do
    let _ ← offer source
    pure ()
  | .take consumed => update (take mem consumed)
  | .serve requests => serve mem o source requests

end ReadAtCursor

end Zencodec.Io
