/-
Random access over a sequential stream.

A `BufferedReadAt` keeps what its policy retains of the bytes that the reader has delivered: a
window of the latest, or a spool of the first up to a cap. The reader is foreign: `Stream`
lists what it has still to deliver and how it will answer, with short reads, interruptions and
failures. When it has no further answer, a call that needs one does not return; the model
ends it with `blocked`, in the state in which it waits.
-/
import Zencodec.Machine

namespace Zencodec.Source

variable {Ω : Type}

/-! ### The reader -/

inductive Error where
  | unexpectedEof (offset len : ℕ) (total : Option ℕ)
  | beyondWindow (offset oldestRetained : ℕ)
  | beyondLimit (needed limit : ℕ)
  | allocation (requested : ℕ)
  | io
  | blocked
  deriving DecidableEq, Repr

/-- How the reader answers a read. -/
inductive Answer where
  | interrupted
  | failed
  /-- A byte and up to `more` others, as far as there are bytes and room. -/
  | bytes (more : ℕ)
  deriving DecidableEq, Repr

structure Stream where
  rest : List UInt8
  answers : List Answer
  deriving DecidableEq, Repr

/-- `read` into `want` bytes, again as long as it is interrupted. -/
def readRetry (want : ℕ) (rest : List UInt8) : List Answer → Except Error (List UInt8) × Stream
  | [] => (.error .blocked, ⟨rest, []⟩)
  | .interrupted :: answers => readRetry want rest answers
  | .failed :: answers => (.error .io, ⟨rest, answers⟩)
  | .bytes more :: answers =>
    let n := min (more + 1) want
    (.ok (rest.take n), ⟨rest.drop n, answers⟩)

def Stream.read (want : ℕ) : Act Stream Error (List UInt8) := fun s =>
  readRetry want s.rest s.answers

/-! ### The buffer -/

/-- How bytes are retained. -/
inductive BufferPolicy where
  | window (windowBytes : ℕ)
  | spool (maxBytes : ℕ)
  deriving DecidableEq, Repr

def BufferPolicy.cap : BufferPolicy → ℕ
  | .window windowBytes => windowBytes
  | .spool maxBytes => maxBytes

structure BufferedReadAt where
  policy : BufferPolicy
  buf : List UInt8
  bufStart : ℕ
  watermark : ℕ
  eof : Bool
  exceeded : Option (ℕ × ℕ)
  deriving DecidableEq, Repr

/-- The buffer, its reader, and the world around them. -/
abbrev Reading (Ω α : Type) : Type := Act (BufferedReadAt × Stream × Ω) Error α

/-- The largest `u64`. -/
def u64Max : ℕ := 18446744073709551615

/-- The scratch space for bytes that are skipped. -/
def scratchLen : ℕ := 16384

/-- The reader as part of the world. -/
def onStream {α : Type} (x : Act Stream Error α) : Reading Ω α :=
  onWorld (Act.focus Prod.fst (fun s t => (s, t.2)) x)

namespace BufferedReadAt

def new (policy : BufferPolicy) : BufferedReadAt := ⟨policy, [], 0, 0, false, none⟩

def lenHint (b : BufferedReadAt) : Option ℕ := if b.eof then some b.watermark else none

def checkLive : Reading Ω Unit := do
  let (b, _) ← Act.get
  match b.exceeded with
  | some (needed, limit) => Act.fail (.beyondLimit needed limit)
  | none => pure ()

/-- `reserve_retained`. Whether the capacity is there already is the allocator's answer too. -/
def reserveRetained (host : Host Ω) (incoming : ℕ) : Reading Ω Unit := do
  let (b, _) ← Act.get
  onWorld (onWorld (host.reserve (.allocation (min (b.buf.length + incoming) b.policy.cap))))

/-- Retain the bytes just delivered. -/
def remember (b : BufferedReadAt) (bytes : List UInt8) : BufferedReadAt :=
  match b.policy with
  | .window windowBytes =>
    let buf :=
      if windowBytes ≤ bytes.length then bytes.drop (bytes.length - windowBytes)
      else b.buf.drop (b.buf.length + bytes.length - windowBytes) ++ bytes
    { b with buf := buf, bufStart := b.watermark - buf.length }
  | .spool _ => { b with buf := b.buf ++ bytes }

/-- At the cap of a spool one more byte tells the end of the stream from excess input. -/
def probe (maxBytes : ℕ) : Reading Ω (List UInt8) := do
  let bytes ← onStream (Stream.read 1)
  if bytes.isEmpty then do
    Act.modify fun (b, t) => ({ b with eof := true }, t)
    pure []
  else do
    let (b, _) ← Act.get
    let needed := b.watermark + 1
    Act.modify fun (b, t) => ({ b with watermark := needed, exceeded := some (needed, maxBytes) }, t)
    Act.fail (.beyondLimit needed maxBytes)

/-- Read up to `want` bytes and retain them. -/
def fetch (host : Host Ω) (want : ℕ) : Reading Ω (List UInt8) := do
  reserveRetained host want
  let bytes ← onStream (Stream.read want)
  Act.modify fun (b, t) =>
    (if bytes.isEmpty then { b with eof := true }
      else remember { b with watermark := b.watermark + bytes.length } bytes, t)
  pure bytes

/-- `read_more`: the next bytes of the stream, at most `want`. -/
def readMore (host : Host Ω) (want : ℕ) : Reading Ω (List UInt8) := do
  checkLive
  let (b, _) ← Act.get
  if b.eof = true ∨ want = 0 then pure []
  else
    match b.policy with
    | .window _ => fetch host want
    | .spool maxBytes =>
      if min want (maxBytes - b.buf.length) = 0 then probe maxBytes
      else fetch host (min want (maxBytes - b.buf.length))

/-- Turns of the loop of `advance_to`. -/
def advance (host : Host Ω) (offset : ℕ) : ℕ → Reading Ω Unit
  | 0 => pure ()
  | turns + 1 => do
    let (b, _) ← Act.get
    if b.watermark < offset ∧ b.eof = false then do
      let _ ← readMore host (min (offset - b.watermark) scratchLen)
      advance host offset turns
    else pure ()

/-- `advance_to`: skip to `offset`. A turn delivers a byte or finds the end. -/
def advanceTo (host : Host Ω) (offset : ℕ) : Reading Ω Unit := do
  let (b, _) ← Act.get
  advance host offset (offset - b.watermark)

/-- Turns of the loop that fills the rest of `want` bytes. -/
def fill (host : Host Ω) (want : ℕ) : ℕ → List UInt8 → Reading Ω (List UInt8)
  | 0, filled => pure filled
  | turns + 1, filled =>
    if filled.length < want then do
      let bytes ← readMore host (want - filled.length)
      if bytes.isEmpty then pure filled else fill host want turns (filled ++ bytes)
    else pure filled

/-- `read_at`: the bytes that it writes to the front of `want` bytes. -/
def readAt (host : Host Ω) (offset want : ℕ) : Reading Ω (List UInt8) :=
  if want = 0 then pure []
  else do
    checkLive
    let (b, _) ← Act.get
    Act.require (decide (offset + want ≤ u64Max)) (.unexpectedEof offset want b.lenHint)
    Act.require (decide (b.bufStart ≤ offset)) (.beyondWindow offset b.bufStart)
    advanceTo host offset
    let (b, _) ← Act.get
    if b.watermark < offset then pure []
    else do
      let filled := min (b.watermark - offset) want
      fill host want (want - filled) ((b.buf.drop (offset - b.bufStart)).take filled)

/-- `read_exact_at`. -/
def readExactAt (host : Host Ω) (offset want : ℕ) : Reading Ω (List UInt8) :=
  if want = 0 then pure []
  else do
    checkLive
    Act.require (decide (offset + want ≤ u64Max)) (.unexpectedEof offset want none)
    let (b, _) ← Act.get
    match b.policy with
    | .window _ => pure ()
    | .spool maxBytes =>
      Act.require (decide (offset + want ≤ maxBytes)) (.beyondLimit (offset + want) maxBytes)
    let bytes ← readAt host offset want
    let (b, _) ← Act.get
    Act.require (decide (bytes.length = want)) (.unexpectedEof offset want b.lenHint)
    pure bytes

/-- Turns of the loop of `len`. -/
def drain (host : Host Ω) : ℕ → Reading Ω Unit
  | 0 => pure ()
  | turns + 1 => do
    let bytes ← readMore host scratchLen
    if bytes.isEmpty then pure () else drain host turns

/-- `len`: consume the stream. A turn that goes on has used an answer of the reader. -/
def len (host : Host Ω) : Reading Ω ℕ := do
  checkLive
  let (_, s, _) ← Act.get
  drain host (s.answers.length + 1)
  let (b, _) ← Act.get
  pure b.watermark

end BufferedReadAt

end Zencodec.Source
