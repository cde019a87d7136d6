/-
The pull bridge: a decode thread that reads through two channels.

The thread sends one request at a time and blocks for the reply; the asynchronous side serves
the requests from its source. Both channels hold one message, without identifiers. `Step` is one
atomic step of either party: every interleaving of the two is a run.
-/
import Zencodec.Lib.Trace
import Mathlib.Algebra.Ring.Nat

namespace Zencodec.Bridge

structure ByteRange where
  offset : ℕ
  length : ℕ
  deriving DecidableEq, Repr

/-- The bytes of a range, as far as the source has them. -/
def slice (source : List UInt8) (offset len : ℕ) : List UInt8 := (source.drop offset).take len

/-- `PullRequest` -/
inductive Request where
  | readAt (offset len : ℕ)
  | ranges (ranges : List ByteRange)
  | len
  deriving DecidableEq, Repr

/-- `PullReply` -/
inductive Reply where
  | bytes (bytes : List UInt8)
  | ranges (bufs : List (List UInt8))
  | len (n : ℕ)
  | failed
  deriving DecidableEq, Repr

/-- The calls of the codec on `ChannelReadAt`. `is_empty` is a call of `len`. -/
inductive Call where
  | len
  | readAt (offset len : ℕ)
  | readExactAt (offset len : ℕ)
  | readManyAt (ranges : List ByteRange)
  deriving DecidableEq, Repr

def Call.request : Call → Request
  | .len => .len
  | .readAt offset want | .readExactAt offset want => .readAt offset want
  | .readManyAt ranges => .ranges ranges

inductive CallError where
  | cancelled
  | disconnected
  | source
  | unexpectedReply
  | unexpectedEof (offset len : ℕ) (total : Option ℕ)
  deriving DecidableEq, Repr

/-- What a call returned: the bytes that it wrote to the caller's buffers, or a length. -/
inductive Answer where
  | length (n : ℕ)
  | bytes (bytes : List UInt8)
  | ranges (bufs : List (List UInt8))
  | error (e : CallError)
  /-- A copy between slices of different lengths. -/
  | panicked
  deriving DecidableEq, Repr

/-- `read_at` takes its reply: the bytes, and the length that a short read infers. -/
def receiveBytes (offset want : ℕ) (known : Option ℕ) (b : List UInt8) : Answer × Option ℕ :=
  if want < b.length then (.panicked, known)
  else (.bytes b, if b.length < want then some (offset + b.length) else known)

/-- What a call makes of the reply that it finds, and of the known length. -/
def Call.receive (known : Option ℕ) : Call → Reply → Answer × Option ℕ
  | .len, .len n => (.length n, some n)
  | .readAt offset want, .bytes b => receiveBytes offset want known b
  | .readExactAt offset want, .bytes b =>
    match receiveBytes offset want known b with
    | (.bytes b, known) =>
      if b.length < want then (.error (.unexpectedEof offset want known), known)
      else (.bytes b, known)
    | other => other
  | .readManyAt ranges, .ranges bufs =>
    if (ranges.zip bufs).all fun p => p.1.length = p.2.length then
      (.ranges ((ranges.zip bufs).map Prod.snd), known)
    else (.panicked, known)
  | _, .failed => (.error .source, known)
  | _, _ => (.error .unexpectedReply, known)

/-! ### The two parties -/

/-- Where the decode thread is in `ask`. -/
inductive Codec where
  | idle
  | asking (call : Call)
  | sending (call : Call)
  | waiting (call : Call)
  /-- `run` has returned or unwound, and the reader is dropped. -/
  | ended
  deriving DecidableEq, Repr

/-- Where the asynchronous side is in its loop. -/
inductive Server where
  | receiving
  /-- In `serve_pull`, with the bytes that a `ReadAt` has so far. -/
  | serving (request : Request) (filled : List UInt8)
  | replying (reply : Reply)
  /-- The future has finished or was dropped. -/
  | gone
  deriving DecidableEq, Repr

structure State where
  codec : Codec
  server : Server
  request : Option Request
  reply : Option Reply
  /-- `ChannelReadAt::len` -/
  len : Option ℕ
  deriving DecidableEq, Repr

inductive Label where
  | call (call : Call)
  | send (call : Call)
  | returned (call : Call) (answer : Answer)
  /-- `len_hint` returned `n`. -/
  | hint (n : Option ℕ)
  | silent
  deriving DecidableEq, Repr

/-- The thread after a call. -/
def Answer.next : Answer → Codec
  | .panicked => .ended
  | _ => .idle

/-- One step over `source`. With `pulse`, any check may find a cancellation, whatever the checks
before it found. The source answers a read with any number of the bytes there are, with none only
at its end; it fills ranges whole; and it may fail. -/
inductive Step (source : List UInt8) (pulse : Bool) : State → Label → State → Prop
  | lenKnown {s : State} {n : ℕ} (h : s.codec = .idle) (hn : s.len = some n) :
      Step source pulse s (.returned .len (.length n)) s
  | lenHint {s : State} (h : s.codec = .idle) : Step source pulse s (.hint s.len) s
  | call {s : State} {c : Call} (h : s.codec = .idle) (hc : c = .len → s.len = none) :
      Step source pulse s (.call c) { s with codec := .asking c }
  | refuse {s : State} {c : Call} (h : s.codec = .asking c) (hp : pulse = true) :
      Step source pulse s (.returned c (.error .cancelled)) { s with codec := .idle }
  | pass {s : State} {c : Call} (h : s.codec = .asking c) :
      Step source pulse s .silent { s with codec := .sending c }
  | cancelSend {s : State} {c : Call} (h : s.codec = .sending c) (hp : pulse = true) :
      Step source pulse s (.returned c (.error .cancelled)) { s with codec := .idle }
  | sendClosed {s : State} {c : Call} (h : s.codec = .sending c) (hg : s.server = .gone) :
      Step source pulse s (.returned c (.error .disconnected)) { s with codec := .idle }
  | send {s : State} {c : Call} (h : s.codec = .sending c) (hr : s.request = none)
      (hg : s.server ≠ .gone) :
      Step source pulse s (.send c) { s with codec := .waiting c, request := some c.request }
  | cancelWait {s : State} {c : Call} (h : s.codec = .waiting c) (hp : pulse = true) :
      Step source pulse s (.returned c (.error .cancelled)) { s with codec := .idle }
  | waitClosed {s : State} {c : Call} (h : s.codec = .waiting c) (hr : s.reply = none)
      (hg : s.server = .gone) :
      Step source pulse s (.returned c (.error .disconnected)) { s with codec := .idle }
  | receive {s : State} {c : Call} {r : Reply} (h : s.codec = .waiting c)
      (hr : s.reply = some r) :
      Step source pulse s (.returned c (c.receive s.len r).1)
        { s with
          codec := (c.receive s.len r).1.next
          reply := none
          len := (c.receive s.len r).2 }
  | finish {s : State} (h : s.codec = .idle) :
      Step source pulse s .silent { s with codec := .ended }
  | accept {s : State} {r : Request} (h : s.server = .receiving) (hr : s.request = some r) :
      Step source pulse s .silent { s with server := .serving r [], request := none }
  | read {s : State} {offset want : ℕ} {filled : List UInt8} (n : ℕ)
      (h : s.server = .serving (.readAt offset want) filled) (hpos : 0 < n)
      (hroom : filled.length + n ≤ want) (havail : offset + filled.length + n ≤ source.length) :
      Step source pulse s .silent
        { s with
          server := .serving (.readAt offset want)
            (filled ++ slice source (offset + filled.length) n) }
  | readEnd {s : State} {offset want : ℕ} {filled : List UInt8}
      (h : s.server = .serving (.readAt offset want) filled)
      (hend : source.length ≤ offset + filled.length) :
      Step source pulse s .silent { s with server := .replying (.bytes filled) }
  | readFull {s : State} {offset want : ℕ} {filled : List UInt8}
      (h : s.server = .serving (.readAt offset want) filled) (hlen : want ≤ filled.length) :
      Step source pulse s .silent { s with server := .replying (.bytes filled) }
  | readRanges {s : State} {ranges : List ByteRange} {filled : List UInt8}
      (h : s.server = .serving (.ranges ranges) filled)
      (hfull : ∀ r ∈ ranges, (slice source r.offset r.length).length = r.length) :
      Step source pulse s .silent
        { s with server := .replying (.ranges (ranges.map fun r =>
            slice source r.offset r.length)) }
  | readLen {s : State} {filled : List UInt8} (h : s.server = .serving .len filled) :
      Step source pulse s .silent { s with server := .replying (.len source.length) }
  | fail {s : State} {r : Request} {filled : List UInt8} (h : s.server = .serving r filled) :
      Step source pulse s .silent { s with server := .replying .failed }
  | reply {s : State} {r : Reply} (h : s.server = .replying r) (hr : s.reply = none) :
      Step source pulse s .silent { s with server := .receiving, reply := some r }
  | leave {s : State} : Step source pulse s .silent { s with server := .gone }

/-- A bridge that has not been used; the hint of a faithful source is its length. -/
structure Initial (source : List UInt8) (s : State) : Prop where
  codec : s.codec = .idle
  server : s.server = .receiving
  request : s.request = none
  reply : s.reply = none
  hint : ∀ n, s.len = some n → n = source.length

/-! ### Faithful answers -/

/-- A call returned nothing but what the source has: the bytes that it asked for, and true
lengths. -/
def Faithful (source : List UInt8) : Call → Answer → Prop
  | .len, .length n => n = source.length
  | .readAt offset want, .bytes b => b = slice source offset want
  | .readExactAt offset want, .bytes b => b = slice source offset want ∧ b.length = want
  | .readManyAt ranges, .ranges bufs => bufs = ranges.map fun r => slice source r.offset r.length
  | _, .error (.unexpectedEof _ _ total) => total = some source.length
  | _, .error _ => True
  | _, _ => False

/-- What the thread saw in one step was true. -/
def Label.Faithful (source : List UInt8) : Label → Prop
  | .returned c a => Bridge.Faithful source c a
  | .hint n => ∀ m, n = some m → m = source.length
  | _ => True

/-- A read of at least one byte starts inside the source or at its end. -/
def Call.Within (source : List UInt8) : Call → Prop
  | .readAt offset want | .readExactAt offset want => want = 0 ∨ offset ≤ source.length
  | _ => True

/-- The step sends no request while an earlier one is served or its reply is under way, and none
for bytes past the end of the source. -/
def Clean (source : List UInt8) (s : State) (l : Label) : Prop :=
  ∀ c, l = .send c → s.server = .receiving ∧ s.reply = none ∧ c.Within source

end Zencodec.Bridge
