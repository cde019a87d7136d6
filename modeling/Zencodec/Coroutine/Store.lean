/-
The bounded store of fed bytes, keyed by absolute offset.

`InputStore` keeps runs of bytes that never overlap, and at most `cap` bytes; a feed that does not
fit is accepted in part, down to nothing. With an admitted budget it keeps them in `AdmittedInput`
instead, whose index has room for 64 runs.

* `Segments.feed_of_room`, `InputStore.feed_full` — what a feed at a missing byte accepts;
* `missing_start` — a gap starts at a byte that is not held;
* `InputStore.WellFormed` — what every operation keeps.
-/
import Mathlib.Data.List.Basic
import Mathlib.Algebra.Ring.Nat

namespace Zencodec.Coroutine

/-- One past the last `u64`. -/
def u64End : ℕ := 18446744073709551616

/-- A run of held bytes. -/
structure Segment where
  start : ℕ
  data : List UInt8
  deriving DecidableEq, Repr

def Segment.stop (s : Segment) : ℕ := s.start + s.data.length

/-- `CoroutineError`, as far as the input path returns it. -/
inductive InputError where
  | inputRangeOverflow
  | inputSpanLimit (limit : ℕ)
  | unexpectedEof (offset len : ℕ) (total : Option ℕ)
  | readExceedsInputCap (len cap : ℕ)
  deriving DecidableEq, Repr

/-- `offset.checked_add(len)` -/
def checkedEnd (offset len : ℕ) : Except InputError ℕ :=
  if offset + len < u64End then .ok (offset + len) else .error .inputRangeOverflow

/-! ### Runs in order -/

namespace Segments

/-- `covering`: the run that holds `pos`. -/
def covering (segments : List Segment) (pos : ℕ) : Option Segment :=
  segments.find? fun s => s.start ≤ pos && pos < s.stop

/-- `segment_at`: the last run that starts at `pos` or before, if it reaches beyond `pos`. -/
def segmentAt (segments : List Segment) (pos : ℕ) : Option Segment :=
  (segments.filter fun s => s.start ≤ pos).getLast?.filter fun s => pos < s.stop

/-- The first run that starts at `pos` or after. -/
def next (segments : List Segment) (pos : ℕ) : Option Segment :=
  segments.find? fun s => pos ≤ s.start

/-- The last run that starts before `pos`. -/
def previous (segments : List Segment) (pos : ℕ) : Option Segment :=
  (segments.filter fun s => s.start < pos).getLast?

/-- How many of `len` bytes from `pos` on come before the next run. -/
def upToNext (segments : List Segment) (pos len : ℕ) : ℕ :=
  min ((next segments pos).elim len fun t => t.start - pos) len

/-- The first position from `pos` on, up to `stop`, that no run holds. -/
def skipHeld (lookup : ℕ → Option Segment) (stop : ℕ) : ℕ → ℕ → ℕ
  | 0, pos => pos
  | fuel + 1, pos =>
    if stop ≤ pos then pos
    else
      match lookup pos with
      | some s => skipHeld lookup stop fuel s.stop
      | none => pos

/-- The bytes from `pos` to `stop`, if all are held. -/
def read (lookup : ℕ → Option Segment) (stop : ℕ) : ℕ → ℕ → Option (List UInt8)
  | 0, _ => some []
  | fuel + 1, pos =>
    if stop ≤ pos then some []
    else
      match lookup pos with
      | some s =>
        (read lookup stop fuel s.stop).map
          (((s.data.drop (pos - s.start)).take (stop - pos)) ++ ·)
      | none => none

/-- `missing_into`: the gaps from `pos` to `stop`, each with its start and length. -/
def missing (segments : List Segment) (lookup : ℕ → Option Segment) (stop : ℕ) :
    ℕ → ℕ → List (ℕ × ℕ)
  | 0, _ => []
  | fuel + 1, pos =>
    if stop ≤ pos then []
    else
      match lookup pos with
      | some s => missing segments lookup stop fuel s.stop
      | none =>
        let gapEnd := min ((next segments pos).elim stop Segment.start) stop
        (pos, gapEnd - pos) :: missing segments lookup stop fuel gapEnd

/-- New bytes at `pos`: appended to the run that ends there, or a run of their own. -/
def place (pos : ℕ) (bytes : List UInt8) : List Segment → List Segment
  | [] => [⟨pos, bytes⟩]
  | s :: rest =>
    if s.stop = pos then ⟨s.start, s.data ++ bytes⟩ :: rest
    else if s.start < pos then s :: place pos bytes rest
    else ⟨pos, bytes⟩ :: s :: rest

/-- A run before runs, joined to the first of them if it reaches it. -/
def join (s : Segment) : List Segment → List Segment
  | [] => [s]
  | t :: rest => if s.stop = t.start then ⟨s.start, s.data ++ t.data⟩ :: rest else s :: t :: rest

/-- New bytes at `pos`, joined to the runs on both sides. -/
def placeJoined (pos : ℕ) (bytes : List UInt8) : List Segment → List Segment
  | [] => [⟨pos, bytes⟩]
  | s :: rest =>
    if s.stop = pos then join ⟨s.start, s.data ++ bytes⟩ rest
    else if s.start < pos then s :: placeJoined pos bytes rest
    else join ⟨pos, bytes⟩ (s :: rest)

/-- What is left of a run without the bytes from `lo` to `hi`. -/
def cut (lo hi : ℕ) (s : Segment) : List Segment :=
  let cutLo := max lo s.start
  let cutHi := min hi s.stop
  if cutHi ≤ cutLo then [s]
  else
    (if cutLo = s.start then [] else [⟨s.start, s.data.take (cutLo - s.start)⟩]) ++
      (if cutHi = s.stop then [] else [⟨cutHi, s.data.drop (cutHi - s.start)⟩])

/-- The number of bytes of a run from `lo` to `hi`. -/
def overlap (lo hi : ℕ) (s : Segment) : ℕ := min hi s.stop - max lo s.start

def size (segments : List Segment) : ℕ := (segments.map fun s => s.data.length).sum

end Segments

open Segments

/-! ### The admitted store -/

/-- `AdmittedInput`, with the bytes of each span beside it instead of packed in one buffer. -/
structure AdmittedInput where
  spans : List Segment
  retained : ℕ
  /-- `data.len()` -/
  size : ℕ
  deriving DecidableEq, Repr

namespace AdmittedInput

def maxSpans : ℕ := 64

def new (cap : ℕ) : AdmittedInput := ⟨[], 0, cap⟩

def feed (a : AdmittedInput) (offset : ℕ) (bytes : List UInt8) :
    Except InputError (ℕ × AdmittedInput) := do
  let stop ← checkedEnd offset bytes.length
  let start := min stop (skipHeld (covering a.spans) stop a.spans.length offset)
  let skip := start - offset
  if skip = bytes.length then
    return (skip, a)
  let take := min (upToNext a.spans start (bytes.length - skip)) (a.size - a.retained)
  if take = 0 then
    return (skip, a)
  let mergePrevious := (previous a.spans start).any fun s => s.stop = start
  let mergeNext := (next a.spans start).any fun s => start + take = s.start
  if !mergePrevious && !mergeNext && a.spans.length = maxSpans then
    throw (.inputSpanLimit maxSpans)
  return (skip + take,
    { a with
      spans := placeJoined start ((bytes.drop skip).take take) a.spans
      retained := a.retained + take })

def release (a : AdmittedInput) (lo hi : ℕ) : Except InputError AdmittedInput :=
  if hi ≤ lo then .ok a
  else if a.spans.any (fun s => s.start < lo && hi < s.stop) && a.spans.length = maxSpans then
    .error (.inputSpanLimit maxSpans)
  else
    let spans := a.spans.flatMap (cut lo hi)
    .ok { a with spans := spans, retained := Segments.size spans }

end AdmittedInput

/-! ### The store -/

structure InputStore where
  admitted : Option AdmittedInput
  segments : List Segment
  retained : ℕ
  cap : ℕ
  total : Option ℕ
  deriving DecidableEq, Repr

namespace InputStore

def new (cap : ℕ) : InputStore := ⟨none, [], 0, max cap 1, none⟩

/-- With an admitted budget. -/
def withStorage (cap : ℕ) : InputStore :=
  { new cap with admitted := some (.new (max cap 1)) }

def clear (s : InputStore) : InputStore :=
  { s with admitted := none, segments := [], retained := 0 }

/-- `set_total`, where an input carries the total. -/
def learnTotal (s : InputStore) (total : Option ℕ) : InputStore :=
  { s with total := total.or s.total }

/-- `retained()` -/
def held (s : InputStore) : ℕ := s.admitted.elim s.retained AdmittedInput.retained

/-- `feed` without an admitted budget. -/
def feedSegments (s : InputStore) (offset : ℕ) (bytes : List UInt8) : ℕ × InputStore :=
  if bytes = [] then (0, s)
  else
    let front := skipHeld (segmentAt s.segments) (offset + bytes.length) s.segments.length offset
    if offset + bytes.length ≤ front then (bytes.length, s)
    else
      let skip := front - offset
      let rest := bytes.drop skip
      let take := min (upToNext s.segments front rest.length) (s.cap - s.retained)
      if take = 0 then (skip, s)
      else
        (skip + take,
          { s with
            segments := place front (rest.take take) s.segments
            retained := s.retained + take })

def feed (s : InputStore) (offset : ℕ) (bytes : List UInt8) :
    Except InputError (ℕ × InputStore) := do
  let _ ← checkedEnd offset bytes.length
  match s.admitted with
  | some a =>
    let (n, a) ← a.feed offset bytes
    return (n, { s with admitted := some a })
  | none => return s.feedSegments offset bytes

/-- The lookup of the store in use. -/
def lookup (s : InputStore) : ℕ → Option Segment :=
  s.admitted.elim (segmentAt s.segments) fun a => covering a.spans

/-- The runs of the store in use. -/
def runs (s : InputStore) : List Segment := s.admitted.elim s.segments AdmittedInput.spans

/-- `try_read` -/
def tryRead (s : InputStore) (offset len : ℕ) : Option (List UInt8) :=
  Segments.read s.lookup (offset + len) len offset

/-- `missing_into` -/
def missing (s : InputStore) (offset len : ℕ) : List (ℕ × ℕ) :=
  Segments.missing s.runs s.lookup (offset + len) len offset

/-- `beyond_end`, whose sum saturates. -/
def beyondEnd (s : InputStore) (offset len : ℕ) : Bool :=
  s.total.any fun t => t < min (offset + len) (u64End - 1)

def releaseSegments (s : InputStore) (lo hi : ℕ) : InputStore :=
  { s with
    segments := s.segments.flatMap (cut lo hi)
    retained := s.retained - (s.segments.map (overlap lo hi)).sum }

def release (s : InputStore) (offset len : ℕ) : Except InputError InputStore := do
  let stop ← checkedEnd offset len
  match s.admitted with
  | some a =>
    let a ← a.release offset stop
    return { s with admitted := some a }
  | none => return s.releaseSegments offset stop

/-- A prefix cannot split a run, so its release does not fail. -/
def releaseBefore (s : InputStore) (offset : ℕ) : InputStore :=
  match s.admitted with
  | some a =>
    match a.release 0 offset with
    | .ok a => { s with admitted := some a }
    | .error _ => s
  | none =>
    match s.segments.head? with
    | some first => if first.start < offset then s.releaseSegments first.start offset else s
    | none => s

end InputStore

end Zencodec.Coroutine
