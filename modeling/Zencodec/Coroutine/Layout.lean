/-
The store of fed bytes as it lies in memory.

Without a budget each run is a buffer with a dead front: a release from the front moves `head`,
and the buffer is compacted once the front dominates.  With an admitted budget all runs lie packed
in one buffer, in order, under an index of at most 64 spans, and every insertion and every hole
moves the bytes behind it.

* `InputStore.runs` — either layout, read as runs;
* `Op`, `InputStore.step` — the operations, with what each returns.
-/
import Zencodec.Coroutine.Store

namespace Zencodec.Coroutine.Layout

open Segments

/-! ### Buffers with a dead front -/

/-- One run of held bytes: `data[head..]` is live. -/
structure Segment where
  start : ℕ
  data : List UInt8
  head : ℕ
  deriving DecidableEq, Repr

namespace Segment

def live (s : Segment) : List UInt8 := s.data.drop s.head

def len (s : Segment) : ℕ := s.data.length - s.head

/-- `end()` -/
def stop (s : Segment) : ℕ := s.start + s.len

/-- The live bytes as a run. -/
def run (s : Segment) : Coroutine.Segment := ⟨s.start, s.live⟩

/-- The front is dropped for good once it is most of the buffer, from 4096 bytes on. -/
def compact (s : Segment) : Segment :=
  if s.data.length / 2 < s.head ∧ 4096 ≤ s.head then
    { s with data := s.data.drop s.head, head := 0 }
  else s

end Segment

/-- `BTreeMap::insert` under the segment's start, in the order of the keys. -/
def insert (seg : Segment) : List Segment → List Segment
  | [] => [seg]
  | s :: rest =>
    if s.start < seg.start then s :: insert seg rest
    else if s.start = seg.start then seg :: rest
    else seg :: s :: rest

/-- `BTreeMap::remove` -/
def remove (key : ℕ) (segments : List Segment) : List Segment :=
  segments.filter fun s => s.start ≠ key

/-- `range(..bound).next_back()` -/
def lastBefore (bound : ℕ) (segments : List Segment) : Option Segment :=
  (segments.filter fun s => s.start < bound).getLast?

/-- New bytes behind the run that ends at `offset`, or under a key of their own. -/
def append (offset : ℕ) (bytes : List UInt8) (segments : List Segment) : List Segment :=
  match (lastBefore offset segments).filter fun s => s.stop = offset with
  | some seg =>
    segments.map fun s => if s.start = seg.start then { s with data := s.data ++ bytes } else s
  | none => insert ⟨offset, bytes, 0⟩ segments

/-- What a release leaves of a segment that it overlaps from `cutLo` to `cutHi`. -/
def leave (seg : Segment) (cutLo cutHi : ℕ) (segments : List Segment) : List Segment :=
  if cutLo = seg.start ∧ cutHi = seg.stop then segments
  else if cutLo = seg.start then
    insert (Segment.compact ⟨cutHi, seg.data, seg.head + (cutHi - seg.start)⟩) segments
  else
    let front := { seg with data := seg.data.take (seg.head + (cutLo - seg.start)) }
    if cutHi = seg.stop then insert front segments
    else
      let tail := ⟨cutHi, seg.data.drop (seg.head + (cutHi - seg.start)), 0⟩
      insert tail (insert front segments)

/-! ### The packed buffer -/

/-- `len` bytes from position `at` of the buffer on, held from offset `start` on. -/
structure Span where
  start : ℕ
  dataAt : ℕ
  len : ℕ
  deriving DecidableEq, Repr

namespace Span

/-- `end()` -/
def stop (s : Span) : ℕ := s.start + s.len

/-- The bytes of the span as a run. -/
def run (data : List UInt8) (s : Span) : Coroutine.Segment :=
  ⟨s.start, (data.drop s.dataAt).take s.len⟩

end Span

/-- `data.copy_within(lo..hi, dest)` -/
def copyWithin (data : List UInt8) (lo hi dest : ℕ) : List UInt8 :=
  data.take dest ++ (data.take hi).drop lo ++ data.drop (dest + (hi - lo))

/-- `data[at..at + bytes.len()].copy_from_slice(bytes)` -/
def splice (data : List UInt8) (dest : ℕ) (bytes : List UInt8) : List UInt8 :=
  data.take dest ++ bytes ++ data.drop (dest + bytes.length)

/-- `AdmittedInput`; `spans` are the live ones, the first `count` of the index. -/
structure AdmittedInput where
  data : List UInt8
  spans : List Span
  retained : ℕ
  deriving DecidableEq, Repr

namespace AdmittedInput

/-- `AdmittedInput::new`, where the budget grants both buffers. -/
def new (cap : ℕ) : AdmittedInput := ⟨List.replicate cap 0, [], 0⟩

def covering (a : AdmittedInput) (pos : ℕ) : Option Span :=
  a.spans.find? fun s => s.start ≤ pos && pos < s.stop

/-- The first offset from `start` on that no span covers, up to `stop`. -/
def skipCovered (a : AdmittedInput) (stop : ℕ) : ℕ → ℕ → ℕ
  | 0, start => start
  | fuel + 1, start =>
    match a.covering start with
    | none => start
    | some s =>
      let start := min s.stop stop
      if start = stop then start else skipCovered a stop fuel start

/-- The bytes moved in at `index`, and the spans behind it moved on. -/
def insertBytes (a : AdmittedInput) (index start : ℕ) (bytes : List UInt8) : AdmittedInput :=
  let take := bytes.length
  let previous := if index = 0 then none else a.spans[index - 1]?
  let next := a.spans[index]?
  let dataAt := next.elim a.retained Span.dataAt
  let data := splice (copyWithin a.data dataAt a.retained (dataAt + take)) dataAt bytes
  let spans := a.spans.take index ++
    (a.spans.drop index).map fun s => { s with dataAt := s.dataAt + take }
  let spans := match previous.filter fun s => s.stop = start with
    | some p =>
      match next.filter fun s => start + take = s.start with
      | some n => (spans.set (index - 1) { p with len := p.len + take + n.len }).eraseIdx index
      | none => spans.set (index - 1) { p with len := p.len + take }
    | none =>
      match next.filter fun s => start + take = s.start with
      | some n => spans.set index ⟨start, dataAt, n.len + take⟩
      | none => spans.insertIdx index ⟨start, dataAt, take⟩
  ⟨data, spans, a.retained + take⟩

def feed (a : AdmittedInput) (offset : ℕ) (bytes : List UInt8) :
    Except InputError ℕ × AdmittedInput :=
  match checkedEnd offset bytes.length with
  | .error e => (.error e, a)
  | .ok stop =>
    let start := a.skipCovered stop a.spans.length offset
    let skip := start - offset
    if skip = bytes.length then (.ok skip, a)
    else
      -- `partition_point`
      let index := a.spans.findIdx fun s => start ≤ s.start
      let gap := a.spans[index]?.elim (bytes.length - skip) fun s =>
        min (s.start - start) (bytes.length - skip)
      let take := min gap (a.data.length - a.retained)
      if take = 0 then (.ok skip, a)
      else
        let mergePrevious :=
          index ≠ 0 && (a.spans[index - 1]?).any fun s => s.stop = start
        let mergeNext := (a.spans[index]?).any fun s => start + take = s.start
        if !mergePrevious && !mergeNext && a.spans.length = Coroutine.AdmittedInput.maxSpans then
          (.error (.inputSpanLimit Coroutine.AdmittedInput.maxSpans), a)
        else (.ok (skip + take), a.insertBytes index start ((bytes.drop skip).take take))

/-- `missing_into`: the gaps from `pos` to `stop`. -/
def missing (a : AdmittedInput) (stop : ℕ) : ℕ → ℕ → List (ℕ × ℕ)
  | 0, _ => []
  | fuel + 1, pos =>
    if stop ≤ pos then []
    else
      match a.covering pos with
      | some s => missing a stop fuel (min s.stop stop)
      | none =>
        let next := (a.spans.find? fun s => pos < s.start).elim stop fun s => min s.start stop
        (pos, next - pos) :: missing a stop fuel next

/-- The span with index `i`, without the bytes from `lo` to `hi`. -/
def cutAt (lo hi i : ℕ) (spans : List Span) : List Span :=
  match spans[i]? with
  | none => spans
  | some s =>
    let cutLo := max s.start lo
    let cutHi := min s.stop hi
    if cutHi ≤ cutLo then spans
    else if cutLo = s.start ∧ cutHi = s.stop then spans.eraseIdx i
    else if cutLo = s.start then
      spans.set i ⟨cutHi, s.dataAt + (cutHi - s.start), s.len - (cutHi - s.start)⟩
    else if cutHi = s.stop then spans.set i { s with len := cutLo - s.start }
    else
      (spans.set i { s with len := cutLo - s.start }).insertIdx (i + 1)
        ⟨cutHi, s.dataAt + (cutHi - s.start), s.stop - cutHi⟩

/-- From the last index down. -/
def cutFrom (lo hi : ℕ) : ℕ → List Span → List Span
  | 0, spans => spans
  | i + 1, spans => cutFrom lo hi i (cutAt lo hi i spans)

/-- The spans moved together, from position `dest` of the buffer on; the result has the position
behind the last. -/
def pack : ℕ → List Span → List UInt8 → ℕ × List Span × List UInt8
  | dest, [], data => (dest, [], data)
  | dest, s :: rest, data =>
    let data := copyWithin data s.dataAt (s.dataAt + s.len) dest
    let packed := pack (dest + s.len) rest data
    (packed.1, { s with dataAt := dest } :: packed.2.1, packed.2.2)

def release (a : AdmittedInput) (lo hi : ℕ) : Except InputError Unit × AdmittedInput :=
  if hi ≤ lo then (.ok (), a)
  else if a.spans.any (fun s => s.start < lo && hi < s.stop) &&
      a.spans.length = Coroutine.AdmittedInput.maxSpans then
    (.error (.inputSpanLimit Coroutine.AdmittedInput.maxSpans), a)
  else
    let packed := pack 0 (cutFrom lo hi a.spans.length a.spans) a.data
    (.ok (), ⟨packed.2.2, packed.2.1, packed.1⟩)

/-- The spans as runs. -/
def runs (a : AdmittedInput) : List Coroutine.Segment := a.spans.map (Span.run a.data)

end AdmittedInput

/-! ### The store -/

/-- `InputStore`, without the spare buffer, of which only the allocation is reused. -/
structure InputStore where
  admitted : Option AdmittedInput
  segments : List Segment
  retained : ℕ
  cap : ℕ
  total : Option ℕ
  deriving DecidableEq, Repr

namespace InputStore

def new (cap : ℕ) : InputStore := ⟨none, [], 0, max cap 1, none⟩

/-- `with_storage`, where the budget grants it. -/
def withStorage (cap : ℕ) : InputStore :=
  { new cap with admitted := some (.new (max cap 1)) }

/-- `retained()` -/
def held (s : InputStore) : ℕ := s.admitted.elim s.retained AdmittedInput.retained

/-- The segments as runs. -/
def segmentRuns (s : InputStore) : List Coroutine.Segment := s.segments.map Segment.run

/-- The runs of the layout in use. -/
def runs (s : InputStore) : List Coroutine.Segment :=
  s.admitted.elim s.segmentRuns AdmittedInput.runs

def feedSegments (s : InputStore) (offset : ℕ) (bytes : List UInt8) : ℕ × InputStore :=
  if bytes = [] then (0, s)
  else
    let front :=
      skipHeld (segmentAt s.segmentRuns) (offset + bytes.length) s.segments.length offset
    if offset + bytes.length ≤ front then (bytes.length, s)
    else
      let skip := front - offset
      let rest := bytes.drop skip
      let take := min (upToNext s.segmentRuns front rest.length) (s.cap - s.retained)
      if take = 0 then (skip, s)
      else
        (skip + take,
          { s with
            segments := append front (rest.take take) s.segments
            retained := s.retained + take })

def feed (s : InputStore) (offset : ℕ) (bytes : List UInt8) (eof : Bool) :
    Except InputError ℕ × InputStore :=
  match checkedEnd offset bytes.length with
  | .error e => (.error e, s)
  | .ok stop =>
    let s := if eof then { s with total := some stop } else s
    match s.admitted with
    | some a =>
      let fed := a.feed offset bytes
      (fed.1, { s with admitted := some fed.2 })
    | none =>
      let fed := s.feedSegments offset bytes
      (.ok fed.1, fed.2)

/-- The copy loop of `try_read`: whether all of `out` was filled, and `out` as it is left. -/
def copyOut (lookup : ℕ → Option Coroutine.Segment) (offset : ℕ) :
    ℕ → ℕ → List UInt8 → Bool × List UInt8
  | 0, _, out => (true, out)
  | fuel + 1, filled, out =>
    if out.length ≤ filled then (true, out)
    else
      match lookup (offset + filled) with
      | none => (false, out)
      | some seg =>
        let live := seg.data.drop (offset + filled - seg.start)
        let n := min live.length (out.length - filled)
        copyOut lookup offset fuel (filled + n) (splice out filled (live.take n))

/-- The lookup of the layout in use; the admitted one checks the offset. -/
def lookup (s : InputStore) : ℕ → Option Coroutine.Segment :=
  s.admitted.elim (segmentAt s.segmentRuns) fun a pos =>
    if pos < u64End then (a.covering pos).map (Span.run a.data) else none

/-- `try_read` -/
def tryRead (s : InputStore) (offset : ℕ) (out : List UInt8) : Bool × List UInt8 :=
  copyOut s.lookup offset out.length 0 out

/-- `missing_into` -/
def missing (s : InputStore) (offset len : ℕ) : List (ℕ × ℕ) :=
  s.admitted.elim
    (Segments.missing s.segmentRuns (segmentAt s.segmentRuns) (offset + len) len offset)
    fun a => a.missing (offset + len) len offset

/-- One overlapping segment after the other, from the last on. -/
def releaseLoop (lo hi : ℕ) : ℕ → ℕ → InputStore → InputStore
  | 0, _, s => s
  | fuel + 1, scanEnd, s =>
    match (lastBefore scanEnd s.segments).filter fun seg => lo < seg.stop with
    | none => s
    | some seg =>
      let cutLo := max lo seg.start
      let cutHi := min hi seg.stop
      releaseLoop lo hi fuel seg.start
        { s with
          segments := leave seg cutLo cutHi (remove seg.start s.segments)
          retained := s.retained - (cutHi - cutLo) }

def release (s : InputStore) (offset len : ℕ) : Except InputError Unit × InputStore :=
  match checkedEnd offset len with
  | .error e => (.error e, s)
  | .ok stop =>
    match s.admitted with
    | some a =>
      let released := a.release offset stop
      (released.1, { s with admitted := some released.2 })
    | none =>
      if len = 0 then (.ok (), s)
      else (.ok (), s.releaseLoop offset stop s.segments.length stop)

/-- The result is `none` where the `expect` would panic. -/
def releaseBefore (s : InputStore) (offset : ℕ) : Option InputStore :=
  match s.admitted with
  | some a =>
    match a.release 0 offset with
    | (.ok (), a) => some { s with admitted := some a }
    | (.error _, _) => none
  | none =>
    match s.segments.head? with
    | some first =>
      if first.start < offset then
        match s.release first.start (offset - first.start) with
        | (.ok (), s) => some s
        | (.error _, _) => none
      else some s
    | none => some s

end InputStore

/-! ### Operations -/

inductive Op where
  | feed (offset : ℕ) (bytes : List UInt8) (eof : Bool)
  | release (offset len : ℕ)
  | releaseBefore (offset : ℕ)
  | tryRead (offset : ℕ) (out : List UInt8)
  | missing (offset len : ℕ)
  deriving DecidableEq, Repr

/-- What an operation returns. -/
inductive Answer where
  | fed (result : Except InputError ℕ)
  | released (result : Except InputError Unit)
  | done
  | panicked
  | read (result : Bool × List UInt8)
  | gaps (gaps : List (ℕ × ℕ))
  deriving DecidableEq

namespace InputStore

def step (s : InputStore) : Op → Answer × InputStore
  | .feed offset bytes eof =>
    let fed := s.feed offset bytes eof
    (.fed fed.1, fed.2)
  | .release offset len =>
    let released := s.release offset len
    (.released released.1, released.2)
  | .releaseBefore offset =>
    match s.releaseBefore offset with
    | some s => (.done, s)
    | none => (.panicked, s)
  | .tryRead offset out => (.read (s.tryRead offset out), s)
  | .missing offset len => (.gaps (s.missing offset len), s)

/-- The answers of a sequence of operations, each with the count retained after it, and the
store they leave. -/
def run (s : InputStore) : List Op → List (Answer × ℕ) × InputStore
  | [] => ([], s)
  | op :: ops =>
    let stepped := s.step op
    let rest := stepped.2.run ops
    ((stepped.1, stepped.2.held) :: rest.1, rest.2)

end InputStore

end Zencodec.Coroutine.Layout
