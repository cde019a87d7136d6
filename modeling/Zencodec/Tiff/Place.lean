/-
Placement: the candidates of a walk.

`place` turns a walk into candidates and resolves their overlaps.  Values and extents come
first, so that pointer problems land on entries before the entries become parts; then the
directories with their entries.  `Placing` is the state of the first half: the walk, whose
remarks and budgets change, the candidates so far, the remarks to add to the entries of the
directory at hand, and what is left of the extent budget.
-/
import Zencodec.Tiff.Queue
import Zencodec.Tiff.Placed
import Zencodec.Tiff.TagNames

open Slices StableSort Tiling

namespace Zencodec

namespace Tiff

/-- The sum, saturating at 64 bits. -/
def satAdd (a b : ℕ) : ℕ := min (a + b) (2 ^ 64 - 1)

/-- A detail with an optional remark. -/
def pushOpt (detail : String) (note : Option String) : String :=
  match note with
  | some text => pushNote detail text
  | none => detail

/-- Read the caller's stop token. -/
def Walk.poll (rules : Rules) (w : Walk) : Bool × Walk :=
  (rules.cancelled w.polls, { w with polls := w.polls + 1 })

/-! ### Entries -/

/-- The children of an entry whose value lies in it: the part the decode path does not use,
and unused bytes that are not zero. -/
def inlineChildren (w : Walk) (rules : Rules) (ifd : Ifd) (ei : ℕ) (e : Entry) : List Cand :=
  let size := match w.loc e with
    | .inline => some (((typeSize e.typ).bind fun s => checked (s * e.count)).getD 0)
    | .empty => some 0
    | _ => none
  match size with
  | none => []
  | some size =>
    let tag := PartTag.code e.tag.toUInt32
    let tail := if 0 < size then
        (rules.valueTail w ifd ei).filter fun t => t.1 < size
      else none
    let kept := match tail with
      | some (keep, fate) =>
        let detail := s!"{tagName ifd.kind e.tag} value bytes {keep}..{size}"
        [Cand.new ⟨e.field + keep, e.field + size⟩ .field tag fate.d
          (pushOpt detail fate.note)]
      | none => []
    let unused : Span ℕ := ⟨e.field + size, e.field + w.lay.inlineCap⟩
    let dirty := decide (unused.start < unused.stop) &&
      (get w.d unused.start (unused.stop - unused.start)).any fun b => b.any (· ≠ 0)
    kept ++ if dirty then
        [Cand.new unused .gap .none .padding
          "unused bytes of the inline value field, not zero; nothing reads them"]
      else []

/-- The part of one entry. -/
def entryCand (w : Walk) (rules : Rules) (ifd : Ifd) (ei : ℕ) (e : Entry) : Cand :=
  let fate := if ifd.problem.isSome then Fate.because .malformed "in an unreadable IFD"
    else rules.entry w ifd ei
  let detail := s!"{tagName ifd.kind e.tag} {typeName e.typ}[{e.count}]"
  let detail := e.notes.foldl pushNote (pushOpt detail fate.note)
  let c := Cand.new ⟨e.pos, e.pos + w.lay.entryLen⟩ .field (.code e.tag.toUInt32) fate.d detail
  { c with children := if ifd.problem.isNone then inlineChildren w rules ifd ei e else [] }

/-- The part of one directory, with its entries. -/
def ifdCand (w : Walk) (rules : Rules) (ifd : Ifd) : Cand :=
  let fate := match ifd.problem with
    | some p => Fate.because .malformed p
    | none => rules.ifd w ifd
  let detail := s!"{ifd.name}, {ifd.entries.length} entries"
  let detail := pushOpt detail fate.note
  let detail := if 1 < ifd.roles.length then
      let others := String.intercalate ", " ((ifd.roles.drop 1).map fun r => kindName r.1)
      pushNote detail s!"also reached as {others}"
    else detail
  let detail := ifd.notes.foldl (fun detail n => pushNote detail s!"next IFD: {n}") detail
  let c := Cand.new ⟨ifd.pos, ifd.stop⟩ .ifd .none fate.d detail
  { c with children := ifd.entries.zipIdx.map fun p => entryCand w rules ifd p.2 p.1 }

/-- The header's part. -/
def headerCand (w : Walk) : Cand :=
  if w.headerOk then
    let what := if w.lay.big then "BigTIFF header" else "TIFF header"
    let c := Cand.new w.header .header .none .structure what
    match w.fatal with
    | some why => c.note why
    | none => c
  else Cand.new w.header .header .none .malformed (w.fatal.getD "")

/-! ### Values and extents -/

/-- The state of the placement of values and extents. -/
structure Placing where
  w : Walk
  values : List Cand
  /-- Remarks for the entries of the directory at hand. -/
  notes : List (ℕ × String)
  logicalEnd : ℕ
  /-- Extents that may still be listed. -/
  extentsLeft : ℕ

namespace Placing

def limit (st : Placing) : ℕ := st.w.limit

def note (st : Placing) (ei : ℕ) (text : String) : Placing :=
  { st with notes := st.notes ++ [(ei, text)] }

def add (st : Placing) (c : Cand) : Placing := { st with values := st.values ++ [c] }

/-- A part or claim reaches up to `stop`. -/
def reach (st : Placing) (stop : ℕ) : Placing :=
  { st with logicalEnd := max st.logicalEnd (min stop st.limit) }

/-- A claim leads out of the data. -/
def reachAll (st : Placing) : Placing := { st with logicalEnd := st.limit }

def spendBudget (st : Placing) : Placing :=
  let w := { st.w with budgetHit := true }
  { st with w := w }

end Placing

/-- Place the value of one entry, when it lies outside the entry. -/
def placeValue (rules : Rules) (ifd : Ifd) (st : Placing) (p : Entry × ℕ) : Placing :=
  let (e, ei) := p
  match st.w.loc e with
  | .outOfLine off size =>
    let fate := rules.value st.w ifd ei
    let detail := pushOpt s!"{tagName ifd.kind e.tag} value, {ifd.name}" fate.note
    let stop := satAdd off size
    if st.limit ≤ off then
      (st.note ei s!"value at {off} is past the end of the data").reachAll
    else
      let truncated := decide (st.limit < stop)
      let detail := if truncated then pushNote detail "truncated by the end of the data"
        else detail
      let disp := if truncated then .malformed else fate.d
      let tag := PartTag.code e.tag.toUInt32
      let tail := if truncated then none
        else (rules.valueTail st.w ifd ei).filter fun t => t.1 < size
      let children := match tail with
        | some (keep, fate) =>
          [Cand.new ⟨off + keep, stop⟩ .field tag fate.d (pushOpt "" fate.note)]
        | none => []
      let c := Cand.new ⟨off, min stop st.limit⟩ .field tag disp detail
      let st := (if truncated then st.reachAll else st).reach stop
      st.add { c with children := children }
  | _ => st

/-- The extents of one rule, as they are emitted. -/
structure Listing where
  ifd : Ifd
  rule : ExtentRule
  /-- Index of the entry that holds the offsets. -/
  oi : ℕ
  /-- The extents are strips or tiles of image data. -/
  pixels : Bool
  uses : List ChunkUse

/-- Some chunk from `first` to `last` whose end is not known. -/
def Listing.unsplit (l : Listing) (first last : ℕ) : Bool :=
  l.pixels && (List.range' first (last + 1 - first)).any fun k =>
    match l.uses[k]? with
    | some u => u.used.isNone && u.unread.isNone && u.unknown.isNone
    | none => true

/-- The part of the chunks `first` to `last`, or the remark that they lie past the end. -/
def Listing.cand (l : Listing) (limit : ℕ) (r : Span ℕ) (first last : ℕ) :
    Except String Cand :=
  let which := if first = last then s!"{l.rule.what} {first}"
    else s!"{l.rule.what}s {first}..={last}"
  if limit ≤ r.start then .error s!"{which} at {r.start} is past the end of the data"
  else
    let detail := pushOpt s!"{l.ifd.name}, {which}" l.rule.fate.note
    let detail := if l.unsplit first last then
        pushNote detail "bytes after the end of the coded data are not split out"
      else detail
    let detail := if first = last then pushOpt detail (l.uses[first]?.bind ChunkUse.note)
      else detail
    let truncated := decide (limit < r.stop)
    let detail := if truncated then pushNote detail "truncated by the end of the data"
      else detail
    let disp := if truncated then .malformed else l.rule.fate.d
    .ok (Cand.new ⟨r.start, min r.stop limit⟩ l.rule.kind (.code l.rule.offsets.toUInt32) disp
      detail)

/-- List the chunks `first` to `last`; `amend` completes their part. -/
def Placing.emit (st : Placing) (l : Listing) (r : Span ℕ) (first last : ℕ)
    (amend : Cand → Cand) : Placing :=
  match l.cand st.limit r first last with
  | .ok c => st.add (amend c)
  | .error text => st.note l.oi text

/-- A run of chunks that follow each other in the file: its bytes, first and last index. -/
abbrev Run := Span ℕ × ℕ × ℕ

def Placing.flush (st : Placing) (l : Listing) : Option Run → Placing
  | some (r, first, last) => st.emit l r first last id
  | none => st

/-- List the chunks with index, offset and length, merging those that follow each other
both in index and in the file. -/
def placeChunks (l : Listing) : List (ℕ × ℕ × ℕ) → Option Run → Placing → Placing
  | [], run, st => st.flush l run
  | (k, off, n) :: rest, run, st =>
    match st.w.abs off with
    | none =>
      placeChunks l rest run (st.note l.oi s!"{l.rule.what} {k}: offset overflows the TIFF base")
    | some start =>
      let u := l.uses[k]?
      if n = 0 ∨ u.any ChunkUse.covered then placeChunks l rest run st
      else if st.extentsLeft = 0 then st.spendBudget.flush l run
      else
        let st := { st with extentsLeft := st.extentsLeft - 1 }
        -- A chunk the decoder never reads is listed alone.
        let alone := u.bind fun u =>
          (u.unread.map (Disposition.skipped, ·)).or (u.unknown.map (Disposition.unknown, ·))
        match alone with
        | some (fate, why) =>
          let stop := satAdd start n
          let st := ((st.flush l run).reach stop).emit l ⟨start, stop⟩ k k fun c =>
            { c with
              disp := if c.disp ≠ .malformed then fate else c.disp
              detail := pushNote c.detail why }
          placeChunks l rest none st
        | none =>
          -- A chunk the decoder reads by size runs to what it reads.
          let read := ((u.filter ChunkUse.pastCount).bind ChunkUse.used).filter (n < ·)
          let stop := satAdd start (read.getD n)
          let st := st.reach stop
          let st := if st.limit < stop then st.reachAll else st
          let tail := (u.bind ChunkUse.used).filter fun used => used < n ∧ stop ≤ st.limit
          if tail.isSome ∨ read.isSome ∨ (u.bind ChunkUse.note).isSome then
            let st := (st.flush l run).emit l ⟨start, stop⟩ k k fun c =>
              let detail := match read with
                | some used => pushNote c.detail
                    s!"declared {n} bytes; the decoder reads {used}, by row size"
                | none => c.detail
              let children := match tail with
                | some used => c.children ++ [Cand.new ⟨start + used, stop⟩ l.rule.kind
                    (.code l.rule.offsets.toUInt32) .dropped
                    ((u.map ChunkUse.tail).getD "" ++
                      s!" (the decoder reads the first {used} bytes)")]
                | none => c.children
              { c with detail := detail, children := children }
            placeChunks l rest none st
          else
            match run with
            | some (r, first, last) =>
              if r.stop = start ∧ last + 1 = k then
                placeChunks l rest (some (⟨r.start, stop⟩, first, k)) st
              else placeChunks l rest (some (⟨start, stop⟩, k, k)) (st.emit l r first last id)
            | none => placeChunks l rest (some (⟨start, stop⟩, k, k)) st

/-- Lengths of JPEG tables: 64 bytes, or 16 counts and what they add up to; also whether the
scan budget ran out, and whether the walk was to end. -/
def jpegTableCounts (huffman : Bool) (rules : Rules) :
    List ℕ → Walk → List ℕ × Bool × Bool × Walk
  | [], w => ([], false, false, w)
  | off :: rest, w =>
    let (stop, w) := w.poll rules
    if stop then ([], false, true, w)
    else
      let one := if off = 0 then some (0, w)
        else if !huffman then some (64, w)
        else
          let (ok, w) := w.takeScan 16
          if !ok then none
          else
            let counts := (w.abs off).bind fun pos => get w.d pos 16
            some (16 + (counts.map fun b => (b.map UInt8.toNat).sum).getD 0, w)
      match one with
      | none => ([], true, false, w)
      | some (n, w) =>
        let (lengths, exhausted, cancelled, w) := jpegTableCounts huffman rules rest w
        (n :: lengths, exhausted, cancelled, w)

/-- The lengths of the extents at `offs`, of which at most `max` are listed; `none` when
the tag that holds them is missing. -/
def extentCounts (rules : Rules) (ifd : Ifd) (rule : ExtentRule) (oe : Entry) (max : ℕ)
    (offs : List ℕ) (w : Walk) : Option (List ℕ × Walk) :=
  let table (huffman : Bool) :=
    let (lengths, exhausted, cancelled, w) := jpegTableCounts huffman rules offs w
    some (lengths, { w with
      budgetHit := w.budgetHit || exhausted || decide (max < oe.count)
      cancelled := w.cancelled || cancelled })
  match rule.counts with
  | .tag ct => (w.find ifd ct).map fun ce => (w.uints ce max, w)
  | .toEnd => some (((offs.head?.bind w.abs).map fun a => w.limit - a).toList, w)
  | .bytes n => some ([n], w)
  | .jpegQuantization => table false
  | .jpegHuffman => table true

/-- Index of the last entry with `tag`, or 0. -/
def lastEntry (ifd : Ifd) (tag : UInt16) : ℕ := (lastByTag ifd.entries tag).getD 0

/-- Place the extents one rule locates. -/
def placeExtents (rules : Rules) (ifd : Ifd) (st : Placing) (rule : ExtentRule) : Placing :=
  match st.w.find ifd rule.offsets with
  | none => st
  | some oe =>
    let oi := lastEntry ifd rule.offsets
    if st.extentsLeft = 0 then
      st.spendBudget.note oi "further extents not listed: the file's extent budget is spent"
    else
      let max := min (st.limit / 4 + 1) st.extentsLeft
      let offs := st.w.uints oe max
      match extentCounts rules ifd rule oe max offs st.w with
      | none => st
      | some (cnts, w) =>
        let tiles := decide (rule.offsets = tileOffsets)
        let pixels := decide (rule.fate.d = .imageData) &&
          (decide (rule.offsets = stripOffsets) || tiles)
        let n := min offs.length cnts.length
        let (uses, scanLeft) := if pixels then
            rules.chunkUse w ifd tiles (offs.take n) (cnts.take n)
          else ([], w.scanLeft)
        let w := { w with scanLeft := scanLeft }
        let chunks := (offs.zip cnts).zipIdx.map fun p => (p.2, p.1)
        placeChunks ⟨ifd, rule, oi, pixels, uses⟩ chunks none { st with w := w }

/-- Place the values and extents of one directory, when it could be read whole. -/
def placeIfd (rules : Rules) (i : ℕ) (st : Placing) : Placing :=
  match st.w.ifds[i]? with
  | none => st
  | some ifd =>
    if ifd.problem.isSome then st
    else
      let st := ifd.entries.zipIdx.foldl (placeValue rules ifd) { st with notes := [] }
      let st := (rules.extents st.w ifd).foldl (placeExtents rules ifd) st
      let w := st.notes.foldl (fun w p => w.modifyIfd i (·.noteEntry p.1 p.2)) st.w
      { st with w := w, notes := [] }

/-- Place the values and extents of the directories `is`, until the stop token asks to
end. -/
def placeIfds (rules : Rules) : List ℕ → Placing → Placing
  | [], st => st
  | i :: is, st =>
    let (stop, w) := st.w.poll rules
    if stop then
      let w := { w with cancelled := true }
      { st with w := w }
    else placeIfds rules is (placeIfd rules i { st with w := w })

/-! ### The placement -/

/-- A placed TIFF. -/
structure Placement where
  /-- Parts in file order. -/
  parts : List Cand
  /-- Furthest byte any part or claim reaches, clipped to the TIFF. -/
  logicalEnd : ℕ
  /-- Whether the first directory was read whole. -/
  ifd0Ok : Bool
  /-- Whether a budget or cap stopped part of the walk. -/
  budgetHit : Bool

/-- Whether the first directory is a page that was read whole. -/
def Walk.ifd0Ok (w : Walk) : Bool :=
  w.ifds.head?.any fun ifd => ifd.kind = .page 0 && ifd.problem.isNone

/-- Values and extents of all directories. -/
def placeValues (rules : Rules) (w : Walk) (logicalEnd : ℕ) : Placing :=
  placeIfds rules (List.range w.ifds.length)
    { w := w, values := [], notes := [], logicalEnd := logicalEnd, extentsLeft := w.limit + 4096 }

/-- The candidates of a walk, in order of insertion; the ones in `first` come right after
the header. -/
def candidates (w : Walk) (rules : Rules) (first : List Cand) (st : Placing) : List Cand :=
  let header := if w.header.start < w.header.stop then [headerCand w] else []
  let ext := w.headerExt.toList.map fun x => Cand.new x.1 .header .none x.2.1 x.2.2
  header ++ ext ++ first ++ st.w.ifds.map (ifdCand st.w rules) ++ st.values

/-- Turn a walk into parts that do not overlap; also returns the walk with its remarks.
Overlapping bytes take the strongest fate; on a tie the header, directories and then values
in file order keep them. -/
def place (w : Walk) (rules : Rules) (first : List Cand) : Placement × Walk :=
  let logicalEnd := if w.ifd0Ok then w.header.stop else w.limit
  let logicalEnd := first.foldl (fun e c => max e c.range.stop) logicalEnd
  let st := placeValues rules w logicalEnd
  let logicalEnd := st.w.ifds.foldl (fun e ifd =>
    if ifd.problem.isSome then w.limit else max e ifd.stop) st.logicalEnd
  ({ parts := intoSorted ((candidates w rules first st).foldl insert [])
     logicalEnd := logicalEnd
     ifd0Ok := w.ifd0Ok
     budgetHit := st.w.budgetHit }, st.w)

end Tiff

end Zencodec
