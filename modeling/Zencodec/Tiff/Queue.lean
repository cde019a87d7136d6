/-
The chain walk.

`runQueue` walks every directory reachable from the first one, breadth first: each step
takes one pending directory off the queue, and records it, or records the new kind of
path when it is known already; `enqueue` then queues what it points to.  A directory's
pointers are queued for one kind of path at a time, and the steps report which
(`runQueue`'s second component).
-/
import Zencodec.Tiff.Ifd

open Slices StableSort Tiling

namespace Zencodec

namespace Tiff

/-- Where a pending directory's pointer came from. -/
inductive From
  | header
  | entry (ifd entry : ℕ)
  | next (ifd : ℕ)
  deriving DecidableEq, Repr

structure Pending where
  pos : Option ℕ
  kind : Kind
  name : String
  followed : Bool
  src : From
  depth : UInt8
  deriving DecidableEq, Repr

/-- A walk and its queue. -/
structure Queue where
  w : Walk
  queue : List Pending

/-! ### Remarks -/

/-- Change the directory at index `i`. -/
def Walk.modifyIfd (w : Walk) (i : ℕ) (f : Ifd → Ifd) : Walk :=
  { w with ifds := w.ifds.modify i f }

/-- Add a remark to entry `e` of a directory. -/
def Ifd.noteEntry (ifd : Ifd) (e : ℕ) (text : String) : Ifd :=
  { ifd with
    entries := ifd.entries.modify e fun en => { en with notes := addNote en.notes text } }

/-- Add a remark about a directory's next pointer. -/
def Ifd.noteNext (ifd : Ifd) (text : String) : Ifd :=
  { ifd with notes := addNote ifd.notes text }

/-- Add a remark where a pointer came from. -/
def note (w : Walk) (src : From) (text : String) : Walk :=
  match src with
  | .header => { w with fatal := some text }
  | .entry i e => w.modifyIfd i (·.noteEntry e text)
  | .next i => w.modifyIfd i (·.noteNext text)

/-! ### Queueing -/

/-- The queue and the recorded directories together have reached the cap. -/
def Queue.full (st : Queue) : Bool := maxIfds ≤ st.queue.length + st.w.ifds.length

/-- Queue the pointers of one entry, numbered from `k` on, while there is room. -/
def pushPointers (idx ei : ℕ) (kind : Kind) (label baseName : String)
    (followed numbered : Bool) (depth : UInt8) : ℕ → List ℕ → Queue → Queue
  | _, [], st => st
  | k, off :: rest, st =>
    if st.full then
      let w := { st.w with budgetHit := true }
      { st with w := w.modifyIfd idx (·.noteEntry ei
          s!"further {label} pointers not walked: more than {maxIfds} IFDs") }
    else
      let name := match numbered, decide (48 < baseName.utf8ByteSize) with
        | true, false => s!"{label} {k} of {baseName}"
        | true, true => s!"{label} {k} (nested)"
        | false, false => s!"{label} of {baseName}"
        | false, true => s!"{label} (nested)"
      pushPointers idx ei kind label baseName followed numbered depth (k + 1) rest
        { st with queue := st.queue ++ [⟨st.w.abs off, kind, name, followed, .entry idx ei,
            depth⟩] }

/-- Queue what entry `ei` of directory `idx` points to, if it is a pointer. -/
def enqueueEntry (rules : Rules) (idx : ℕ) (kind : Kind) (baseName : String)
    (followedHere : Bool) (st : Queue) (ei : ℕ) : Queue :=
  match st.w.ifds[idx]? with
  | none => st
  | some ifd =>
    match ifd.entries[ei]? with
    | none => st
    | some e =>
      match rules.pointer kind e with
      | none => st
      | some (childKind, label) =>
        let followed := followedHere && rules.follows st.w ifd kind e
        let room := maxIfds - (st.queue.length + st.w.ifds.length)
        if room = 0 then
          let w := { st.w with budgetHit := true }
          { st with w := w.modifyIfd idx (·.noteEntry ei
              s!"{label} pointers not walked: more than {maxIfds} IFDs") }
        else
          let ptrs := rules.pointerOffsets st.w e (room + 1)
          let w := { st.w with pointerReads := st.w.pointerReads + ptrs.length }
          let w := if ptrs = [] then
              w.modifyIfd idx (·.noteEntry ei
                s!"{label} pointer of type {typeName e.typ} not read")
            else w
          let numbered := decide (1 < ptrs.length) || decide (childKind = .sub)
          let depth := if ifd.depth = 255 then 255 else ifd.depth + 1
          pushPointers idx ei childKind label baseName followed numbered depth 0 ptrs
            { st with w := w }

/-- The kind and name of the directory chained after one reached as `kind`. -/
def chained (kind : Kind) (baseName : String) : Kind × String :=
  match kind with
  | .page n =>
    let next := if n = 4294967295 then n else n + 1
    (.page next, s!"IFD{next}")
  | other =>
    if 48 < baseName.utf8ByteSize then (other, "IFD chained after a sub-IFD")
    else (other, s!"IFD chained after {baseName}")

/-- Queue the directory the next pointer of directory `idx` leads to. -/
def enqueueNext (rules : Rules) (idx : ℕ) (kind : Kind) (baseName : String)
    (followedHere : Bool) (st : Queue) : Queue :=
  match st.w.ifds[idx]? with
  | none => st
  | some ifd =>
    if ifd.next = 0 then st
    else if st.full then
      let w := { st.w with budgetHit := true }
      { st with w := w.modifyIfd idx (·.noteNext s!"not walked: more than {maxIfds} IFDs") }
    else
      let followedNext := followedHere && rules.followsNext st.w ifd kind
      let (nextKind, name) := chained kind baseName
      { st with queue := st.queue ++ [⟨st.w.abs ifd.next, nextKind, name, followedNext,
          .next idx, ifd.depth⟩] }

/-- Queue the directories the pointer entries and the next pointer of directory `idx` lead
to, as a `kind` directory sees them. -/
def enqueue (rules : Rules) (st : Queue) (idx : ℕ) (kind : Kind) : Queue :=
  match st.w.ifds[idx]? with
  | none => st
  | some ifd =>
    let followedHere := ifd.followedAs kind
    let st := (List.range ifd.entries.length).foldl
      (enqueueEntry rules idx kind ifd.name followedHere) st
    enqueueNext rules idx kind ifd.name followedHere st

/-! ### One step -/

/-- What reaching a recorded directory again does to it: the directory, whether the path is
of a new kind, and whether a known path is now followed. -/
def reach (ifd : Ifd) (p : Pending) : Ifd × Bool × Bool :=
  let isPage := match p.kind with
    | .page _ => true
    | _ => false
  -- A page chain that comes back to a page is a loop, not another kind of path.
  let looped := isPage && ifd.page.isSome
  let role := ifd.roles.findIdx? fun r => r.1 = p.kind
  let newKind := !looped && role.isNone && decide (ifd.roles.length < maxRoles)
  let upgraded := !looped && p.followed && role.any fun r =>
    !((ifd.roles[r]?.map Prod.snd).getD true)
  let roles := match role with
    | some r => if looped then ifd.roles
      else ifd.roles.modify r fun k => (k.1, k.2 || p.followed)
    | none => if newKind then ifd.roles ++ [(p.kind, p.followed)] else ifd.roles
  let followed := if newKind || upgraded then ifd.followed || p.followed else ifd.followed
  ({ ifd with roles := roles, followed := followed }, newKind, upgraded)

/-- A directory reached again records the new kind of path, and its pointers are queued for
it. -/
def revisit (rules : Rules) (st : Queue) (p : Pending) (pos idx : ℕ) :
    Queue × Option (ℕ × Kind) :=
  match st.w.ifds[idx]? with
  | none => (st, none)
  | some ifd =>
    let (ifd, newKind, upgraded) := reach ifd p
    let w := st.w.modifyIfd idx fun _ => ifd
    let text := if newKind then s!"{p.name} at {pos} is also reached as {kindName p.kind}"
      else s!"{p.name} at {pos} was already walked (cycle or shared IFD)"
    let w := note w p.src text
    if (newKind || upgraded) && ifd.problem.isNone then
      (enqueue rules { st with w := w } idx p.kind, some (ifd.pos, p.kind))
    else ({ st with w := w }, none)

/-- Whether a directory is walked in spite of overlapping a parsed table, with the remark
about it. -/
def checkOverlap (w : Walk) (p : Pending) (pos : ℕ) : Bool × Walk :=
  match w.tableOverlap pos with
  | none => (true, w)
  | some other =>
    if !p.followed then
      (false, note w p.src
        s!"{p.name} at {pos} overlaps the IFD table at {other}; not walked")
    else
      let why := "walked, because the decoder reads it"
      (true, note w p.src s!"{p.name} at {pos} overlaps the IFD table at {other}; {why}")

/-- A directory the decoder rejects outright is walked as not followed. -/
def checkReject (rules : Rules) (w : Walk) (p : Pending) (pos : ℕ) : Bool × Walk :=
  if p.followed then
    match rules.rejects w pos p.kind with
    | some why => (false, note w p.src s!"{p.name} at {pos}: {why}")
    | none => (true, w)
  else (false, w)

/-- Record a parsed directory. -/
def record (w : Walk) (ifd : Ifd) (pos : ℕ) : Walk :=
  { w with
    tables := w.tables ++ [(ifd.pos, ifd.stop)]
    byAt := w.byAt ++ [(pos, w.ifds.length)]
    ifds := w.ifds ++ [ifd] }

/-- A parsed directory is recorded and, when it could be read whole, its pointers are
queued. -/
def recordIfd (rules : Rules) (st : Queue) (p : Pending) (pos : ℕ) (ifd : Ifd) (left : ℕ) :
    Queue × Option (ℕ × Kind) :=
  let w := { st.w with entriesLeft := left, budgetHit := st.w.budgetHit || left = 0 }
  let parent := match p.src with
    | .entry i e => some (i, e)
    | _ => none
  let ifd := { ifd with parent := parent, depth := p.depth }
  let fatal := match p.kind, ifd.problem with
    | .page 0, some problem => some s!"IFD0 {problem}"
    | _, _ => w.fatal
  let idx := w.ifds.length
  let w := record { w with fatal := fatal } ifd pos
  if ifd.problem.isNone then
    (enqueue rules { st with w := w } idx p.kind, some (ifd.pos, p.kind))
  else ({ st with w := w }, none)

/-- A directory reached for the first time is parsed, unless a cap or an overlap with a
parsed table forbids it. -/
def visit (rules : Rules) (st : Queue) (p : Pending) (pos : ℕ) :
    Queue × Option (ℕ × Kind) :=
  if maxIfds ≤ st.w.ifds.length then
    let w := { st.w with budgetHit := true }
    ({ st with w := note w p.src s!"not walked: more than {maxIfds} IFDs" }, none)
  else
    let (go, w) := checkOverlap st.w p pos
    if !go then ({ st with w := w }, none)
    else
      let (followed, w) := checkReject rules w p pos
      match parseIfd w.d w.lay pos p.kind p.name followed w.entriesLeft with
      | none =>
        let w := { w with budgetHit := w.budgetHit || w.entriesLeft = 0 }
        ({ st with w := note w p.src s!"{p.name} offset {pos} is past the end of the data" },
          none)
      | some (ifd, left) => recordIfd rules { st with w := w } p pos ifd left

/-- Handle one pending directory; stopping drops the queue.  The second component tells
whose pointers were queued, as which kind. -/
def step (rules : Rules) (st : Queue) (p : Pending) : Queue × Option (ℕ × Kind) :=
  match p.pos with
  | none => ({ st with w := note st.w p.src s!"{p.name} offset overflows" }, none)
  | some pos =>
    let stop := rules.cancelled st.w.polls
    let w := { st.w with polls := st.w.polls + 1 }
    if stop then (⟨{ w with cancelled := true }, []⟩, none)
    else match w.byAt.find? fun b => b.1 = pos with
      | some b => revisit rules { st with w := w } p pos b.2
      | none => visit rules { st with w := w } p pos

/-- Process at most so many pending directories; also lists whose pointers were queued. -/
def runQueue (rules : Rules) : ℕ → Queue → Queue × List (ℕ × Kind)
  | 0, st => (st, [])
  | fuel + 1, st =>
    match st.queue with
    | [] => (st, [])
    | p :: rest =>
      let (st, did) := step rules { st with queue := rest } p
      let (st, dids) := runQueue rules fuel st
      (st, did.toList ++ dids)

/-- More steps than any walk takes (`runQueue_finishes`). -/
def queueFuel : ℕ := 2 * maxRoles * maxIfds * (maxIfds + 1) + maxIfds

/-! ### Whole walks -/

/-- A walk over the input up to `limit` that has read nothing. -/
def Walk.start (data : Bytes) (base limit : ℕ) (lay : Layout) (header : Span ℕ)
    (headerOk : Bool) : Walk :=
  let limit := min limit data.length
  { d := data.take limit
    base := base
    lay := lay
    magic := 0
    header := header
    headerOk := headerOk
    headerExt := none
    fatal := none
    ifds := []
    entriesLeft := entryBudget limit
    tables := []
    byAt := []
    cancelled := false
    budgetHit := false
    pointerReads := 0
    scanLeft := scanBudget limit
    polls := 0 }

/-- Walk the directories from the first one on. -/
def walkFrom (rules : Rules) (w : Walk) (first : Option ℕ) (kind : Kind) (name : String)
    (depth : UInt8) : Queue × List (ℕ × Kind) :=
  runQueue rules queueFuel ⟨w, [⟨first, kind, name, true, .header, depth⟩]⟩

/-- A header that could not be read. -/
def Walk.fail (w : Walk) (header : Span ℕ) (why : String) : Walk :=
  { w with header := header, fatal := some why }

/-- Read the header: the walk with its layout, and the first directory's offset; or the
walk with the reason why not. -/
def readHeader (data : Bytes) (base limit : ℕ) (rules : Rules) : Walk × Option ℕ :=
  let w := Walk.start data base limit ⟨true, false⟩ ⟨base, base⟩ false
  let limit := min limit data.length
  let rest := limit - base
  let mark := get w.d base 2
  if mark ≠ some [0x49, 0x49] ∧ mark ≠ some [0x4D, 0x4D] then
    (w.fail ⟨base, base + min rest 2⟩ "not a TIFF byte-order mark", none)
  else
    let lay : Layout := ⟨mark = some [0x49, 0x49], false⟩
    match lay.u16 w.d (base + 2) with
    | none => (w.fail ⟨base, limit⟩ "truncated TIFF header", none)
    | some m =>
      if m = 43 then
        let big : Layout := ⟨lay.le, true⟩
        -- Bytesize of offsets (8) and a reserved zero.
        if (big.u16 w.d (base + 4)).any (· ≠ 8) ∨ (big.u16 w.d (base + 6)).any (· ≠ 0) then
          (w.fail ⟨base, base + min rest 8⟩
            "BigTIFF header with an offset size other than 8", none)
        else
          let w := { w with magic := 43, lay := big }
          match big.u64 w.d (base + 8) with
          | none => (w.fail ⟨base, limit⟩ "truncated TIFF header", none)
          | some ifd0 => (w, some ifd0)
      else if m = 42 ∨ rules.magic m = true then
        let w := { w with magic := m, lay := lay }
        match lay.u32 w.d (base + 4) with
        | none => (w.fail ⟨base, limit⟩ "truncated TIFF header", none)
        | some ifd0 => (w, some ifd0)
      else
        (w.fail ⟨base, base + min rest 4⟩ s!"not a TIFF version number ({m})", none)

/-- The header of a TIFF whose first directory is known, with the bytes after it that the
file format defines. -/
def headed (w : Walk) (rules : Rules) : Walk :=
  let w := { w with
    header := ⟨w.base, w.base + w.lay.headerLen⟩
    headerOk := true }
  match rules.headerExtension w with
  | some (extra, fate) =>
    if w.header.stop + extra ≤ w.limit then
      { w with headerExt := some (⟨w.header.stop, w.header.stop + extra⟩, fate.d,
          fate.note.getD "") }
    else w
  | none => w

/-- Parse the TIFF whose header is at `base`, with every position below `limit`; also lists
whose pointers were queued. -/
def walkTraced (data : Bytes) (base limit : ℕ) (rules : Rules) :
    Queue × List (ℕ × Kind) :=
  match readHeader data base limit rules with
  | (w, none) => (⟨w, []⟩, [])
  | (w, some ifd0) =>
    let w := headed w rules
    walkFrom rules w (w.abs ifd0) (.page 0) "IFD0" 0

/-- Parse the TIFF whose header is at `base`, with every position below `limit`. -/
def walk (data : Bytes) (base limit : ℕ) (rules : Rules) : Walk :=
  (walkTraced data base limit rules).1.w

/-- Walk the directories starting at `pos`, which has no TIFF header of its own; also lists
whose pointers were queued. -/
def walkIfdTraced (data : Bytes) (base limit : ℕ) (lay : Layout) (pos : ℕ) (kind : Kind)
    (name : String) (depth : UInt8) (rules : Rules) : Queue × List (ℕ × Kind) :=
  walkFrom rules (Walk.start data base limit lay ⟨pos, pos⟩ true) (some pos) kind name depth

/-- Walk the directories starting at `pos`, which has no TIFF header of its own. -/
def walkIfd (data : Bytes) (base limit : ℕ) (lay : Layout) (pos : ℕ) (kind : Kind)
    (name : String) (depth : UInt8) (rules : Rules) : Walk :=
  (walkIfdTraced data base limit lay pos kind name depth rules).1.w

end Tiff

end Zencodec
