/-
The TIFF structure a walk reads: layouts, entries, directories, and the rules of a decode
path.

`Walk` is one parsed TIFF; positions in it are absolute and offsets stored in the file
are relative to `base`.  `parseIfd` reads one directory under the entry budget of the
whole walk.  `Rules` says what a decode path does with each piece: its members are
functions of the walk, and reading the caller's stop token is a function of the number of
readings before (`polls`).
-/
import Zencodec.Lib.Slices
import Zencodec.Tiff.Cand

open Slices StableSort Tiling

namespace Zencodec

namespace Tiff

/-- IFDs walked per TIFF. -/
def maxIfds : ℕ := 4096

/-- Kinds of path recorded for one directory. -/
def maxRoles : ℕ := 8

def stripOffsets : UInt16 := 273
def stripByteCounts : UInt16 := 279
def freeOffsets : UInt16 := 288
def freeByteCounts : UInt16 := 289
def tileOffsets : UInt16 := 324
def tileByteCounts : UInt16 := 325
def subIfds : UInt16 := 330
def jpegIfOffset : UInt16 := 513
def jpegIfLength : UInt16 := 514
def jpegQTables : UInt16 := 519
def jpegDcTables : UInt16 := 520
def jpegAcTables : UInt16 := 521
def exifIfd : UInt16 := 34665
def gpsIfd : UInt16 := 34853
def interopIfd : UInt16 := 40965

/-! ### Byte access -/

def get (d : Bytes) (pos n : ℕ) : Option Bytes := slice d pos (pos + n)

/-- The value, unless it overflows 64 bits. -/
def checked (n : ℕ) : Option ℕ := if n < 2 ^ 64 then some n else none

/-- Byte order and offset width. -/
structure Layout where
  le : Bool
  big : Bool
  deriving DecidableEq, Repr

namespace Layout

def order (lay : Layout) : ByteOrder := if lay.le then .little else .big

/-- A word of `n` bytes. -/
def uint (lay : Layout) (d : Bytes) (pos n : ℕ) : Option ℕ :=
  (get d pos n).map (wordValue lay.order)

def u16 (lay : Layout) (d : Bytes) (pos : ℕ) : Option UInt16 :=
  (lay.uint d pos 2).map UInt16.ofNat

def u32 (lay : Layout) (d : Bytes) (pos : ℕ) : Option ℕ := lay.uint d pos 4

def u64 (lay : Layout) (d : Bytes) (pos : ℕ) : Option ℕ := lay.uint d pos 8

/-- An offset field: 4 bytes, 8 in BigTIFF. -/
def offset (lay : Layout) (d : Bytes) (pos : ℕ) : Option ℕ :=
  if lay.big then lay.u64 d pos else lay.u32 d pos

/-- The entry count of a directory. -/
def count (lay : Layout) (d : Bytes) (pos : ℕ) : Option ℕ :=
  if lay.big then lay.u64 d pos else (lay.u16 d pos).map UInt16.toNat

def headerLen (lay : Layout) : ℕ := if lay.big then 16 else 8

def countLen (lay : Layout) : ℕ := if lay.big then 8 else 2

def entryLen (lay : Layout) : ℕ := if lay.big then 20 else 12

/-- Bytes a value may occupy inside its entry. -/
def inlineCap (lay : Layout) : ℕ := if lay.big then 8 else 4

end Layout

/-- Size of one value of a TIFF field type. -/
def typeSize (typ : UInt16) : Option ℕ :=
  match typ.toNat with
  | 1 | 2 | 6 | 7 => some 1
  | 3 | 8 => some 2
  | 4 | 9 | 11 | 13 => some 4
  | 5 | 10 | 12 | 16 | 17 | 18 => some 8
  | _ => none

def typeName (typ : UInt16) : String :=
  match typ.toNat with
  | 1 => "BYTE"
  | 2 => "ASCII"
  | 3 => "SHORT"
  | 4 => "LONG"
  | 5 => "RATIONAL"
  | 6 => "SBYTE"
  | 7 => "UNDEFINED"
  | 8 => "SSHORT"
  | 9 => "SLONG"
  | 10 => "SRATIONAL"
  | 11 => "FLOAT"
  | 12 => "DOUBLE"
  | 13 => "IFD"
  | 16 => "LONG8"
  | 17 => "SLONG8"
  | 18 => "IFD8"
  | other => s!"type {other}"

/-! ### Parsed structure -/

/-- Which directory an IFD is, by how the walk reached it. -/
inductive Kind
  | page (n : UInt32)
  | sub
  | exif
  | gps
  | interop
  | makerNote
  deriving DecidableEq, Repr

/-- A short name for a kind of directory. -/
def kindName : Kind → String
  | .page n => s!"page {n}"
  | .sub => "SubIFD"
  | .exif => "EXIF IFD"
  | .gps => "GPS IFD"
  | .interop => "Interop IFD"
  | .makerNote => "maker-note IFD"

/-- One IFD entry. -/
structure Entry where
  pos : ℕ
  tag : UInt16
  typ : UInt16
  count : ℕ
  /-- Offset of the value-or-offset field. -/
  field : ℕ
  notes : List String
  deriving DecidableEq, Repr

/-- Where an entry's value lives. -/
inductive Loc
  | unknownType
  | overflow
  | empty
  | inline
  | outOfLine (off size : ℕ)
  deriving DecidableEq, Repr

/-- One directory. -/
structure Ifd where
  pos : ℕ
  /-- End of the bytes it covers, clipped to the limit. -/
  stop : ℕ
  kind : Kind
  name : String
  /-- Whether the decode path reads it by any path. -/
  followed : Bool
  entries : List Entry
  /-- Raw next-IFD pointer. -/
  next : ℕ
  /-- Why it could not be read whole. -/
  problem : Option String
  /-- Remarks about its next pointer. -/
  notes : List String
  parent : Option (ℕ × ℕ)
  /-- Every kind of path that leads here, each with whether the decode path follows it. -/
  roles : List (Kind × Bool)
  /-- Index of the last entry with each tag. -/
  last : UInt16 → Option ℕ
  firstUnknown : Option ℕ
  depth : UInt8

namespace Ifd

/-- Whether the decode path follows a path that reaches it as `kind`. -/
def followedAs (ifd : Ifd) (kind : Kind) : Bool :=
  ifd.roles.any fun r => r.1 = kind && r.2

/-- The page number some path gives it. -/
def page (ifd : Ifd) : Option UInt32 :=
  ifd.roles.findSome? fun r =>
    match r.1 with
    | .page n => some n
    | _ => none

/-- Whether some path reaches it as a page or a SubIFD. -/
def holdsImage (ifd : Ifd) : Bool :=
  ifd.roles.any fun r =>
    match r.1 with
    | .page _ => true
    | .sub => true
    | _ => false

end Ifd

/-- Add a remark, keeping at most `maxNotes` and one marker. -/
def addNote (notes : List String) (text : String) : List String :=
  if notes.length < maxNotes then notes ++ [text]
  else if notes.length = maxNotes then notes ++ ["further notes not listed"]
  else notes

/-- A disposition with an optional remark for the detail. -/
structure Fate where
  d : Disposition
  note : Option String
  deriving DecidableEq, Repr

def Fate.new (d : Disposition) : Fate := ⟨d, none⟩

def Fate.because (d : Disposition) (note : String) : Fate := ⟨d, some note⟩

/-- One parsed TIFF. -/
structure Walk where
  /-- The input up to the limit. -/
  d : Bytes
  base : ℕ
  lay : Layout
  magic : UInt16
  header : Span ℕ
  headerOk : Bool
  headerExt : Option (Span ℕ × Disposition × String)
  /-- Why the header or IFD0 could not be read. -/
  fatal : Option String
  ifds : List Ifd
  /-- Entries this walk may still parse. -/
  entriesLeft : ℕ
  /-- IFD tables parsed so far, by start: start and end. -/
  tables : List (ℕ × ℕ)
  /-- Index into `ifds` by offset. -/
  byAt : List (ℕ × ℕ)
  cancelled : Bool
  /-- Whether a budget or cap stopped part of the walk. -/
  budgetHit : Bool
  pointerReads : ℕ
  /-- Bytes count-only readers may still scan. -/
  scanLeft : ℕ
  /-- How often the stop token has been read. -/
  polls : ℕ

/-- The entry budget for a walk over `limit` bytes. -/
def entryBudget (limit : ℕ) : ℕ := limit / 12 + 4096

/-- The count-only scan budget for a walk over `limit` bytes, saturating. -/
def scanBudget (limit : ℕ) : ℕ :=
  min (min (limit * 2) (2 ^ 64 - 1) + 2 ^ 20) (2 ^ 64 - 1)

namespace Walk

def limit (w : Walk) : ℕ := w.d.length

/-- Take `n` bytes from the scan budget; false once it is spent. -/
def takeScan (w : Walk) (n : ℕ) : Bool × Walk :=
  if w.scanLeft < n then (false, w) else (true, { w with scanLeft := w.scanLeft - n })

/-- The start of an already-parsed table that a table at `pos` would overlap. -/
def tableOverlap (w : Walk) (pos : ℕ) : Option ℕ :=
  let before := (sortBy Prod.fst (w.tables.filter fun t => t.1 ≤ pos)).getLast?
  match before.filter fun t => pos < t.2 with
  | some t => some t.1
  | none =>
    let count := (w.lay.count w.d pos).getD 0
    let stop := min (count * w.lay.entryLen + pos + (w.lay.countLen + w.lay.inlineCap))
      w.limit
    if stop ≤ pos then none
    else ((sortBy Prod.fst (w.tables.filter fun t => pos < t.1 ∧ t.1 < stop)).head?).map
      Prod.fst

/-- The absolute position of a TIFF-relative offset. -/
def abs (w : Walk) (off : ℕ) : Option ℕ := checked (w.base + off)

def loc (w : Walk) (e : Entry) : Loc :=
  match typeSize e.typ with
  | none => .unknownType
  | some size =>
    match checked (size * e.count) with
    | none => .overflow
    | some total =>
      if total = 0 then .empty
      else if total ≤ w.lay.inlineCap then .inline
      else match (w.lay.offset w.d e.field).bind w.abs with
        | some off => .outOfLine off total
        | none => .overflow

/-- The value's bytes, when they lie inside the TIFF. -/
def bytes (w : Walk) (e : Entry) : Option Bytes :=
  match w.loc e with
  | .inline =>
    ((typeSize e.typ).bind fun size => checked (size * e.count)).bind (get w.d e.field)
  | .outOfLine off total => get w.d off total
  | .empty => some []
  | _ => none

/-- Unsigned integer values, at most `max` of them; other types yield nothing. -/
def uints (w : Walk) (e : Entry) (max : ℕ) : List ℕ :=
  let size := match e.typ.toNat with
    | 1 | 7 => some 1
    | 3 => some 2
    | 4 | 13 => some 4
    | 16 | 18 => some 8
    | _ => none
  match size, w.bytes e with
  | some size, some bytes =>
    (List.range (min (bytes.length / size) max)).map fun k =>
      wordValue w.lay.order ((bytes.drop (k * size)).take size)
  | _, _ => []

/-- The last entry with `tag`. -/
def find (_w : Walk) (ifd : Ifd) (tag : UInt16) : Option Entry :=
  (ifd.last tag).bind fun i => ifd.entries[i]?

end Walk

/-! ### Reading a directory -/

/-- The entry at `pos`, when it lies inside the data. -/
def readEntry (d : Bytes) (lay : Layout) (pos : ℕ) : Option Entry := do
  let stop ← checked (pos + lay.entryLen)
  if d.length < stop then none
  else
    let tag ← lay.u16 d pos
    let typ ← lay.u16 d (pos + 2)
    let count ← if lay.big then lay.u64 d (pos + 4) else lay.u32 d (pos + 4)
    some
      { pos, tag, typ, count
        field := if lay.big then pos + 12 else pos + 8
        notes := [] }

/-- Read up to `n` entries from `pos` on: the entries, the budget left, and whether the
budget ended the reading. -/
def readEntries (d : Bytes) (lay : Layout) : ℕ → ℕ → ℕ → List Entry × ℕ × Bool
  | 0, _, budget => ([], budget, false)
  | n + 1, pos, budget =>
    if budget = 0 then ([], 0, true)
    else match readEntry d lay pos with
      | none => ([], budget, false)
      | some e =>
        let (es, left, spent) := readEntries d lay n (pos + lay.entryLen) (budget - 1)
        (e :: es, left, spent)

/-- Index of the last entry with each tag. -/
def lastByTag (entries : List Entry) (tag : UInt16) : Option ℕ :=
  (entries.zipIdx.filter fun p => p.1.tag = tag).getLast?.map Prod.snd

/-- Parse the directory at `pos`; `none` when `pos` is outside the TIFF.  Returns the
entry budget left as well. -/
def parseIfd (d : Bytes) (lay : Layout) (pos : ℕ) (kind : Kind) (name : String)
    (followed : Bool) (budget : ℕ) : Option (Ifd × ℕ) :=
  if d.length ≤ pos then none
  else
    let ifd : Ifd :=
      { pos, stop := d.length, kind, name, followed
        entries := []
        next := 0
        problem := none
        notes := []
        parent := none
        roles := [(kind, followed)]
        last := fun _ => none
        firstUnknown := none
        depth := 0 }
    match lay.count d pos with
    | none =>
      some ({ ifd with problem := some "entry count runs past the end of the data" }, budget)
    | some count =>
      let declaredEnd :=
        checked (count * lay.entryLen + pos + lay.countLen + lay.inlineCap)
      let (entries, left, spent) := readEntries d lay count (pos + lay.countLen) budget
      let problem := if spent then some
        "not read further: the file's entry budget is spent (overlapping or repeated IFDs)"
        else none
      let ifd := match declaredEnd.filter fun stop => stop ≤ d.length with
        | some stop =>
          { ifd with
            stop := stop
            next := (lay.offset d (stop - lay.inlineCap)).getD 0
            problem := problem }
        | none =>
          { ifd with
            problem := problem.or
              (some s!"declares {count} entries but runs past the end of the data") }
      some ({ ifd with
        entries := entries
        last := lastByTag entries
        firstUnknown := entries.findIdx? fun e => (typeSize e.typ).isNone }, left)

/-! ### What a decode path does -/

/-- How much of one strip or tile the decoder reads. -/
structure ChunkUse where
  /-- Leading bytes the decoder reads; `none` when the end is not found. -/
  used : Option ℕ
  /-- What the rest is. -/
  tail : String
  note : Option String
  /-- The decoder reads `used` bytes whatever the declared length. -/
  pastCount : Bool
  /-- Another chunk's extent already covers this one. -/
  covered : Bool
  /-- The decoder never reads this chunk: why. -/
  unread : Option String
  /-- What the decoder reads was not worked out: why. -/
  unknown : Option String
  deriving DecidableEq, Repr

/-- How long the extents of an `ExtentRule` are. -/
inductive Count
  | tag (t : UInt16)
  | toEnd
  | bytes (n : ℕ)
  | jpegQuantization
  | jpegHuffman
  deriving DecidableEq, Repr

/-- An offset tag with the lengths of the extents it locates. -/
structure ExtentRule where
  offsets : UInt16
  counts : Count
  what : String
  kind : PartKind
  fate : Fate
  deriving DecidableEq, Repr

/-- What one decode path does with a TIFF's directories, entries and extents. -/
structure Rules where
  /-- Accept a TIFF version number other than 42 and 43. -/
  magic : UInt16 → Bool
  /-- Bytes after the header that the file format defines. -/
  headerExtension : Walk → Option (ℕ × Fate)
  /-- How many leading bytes of a value the decode path uses, and the fate of the rest. -/
  valueTail : Walk → Ifd → ℕ → Option (ℕ × Fate)
  /-- How much of each strip or tile the decoder reads, and the scan budget left. -/
  chunkUse : Walk → Ifd → Bool → List ℕ → List ℕ → List ChunkUse × ℕ
  /-- The directory a pointer entry in a directory of this kind leads to. -/
  pointer : Kind → Entry → Option (Kind × String)
  /-- The offsets a pointer entry holds; it is asked for at most so many. -/
  pointerOffsets : Walk → Entry → ℕ → List ℕ
  follows : Walk → Ifd → Kind → Entry → Bool
  followsNext : Walk → Ifd → Kind → Bool
  ifd : Walk → Ifd → Fate
  entry : Walk → Ifd → ℕ → Fate
  value : Walk → Ifd → ℕ → Fate
  /-- Whether the caller's stop token asks the walk to end, by reading. -/
  cancelled : ℕ → Bool
  /-- Why the decoder rejects a directory before reading its entries. -/
  rejects : Walk → ℕ → Kind → Option String
  extents : Walk → Ifd → List ExtentRule

/-- The directory pointer entry `e` in a `kind` IFD leads to, by default. -/
def defaultPointer (kind : Kind) (e : Entry) : Option (Kind × String) :=
  let inImage := match kind with
    | .page _ => true
    | .sub => true
    | _ => false
  if e.tag = subIfds ∧ inImage = true then some (.sub, "SubIFD")
  else if e.tag = exifIfd ∧ inImage = true then some (.exif, "EXIF IFD")
  else if e.tag = gpsIfd ∧ inImage = true then some (.gps, "GPS IFD")
  else if e.tag = interopIfd ∧ kind = .exif then some (.interop, "Interop IFD")
  else none

/-- The fate of old-style JPEG tables, by default. -/
def defaultJpegTable : Fate :=
  .because .unknown "referenced JPEG table; decoder consumption is not established"

/-- The extents a directory locates by default: strips, tiles, free space, JPEG streams and
external JPEG tables of image IFDs. -/
def defaultExtents (imageData jpegStream : Walk → Ifd → Fate)
    (jpegTable : Walk → Ifd → UInt16 → Fate) (w : Walk) (ifd : Ifd) : List ExtentRule :=
  if !ifd.holdsImage then []
  else
    [⟨stripOffsets, .tag stripByteCounts, "strip", .extent, imageData w ifd⟩,
      ⟨tileOffsets, .tag tileByteCounts, "tile", .extent, imageData w ifd⟩,
      ⟨freeOffsets, .tag freeByteCounts, "free space", .extent,
        .because .padding "declared free space"⟩,
      ⟨jpegIfOffset, .tag jpegIfLength, "JPEG stream", .embeddedImage, jpegStream w ifd⟩,
      ⟨jpegQTables, .jpegQuantization, "JPEG quantization table", .extent,
        jpegTable w ifd jpegQTables⟩,
      ⟨jpegDcTables, .jpegHuffman, "JPEG DC Huffman table", .extent,
        jpegTable w ifd jpegDcTables⟩,
      ⟨jpegAcTables, .jpegHuffman, "JPEG AC Huffman table", .extent,
        jpegTable w ifd jpegAcTables⟩]

end Tiff

end Zencodec
