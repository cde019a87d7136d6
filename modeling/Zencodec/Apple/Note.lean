/-
Apple iOS maker notes.

One reader of directories serves two interpretations: the strict one refuses
malformed entries and duplicated rendering tags, the compatible one skips and
overwrites, as the released reader did.  `parseMakernoteWithMode` reads a note,
`parseExifWithMode` finds it behind two directories of an EXIF blob.

The host's `usize` is a parameter; the division of a stored fraction into a
floating-point number is an abstract function of its two integers.
-/
import Zencodec.Lib.Slices

namespace Zencodec.Apple

open Slices

/-- A host: the greatest `usize`, which holds every 32-bit number. -/
structure Host where
  usizeMax : ℕ
  u32_le : 2 ^ 32 - 1 ≤ usizeMax

/-- Floating-point numbers, as far as they matter here. -/
structure Floats (F : Type) where
  zero : F
  /-- `num as f64 / den as f64` -/
  divide : ℤ → ℤ → F

namespace Host

variable (host : Host)

def checkedAdd (a b : ℕ) : Option ℕ := if a + b ≤ host.usizeMax then some (a + b) else none

def checkedMul (a b : ℕ) : Option ℕ := if a * b ≤ host.usizeMax then some (a * b) else none

/-- `Endian::u16` -/
def u16 (order : ByteOrder) (b : Bytes) (o : ℕ) : Option ℕ := do
  let stop ← host.checkedAdd o 2
  let s ← slice b o stop
  return wordValue order s

/-- `Endian::u32` -/
def u32 (order : ByteOrder) (b : Bytes) (o : ℕ) : Option ℕ := do
  let stop ← host.checkedAdd o 4
  let s ← slice b o stop
  return wordValue order s

end Host

/-- `v as i32` -/
def asI32 (v : ℕ) : ℤ := if v < 2 ^ 31 then v else v - 2 ^ 32

/-- `v as i16` -/
def asI16 (v : ℕ) : ℤ := if v < 2 ^ 15 then v else v - 2 ^ 16

/-- `v as i8` -/
def asI8 (v : ℕ) : ℤ := if v < 2 ^ 7 then v else v - 2 ^ 8

/-! ### Tags, modes and types -/

def hdrImageType : ℕ := 0x000A
def hdrHeadroom : ℕ := 0x0021
def hdrGain : ℕ := 0x0030
def tiffTagExifIfd : ℕ := 0x8769
def tiffTagMakernote : ℕ := 0x927C

inductive Interpretation
  | strict
  | compatibility
  deriving DecidableEq, Repr

/-- Element size of a TIFF data type; unknown types fall back to 1. -/
def typeSize (dtype : ℕ) : ℕ :=
  if dtype = 3 ∨ dtype = 8 then 2
  else if dtype = 4 ∨ dtype = 9 ∨ dtype = 11 ∨ dtype = 13 then 4
  else if dtype = 5 ∨ dtype = 10 ∨ dtype = 12 ∨ (16 ≤ dtype ∧ dtype ≤ 18) then 8
  else 1

def Interpretation.typeSize (mode : Interpretation) (kind : ℕ) : ℕ :=
  if mode = .compatibility ∧ (kind = 13 ∨ (16 ≤ kind ∧ kind ≤ 18)) then 1
  else Apple.typeSize kind

/-- HDR information recovered from a note. -/
structure AppleHdrInfo (F : Type) where
  hdrHeadroom : Option F
  hdrGain : F
  hdrImageType : Option ℤ
  deriving DecidableEq, Repr

variable {F : Type}

/-- `AppleHdrInfo::default()` -/
def AppleHdrInfo.default (floats : Floats F) : AppleHdrInfo F where
  hdrHeadroom := none
  hdrGain := floats.zero
  hdrImageType := none

/-! ### Values -/

section Values

variable (host : Host) (floats : Floats F)

/-- A fraction of two numbers, unless its denominator is zero. -/
def fraction (num den : ℤ) : Option F := if den = 0 then none else some (floats.divide num den)

def readRational (value : Bytes) (dtype : ℕ) (order : ByteOrder) : Option F :=
  if value.length < 8 then none
  else if dtype = 10 then do
    let num ← host.u32 order value 0
    let den ← host.u32 order value 4
    fraction floats (asI32 num) (asI32 den)
  else if dtype = 5 then do
    let num ← host.u32 order value 0
    let den ← host.u32 order value 4
    fraction floats num den
  else none

def readInt (value : Bytes) (dtype : ℕ) (order : ByteOrder) : Option ℤ :=
  if dtype = 3 then (host.u16 order value 0).map (↑)
  else if dtype = 8 then (host.u16 order value 0).map asI16
  else if dtype = 4 ∨ dtype = 9 then (host.u32 order value 0).map asI32
  else if dtype = 1 then value.head?.map fun b => b.toNat
  else if dtype = 6 then value.head?.map fun b => asI8 b.toNat
  else none

end Values

/-! ### The note -/

structure MakerNoteEntry where
  tag : ℕ
  kind : ℕ
  count : ℕ
  value : Bytes
  deriving DecidableEq, Repr

/-- An entry that could not be read. -/
structure MakerNoteEntryError where
  index : ℕ
  tag : Option ℕ
  deriving DecidableEq, Repr

structure AppleMakerNote where
  data : Bytes
  order : ByteOrder
  /-- Where the entries begin. -/
  entries : ℕ
  count : ℕ
  deriving DecidableEq, Repr

/-- `b"Apple iOS\0"` -/
def appleIos : Bytes := [0x41, 0x70, 0x70, 0x6C, 0x65, 0x20, 0x69, 0x4F, 0x53, 0]

def orderOf (mark : Bytes) : Option ByteOrder :=
  if mark = [0x4D, 0x4D] then some .big
  else if mark = [0x49, 0x49] then some .little
  else none

section Notes

variable (host : Host) (mode : Interpretation)

/-- Recognize an Apple note. -/
def AppleMakerNote.parseWithMode (data : Bytes) : Option AppleMakerNote :=
  if mode = .strict ∧ data.length > 16 * 1024 * 1024 then none
  else if mode = .compatibility ∧ data.length < 20 then none
  else do
    let magic ← slice data 0 10
    if magic ≠ appleIos then none
    else
      let mark ← slice data 12 14
      let order ← orderOf mark
      let version ← host.u16 order data 14
      let ifd ←
        (if version = 42 then (host.u32 order data 16).bind (host.checkedAdd 12) else some 14)
      let count ← host.u16 order data ifd
      if mode = .strict ∧ count > 4096 then none
      else
        let entries ← host.checkedAdd ifd 2
        return { data, order, entries, count }

/-- The entry at an offset of the note. -/
def AppleMakerNote.readEntry (note : AppleMakerNote) (offset : ℕ) : Option MakerNoteEntry := do
  let _ ← (if mode = .compatibility then slice note.data offset (offset + 12) else some [])
  let tag ← host.u16 note.order note.data offset
  let kind ← host.u16 note.order note.data (offset + 2)
  let count ← host.u32 note.order note.data (offset + 4)
  if mode = .strict ∧ ¬(1 ≤ kind ∧ kind ≤ 13) ∧ ¬(16 ≤ kind ∧ kind ≤ 18) then none
  else
    let size ← host.checkedMul (mode.typeSize kind) count
    let start ←
      (if size ≤ 4 then some (offset + 8) else host.u32 note.order note.data (offset + 8))
    let stop ← host.checkedAdd start size
    let value ← slice note.data start stop
    return { tag, kind, count, value }

/-- An entry, or an error that names it and, where readable, its tag. -/
def AppleMakerNote.entryAt (note : AppleMakerNote) (index : ℕ) :
    Except MakerNoteEntryError MakerNoteEntry :=
  let offset := note.entries + index * 12
  match note.readEntry host mode offset with
  | some entry => .ok entry
  | none => .error ⟨index, host.u16 note.order note.data offset⟩

/-- The entries in order, malformed ones as errors. -/
def AppleMakerNote.entriesWithMode (note : AppleMakerNote) :
    List (Except MakerNoteEntryError MakerNoteEntry) :=
  (List.range note.count).map (note.entryAt host mode)

variable (floats : Floats F)

/-- What the compatible reader does with an entry of a rendering tag. -/
def assign (order : ByteOrder) (info : AppleHdrInfo F) (entry : MakerNoteEntry) :
    AppleHdrInfo F :=
  if entry.tag = Apple.hdrHeadroom then
    { info with hdrHeadroom := readRational host floats entry.value entry.kind order }
  else if entry.tag = Apple.hdrGain then
    match readRational host floats entry.value entry.kind order with
    | some gain => { info with hdrGain := gain }
    | none => info
  else
    -- signed one- and two-byte fields are read as the released reader did
    let kind := if entry.kind = 6 then 1 else if entry.kind = 8 then 3 else entry.kind
    { info with hdrImageType := readInt host entry.value kind order }

/-- What the strict reader does with an entry of a rendering tag. -/
def assignStrict (order : ByteOrder) (info : AppleHdrInfo F) (entry : MakerNoteEntry) :
    Option (AppleHdrInfo F) :=
  if entry.tag = Apple.hdrHeadroom then do
    let headroom ← readRational host floats entry.value entry.kind order
    return { info with hdrHeadroom := some headroom }
  else if entry.tag = Apple.hdrGain then do
    let gain ← readRational host floats entry.value entry.kind order
    return { info with hdrGain := gain }
  else do
    let image ← readInt host entry.value entry.kind order
    return { info with hdrImageType := some image }

/-- The rendering tags. -/
def renders (tag : ℕ) : Bool :=
  tag = Apple.hdrHeadroom || tag = Apple.hdrGain || tag = Apple.hdrImageType

/-- The loop over the entries; `seen` are the rendering tags read so far. -/
def collect (order : ByteOrder) (info : AppleHdrInfo F) (seen : List ℕ) :
    List (Except MakerNoteEntryError MakerNoteEntry) → Option (AppleHdrInfo F)
  | [] => some info
  | .error _ :: rest =>
    if mode = .compatibility then collect order info seen rest else none
  | .ok entry :: rest =>
    if !renders entry.tag then collect order info seen rest
    else if mode = .compatibility then
      collect order (assign host floats order info entry) seen rest
    else if entry.tag ∈ seen ∨ entry.count ≠ 1 then none
    else do
      let info ← assignStrict host floats order info entry
      collect order info (entry.tag :: seen) rest

def parseMakernoteWithMode (maker : Bytes) : Option (AppleHdrInfo F) := do
  let view ← AppleMakerNote.parseWithMode host mode maker
  collect host mode floats view.order (.default floats) [] (view.entriesWithMode host mode)

end Notes

/-! ### EXIF -/

/-- The TIFF header within an EXIF blob, after a prefix of up to 15 bytes. -/
def tiffStart (exif : Bytes) : Option (Bytes × ByteOrder) :=
  (List.range (min exif.length 16)).findSome? fun base =>
    match slice exif base (base + 4) with
    | some mark =>
      if mark = [0x49, 0x49, 0x2A, 0] then some (exif.drop base, .little)
      else if mark = [0x4D, 0x4D, 0, 0x2A] then some (exif.drop base, .big)
      else none
    | none => none

section Exif

variable (host : Host) (mode : Interpretation)

/-- The value of a directory entry. -/
def findValue (tiff : Bytes) (order : ByteOrder) (e : ℕ) : Option (ℕ × ℕ × Bytes) := do
  let dtype ← host.u16 order tiff (e + 2)
  let n ← host.u32 order tiff (e + 4)
  let total ← host.checkedMul (mode.typeSize dtype) n
  let value ←
    (if total ≤ 4 then slice tiff (e + 8) (e + 8 + min total 4)
    else do
      let off ← host.u32 order tiff (e + 8)
      let stop ← host.checkedAdd off total
      slice tiff off stop)
  return (dtype, n, value)

/-- The loop over `n` entries from offset `e` on; `result` is what was found so far. -/
def ifdFindFrom (tiff : Bytes) (order : ByteOrder) (want : ℕ) :
    (n e : ℕ) → (result : Option (ℕ × ℕ × Bytes)) → Option (ℕ × ℕ × Bytes)
  | 0, _, result => result
  | n + 1, e, result =>
    if e + 12 > tiff.length then none
    else do
      let tag ← host.u16 order tiff e
      if tag ≠ want then ifdFindFrom tiff order want n (e + 12) result
      else
        let found ← findValue host mode tiff order e
        if mode = .compatibility then some found
        else if result.isSome then none
        else ifdFindFrom tiff order want n (e + 12) (some found)

def ifdFind (tiff : Bytes) (order : ByteOrder) (ifdOff want : ℕ) :
    Option (ℕ × ℕ × Bytes) := do
  let count ← host.u16 order tiff ifdOff
  let entries ← host.checkedAdd ifdOff 2
  ifdFindFrom host mode tiff order want count entries none

/-- The maker note of an EXIF blob. -/
def findMakernote (exif : Bytes) : Option Bytes := do
  let (tiff, order) ← tiffStart exif
  let ifd0Off ← host.u32 order tiff 4
  let (kind, count, exifPtr) ← ifdFind host mode tiff order ifd0Off tiffTagExifIfd
  if mode = .strict ∧ (kind ≠ 4 ∨ count ≠ 1) then none
  else
    let exifIfdOff ← host.u32 order exifPtr 0
    let (kind, _, maker) ← ifdFind host mode tiff order exifIfdOff tiffTagMakernote
    if mode = .strict ∧ kind ≠ 7 then none
    else some maker

def parseExifWithMode (floats : Floats F) (exif : Bytes) : Option (AppleHdrInfo F) := do
  let maker ← findMakernote host mode exif
  parseMakernoteWithMode host mode floats maker

end Exif

/-! ### The published operations -/

section Operations

variable (host : Host) (floats : Floats F)

def parseExifForAppleHdr (exif : Bytes) : Option (AppleHdrInfo F) :=
  parseExifWithMode host .strict floats exif

def parseAppleMakernote (maker : Bytes) : Option (AppleHdrInfo F) :=
  parseMakernoteWithMode host .strict floats maker

def Compatibility.parseExifForAppleHdr (exif : Bytes) : Option (AppleHdrInfo F) :=
  parseExifWithMode host .compatibility floats exif

def Compatibility.parseAppleMakernote (maker : Bytes) : Option (AppleHdrInfo F) :=
  parseMakernoteWithMode host .compatibility floats maker

end Operations

end Zencodec.Apple
