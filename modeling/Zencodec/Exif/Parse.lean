/-
The EXIF tree and its parser.

`Exif.parse` reads a TIFF blob (optionally `Exif\0\0`-prefixed) into a tree of
directories.  Entry values borrow the source: a `Slice src` is a range of `src`
that lies in bounds, so a parsed tree has the type `Exif src` of trees over the
TIFF bytes it was read from, as `Exif<'a>` borrows from `'a`.

A structural failure makes the parser return `none`; an unreadable entry is
skipped and a truncated table keeps the entries read so far.
-/
import Zencodec.Exif.Tags

open Slices

namespace Zencodec

namespace Exif

variable {src : Bytes}

/-! ### The tree -/

/-- A range of `src` that lies in bounds. -/
structure Slice (src : Bytes) where
  start : ℕ
  len : ℕ
  inBounds : start + len ≤ src.length
  deriving DecidableEq

/-- The bytes of a slice. -/
def Slice.bytes (s : Slice src) : Bytes := (src.drop s.start).take s.len

/-- `d.get(start..start + len)` as a slice. -/
def Slice.get (src : Bytes) (start len : ℕ) : Option (Slice src) :=
  if h : start + len ≤ src.length then some ⟨start, len, h⟩ else none

/-- Value bytes: borrowed from the source, or owned by an edited entry. -/
inductive Cow (src : Bytes)
  | borrowed (s : Slice src)
  | owned (bytes : Bytes)
  deriving DecidableEq

def Cow.bytes : Cow src → Bytes
  | .borrowed s => s.bytes
  | .owned b => b

@[simp] theorem Cow.bytes_owned (b : Bytes) : (Cow.owned b : Cow src).bytes = b := rfl

@[simp] theorem Cow.bytes_borrowed (s : Slice src) : (Cow.borrowed s).bytes = s.bytes := rfl

/-- The pointer and length of a value; an owned value is an allocation of its own, which
no other value shares. -/
def Cow.key : Cow src → Option (ℕ × ℕ)
  | .borrowed s => some (s.start, s.len)
  | .owned _ => none

/-- One IFD entry. -/
structure Entry (src : Bytes) where
  tag : UInt16
  kind : UInt16
  count : UInt32
  /-- `count × typeSize` bytes, in source byte order. -/
  value : Cow src
  /-- Offset of the value within the TIFF; `0` for an injected entry. -/
  valueOffset : ℕ
  deriving DecidableEq

/-- Which TIFF field type string tags are written with. -/
inductive TextEncoding
  | ascii
  | utf8
  deriving DecidableEq, Repr

end Exif

/-- A parsed EXIF/TIFF tree borrowing from the TIFF bytes `src`. -/
structure Exif (src : Bytes) where
  order : ByteOrder
  hadPrefix : Bool
  ifd0 : List (Exif.Entry src)
  exifIfd : Option (List (Exif.Entry src))
  gpsIfd : Option (List (Exif.Entry src))
  /-- A child of the Exif IFD; never `some` without one. -/
  interopIfd : Option (List (Exif.Entry src))
  ifd1 : Option (List (Exif.Entry src))
  thumbnail : Option (Exif.Slice src)
  textEncoding : Exif.TextEncoding
  deriving DecidableEq

namespace Exif

variable {src : Bytes}

@[simp] theorem Slice.length_bytes (s : Slice src) : s.bytes.length = s.len := by
  have h := s.inBounds
  simp only [Slice.bytes, List.length_take, List.length_drop]
  omega

theorem Slice.hasAt (s : Slice src) : HasAt src s.start s.bytes := by
  rw [hasAt_iff, s.length_bytes]
  exact ⟨s.inBounds, rfl⟩

/-- A slice is the bytes that stand at its offset. -/
theorem Slice.get_of_hasAt {bs : Bytes} {o n : ℕ} (h : HasAt src o bs) (hn : n = bs.length) :
    ∃ s : Slice src, Slice.get src o n = some s ∧ s.start = o ∧ s.len = n ∧ s.bytes = bs := by
  subst hn
  refine ⟨⟨o, bs.length, h.le⟩, dif_pos h.le, rfl, rfl, (hasAt_iff.mp h).2⟩

theorem Slice.get_eq_some {o n : ℕ} {s : Slice src} :
    Slice.get src o n = some s ↔ s.start = o ∧ s.len = n := by
  unfold Slice.get
  split
  · constructor
    · intro h
      obtain rfl := Option.some_inj.mp h
      exact ⟨rfl, rfl⟩
    · obtain ⟨start, len, hs⟩ := s
      rintro ⟨rfl, rfl⟩
      rfl
  · next hn =>
    constructor
    · intro h
      exact absurd h (by simp)
    · rintro ⟨rfl, rfl⟩
      exact absurd s.inBounds hn

/-! ### Reading words -/

def rd16 (d : Bytes) (o : ℕ) (order : ByteOrder) : Option UInt16 :=
  (slice d o (o + 2)).map fun b => UInt16.ofNat (wordValue order b)

def rd32 (d : Bytes) (o : ℕ) (order : ByteOrder) : Option UInt32 :=
  (slice d o (o + 4)).map fun b => UInt32.ofNat (wordValue order b)

/-- Read a SHORT or LONG value. -/
def readUint (e : Entry src) (order : ByteOrder) : Option UInt32 :=
  if e.kind = tiffShort then (rd16 e.value.bytes 0 order).map UInt16.toUInt32
  else if e.kind = tiffLong then rd32 e.value.bytes 0 order
  else none

/-! ### Directories -/

/-- Where the value of the entry at `e` stands: in the entry itself when it fits there. -/
def valueOffsetAt (tiff : Bytes) (e : ℕ) (order : ByteOrder) (byteLen : ℕ) : Option ℕ :=
  if byteLen ≤ 4 then some (e + 8) else (rd32 tiff (e + 8) order).map UInt32.toNat

/-- Read the 12-byte entry at `e`; `none` for an unknown type or an out-of-bounds value. -/
def resolveEntry (tiff : Bytes) (e : ℕ) (order : ByteOrder) : Option (Entry tiff) := do
  let tag ← rd16 tiff e order
  let kind ← rd16 tiff (e + 2) order
  let cnt ← rd32 tiff (e + 4) order
  let tsize ← typeSize kind
  let byteLen := cnt.toNat * tsize
  let valueOffset ← valueOffsetAt tiff e order byteLen
  let value ← Slice.get tiff valueOffset byteLen
  some ⟨tag, kind, cnt, .borrowed value, valueOffset⟩

/-- The entries of a table of `n` rows at `e`.  A truncated table ends the loop, an
unreadable entry is skipped. -/
def readEntries (tiff : Bytes) (order : ByteOrder) : ℕ → ℕ → List (Entry tiff)
  | 0, _ => []
  | n + 1, e =>
    if tiff.length < e + 12 then []
    else (resolveEntry tiff e order).toList ++ readEntries tiff order n (e + 12)

/-- The entries of the directory at `off` and its next-IFD offset (0 when absent). -/
def parseIfd (tiff : Bytes) (off : ℕ) (order : ByteOrder) :
    Option (List (Entry tiff) × UInt32) := do
  let count ← rd16 tiff off order
  if maxIfdEntries < count.toNat then none
  else
    let entriesStart := off + 2
    let next := (rd32 tiff (entriesStart + count.toNat * 12) order).getD 0
    some (readEntries tiff order count.toNat entriesStart, next)

/-- Take a structural pointer's offset out of `entries`.  A first occurrence whose value is
shorter than an offset stays in place. -/
def takePointer (entries : List (Entry src)) (tag : UInt16) (order : ByteOrder) :
    Option ℕ × List (Entry src) :=
  match (entries.find? fun e => e.tag = tag).bind fun e => slice e.value.bytes 0 4 with
  | none => (none, entries)
  | some b => (some (wordValue order b), entries.eraseP fun e => e.tag = tag)

/-- `entries` without the tag, once one occurrence of it was taken. -/
def sweep (taken : Option ℕ) (tag : UInt16) (entries : List (Entry src)) :
    List (Entry src) :=
  if taken.isSome then entries.filter (fun e => e.tag ≠ tag) else entries

/-- The TIFF bytes of a blob, past the optional prefix. -/
def hasPrefix (data : Bytes) : Bool := data.take exifPrefix.length = exifPrefix

def tiffOf (data : Bytes) : Bytes :=
  if hasPrefix data then data.drop exifPrefix.length else data

/-- The Exif IFD at an extracted offset, and the Interop IFD hanging off it. -/
def parseExifIfd (tiff : Bytes) (order : ByteOrder) (off : ℕ) :
    Option (List (Entry tiff) × Option (List (Entry tiff))) :=
  (parseIfd tiff off order).map fun (e, _) =>
    let (interopTaken, e) := takePointer e tagInteropIfd order
    let interopIfd := interopTaken.bind fun o => (parseIfd tiff o order).map Prod.fst
    (sweep interopTaken tagInteropIfd e, interopIfd)

/-- IFD1 and the thumbnail its offset/length pair locates. -/
def parseIfd1 (tiff : Bytes) (order : ByteOrder) (next : UInt32) :
    Option (List (Entry tiff)) × Option (Slice tiff) :=
  if next = 0 then (none, none)
  else
    match parseIfd tiff next.toNat order with
    | none => (none, none)
    | some (entries, _) =>
      let toff := (entries.find? fun e => e.tag = tagThumbOffset).bind (readUint · order)
      let tlen := (entries.find? fun e => e.tag = tagThumbLength).bind (readUint · order)
      let thumbnail := toff.bind fun o => tlen.bind fun l => Slice.get tiff o.toNat l.toNat
      (some (entries.filter fun e => e.tag ≠ tagThumbOffset ∧ e.tag ≠ tagThumbLength),
        thumbnail)

/-- The byte order the first two bytes name. -/
def orderOf (tiff : Bytes) : Option ByteOrder :=
  if tiff.take 2 = [0x4D, 0x4D] then some .big
  else if tiff.take 2 = [0x49, 0x49] then some .little
  else none

/-- The tree of the TIFF bytes `tiff`. -/
def parseTiff (hadPrefix : Bool) (tiff : Bytes) : Option (Exif tiff) := do
  if tiff.length < tiffHeaderSize then none
  else
    let order ← orderOf tiff
    let magic ← rd16 tiff 2 order
    if magic ≠ 42 then none
    else
      let ifd0Off ← rd32 tiff 4 order
      let (ifd0, next) ← parseIfd tiff ifd0Off.toNat order
      let (exifTaken, ifd0) := takePointer ifd0 tagExifIfd order
      let exif := exifTaken.bind (parseExifIfd tiff order)
      let (gpsTaken, ifd0) := takePointer ifd0 tagGpsIfd order
      let gpsIfd := gpsTaken.bind fun o => (parseIfd tiff o order).map Prod.fst
      let (ifd1, thumbnail) := parseIfd1 tiff order next
      some
        { order, hadPrefix
          ifd0 := sweep gpsTaken tagGpsIfd (sweep exifTaken tagExifIfd ifd0)
          exifIfd := exif.map Prod.fst
          gpsIfd
          interopIfd := exif.bind Prod.snd
          ifd1, thumbnail
          textEncoding := .ascii }

/-- Parse a TIFF/EXIF blob, optionally `Exif\0\0`-prefixed. -/
def parse (data : Bytes) : Option (Exif (tiffOf data)) :=
  parseTiff (hasPrefix data) (tiffOf data)

end Exif

end Zencodec
