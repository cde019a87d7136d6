/-
The TIFF writer.

`Exif.toBytes` lays the directories out one after the other, each as its entry
table followed by its out-of-line values, and recomputes every offset.  Rows are
written in tag order and values in that same order, so the output is canonical.
Values that alias the same source bytes are stored once per directory.
-/
import Zencodec.Lib.StableSort
import Zencodec.Exif.Parse

open Slices StableSort

namespace Zencodec.Exif

variable {src : Bytes}

/-- A row of a directory: an entry, or a synthesized LONG pointer. -/
inductive Item (src : Bytes)
  | real (e : Entry src)
  | ptr (tag : UInt16) (val : UInt32)

def Item.tag : Item src → UInt16
  | .real e => e.tag
  | .ptr t _ => t

/-- The sort key of a row. -/
def Item.key (it : Item src) : ℕ := it.tag.toNat

def put16 (order : ByteOrder) (v : UInt16) : Bytes := wordBytes order 2 v.toNat

def put32 (order : ByteOrder) (v : UInt32) : Bytes := wordBytes order 4 v.toNat

def align2 (n : ℕ) : ℕ := n + n % 2

/-! ### One directory -/

/-- Out-of-line data laid out so far, and where each borrowed value went. -/
structure ExtState where
  ext : Bytes
  placed : List ((ℕ × ℕ) × ℕ)

/-- The offset of a value in the out-of-line data: that of an alias already placed, or the
end, where the value is appended and padded to a word. -/
def placeExt (st : ExtState) (v : Cow src) : ℕ × ExtState :=
  match v.key.bind fun k => st.placed.find? (fun p => p.1 = k) with
  | some (_, o) => (o, st)
  | none =>
    let ext := st.ext ++ v.bytes
    (st.ext.length,
      { ext := if ext.length % 2 = 1 then ext ++ [0] else ext
        placed := st.placed ++ (v.key.map fun k => (k, st.ext.length)).toList })

/-- The 12 bytes of a row. -/
def writeItem (order : ByteOrder) (extBase : ℕ) (st : ExtState) :
    Item src → Bytes × ExtState
  | .ptr tag val =>
    (put16 order tag ++ put16 order tiffLong ++ put32 order 1 ++ put32 order val, st)
  | .real e =>
    let head := put16 order e.tag ++ put16 order e.kind ++ put32 order e.count
    if e.value.bytes.length ≤ 4 then
      (head ++ (e.value.bytes ++ List.replicate (4 - e.value.bytes.length) 0), st)
    else
      let (off, st) := placeExt st e.value
      (head ++ put32 order (UInt32.ofNat (extBase + off)), st)

/-- The rows of a table and the state after the last. -/
def writeItems (order : ByteOrder) (extBase : ℕ) :
    ExtState → List (Item src) → Bytes × ExtState
  | st, [] => ([], st)
  | st, it :: its =>
    let (row, st) := writeItem order extBase st it
    let (rows, st) := writeItems order extBase st its
    (row ++ rows, st)

/-- Entries and synthesized pointers in tag order. -/
def sortedItems (entries : List (Entry src)) (ptrVals : List (UInt16 × UInt32)) :
    List (Item src) :=
  sortBy Item.key (entries.map .real ++ ptrVals.map fun (t, v) => .ptr t v)

def writeIfd (order : ByteOrder) (entries : List (Entry src))
    (ptrVals : List (UInt16 × UInt32)) (extBase : ℕ) (next : UInt32) : Bytes :=
  let items := sortedItems entries ptrVals
  let (rows, st) := writeItems order extBase ⟨[], []⟩ items
  put16 order (UInt16.ofNat items.length) ++ rows ++ put32 order next ++ st.ext

/-- Out-of-line size of the entries, aliases of `placed` values not counted. -/
def extSizeFrom : List (ℕ × ℕ) → List (Entry src) → ℕ
  | _, [] => 0
  | placed, e :: es =>
    if e.value.bytes.length ≤ 4 then extSizeFrom placed es
    else
      match e.value.key with
      | none => align2 e.value.bytes.length + extSizeFrom placed es
      | some k =>
        if k ∈ placed then extSizeFrom placed es
        else align2 e.value.bytes.length + extSizeFrom (k :: placed) es

/-- What one entry adds to the out-of-line data, and the aliases placed after it. -/
def extStep (placed : List (ℕ × ℕ)) (e : Entry src) : ℕ × List (ℕ × ℕ) :=
  if e.value.bytes.length ≤ 4 then (0, placed)
  else
    match e.value.key with
    | none => (align2 e.value.bytes.length, placed)
    | some k =>
      if k ∈ placed then (0, placed) else (align2 e.value.bytes.length, k :: placed)

def extSize (entries : List (Entry src)) : ℕ := extSizeFrom [] entries

/-! ### The whole file -/

/-- Size of an entry table. -/
def tableSize (entries : List (Entry src)) (nptr : ℕ) : ℕ :=
  2 + 12 * (entries.length + nptr) + 4

/-- Size of a directory with its out-of-line values. -/
def blockSize (entries : List (Entry src)) (nptr : ℕ) : ℕ :=
  tableSize entries nptr + extSize entries

/-- The Interop IFD the writer emits: it needs an Exif IFD to hang off. -/
def interop (x : Exif src) : Option (List (Entry src)) :=
  x.exifIfd.bind fun _ => x.interopIfd

def ifd0Nptr (x : Exif src) : ℕ := x.exifIfd.isSome.toNat + x.gpsIfd.isSome.toNat

def exifNptr (x : Exif src) : ℕ := x.interop.isSome.toNat

def ifd1Nptr (x : Exif src) : ℕ := if x.thumbnail.isSome then 2 else 0

/-- Projected length of `toBytes`, computed without writing. -/
def serializedLen (x : Exif src) : ℕ :=
  (if x.hadPrefix then exifPrefix.length else 0)
    + tiffHeaderSize + blockSize x.ifd0 x.ifd0Nptr
    + (x.exifIfd.elim 0 (blockSize · x.exifNptr))
    + (x.interop.elim 0 (blockSize · 0))
    + (x.gpsIfd.elim 0 (blockSize · 0))
    + (x.ifd1.elim 0 (blockSize · x.ifd1Nptr))
    + (x.thumbnail.elim 0 (·.bytes.length))

/-- TIFF-relative offsets of the blocks, in file order. -/
structure Offsets where
  exif : ℕ
  interop : ℕ
  gps : ℕ
  ifd1 : ℕ
  thumb : ℕ

def offsets (x : Exif src) : Offsets :=
  let exif := tiffHeaderSize + blockSize x.ifd0 x.ifd0Nptr
  let interop := exif + x.exifIfd.elim 0 (blockSize · x.exifNptr)
  let gps := interop + x.interop.elim 0 (blockSize · 0)
  let ifd1 := gps + x.gpsIfd.elim 0 (blockSize · 0)
  let thumb := ifd1 + x.ifd1.elim 0 (blockSize · x.ifd1Nptr)
  ⟨exif, interop, gps, ifd1, thumb⟩

/-- A pointer row to a block, when the block is there. -/
def pointerTo (block : Option (List (Entry src))) (tag : UInt16) (off : ℕ) :
    List (UInt16 × UInt32) :=
  if block.isSome then [(tag, UInt32.ofNat off)] else []

/-- Pointer rows of IFD0. -/
def ifd0Ptrs (x : Exif src) : List (UInt16 × UInt32) :=
  pointerTo x.exifIfd tagExifIfd x.offsets.exif ++ pointerTo x.gpsIfd tagGpsIfd x.offsets.gps

/-- The thumbnail pair of IFD1. -/
def ifd1Ptrs (x : Exif src) : List (UInt16 × UInt32) :=
  match x.thumbnail with
  | none => []
  | some t =>
    [(tagThumbOffset, UInt32.ofNat x.offsets.thumb),
      (tagThumbLength, UInt32.ofNat t.bytes.length)]

def orderMark : ByteOrder → Bytes
  | .little => [0x49, 0x49]
  | .big => [0x4D, 0x4D]

/-- One directory at `off`, its values right after the table. -/
def writeBlock (x : Exif src) (entries : List (Entry src))
    (ptrVals : List (UInt16 × UInt32)) (off : ℕ) (next : UInt32) : Bytes :=
  writeIfd x.order entries ptrVals (off + tableSize entries ptrVals.length) next

/-- The TIFF part of the output. -/
def tiffBytes (x : Exif src) : Bytes :=
  let o := x.offsets
  orderMark x.order ++ put16 x.order 42 ++ put32 x.order (UInt32.ofNat tiffHeaderSize)
    ++ x.writeBlock x.ifd0 x.ifd0Ptrs tiffHeaderSize
      (if x.ifd1.isSome then UInt32.ofNat o.ifd1 else 0)
    ++ x.exifIfd.elim []
      (fun d => x.writeBlock d (pointerTo x.interop tagInteropIfd o.interop) o.exif 0)
    ++ x.interop.elim [] (fun d => x.writeBlock d [] o.interop 0)
    ++ x.gpsIfd.elim [] (fun d => x.writeBlock d [] o.gps 0)
    ++ x.ifd1.elim [] (fun d => x.writeBlock d x.ifd1Ptrs o.ifd1 0)
    ++ x.thumbnail.elim [] Slice.bytes

/-- Serialize to a TIFF, recomputing every offset and keeping the byte order and framing. -/
def toBytes (x : Exif src) : Bytes :=
  (if x.hadPrefix then exifPrefix else []) ++ x.tiffBytes

end Zencodec.Exif
