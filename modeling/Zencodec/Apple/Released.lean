/-
The released reader of Apple maker notes, kept as an oracle.

It reads on a 64-bit host, where none of its sums leaves `usize`: offsets and
counts are below `2 ^ 32`, elements at most 8 bytes.  The directory lies relative to
the byte-order marker at offset 12 of the note, the values relative to the note.
-/
import Zencodec.Apple.Note

namespace Zencodec.Apple.Released

open Slices

/-- `Endian::u16` -/
def u16 (order : ByteOrder) (b : Bytes) (o : ℕ) : Option ℕ :=
  (slice b o (o + 2)).map (wordValue order)

/-- `Endian::u32` -/
def u32 (order : ByteOrder) (b : Bytes) (o : ℕ) : Option ℕ :=
  (slice b o (o + 4)).map (wordValue order)

/-- Element size of a TIFF data type; unknown types fall back to 1. -/
def typeSize (dtype : ℕ) : ℕ :=
  if dtype = 3 ∨ dtype = 8 then 2
  else if dtype = 4 ∨ dtype = 9 ∨ dtype = 11 then 4
  else if dtype = 5 ∨ dtype = 10 ∨ dtype = 12 then 8
  else 1

variable {F : Type}

section Values

variable (floats : Floats F)

def readRational (value : Bytes) (dtype : ℕ) (order : ByteOrder) : Option F :=
  if value.length < 8 then none
  else if dtype = 10 then do
    let num ← u32 order value 0
    let den ← u32 order value 4
    fraction floats (asI32 num) (asI32 den)
  else if dtype = 5 then do
    let num ← u32 order value 0
    let den ← u32 order value 4
    fraction floats num den
  else none

def readInt (value : Bytes) (dtype : ℕ) (order : ByteOrder) : Option ℤ :=
  if dtype = 3 ∨ dtype = 8 then (u16 order value 0).map (↑)
  else if dtype = 4 ∨ dtype = 9 then (u32 order value 0).map asI32
  else if dtype = 1 ∨ dtype = 6 then value.head?.map fun b => b.toNat
  else none

/-- What is done with a value of one of the three tags. -/
def assign (order : ByteOrder) (info : AppleHdrInfo F) (tag dtype : ℕ) (value : Bytes) :
    AppleHdrInfo F :=
  if tag = Apple.hdrHeadroom then
    { info with hdrHeadroom := readRational floats value dtype order }
  else if tag = Apple.hdrGain then
    match readRational floats value dtype order with
    | some g => { info with hdrGain := g }
    | none => info
  else if tag = Apple.hdrImageType then
    { info with hdrImageType := readInt value dtype order }
  else info

/-- The value of an entry at offset `e` of `tiff`, where it can be read. -/
def entryValue (maker tiff : Bytes) (order : ByteOrder) (e : ℕ) : Option (ℕ × Bytes) := do
  let dtype ← u16 order tiff (e + 2)
  let n ← u32 order tiff (e + 4)
  let total := typeSize dtype * n
  let value ←
    (if total ≤ 4 then slice tiff (e + 8) (e + 8 + min total 4)
    else do
      let off ← u32 order tiff (e + 8)
      slice maker off (off + total))
  return (dtype, value)

/-- The loop over the next `n` entries, the first at offset `e` of `tiff`. -/
def scan (maker tiff : Bytes) (order : ByteOrder) : (n e : ℕ) → AppleHdrInfo F → AppleHdrInfo F
  | 0, _, info => info
  | n + 1, e, info =>
    if e + 12 > tiff.length then info
    else match u16 order tiff e with
      | none => info
      | some tag =>
        if tag ≠ Apple.hdrHeadroom ∧ tag ≠ Apple.hdrGain ∧ tag ≠ Apple.hdrImageType then
          scan maker tiff order n (e + 12) info
        else match entryValue maker tiff order e with
          | none => scan maker tiff order n (e + 12) info
          | some (dtype, value) =>
            scan maker tiff order n (e + 12) (assign floats order info tag dtype value)

def parseAppleMakernote (maker : Bytes) : Option (AppleHdrInfo F) :=
  if maker.length < 20 ∨ maker.take 10 ≠ appleIos then none
  else do
    let order ← orderOf [maker.getD 12 0, maker.getD 13 0]
    let tiff := maker.drop 12
    let magic ← u16 order tiff 2
    let ifdOff ← (if magic = 42 then u32 order tiff 4 else some 2)
    let count ← u16 order tiff ifdOff
    return scan floats maker tiff order count (ifdOff + 2) (.default floats)

end Values

/-- The loop over the next `n` entries, the first at offset `e`. -/
def ifdFindFrom (tiff : Bytes) (order : ByteOrder) (want : ℕ) :
    (n e : ℕ) → Option (ℕ × ℕ × Bytes)
  | 0, _ => none
  | n + 1, e =>
    if e + 12 > tiff.length then none
    else do
      let tag ← u16 order tiff e
      if tag ≠ want then ifdFindFrom tiff order want n (e + 12)
      else
        let dtype ← u16 order tiff (e + 2)
        let n ← u32 order tiff (e + 4)
        let total := typeSize dtype * n
        let value ←
          (if total ≤ 4 then slice tiff (e + 8) (e + 8 + min total 4)
          else do
            let off ← u32 order tiff (e + 8)
            slice tiff off (off + total))
        return (dtype, n, value)

def ifdFind (tiff : Bytes) (order : ByteOrder) (ifdOff want : ℕ) :
    Option (ℕ × ℕ × Bytes) := do
  let count ← u16 order tiff ifdOff
  ifdFindFrom tiff order want count (ifdOff + 2)

def parseExifForAppleHdr (floats : Floats F) (exif : Bytes) : Option (AppleHdrInfo F) := do
  let (tiff, order) ← tiffStart exif
  let ifd0Off ← u32 order tiff 4
  let (_, _, exifPtr) ← ifdFind tiff order ifd0Off tiffTagExifIfd
  let exifIfdOff ← u32 order exifPtr 0
  let (_, _, maker) ← ifdFind tiff order exifIfdOff tiffTagMakernote
  parseAppleMakernote floats maker

end Zencodec.Apple.Released
