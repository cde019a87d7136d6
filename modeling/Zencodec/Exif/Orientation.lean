/-
The orientation tag.

`Orientation` is the interface of the pixel crate's orientation enum, which this
repository does not contain; `Turn` is that enum for concrete runs.  The tag is
read through the parsed tree (`Exif.orientation`) and set either on the tree
(`setOrientationTag`) or in the source bytes (`setOrientationWith`).
-/
import Zencodec.Exif.Parse

open Slices

namespace Zencodec

/-- An orientation type: its EXIF values and its discriminants. -/
class Orientation (O : Type) where
  identity : O
  toExif : O → UInt8
  fromExif : UInt8 → Option O
  /-- `value as u8` -/
  discriminant : O → UInt8

/-- EXIF values are `1..=8`, are read back, and are the discriminants. -/
class LawfulOrientation (O : Type) [Orientation O] : Prop where
  toExif_mem : ∀ o : O, 1 ≤ Orientation.toExif o ∧ Orientation.toExif o ≤ 8
  fromExif_toExif : ∀ o : O, Orientation.fromExif (Orientation.toExif o) = some o
  discriminant_eq : ∀ o : O, Orientation.discriminant o = Orientation.toExif o

/-- The eight orientations, in the order of their EXIF values. -/
inductive Turn
  | identity
  | flipH
  | rotate180
  | flipV
  | transpose
  | rotate90
  | transverse
  | rotate270
  deriving DecidableEq, Repr

def Turn.toExif : Turn → UInt8
  | .identity => 1
  | .flipH => 2
  | .rotate180 => 3
  | .flipV => 4
  | .transpose => 5
  | .rotate90 => 6
  | .transverse => 7
  | .rotate270 => 8

def Turn.fromExif (v : UInt8) : Option Turn :=
  [identity, flipH, rotate180, flipV, transpose, rotate90, transverse, rotate270].find?
    fun t => t.toExif = v

instance : Orientation Turn where
  identity := .identity
  toExif := Turn.toExif
  fromExif := Turn.fromExif
  discriminant := Turn.toExif

instance : LawfulOrientation Turn where
  toExif_mem o := by cases o <;> decide
  fromExif_toExif o := by cases o <;> decide
  discriminant_eq _ := rfl

namespace Exif

variable {src : Bytes} {O : Type} [Orientation O]

/-- The first IFD0 entry with the orientation tag. -/
def orientationEntry (x : Exif src) : Option (Entry src) :=
  x.ifd0.find? fun e => e.tag = tagOrientation

/-- The orientation, if present and valid. -/
def orientation (x : Exif src) : Option O := do
  let e ← x.orientationEntry
  let raw ← readUint e x.order
  if raw.toNat < 256 then Orientation.fromExif (UInt8.ofNat raw.toNat) else none

/-- `v` as a SHORT or LONG value, `none` for another type. -/
def intBytes (kind : UInt16) (v : UInt32) (order : ByteOrder) : Option Bytes :=
  if kind = tiffShort then some (wordBytes order 2 v.toNat)
  else if kind = tiffLong then some (wordBytes order 4 v.toNat)
  else none

/-- Edit the first entry with a tag. -/
def editFirst (tag : UInt16) (f : Entry src → Entry src) : List (Entry src) → List (Entry src)
  | [] => []
  | e :: es => if e.tag = tag then f e :: es else e :: editFirst tag f es

/-- The entry with the integer `v` as its value, one element of its own type; an entry of
another type is left alone. -/
def Entry.setInt (e : Entry src) (v : UInt32) (order : ByteOrder) : Entry src :=
  match intBytes e.kind v order with
  | some b => { e with value := .owned b, count := 1 }
  | none => e

/-- Set the orientation tag if there is one. -/
def setOrientationTag (x : Exif src) (o : O) : Exif src :=
  { x with
    ifd0 := editFirst tagOrientation
      (fun e => e.setInt (Orientation.toExif o).toUInt32 x.order) x.ifd0 }

/-! ### The patch in place -/

/-- The width of an integer type. -/
def intSize (kind : UInt16) : Option ℕ :=
  if kind = tiffShort then some 2 else if kind = tiffLong then some 4 else none

/-- Overwrite an inline SHORT or LONG value in a copy of `data`.  A value stored out of
line may alias the structure of the file and is never patched. -/
def patchInlineInt (data : Bytes) (x : Exif src) (e : Entry src) (v : UInt32) :
    Option Bytes := do
  let size ← intSize e.kind
  if 4 < e.count.toNat * size then none
  else
    let base := if x.hadPrefix then exifPrefix.length else 0
    splice data (base + e.valueOffset) (wordBytes x.order size v.toNat)

/-- Rewrite the orientation in place. -/
def setOrientationWith (data : Bytes) (x : Exif src) (o : O) : Option Bytes :=
  x.orientationEntry.bind fun e =>
    patchInlineInt data x e (Orientation.discriminant o).toUInt32

end Exif

end Zencodec
