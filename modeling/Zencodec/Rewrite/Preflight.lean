/-
The preflight of an EXIF packet.

`validate` walks the directories of a packet before the tolerant reader `Exif.parse` sees it,
and rejects what that reader would skip. It counts the storage that a serialized copy of the
packet can need, `expanded`, against the metadata budget, and returns the count.

The walk keeps a stack of directories that are still to be visited; `pending` has its top
first. A directory may be visited once and at most 64 are, so `walk` recurses on the number
of visits left.
-/
import Zencodec.Rewrite.Plan
import Zencodec.Exif.Parse

open Slices Zencodec.Exif

namespace Zencodec.Rewrite

variable {Ω : Type}

/-- `Context::packet`. -/
def Context.packet (req : Context Ω) (size : ℕ) : Act Ω Error Unit := do
  req.check
  Act.require (decide (size ≤ req.maxMetadata)) (.limit .metadataSize)

/-- `usize::checked_mul`. -/
def checkedMul (host : Host Ω) (a b : ℕ) : Option ℕ :=
  if a * b ≤ host.usizeMax then some (a * b) else none

namespace Preflight

variable (host : Host Ω) (req : Context Ω) (tiff : Bytes) (order : ByteOrder)

/-! ### One row -/

def u16at (p : ℕ) : Act Ω Error UInt16 := do
  Act.require (decide (p + 2 ≤ host.usizeMax)) (.malformed "EXIF offset")
  Act.getOr (rd16 tiff p order) (.malformed "EXIF bounds")

def u32at (p : ℕ) : Act Ω Error UInt32 := do
  Act.require (decide (p + 4 ≤ host.usizeMax)) (.malformed "EXIF offset")
  Act.getOr (rd32 tiff p order) (.malformed "EXIF bounds")

/-- Size in bytes of one value of a field type, BigTIFF types included. -/
def fieldWidth (ty : UInt16) : Option ℕ :=
  if ty ∈ [1, 2, 6, 7] then some 1
  else if ty ∈ [3, 8] then some 2
  else if ty ∈ [4, 9, 11, 13] then some 4
  else if ty ∈ [5, 10, 12, 16, 17, 18] then some 8
  else none

/-- A row and the range of its value. -/
structure Row where
  tag : UInt16
  ty : UInt16
  n : UInt32
  size : ℕ
  value : ℕ

/-- Where a value of `size` bytes stands: in the row at `e` when it fits there. -/
def valueAt (e size : ℕ) : Act Ω Error ℕ :=
  if size ≤ 4 then pure (e + 8)
  else do
    let offset ← u32at host tiff order (e + 8)
    pure offset.toNat

def readRow (e : ℕ) : Act Ω Error Row := do
  let tag ← u16at host tiff order e
  let ty ← u16at host tiff order (e + 2)
  let n ← u32at host tiff order (e + 4)
  let width ← Act.getOr (fieldWidth ty) (.malformed "EXIF field type")
  let size ← Act.getOr (checkedMul host n.toNat width) (.malformed "EXIF value length")
  let value ← valueAt host tiff order e size
  Act.require ((checkedAdd host value size).any fun v => decide (v ≤ tiff.length))
    (.malformed "EXIF value bounds")
  pure { tag, ty, n, size, value }

/-- What is known of a directory while its rows are read, and the stack. -/
structure Scan where
  expanded : ℕ
  pending : List ℕ
  /-- Ranges of the values out of line: `external_values`. -/
  external : Finset (ℕ × ℕ) := ∅
  thumbnailOffset : Option ℕ := none
  thumbnailSize : Option ℕ := none
  /-- Orientation and pointer tags seen. -/
  tags : Finset UInt16 := ∅

/-- Storage for a value out of line, padded to a word; a range is counted once. -/
def countValue (row : Row) (s : Scan) : Act Ω Error Scan :=
  if 4 < row.size ∧ (row.value, row.size) ∉ s.external then do
    let expanded ← Act.getOr
      ((checkedAdd host s.expanded row.size).bind fun n => checkedAdd host n (row.size % 2))
      (.limit .metadataSize)
    req.packet expanded
    pure { s with expanded, external := insert (row.value, row.size) s.external }
  else pure s

/-- The value of a single SHORT or LONG. -/
def scalar (row : Row) : Act Ω Error ℕ :=
  if row.ty = tiffShort then do
    let v ← u16at host tiff order row.value
    pure v.toNat
  else do
    let v ← u32at host tiff order row.value
    pure v.toNat

/-- A later row replaces an earlier one of its tag. -/
def noteThumbnail (row : Row) (s : Scan) : Act Ω Error Scan :=
  if row.n = 1 ∧ row.ty ∈ [tiffShort, tiffLong] ∧
      row.tag ∈ [tagThumbOffset, tagThumbLength] then do
    let scalar ← scalar host tiff order row
    pure (if row.tag = tagThumbOffset then { s with thumbnailOffset := some scalar }
      else { s with thumbnailSize := some scalar })
  else pure s

def noteTag (row : Row) (s : Scan) : Act Ω Error Scan :=
  if row.tag ∈ [tagOrientation, tagExifIfd, tagGpsIfd, tagInteropIfd] then do
    Act.require (decide (row.tag ∉ s.tags)) (.malformed "duplicate EXIF orientation/pointer")
    pure { s with tags := insert row.tag s.tags }
  else pure s

def checkOrientation (row : Row) : Act Ω Error Unit :=
  if row.tag = tagOrientation then do
    Act.require (decide (row.n = 1 ∧ row.ty ∈ [tiffShort, tiffLong]))
      (.malformed "EXIF orientation type")
    let v ← scalar host tiff order row
    Act.require (decide (1 ≤ v ∧ v ≤ 8)) (.malformed "EXIF orientation value")
  else pure ()

def followPointer (row : Row) (s : Scan) : Act Ω Error Scan :=
  if row.tag ∈ [tagExifIfd, tagGpsIfd, tagInteropIfd] then do
    Act.require (decide (row.n = 1 ∧ row.ty ∈ [tiffLong, tiffIfd]))
      (.malformed "EXIF IFD pointer type")
    let child ← u32at host tiff order row.value
    pure (if child = 0 then s else { s with pending := child.toNat :: s.pending })
  else pure s

/-- One round of the loop over the rows. -/
def scanRow (e : ℕ) (s : Scan) : Act Ω Error Scan := do
  req.check
  let row ← readRow host tiff order e
  let s ← countValue host req row s
  let s ← noteThumbnail host tiff order row s
  let s ← noteTag row s
  checkOrientation host tiff order row
  followPointer host tiff order row s

/-- The loop over `n` rows from `e` on. -/
def scanRows : ℕ → ℕ → Scan → Act Ω Error Scan
  | 0, _, s => pure s
  | n + 1, e, s => do
    let s ← scanRow host req tiff order e s
    scanRows n (e + 12) s

/-! ### The walk -/

/-- What is known between directories. -/
structure Walk where
  expanded : ℕ
  pending : List ℕ
  visited : Finset ℕ := ∅
  entries : ℕ := 0

/-- Storage for the thumbnail that a directory names. -/
def countThumbnail (s : Scan) : Act Ω Error ℕ :=
  match s.thumbnailOffset, s.thumbnailSize with
  | some offset, some size => do
    Act.require ((checkedAdd host offset size).any fun stop => decide (stop ≤ tiff.length))
      (.malformed "EXIF thumbnail bounds")
    let expanded ← Act.getOr (checkedAdd host s.expanded size) (.limit .metadataSize)
    req.packet expanded
    pure expanded
  | _, _ => pure s.expanded

/-- Visit the directory at `p`, which was popped. -/
def directory (p : ℕ) (w : Walk) : Act Ω Error Walk := do
  Act.require (decide (8 ≤ p ∧ p ∉ w.visited ∧ w.visited.card < 64))
    (.malformed "EXIF cyclic/excessive IFDs")
  let count ← u16at host tiff order p
  let expanded ← Act.getOr (checkedAdd host w.expanded (6 + 12 * count.toNat))
    (.limit .metadataSize)
  req.packet expanded
  let entries ← Act.getOr (checkedAdd host w.entries count.toNat) (.limit .metadataEntries)
  Act.require (decide (entries ≤ req.maxCarriers)) (.limit .metadataEntries)
  let stop ← Act.getOr
    ((checkedAdd host p (2 + 12 * count.toNat)).filter fun n => decide (n ≤ tiff.length))
    (.malformed "EXIF truncated IFD")
  let next ← u32at host tiff order stop
  let pending := if next = 0 then w.pending else next.toNat :: w.pending
  let scan ← scanRows host req tiff order count.toNat (p + 2) { expanded, pending }
  let expanded ← countThumbnail host req tiff scan
  pure { expanded, pending := scan.pending, visited := insert p w.visited, entries }

/-- The loop over the stack, with at most `visits` visits left. -/
def walk : ℕ → Walk → Act Ω Error ℕ
  | 0, w =>
    match w.pending with
    | [] => pure w.expanded
    | _ :: _ => do
      req.check
      Act.fail (.malformed "EXIF cyclic/excessive IFDs")
  | visits + 1, w =>
    match w.pending with
    | [] => pure w.expanded
    | p :: pending => do
      req.check
      let w ← directory host req tiff order p { w with pending }
      walk visits w

end Preflight

open Preflight

/-- `validate`, with the size that it computes. -/
def validate (host : Host Ω) (req : Context Ω) (bytes : Bytes) : Act Ω Error ℕ := do
  let tiff := tiffOf bytes
  let order ← Act.getOr (orderOf tiff) (.malformed "EXIF byte order")
  let magic ← u16at host tiff order 2
  Act.require (decide (magic = 42)) (.malformed "EXIF TIFF magic")
  let first ← u32at host tiff order 4
  Act.require (decide (first ≠ 0)) (.malformed "EXIF missing IFD0")
  walk host req tiff order 64
    { expanded := if hasPrefix bytes then 14 else 8, pending := [first.toNat] }

end Zencodec.Rewrite
