/-
What an EXIF tree says, apart from where its bytes lie.

`Tree` is the abstract content of a blob: byte order, framing, five directories
of fields and a thumbnail.  `Exif.view` forgets offsets and aliasing, and
`Tree.canonical` is the form every serialized tree takes, each directory stably
sorted by tag.  `Reproducible` is the invariant of the trees the writer is used on.
-/
import Zencodec.Exif.Write

open Slices StableSort

namespace Zencodec.Exif

variable {src : Bytes}

/-- Tag, type, count and value bytes of an entry. -/
structure Field where
  tag : UInt16
  kind : UInt16
  count : UInt32
  value : Bytes
  deriving DecidableEq

/-- The content of an EXIF blob. -/
structure Tree where
  order : ByteOrder
  hadPrefix : Bool
  ifd0 : List Field
  exifIfd : Option (List Field)
  gpsIfd : Option (List Field)
  interopIfd : Option (List Field)
  ifd1 : Option (List Field)
  thumbnail : Option Bytes
  deriving DecidableEq

/-- A directory in tag order. -/
def canonicalDir (d : List Field) : List Field := sortBy (fun f => f.tag.toNat) d

/-- Every directory in tag order. -/
def Tree.canonical (t : Tree) : Tree :=
  { t with
    ifd0 := canonicalDir t.ifd0
    exifIfd := t.exifIfd.map canonicalDir
    gpsIfd := t.gpsIfd.map canonicalDir
    interopIfd := t.interopIfd.map canonicalDir
    ifd1 := t.ifd1.map canonicalDir }

def Entry.field (e : Entry src) : Field := ⟨e.tag, e.kind, e.count, e.value.bytes⟩

@[simp] theorem Entry.field_tag (e : Entry src) : e.field.tag = e.tag := rfl

/-- The fields of a directory. -/
def fields (d : List (Entry src)) : List Field := d.map Entry.field

/-- The content of a parsed tree. -/
def view (x : Exif src) : Tree where
  order := x.order
  hadPrefix := x.hadPrefix
  ifd0 := fields x.ifd0
  exifIfd := x.exifIfd.map fields
  gpsIfd := x.gpsIfd.map fields
  interopIfd := x.interopIfd.map fields
  ifd1 := x.ifd1.map fields
  thumbnail := x.thumbnail.map Slice.bytes

theorem canonicalDir_fields (d : List (Entry src)) :
    canonicalDir (fields d) = fields (sortBy (fun e => e.tag.toNat) d) :=
  (map_sortBy Entry.field (fun _ => rfl) d).symm

theorem canonicalDir_canonicalDir (d : List Field) :
    canonicalDir (canonicalDir d) = canonicalDir d :=
  sortBy_sortBy _ d

theorem Tree.canonical_canonical (t : Tree) : t.canonical.canonical = t.canonical := by
  simp only [Tree.canonical, canonicalDir_canonicalDir, Option.map_map, Function.comp_def]

/-! ### Trees the writer reproduces -/

/-- The value has the length its type and count declare. -/
def Entry.Sound (e : Entry src) : Prop :=
  ∃ s, typeSize e.kind = some s ∧ e.value.bytes.length = e.count.toNat * s

/-- The first entry with this tag, if any, is too short to be an offset. -/
def FirstShort (tag : UInt16) (d : List (Entry src)) : Prop :=
  ∀ e, d.find? (fun e => e.tag = tag) = some e → e.value.bytes.length < 4

/-- A directory whose entries have sound values and leave room for `nptr` pointer rows. -/
structure DirOk (d : List (Entry src)) (nptr : ℕ) : Prop where
  sound : ∀ e ∈ d, e.Sound
  room : d.length + nptr ≤ maxIfdEntries

/-- Next to a child directory no entry carries its pointer tag; without one, no entry can
be taken for its pointer. -/
def PointerOk {β : Type} (child : Option β) (tag : UInt16) (d : List (Entry src)) : Prop :=
  (child.isSome → ∀ e ∈ d, e.tag ≠ tag) ∧ (child.isSome = false → FirstShort tag d)

/-- The trees `parse` and `filtered` build. -/
structure Reproducible (x : Exif src) : Prop where
  ifd0Ok : DirOk x.ifd0 x.ifd0Nptr
  exifOk : ∀ d, x.exifIfd = some d → DirOk d x.exifNptr
  gpsOk : ∀ d, x.gpsIfd = some d → DirOk d 0
  interopOk : ∀ d, x.interopIfd = some d → DirOk d 0
  ifd1Ok : ∀ d, x.ifd1 = some d → DirOk d x.ifd1Nptr
  exifPtr : PointerOk x.exifIfd tagExifIfd x.ifd0
  gpsPtr : PointerOk x.gpsIfd tagGpsIfd x.ifd0
  interopPtr : ∀ d, x.exifIfd = some d → PointerOk x.interopIfd tagInteropIfd d
  interopParent : x.interopIfd.isSome → x.exifIfd.isSome
  thumbTags : ∀ d, x.ifd1 = some d →
    ∀ e ∈ d, e.tag ≠ tagThumbOffset ∧ e.tag ≠ tagThumbLength
  thumbParent : x.thumbnail.isSome → x.ifd1.isSome

theorem Reproducible.interop_eq {x : Exif src} (h : Reproducible x) :
    x.interop = x.interopIfd := by
  unfold interop
  cases hi : x.interopIfd with
  | none => cases x.exifIfd <;> rfl
  | some d =>
    obtain ⟨e, he⟩ := Option.isSome_iff_exists.mp (h.interopParent (by simp [hi]))
    simp [he]

end Zencodec.Exif
