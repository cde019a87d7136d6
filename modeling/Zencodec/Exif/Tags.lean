/-
TIFF/EXIF tag numbers, field types and categories.

The numbers of the structural tags (`tagExifIfd`, `tagGpsIfd`, `tagInteropIfd`,
`tagThumbOffset`, `tagThumbLength`) name edges of the tree, not entries; all
others are grouped into categories by `classify`.
-/
import Zencodec.Lib.Slices

open Slices

namespace Zencodec.Exif

/-! ### Tags -/

def tagMake : UInt16 := 0x010F
def tagModel : UInt16 := 0x0110
def tagOrientation : UInt16 := 0x0112
def tagSoftware : UInt16 := 0x0131
def tagDatetime : UInt16 := 0x0132
def tagArtist : UInt16 := 0x013B
def tagHostComputer : UInt16 := 0x013C
def tagCopyright : UInt16 := 0x8298
def tagExifIfd : UInt16 := 0x8769
def tagGpsIfd : UInt16 := 0x8825
def tagInteropIfd : UInt16 := 0xA005
def tagColorSpace : UInt16 := 0xA001
def tagGamma : UInt16 := 0xA500
def tagInteropIndex : UInt16 := 0x0001
def tagInteropVersion : UInt16 := 0x0002
def tagThumbOffset : UInt16 := 0x0201
def tagThumbLength : UInt16 := 0x0202
def tagSubifds : UInt16 := 0x014A
def tagStripOffsets : UInt16 := 0x0111
def tagStripByteCounts : UInt16 := 0x0117
def tagTileOffsets : UInt16 := 0x0144
def tagTileByteCounts : UInt16 := 0x0145
def tagDatetimeOriginal : UInt16 := 0x9003
def tagDatetimeDigitized : UInt16 := 0x9004
def tagOffsetTime : UInt16 := 0x9010
def tagOffsetTimeOriginal : UInt16 := 0x9011
def tagOffsetTimeDigitized : UInt16 := 0x9012
def tagSubsecTime : UInt16 := 0x9290
def tagSubsecTimeOriginal : UInt16 := 0x9291
def tagSubsecTimeDigitized : UInt16 := 0x9292
def tagMakerNote : UInt16 := 0x927C
def tagImageUniqueId : UInt16 := 0xA420
def tagBodySerialNumber : UInt16 := 0xA431
def tagDngCameraSerial : UInt16 := 0xC62F
def tagCameraLabel : UInt16 := 0xC7A1
def tagPsrawOwner : UInt16 := 0xFDE8
def tagPsrawSerial : UInt16 := 0xFDE9
def tagLensSpecification : UInt16 := 0xA432
def tagLensMake : UInt16 := 0xA433
def tagLensModel : UInt16 := 0xA434
def tagLensSerialNumber : UInt16 := 0xA435
def tagCameraOwnerName : UInt16 := 0xA430
def tagPhotographer : UInt16 := 0xA437
def tagImageEditor : UInt16 := 0xA438
def tagCameraFirmware : UInt16 := 0xA439
def tagRawDevelopingSoftware : UInt16 := 0xA43A
def tagImageEditingSoftware : UInt16 := 0xA43B
def tagMetadataEditingSoftware : UInt16 := 0xA43C

/-! ### Field types -/

def tiffByte : UInt16 := 1
def tiffAscii : UInt16 := 2
def tiffShort : UInt16 := 3
def tiffLong : UInt16 := 4
def tiffRational : UInt16 := 5
def tiffSbyte : UInt16 := 6
def tiffUndefined : UInt16 := 7
def tiffSshort : UInt16 := 8
def tiffSlong : UInt16 := 9
def tiffSrational : UInt16 := 10
def tiffFloat : UInt16 := 11
def tiffDouble : UInt16 := 12
def tiffIfd : UInt16 := 13
/-- Exif 3.0 type 129, a UTF-8 string. -/
def tiffUtf8 : UInt16 := 129

def tiffHeaderSize : ℕ := 8
def maxIfdEntries : ℕ := 1000
/-- `Exif\0\0`. -/
def exifPrefix : Bytes := [0x45, 0x78, 0x69, 0x66, 0, 0]

/-- Size in bytes of one value of a field type, `none` for an unknown type. -/
def typeSize (kind : UInt16) : Option ℕ :=
  if kind ∈ [tiffByte, tiffAscii, tiffSbyte, tiffUndefined, tiffUtf8] then some 1
  else if kind ∈ [tiffShort, tiffSshort] then some 2
  else if kind ∈ [tiffLong, tiffSlong, tiffFloat, tiffIfd] then some 4
  else if kind ∈ [tiffRational, tiffSrational, tiffDouble] then some 8
  else none

@[simp] theorem typeSize_short : typeSize tiffShort = some 2 := by decide

@[simp] theorem typeSize_long : typeSize tiffLong = some 4 := by decide

/-! ### Categories -/

/-- The category an IFD0 or Exif-IFD entry belongs to.  GPS and thumbnail are whole
directories, not categories of entries. -/
inductive Category
  | orientation
  | rights
  | datetimes
  | timeOffsets
  | camera
  | deviceIds
  | cameraOwner
  | imageUniqueId
  | color
  | other
  deriving DecidableEq, Repr

def classify (tag : UInt16) : Category :=
  if tag = tagOrientation then .orientation
  else if tag ∈ [tagCopyright, tagArtist, tagPhotographer, tagImageEditor] then .rights
  else if tag ∈ [tagCameraOwnerName, tagPsrawOwner] then .cameraOwner
  else if tag = tagImageUniqueId then .imageUniqueId
  else if tag ∈ [tagDatetime, tagDatetimeOriginal, tagDatetimeDigitized, tagSubsecTime,
      tagSubsecTimeOriginal, tagSubsecTimeDigitized] then .datetimes
  else if tag ∈ [tagOffsetTime, tagOffsetTimeOriginal, tagOffsetTimeDigitized] then
    .timeOffsets
  else if tag ∈ [tagMake, tagModel, tagSoftware, tagMakerNote, tagLensSpecification,
      tagLensMake, tagLensModel, tagCameraFirmware, tagRawDevelopingSoftware,
      tagImageEditingSoftware, tagMetadataEditingSoftware] then .camera
  else if tag ∈ [tagHostComputer, tagBodySerialNumber, tagLensSerialNumber,
      tagDngCameraSerial, tagCameraLabel, tagPsrawSerial] then .deviceIds
  else if tag ∈ [tagColorSpace, tagGamma] then .color
  else .other

end Zencodec.Exif
