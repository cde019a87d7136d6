/-
Which EXIF categories a caller keeps.
-/
import Zencodec.Exif.Tags

namespace Zencodec.Exif

inductive Retention
  | keep
  | discard
  deriving DecidableEq, Repr

def Retention.keeps : Retention → Bool
  | .keep => true
  | .discard => false

/-- One retention per category, and one each for the GPS and thumbnail directories. -/
structure ExifPolicy where
  orientation : Retention
  rights : Retention
  thumbnail : Retention
  gps : Retention
  datetimes : Retention
  timeOffsets : Retention
  camera : Retention
  deviceIds : Retention
  cameraOwner : Retention
  imageUniqueId : Retention
  color : Retention
  other : Retention
  deriving DecidableEq, Repr

namespace ExifPolicy

def keepAll : ExifPolicy where
  orientation := .keep
  rights := .keep
  thumbnail := .keep
  gps := .keep
  datetimes := .keep
  timeOffsets := .keep
  camera := .keep
  deviceIds := .keep
  cameraOwner := .keep
  imageUniqueId := .keep
  color := .keep
  other := .keep

def discardAll : ExifPolicy where
  orientation := .discard
  rights := .discard
  thumbnail := .discard
  gps := .discard
  datetimes := .discard
  timeOffsets := .discard
  camera := .discard
  deviceIds := .discard
  cameraOwner := .discard
  imageUniqueId := .discard
  color := .discard
  other := .discard

/-- Orientation, rights and colour signalling (the web default). -/
def attributedOrientation : ExifPolicy :=
  { discardAll with orientation := .keep, rights := .keep, color := .keep }

/-- Only what places pixels on screen: orientation and colour signalling. -/
def orientationOnly : ExifPolicy :=
  { discardAll with orientation := .keep, color := .keep }

def keeps (p : ExifPolicy) : Category → Bool
  | .orientation => p.orientation.keeps
  | .rights => p.rights.keeps
  | .datetimes => p.datetimes.keeps
  | .timeOffsets => p.timeOffsets.keeps
  | .camera => p.camera.keeps
  | .deviceIds => p.deviceIds.keeps
  | .cameraOwner => p.cameraOwner.keeps
  | .imageUniqueId => p.imageUniqueId.keeps
  | .color => p.color.keeps
  | .other => p.other.keeps

def keepsEverything (p : ExifPolicy) : Bool :=
  p.orientation.keeps && p.rights.keeps && p.thumbnail.keeps && p.gps.keeps
    && p.datetimes.keeps && p.timeOffsets.keeps && p.camera.keeps && p.deviceIds.keeps
    && p.cameraOwner.keeps && p.imageUniqueId.keeps && p.color.keeps && p.other.keeps

def discardsEverything (p : ExifPolicy) : Bool := p = discardAll

end ExifPolicy

end Zencodec.Exif
