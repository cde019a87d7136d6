/-
The binary gain-map metadata: its wire formats, its parser and its serializer.

A payload is a header (two versions and a byte of flags), two headrooms and five
fractions for each channel.  The parser knows a second, compact layout in which one
denominator precedes all numerators; the serializer never writes it.
-/
import Zencodec.GainMap.Params
import Zencodec.Lib.Cursor

open Slices

namespace Zencodec

namespace GainMap

/-- The wire formats; `jpegApp2` is the deprecated name of `jxlJhgm`. -/
inductive Iso21496Format
  | jpegApp2
  | avifTmap
  | jxlJhgm
  | jpegApp2BodyWithUrn
  deriving DecidableEq

/-- `urn:iso:std:iso:ts:21496:-1` and a NUL. -/
def iso21496_1_urn : Bytes :=
  [0x75, 0x72, 0x6e, 0x3a, 0x69, 0x73, 0x6f, 0x3a, 0x73, 0x74, 0x64, 0x3a, 0x69, 0x73,
    0x6f, 0x3a, 0x74, 0x73, 0x3a, 0x32, 0x31, 0x34, 0x39, 0x36, 0x3a, 0x2d, 0x31, 0x00]

def flagMultiChannel : UInt8 := 0x80

def flagUseBaseColourSpace : UInt8 := 0x40

def flagBackwardDirection : UInt8 := 0x04

def flagCommonDenominator : UInt8 := 0x08

def avifHeaderSize : ℕ := 6

def jpegHeaderSize : ℕ := 5

def fractionSize : ℕ := 8

/-! ### Readers -/

variable {ν : Type}

/-- A reader of gain-map metadata. -/
abbrev Parser (ν α : Type) : Type := Cursor (GainMapParseError ν) α

/-- The next `n` bytes as a big-endian number. -/
def readBe (n : ℕ) : Parser ν ℕ := fun data offset =>
  if data.length < offset + n then .error (.truncatedData (offset + n) data.length)
  else .ok (wordValue .big ((data.drop offset).take n), offset + n)

def readU8 : Parser ν UInt8 := do
  let v ← readBe 1
  pure (UInt8.ofNat v)

def readU16be : Parser ν UInt16 := do
  let v ← readBe 2
  pure (UInt16.ofNat v)

def readU32be : Parser ν UInt32 := do
  let v ← readBe 4
  pure (UInt32.ofNat v)

def readI32be : Parser ν Int32 := do
  let v ← readBe 4
  pure (UInt32.ofNat v).toInt32

def readFraction (field : String) : Parser ν Fraction := do
  let n ← readI32be
  let d ← readU32be
  if d = 0 then Cursor.fail (.zeroDenominator field) else pure ⟨n, d⟩

def readUFraction (field : String) : Parser ν UFraction := do
  let n ← readU32be
  let d ← readU32be
  if d = 0 then Cursor.fail (.zeroDenominator field) else pure ⟨n, d⟩

/-! ### The parser -/

variable [Float64 ν]

open Float64 (ofFraction ofUFraction toFraction toUFraction)

/-- The first `numChannels` channels, over defaults. -/
def readChannels (readChannel : Parser ν (GainMapChannel ν)) (numChannels : ℕ) :
    Parser ν (Vector (GainMapChannel ν) 3) :=
  ((List.finRange 3).take numChannels).foldlM (fun channels (ch : Fin 3) => do
    let channel ← readChannel
    pure (setChannel channels ch channel)) (Vector.replicate 3 default)

/-- A single channel stands for all three. -/
def replicateSingle (numChannels : ℕ) (channels : Vector (GainMapChannel ν) 3) :
    Vector (GainMapChannel ν) 3 :=
  if numChannels = 1 then spreadChannel channels else channels

def readChannelFull : Parser ν (GainMapChannel ν) := do
  let minFrac ← readFraction "gain_map_min"
  let maxFrac ← readFraction "gain_map_max"
  let gammaFrac ← readUFraction "gamma"
  let baseOffsetFrac ← readFraction "base_offset"
  let altOffsetFrac ← readFraction "alternate_offset"
  pure ⟨ofFraction minFrac, ofFraction maxFrac, ofUFraction gammaFrac,
    ofFraction baseOffsetFrac, ofFraction altOffsetFrac⟩

def parsePayloadFull (numChannels : ℕ) (useBaseColorSpace backwardDirection : Bool) :
    Parser ν (GainMapParams ν) := do
  let baseHeadroom ← readUFraction "base_hdr_headroom"
  let altHeadroom ← readUFraction "alternate_hdr_headroom"
  let channels ← readChannels readChannelFull numChannels
  pure ⟨replicateSingle numChannels channels, ofUFraction baseHeadroom, ofUFraction altHeadroom,
    useBaseColorSpace, backwardDirection⟩

def readChannelCommonDenom (commonD : UInt32) : Parser ν (GainMapChannel ν) := do
  let minN ← readI32be
  let maxN ← readI32be
  let gammaN ← readU32be
  let baseOffN ← readI32be
  let altOffN ← readI32be
  pure ⟨ofFraction ⟨minN, commonD⟩, ofFraction ⟨maxN, commonD⟩, ofUFraction ⟨gammaN, commonD⟩,
    ofFraction ⟨baseOffN, commonD⟩, ofFraction ⟨altOffN, commonD⟩⟩

def parsePayloadCommonDenom (numChannels : ℕ) (useBaseColorSpace backwardDirection : Bool) :
    Parser ν (GainMapParams ν) := do
  let commonD ← readU32be
  if commonD = 0 then Cursor.fail (.zeroDenominator "common_denominator")
  else do
    let baseHeadroomN ← readU32be
    let altHeadroomN ← readU32be
    let channels ← readChannels (readChannelCommonDenom commonD) numChannels
    pure ⟨replicateSingle numChannels channels, ofUFraction ⟨baseHeadroomN, commonD⟩,
      ofUFraction ⟨altHeadroomN, commonD⟩, useBaseColorSpace, backwardDirection⟩

/-- Whether a flag is set. -/
def hasFlag (flags flag : UInt8) : Bool := flags &&& flag ≠ 0

/-- How many channels the flags announce. -/
def numChannels (flags : UInt8) : ℕ := if hasFlag flags flagMultiChannel then 3 else 1

def parsePayload (flags : UInt8) : Parser ν (GainMapParams ν) :=
  if hasFlag flags flagCommonDenominator then
    parsePayloadCommonDenom (numChannels flags) (hasFlag flags flagUseBaseColourSpace)
      (hasFlag flags flagBackwardDirection)
  else
    parsePayloadFull (numChannels flags) (hasFlag flags flagUseBaseColourSpace)
      (hasFlag flags flagBackwardDirection)

def parseCommonHeaderAndPayload : Parser ν (GainMapParams ν) := do
  let minimumVersion ← readU16be
  if 0 < minimumVersion then Cursor.fail (.unsupportedVersion minimumVersion.toUInt8)
  else do
    let _writerVersion ← readU16be
    let flags ← readU8
    parsePayload flags

def parseIso21496Avif (data : Bytes) : Except (GainMapParseError ν) (GainMapParams ν) :=
  if data.length < avifHeaderSize then .error (.truncatedData avifHeaderSize data.length)
  else
    Cursor.run (do
      let version ← readU8
      if version ≠ 0 then Cursor.fail (.unsupportedVersion version)
      else parseCommonHeaderAndPayload) data 0

def parseIso21496NoVersion (data : Bytes) : Except (GainMapParseError ν) (GainMapParams ν) :=
  if data.length < jpegHeaderSize then .error (.truncatedData jpegHeaderSize data.length)
  else Cursor.run parseCommonHeaderAndPayload data 0

def parseIso21496Fmt (data : Bytes) (format : Iso21496Format) :
    Except (GainMapParseError ν) (GainMapParams ν) :=
  match format with
  | .avifTmap => parseIso21496Avif data
  | .jxlJhgm | .jpegApp2 => parseIso21496NoVersion data
  | .jpegApp2BodyWithUrn =>
    if data.length < iso21496_1_urn.length ∨ data.take iso21496_1_urn.length ≠ iso21496_1_urn then
      .error .urnMismatch
    else parseIso21496NoVersion (data.drop iso21496_1_urn.length)

/-! ### The serializer -/

def u16ToBe (v : UInt16) : Bytes := wordBytes .big 2 v.toNat

def u32ToBe (v : UInt32) : Bytes := wordBytes .big 4 v.toNat

def i32ToBe (v : Int32) : Bytes := u32ToBe v.toUInt32

def writeFraction (data : Bytes) (frac : Fraction) : Bytes :=
  data ++ i32ToBe frac.numerator ++ u32ToBe frac.denominator

def writeUFraction (data : Bytes) (frac : UFraction) : Bytes :=
  data ++ u32ToBe frac.numerator ++ u32ToBe frac.denominator

def buildFlags (params : GainMapParams ν) : UInt8 :=
  (if !params.isSingleChannel then flagMultiChannel else 0) |||
    (if params.useBaseColorSpace then flagUseBaseColourSpace else 0) |||
    (if params.backwardDirection then flagBackwardDirection else 0)

/-- How many channels are written. -/
def GainMapParams.numChannels (params : GainMapParams ν) : ℕ :=
  if params.isSingleChannel then 1 else 3

def writeChannel (data : Bytes) (ch : GainMapChannel ν) : Bytes :=
  let data := writeFraction data (toFraction ch.min)
  let data := writeFraction data (toFraction ch.max)
  let data := writeUFraction data (toUFraction ch.gamma)
  let data := writeFraction data (toFraction ch.baseOffset)
  writeFraction data (toFraction ch.alternateOffset)

def writePayload (data : Bytes) (params : GainMapParams ν) : Bytes :=
  let data := writeUFraction data (toUFraction params.baseHdrHeadroom)
  let data := writeUFraction data (toUFraction params.alternateHdrHeadroom)
  (params.channels.toList.take params.numChannels).foldl writeChannel data

def serializedSize (params : GainMapParams ν) (format : Iso21496Format) : ℕ :=
  let header := match format with
    | .avifTmap => avifHeaderSize
    | .jxlJhgm | .jpegApp2 => jpegHeaderSize
    | .jpegApp2BodyWithUrn => iso21496_1_urn.length + jpegHeaderSize
  header + 2 * fractionSize + params.numChannels * 5 * fractionSize

def serializeIso21496AvifInto (params : GainMapParams ν) (out : Bytes) : Bytes :=
  let out := out ++ [0]
  let out := out ++ u16ToBe 0
  let out := out ++ u16ToBe 0
  let out := out ++ [buildFlags params]
  writePayload out params

def serializeIso21496NoVersionInto (params : GainMapParams ν) (out : Bytes) : Bytes :=
  let out := out ++ u16ToBe 0
  let out := out ++ u16ToBe 0
  let out := out ++ [buildFlags params]
  writePayload out params

def serializeIso21496FmtInto (params : GainMapParams ν) (format : Iso21496Format) (out : Bytes) :
    Bytes :=
  match format with
  | .avifTmap => serializeIso21496AvifInto params out
  | .jxlJhgm | .jpegApp2 => serializeIso21496NoVersionInto params out
  | .jpegApp2BodyWithUrn => serializeIso21496NoVersionInto params (out ++ iso21496_1_urn)

def serializeIso21496Fmt (params : GainMapParams ν) (format : Iso21496Format) : Bytes :=
  serializeIso21496FmtInto params format []

end GainMap

end Zencodec
