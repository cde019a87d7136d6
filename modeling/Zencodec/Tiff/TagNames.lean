/-
The names of TIFF, EXIF, GPS, Interop and DNG tags, for the details of parts.

The tables are sorted by tag, so that a binary search in them finds what a search from the
front does.
-/
import Zencodec.Tiff.Ifd

namespace Zencodec

namespace Tiff

def interopTags : List (ℕ × String) :=
  [(1, "InteropIndex"), (2, "InteropVersion"), (4096, "RelatedImageFileFormat"),
    (4097, "RelatedImageWidth"), (4098, "RelatedImageHeight")]

def gpsTags : List (ℕ × String) :=
  [(0, "GPSVersionID"), (1, "GPSLatitudeRef"), (2, "GPSLatitude"), (3, "GPSLongitudeRef"),
    (4, "GPSLongitude"), (5, "GPSAltitudeRef"), (6, "GPSAltitude"), (7, "GPSTimeStamp"),
    (8, "GPSSatellites"), (9, "GPSStatus"), (10, "GPSMeasureMode"), (11, "GPSDOP"),
    (12, "GPSSpeedRef"), (13, "GPSSpeed"), (14, "GPSTrackRef"), (15, "GPSTrack"),
    (16, "GPSImgDirectionRef"), (17, "GPSImgDirection"), (18, "GPSMapDatum"),
    (19, "GPSDestLatitudeRef"), (20, "GPSDestLatitude"), (21, "GPSDestLongitudeRef"),
    (22, "GPSDestLongitude"), (23, "GPSDestBearingRef"), (24, "GPSDestBearing"),
    (25, "GPSDestDistanceRef"), (26, "GPSDestDistance"), (27, "GPSProcessingMethod"),
    (28, "GPSAreaInformation"), (29, "GPSDateStamp"), (30, "GPSDifferential"),
    (31, "GPSHPositioningError")]

/-- TIFF 6.0, TIFF/EP, EXIF 3.0, DNG 1.7 and common private tags. -/
def tiffTags : List (ℕ × String) :=
  [(254, "NewSubfileType"), (255, "SubfileType"), (256, "ImageWidth"), (257, "ImageLength"),
    (258, "BitsPerSample"), (259, "Compression"), (262, "PhotometricInterpretation"),
    (263, "Threshholding"), (264, "CellWidth"), (265, "CellLength"), (266, "FillOrder"),
    (269, "DocumentName"), (270, "ImageDescription"), (271, "Make"), (272, "Model"),
    (273, "StripOffsets"), (274, "Orientation"), (277, "SamplesPerPixel"), (278, "RowsPerStrip"),
    (279, "StripByteCounts"), (280, "MinSampleValue"), (281, "MaxSampleValue"),
    (282, "XResolution"), (283, "YResolution"), (284, "PlanarConfiguration"), (285, "PageName"),
    (286, "XPosition"), (287, "YPosition"), (288, "FreeOffsets"), (289, "FreeByteCounts"),
    (290, "GrayResponseUnit"), (291, "GrayResponseCurve"), (292, "T4Options"),
    (293, "T6Options"), (296, "ResolutionUnit"), (297, "PageNumber"), (301, "TransferFunction"),
    (305, "Software"), (306, "DateTime"), (315, "Artist"), (316, "HostComputer"),
    (317, "Predictor"), (318, "WhitePoint"), (319, "PrimaryChromaticities"), (320, "ColorMap"),
    (321, "HalftoneHints"), (322, "TileWidth"), (323, "TileLength"), (324, "TileOffsets"),
    (325, "TileByteCounts"), (326, "BadFaxLines"), (327, "CleanFaxData"),
    (328, "ConsecutiveBadFaxLines"), (330, "SubIFDs"), (332, "InkSet"), (333, "InkNames"),
    (334, "NumberOfInks"), (336, "DotRange"), (337, "TargetPrinter"), (338, "ExtraSamples"),
    (339, "SampleFormat"), (340, "SMinSampleValue"), (341, "SMaxSampleValue"),
    (342, "TransferRange"), (343, "ClipPath"), (344, "XClipPathUnits"), (345, "YClipPathUnits"),
    (346, "Indexed"), (347, "JPEGTables"), (351, "OPIProxy"), (400, "GlobalParametersIFD"),
    (401, "ProfileType"), (402, "FaxProfile"), (403, "CodingMethods"), (404, "VersionYear"),
    (405, "ModeNumber"), (433, "Decode"), (434, "DefaultImageColor"), (512, "JPEGProc"),
    (513, "JPEGInterchangeFormat"), (514, "JPEGInterchangeFormatLength"),
    (515, "JPEGRestartInterval"), (517, "JPEGLosslessPredictors"), (518, "JPEGPointTransforms"),
    (519, "JPEGQTables"), (520, "JPEGDCTables"), (521, "JPEGACTables"),
    (529, "YCbCrCoefficients"), (530, "YCbCrSubSampling"), (531, "YCbCrPositioning"),
    (532, "ReferenceBlackWhite"), (559, "StripRowCounts"), (700, "XMP"), (18246, "Rating"),
    (18249, "RatingPercent"), (32781, "ImageID"), (32932, "WangAnnotation"), (32995, "Matteing"),
    (32996, "DataType"), (32997, "ImageDepth"), (32998, "TileDepth"),
    (33421, "CFARepeatPatternDim"), (33422, "CFAPattern"), (33423, "BatteryLevel"),
    (33432, "Copyright"), (33434, "ExposureTime"), (33437, "FNumber"),
    (33550, "ModelPixelScale"), (33723, "IPTC-NAA"), (33922, "ModelTiepoint"),
    (34264, "ModelTransformation"), (34377, "Photoshop"), (34665, "ExifIFD"),
    (34675, "ICCProfile"), (34732, "ImageLayer"), (34735, "GeoKeyDirectory"),
    (34736, "GeoDoubleParams"), (34737, "GeoAsciiParams"), (34850, "ExposureProgram"),
    (34852, "SpectralSensitivity"), (34853, "GPSInfo"), (34855, "ISOSpeedRatings"),
    (34856, "OECF"), (34857, "Interlace"), (34858, "TimeZoneOffset"), (34859, "SelfTimerMode"),
    (34864, "SensitivityType"), (34865, "StandardOutputSensitivity"),
    (34866, "RecommendedExposureIndex"), (34867, "ISOSpeed"), (34868, "ISOSpeedLatitudeyyy"),
    (34869, "ISOSpeedLatitudezzz"), (36864, "ExifVersion"), (36867, "DateTimeOriginal"),
    (36868, "DateTimeDigitized"), (36880, "OffsetTime"), (36881, "OffsetTimeOriginal"),
    (36882, "OffsetTimeDigitized"), (37121, "ComponentsConfiguration"),
    (37122, "CompressedBitsPerPixel"), (37377, "ShutterSpeedValue"), (37378, "ApertureValue"),
    (37379, "BrightnessValue"), (37380, "ExposureBiasValue"), (37381, "MaxApertureValue"),
    (37382, "SubjectDistance"), (37383, "MeteringMode"), (37384, "LightSource"),
    (37385, "Flash"), (37386, "FocalLength"), (37387, "FlashEnergy"),
    (37388, "SpatialFrequencyResponse"), (37389, "Noise"), (37390, "FocalPlaneXResolution"),
    (37391, "FocalPlaneYResolution"), (37392, "FocalPlaneResolutionUnit"),
    (37393, "ImageNumber"), (37394, "SecurityClassification"), (37395, "ImageHistory"),
    (37396, "SubjectArea"), (37397, "ExposureIndex"), (37398, "TIFF-EPStandardID"),
    (37399, "SensingMethod"), (37439, "StoNits"), (37500, "MakerNote"), (37510, "UserComment"),
    (37520, "SubSecTime"), (37521, "SubSecTimeOriginal"), (37522, "SubSecTimeDigitized"),
    (37888, "AmbientTemperature"), (37889, "Humidity"), (37890, "Pressure"),
    (37891, "WaterDepth"), (37892, "Acceleration"), (37893, "CameraElevationAngle"),
    (40091, "XPTitle"), (40092, "XPComment"), (40093, "XPAuthor"), (40094, "XPKeywords"),
    (40095, "XPSubject"), (40960, "FlashpixVersion"), (40961, "ColorSpace"),
    (40962, "PixelXDimension"), (40963, "PixelYDimension"), (40964, "RelatedSoundFile"),
    (40965, "InteropIFD"), (41483, "FlashEnergy"), (41484, "SpatialFrequencyResponse"),
    (41486, "FocalPlaneXResolution"), (41487, "FocalPlaneYResolution"),
    (41488, "FocalPlaneResolutionUnit"), (41492, "SubjectLocation"), (41493, "ExposureIndex"),
    (41495, "SensingMethod"), (41728, "FileSource"), (41729, "SceneType"), (41730, "CFAPattern"),
    (41985, "CustomRendered"), (41986, "ExposureMode"), (41987, "WhiteBalance"),
    (41988, "DigitalZoomRatio"), (41989, "FocalLengthIn35mmFilm"), (41990, "SceneCaptureType"),
    (41991, "GainControl"), (41992, "Contrast"), (41993, "Saturation"), (41994, "Sharpness"),
    (41995, "DeviceSettingDescription"), (41996, "SubjectDistanceRange"),
    (42016, "ImageUniqueID"), (42032, "CameraOwnerName"), (42033, "BodySerialNumber"),
    (42034, "LensSpecification"), (42035, "LensMake"), (42036, "LensModel"),
    (42037, "LensSerialNumber"), (42038, "ImageTitle"), (42039, "Photographer"),
    (42040, "ImageEditor"), (42041, "CameraFirmware"), (42042, "RAWDevelopingSoftware"),
    (42043, "ImageEditingSoftware"), (42044, "MetadataEditingSoftware"),
    (42080, "CompositeImage"), (42081, "SourceImageNumberOfCompositeImage"),
    (42082, "SourceExposureTimesOfCompositeImage"), (42112, "GDAL_METADATA"),
    (42113, "GDAL_NODATA"), (42240, "Gamma"), (50341, "PrintImageMatching"),
    (50706, "DNGVersion"), (50707, "DNGBackwardVersion"), (50708, "UniqueCameraModel"),
    (50709, "LocalizedCameraModel"), (50710, "CFAPlaneColor"), (50711, "CFALayout"),
    (50712, "LinearizationTable"), (50713, "BlackLevelRepeatDim"), (50714, "BlackLevel"),
    (50715, "BlackLevelDeltaH"), (50716, "BlackLevelDeltaV"), (50717, "WhiteLevel"),
    (50718, "DefaultScale"), (50719, "DefaultCropOrigin"), (50720, "DefaultCropSize"),
    (50721, "ColorMatrix1"), (50722, "ColorMatrix2"), (50723, "CameraCalibration1"),
    (50724, "CameraCalibration2"), (50725, "ReductionMatrix1"), (50726, "ReductionMatrix2"),
    (50727, "AnalogBalance"), (50728, "AsShotNeutral"), (50729, "AsShotWhiteXY"),
    (50730, "BaselineExposure"), (50731, "BaselineNoise"), (50732, "BaselineSharpness"),
    (50733, "BayerGreenSplit"), (50734, "LinearResponseLimit"), (50735, "CameraSerialNumber"),
    (50736, "LensInfo"), (50737, "ChromaBlurRadius"), (50738, "AntiAliasStrength"),
    (50739, "ShadowScale"), (50740, "DNGPrivateData"), (50741, "MakerNoteSafety"),
    (50778, "CalibrationIlluminant1"), (50779, "CalibrationIlluminant2"),
    (50780, "BestQualityScale"), (50781, "RawDataUniqueID"), (50827, "OriginalRawFileName"),
    (50828, "OriginalRawFileData"), (50829, "ActiveArea"), (50830, "MaskedAreas"),
    (50831, "AsShotICCProfile"), (50832, "AsShotPreProfileMatrix"), (50833, "CurrentICCProfile"),
    (50834, "CurrentPreProfileMatrix"), (50879, "ColorimetricReference"),
    (50931, "CameraCalibrationSignature"), (50932, "ProfileCalibrationSignature"),
    (50933, "ExtraCameraProfiles"), (50934, "AsShotProfileName"),
    (50935, "NoiseReductionApplied"), (50936, "ProfileName"), (50937, "ProfileHueSatMapDims"),
    (50938, "ProfileHueSatMapData1"), (50939, "ProfileHueSatMapData2"),
    (50940, "ProfileToneCurve"), (50941, "ProfileEmbedPolicy"), (50942, "ProfileCopyright"),
    (50964, "ForwardMatrix1"), (50965, "ForwardMatrix2"), (50966, "PreviewApplicationName"),
    (50967, "PreviewApplicationVersion"), (50968, "PreviewSettingsName"),
    (50969, "PreviewSettingsDigest"), (50970, "PreviewColorSpace"), (50971, "PreviewDateTime"),
    (50972, "RawImageDigest"), (50973, "OriginalRawFileDigest"), (50974, "SubTileBlockSize"),
    (50975, "RowInterleaveFactor"), (50981, "ProfileLookTableDims"),
    (50982, "ProfileLookTableData"), (51008, "OpcodeList1"), (51009, "OpcodeList2"),
    (51022, "OpcodeList3"), (51041, "NoiseProfile"), (51089, "OriginalDefaultFinalSize"),
    (51090, "OriginalBestQualityFinalSize"), (51091, "OriginalDefaultCropSize"),
    (51107, "ProfileHueSatMapEncoding"), (51108, "ProfileLookTableEncoding"),
    (51109, "BaselineExposureOffset"), (51110, "DefaultBlackRender"),
    (51111, "NewRawImageDigest"), (51112, "RawToPreviewGain"), (51125, "DefaultUserCrop"),
    (51177, "DepthFormat"), (51178, "DepthNear"), (51179, "DepthFar"), (51180, "DepthUnits"),
    (51181, "DepthMeasureType"), (51182, "EnhanceParams"), (52525, "ProfileGainTableMap"),
    (52526, "SemanticName"), (52528, "SemanticInstanceID"), (52529, "CalibrationIlluminant3"),
    (52530, "CameraCalibration3"), (52531, "ColorMatrix3"), (52532, "ForwardMatrix3"),
    (52533, "IlluminantData1"), (52534, "IlluminantData2"), (52535, "IlluminantData3"),
    (52536, "MaskSubArea"), (52537, "ProfileHueSatMapData3"), (52538, "ReductionMatrix3"),
    (52543, "RGBTables"), (52544, "ProfileGainTableMap2"), (52547, "ColumnInterleaveFactor"),
    (52548, "ImageSequenceInfo"), (52550, "ImageStats"), (52551, "ProfileDynamicRange"),
    (52552, "ProfileGroupName"), (52553, "JXLDistance"), (52554, "JXLEffort"),
    (52555, "JXLDecodeSpeed"), (59932, "Padding"), (59933, "OffsetSchema")]

def lookup (kind : Kind) (tag : UInt16) : Option String :=
  let table := match kind with
    | .gps => gpsTags
    | .interop => interopTags
    -- Maker-note tag numbers are vendor-specific; TIFF names would mislead.
    | .makerNote => []
    | _ => tiffTags
  (table.find? fun t => t.1 = tag.toNat).map Prod.snd

def tagName (kind : Kind) (tag : UInt16) : String := (lookup kind tag).getD s!"tag {tag}"

end Tiff

end Zencodec
