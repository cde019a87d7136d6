/-
The built-in detectors.

A detector answers from the bytes that it is given, whatever their number. Most look at a fixed
place; three look further: the brands of an ISO-BMFF `ftyp` box, the tags of a TIFF directory,
and the last bytes of a Truevision file.
-/
import Mathlib.Data.List.Basic

namespace Zencodec.Format

/-- `data[i]` -/
def byte (data : List UInt8) (i : ℕ) : UInt8 := data.getD i 0

/-- `&data[i..i + sig.len()] == sig` -/
def hasAt (data : List UInt8) (i : ℕ) (sig : List UInt8) : Bool :=
  (data.drop i).take sig.length == sig

def u16Le (data : List UInt8) (i : ℕ) : ℕ := (byte data i).toNat + 256 * (byte data (i + 1)).toNat

def u16Be (data : List UInt8) (i : ℕ) : ℕ := 256 * (byte data i).toNat + (byte data (i + 1)).toNat

def u32Le (data : List UInt8) (i : ℕ) : ℕ := u16Le data i + 65536 * u16Le data (i + 2)

def u32Be (data : List UInt8) (i : ℕ) : ℕ := 65536 * u16Be data i + u16Be data (i + 2)

def u64Be (data : List UInt8) (i : ℕ) : ℕ := 4294967296 * u32Be data i + u32Be data (i + 4)

/-! ### ISO-BMFF -/

/-- `"avif"`, `"avis"` -/
def avifBrands : List (List UInt8) := [[0x61, 0x76, 0x69, 0x66], [0x61, 0x76, 0x69, 0x73]]

/-- `HEIC_BRANDS`: `"heic"`, `"heix"`, `"hevc"`, `"hevx"`, `"heim"`, `"heis"`, `"hevm"`, `"hevs"` -/
def heicBrands : List (List UInt8) :=
  [[0x68, 0x65, 0x69, 0x63], [0x68, 0x65, 0x69, 0x78], [0x68, 0x65, 0x76, 0x63],
    [0x68, 0x65, 0x76, 0x78], [0x68, 0x65, 0x69, 0x6D], [0x68, 0x65, 0x69, 0x73],
    [0x68, 0x65, 0x76, 0x6D], [0x68, 0x65, 0x76, 0x73]]

/-- `"ftyp"` -/
def ftyp : List UInt8 := [0x66, 0x74, 0x79, 0x70]

/-- `"mif1"`, `"msf1"` -/
def imageBrands : List (List UInt8) := [[0x6D, 0x69, 0x66, 0x31], [0x6D, 0x73, 0x66, 0x31]]

def hasFtyp (data : List UInt8) : Bool := 12 ≤ data.length && hasAt data 4 ftyp

/-- The brands between `start` and `stop`, four bytes each. -/
def anyBrand (data : List UInt8) (start stop : ℕ) (target : List (List UInt8)) : Bool :=
  (List.range ((stop - start) / 4)).any fun k => target.any (hasAt data (start + 4 * k))

def scanCompatBrands (data : List UInt8) (target : List (List UInt8)) : Bool :=
  match u32Be data 0 with
  | 0 => anyBrand data 16 data.length target
  | 1 => if data.length < 16 then false
    else anyBrand data 24 (min (u64Be data 8) data.length) target
  | size => anyBrand data 16 (min size data.length) target

/-- `detect_avif` and `detect_heic`, with their brands. -/
def detectBrands (brands : List (List UInt8)) (data : List UInt8) : Bool :=
  if !hasFtyp data then false
  else if brands.any (hasAt data 8) then true
  else if imageBrands.any (hasAt data 8) then scanCompatBrands data brands
  else false

def detectAvif : List UInt8 → Bool := detectBrands avifBrands

def detectHeic : List UInt8 → Bool := detectBrands heicBrands

/-! ### TIFF and the raw formats -/

def isTiffHeader (data : List UInt8) : Bool :=
  4 ≤ data.length &&
    (hasAt data 0 [0x49, 0x49, 0x2A, 0x00] || hasAt data 0 [0x4D, 0x4D, 0x00, 0x2A])

/-- The entries of a directory, of which `left` are left, the next at `off`. The search ends where
the data does, and at the first tag above the target. -/
def scanTags (u16 : List UInt8 → ℕ → ℕ) (data : List UInt8) (target : ℕ) : ℕ → ℕ → Bool
  | 0, _ => false
  | left + 1, off =>
    if data.length < off + 2 then false
    else if u16 data off = target then true
    else if target < u16 data off then false
    else scanTags u16 data target left (off + 12)

/-- `has_ifd0_tag` -/
def hasIfd0Tag (data : List UInt8) (target : ℕ) : Bool :=
  if data.length < 8 then false
  else
    let bigEndian : Bool := byte data 0 = 0x4D
    let ifdOffset := if bigEndian then u32Be data 4 else u32Le data 4
    let u16 := if bigEndian then u16Be else u16Le
    if data.length < ifdOffset + 2 then false
    else scanTags u16 data target (u16 data ifdOffset) (ifdOffset + 2)

/-- `"APPLEDNG"` at byte 8. -/
def hasAppleDng (data : List UInt8) : Bool :=
  16 ≤ data.length && hasAt data 8 [0x41, 0x50, 0x50, 0x4C, 0x45, 0x44, 0x4E, 0x47]

def detectDng (data : List UInt8) : Bool :=
  if !isTiffHeader data then false
  else if hasAppleDng data then true
  else hasIfd0Tag data 0xC612

def detectRaw (data : List UInt8) : Bool :=
  if data.length < 4 then false
  else if isTiffHeader data && !hasIfd0Tag data 0xC612 && !hasAppleDng data then
    -- CR2, or sub-directories
    if 10 ≤ data.length && hasAt data 8 [0x43, 0x52] then true else hasIfd0Tag data 0x014A
  -- ORF, RAF, RW2 and CR3
  else if hasAt data 0 [0x49, 0x49, 0x52, 0x4F] then true
  else if 8 ≤ data.length && hasAt data 0 [0x46, 0x55, 0x4A, 0x49, 0x46, 0x49, 0x4C, 0x4D] then true
  else if hasAt data 0 [0x49, 0x49, 0x55, 0x00] then true
  else 12 ≤ data.length && hasAt data 4 ftyp && hasAt data 8 [0x63, 0x72, 0x78, 0x20]

/-! ### TGA -/

/-- `"TRUEVISION-XFILE.\0"` -/
def tgaFooter : List UInt8 :=
  [0x54, 0x52, 0x55, 0x45, 0x56, 0x49, 0x53, 0x49, 0x4F, 0x4E, 0x2D, 0x58, 0x46, 0x49, 0x4C, 0x45,
    0x2E, 0x00]

/-- Whether a TGA header is one that a writer could have meant. -/
def plausibleTga (data : List UInt8) : Bool :=
  let idLength := byte data 0
  let colorMapType := byte data 1
  let imageType := byte data 2
  let pixelDepth := byte data 16
  let descriptor := byte data 17
  let alphaBits := descriptor &&& 0x0F
  let mapped : Bool := imageType = 1 ∨ imageType = 9
  let depthOk : Bool :=
    if mapped then pixelDepth = 8 && colorMapType = 1
    else if imageType = 2 ∨ imageType = 10 then pixelDepth ∈ [15, 16, 24, 32]
    else pixelDepth = 8
  let alphaOk : Bool :=
    if pixelDepth = 32 then alphaBits ≤ 8
    else if pixelDepth = 16 then alphaBits ≤ 1
    else alphaBits = 0
  imageType ∈ [1, 2, 3, 9, 10, 11] && colorMapType ≤ 1 && idLength < 128 &&
    descriptor &&& 0xC0 = 0 && u16Le data 12 ≠ 0 && u16Le data 14 ≠ 0 &&
    !(mapped && colorMapType = 0) && depthOk && alphaOk &&
    !(colorMapType = 1 && byte data 7 ∉ [15, 16, 24, 32])

def detectTga (data : List UInt8) : Bool :=
  if data.length < 18 then false
  else if 44 ≤ data.length && hasAt data (data.length - 18) tgaFooter then true
  else plausibleTga data

/-! ### The others -/

def detectJpeg (data : List UInt8) : Bool := 3 ≤ data.length && hasAt data 0 [0xFF, 0xD8, 0xFF]

def detectPng (data : List UInt8) : Bool :=
  8 ≤ data.length && hasAt data 0 [0x89, 0x50, 0x4E, 0x47, 0x0D, 0x0A, 0x1A, 0x0A]

def detectGif (data : List UInt8) : Bool :=
  6 ≤ data.length && hasAt data 0 [0x47, 0x49, 0x46, 0x38] &&
    (byte data 4 = 0x37 || byte data 4 = 0x39) && byte data 5 = 0x61

def detectWebp (data : List UInt8) : Bool :=
  12 ≤ data.length && hasAt data 0 [0x52, 0x49, 0x46, 0x46] && hasAt data 8 [0x57, 0x45, 0x42, 0x50]

def detectJxl (data : List UInt8) : Bool :=
  if 2 ≤ data.length && hasAt data 0 [0xFF, 0x0A] then true
  else 12 ≤ data.length && hasAt data 0 [0x00, 0x00, 0x00, 0x0C] &&
    hasAt data 4 [0x4A, 0x58, 0x4C, 0x20] && hasAt data 8 [0x0D, 0x0A, 0x87, 0x0A]

def detectBmp (data : List UInt8) : Bool := 2 ≤ data.length && hasAt data 0 [0x42, 0x4D]

def detectFarbfeld (data : List UInt8) : Bool :=
  8 ≤ data.length && hasAt data 0 [0x66, 0x61, 0x72, 0x62, 0x66, 0x65, 0x6C, 0x64]

/-- `P1` to `P7`, `PF` and `Pf`. -/
def detectPnm (data : List UInt8) : Bool :=
  2 ≤ data.length && byte data 0 = 0x50 &&
    ((0x31 ≤ byte data 1 && byte data 1 ≤ 0x37) || byte data 1 = 0x46 || byte data 1 = 0x66)

def detectIco (data : List UInt8) : Bool :=
  6 ≤ data.length && byte data 0 = 0 && byte data 1 = 0 && (byte data 2 = 1 || byte data 2 = 2) &&
    byte data 3 = 0 && u16Le data 4 ≠ 0

def detectQoi (data : List UInt8) : Bool :=
  4 ≤ data.length && hasAt data 0 [0x71, 0x6F, 0x69, 0x66]

def detectPdf (data : List UInt8) : Bool :=
  5 ≤ data.length && hasAt data 0 [0x25, 0x50, 0x44, 0x46, 0x2D]

def detectExr (data : List UInt8) : Bool :=
  4 ≤ data.length && hasAt data 0 [0x76, 0x2F, 0x31, 0x01]

/-- `#?RADIANCE` and `#?RGBE` -/
def detectHdr (data : List UInt8) : Bool :=
  10 ≤ data.length &&
    (hasAt data 0 [0x23, 0x3F, 0x52, 0x41, 0x44, 0x49, 0x41, 0x4E, 0x43, 0x45] ||
      hasAt data 0 [0x23, 0x3F, 0x52, 0x47, 0x42, 0x45])

/-- A container, or a raw codestream. -/
def detectJp2 (data : List UInt8) : Bool :=
  (8 ≤ data.length && hasAt data 0 [0x00, 0x00, 0x00, 0x0C] && hasAt data 4 [0x6A, 0x50, 0x20, 0x20]) ||
    (4 ≤ data.length && hasAt data 0 [0xFF, 0x4F, 0xFF, 0x51])

/-! ### SVG -/

def isAsciiWhitespace (b : UInt8) : Bool := b ∈ [0x20, 0x09, 0x0A, 0x0C, 0x0D]

def toAsciiLower (b : UInt8) : UInt8 := if 0x41 ≤ b ∧ b ≤ 0x5A then b + 0x20 else b

/-- `starts_with_ascii_ci` -/
def startsWithAsciiCi (data sig : List UInt8) : Bool :=
  (sig.map toAsciiLower).isPrefixOf (data.map toAsciiLower)

/-- `"<svg"` -/
def svgTag : List UInt8 := [0x3C, 0x73, 0x76, 0x67]

/-- `contains_svg_tag` -/
def containsSvgTag (data : List UInt8) : Bool := data.tails.any (startsWithAsciiCi · svgTag)

def detectSvg (data : List UInt8) : Bool :=
  if 2 ≤ data.length && hasAt data 0 [0x1F, 0x8B] then false
  else
    let search := data.take 1024
    let start := if 3 ≤ search.length && hasAt search 0 [0xEF, 0xBB, 0xBF] then 3 else 0
    let trimmed := (search.drop start).dropWhile isAsciiWhitespace
    -- `<svg`, `<!doctype svg`, or `<?xml` with a `<svg` after it
    startsWithAsciiCi trimmed svgTag ||
      startsWithAsciiCi trimmed
        [0x3C, 0x21, 0x64, 0x6F, 0x63, 0x74, 0x79, 0x70, 0x65, 0x20, 0x73, 0x76, 0x67] ||
      (startsWithAsciiCi trimmed [0x3C, 0x3F, 0x78, 0x6D, 0x6C] && containsSvgTag trimmed)

end Zencodec.Format
