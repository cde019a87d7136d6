/-
Metadata audits.

A `Report` lists the fields of an EXIF blob or an XMP packet, each with a path, a
kind and a value in notation, and what the inspection did not cover.  EXIF fields
are numbered per directory and tag; XMP fields come from the packet's snapshot.
`Report.diff` compares two reports path by path.

How Rust prints text and floating-point numbers for debugging is a parameter
(`Debug`): values are compared, never read.
-/
import Zencodec.Exif.Retain
import Zencodec.Lib.KeyedDiff
import Zencodec.Xmp.Packet

open StableSort

namespace Zencodec

namespace Audit

open Xmp Exif Slices

/-- The `{:?}` notation of texts and of the floats with the given bits. -/
structure Debug where
  text : Text → Text
  f32 : ℕ → Text
  f64 : ℕ → Text

/-- An inspected field. -/
structure Entry where
  path : Text
  kind : Text
  value : Text
  deriving DecidableEq, Repr

/-- Inspection limitation or content requiring an explicit retention decision. -/
inductive Finding
  | invalidExif
  | exifCoverageLimited
  | makerNote (path : Text) (bytes : ℕ)
  | limit
  | invalidXmp (message : Text)
  deriving DecidableEq, Repr

/-- Read-only metadata snapshot; its entries are sorted by path. -/
structure Report where
  entries : List Entry
  findings : List Finding
  sorted : SortedBy Entry.path entries

/-! ### Values -/

/-- `{:0width$x}` -/
def lowerHex (width n : ℕ) : Text := (Nat.toDigits 16 n).leftpad width '0'

def signed (width n : ℕ) : Text := (BitVec.ofNat width n).toInt.repr.toList

/-- `values.join(", ")` between brackets. -/
def bracketed (values : List Text) : Text :=
  '[' :: ([',', ' '].intercalate values ++ [']'])

/-- `{bytes:02x?}` -/
def hexBytes (bytes : Bytes) : Text := bracketed (bytes.map fun b => lowerHex 2 b.toNat)

/-- `core::str::from_utf8` -/
def decodeUtf8 (bytes : Bytes) : Option Text :=
  (ByteArray.mk bytes.toArray).utf8Decode?.map Array.toList

def number (order : ByteOrder) (b : Bytes) : ℕ :=
  match order with
  | .little => b.zipIdx.foldl (fun v x => v ||| x.1.toNat <<< (x.2 * 8)) 0
  | .big => b.foldl (fun v x => v <<< 8 ||| x.toNat) 0

/-- `bytes.chunks_exact(width)` -/
def chunksExact (width : ℕ) (bytes : Bytes) : List Bytes :=
  (List.range (bytes.length / width)).map fun i => (bytes.drop (i * width)).take width

/-- The width of a numeric kind. -/
def width (kind : UInt16) : Option ℕ :=
  if kind = 1 ∨ kind = 6 then some 1
  else if kind = 3 ∨ kind = 8 then some 2
  else if kind = 4 ∨ kind = 9 ∨ kind = 11 ∨ kind = 13 then some 4
  else if kind = 5 ∨ kind = 10 ∨ kind = 12 then some 8
  else none

/-- One number of a kind. -/
def displayNumber (debug : Debug) (kind : UInt16) (order : ByteOrder) (b : Bytes) : Text :=
  let n := number order b
  if kind = 6 then signed 8 n
  else if kind = 8 then signed 16 n
  else if kind = 9 then signed 32 n
  else if kind = 5 then
    decimal (number order (b.take 4)) ++ '/' :: decimal (number order (b.drop 4))
  else if kind = 10 then
    signed 32 (number order (b.take 4)) ++ '/' :: signed 32 (number order (b.drop 4))
  else if kind = 11 then
    debug.f32 n ++ " [bits=".toList ++ lowerHex 8 n ++ [']']
  else if kind = 12 then
    debug.f64 n ++ " [bits=".toList ++ lowerHex 16 n ++ [']']
  else decimal n

def displayValue (debug : Debug) (kind : UInt16) (bytes : Bytes) (order : ByteOrder) : Text :=
  if kind = 2 ∨ kind = 129 then
    match decodeUtf8 bytes with
    | some text => debug.text text
    | none => "bytes=".toList ++ hexBytes bytes
  else match width kind with
    | none => hexBytes bytes
    | some width => bracketed ((chunksExact width bytes).map (displayNumber debug kind order))

/-! ### EXIF -/

/-- A read-only view of one IFD entry. -/
structure EntryRef where
  ifd : Ifd
  tag : UInt16
  kind : UInt16
  count : UInt32
  value : Bytes

/-- Every entry of a tree, directory by directory. -/
def entries {src : Bytes} (x : Exif src) : List EntryRef :=
  [Ifd.ifd0, .exif, .interop, .gps, .ifd1].flatMap fun ifd =>
    (entriesOf x ifd).map fun e => ⟨ifd, e.tag, e.kind, e.count, e.value.bytes⟩

/-- `{:?}` of a directory. -/
def ifdName : Ifd → Text
  | .ifd0 => ['I', 'f', 'd', '0']
  | .exif => ['E', 'x', 'i', 'f']
  | .gps => ['G', 'p', 's']
  | .interop => ['I', 'n', 't', 'e', 'r', 'o', 'p']
  | .ifd1 => ['I', 'f', 'd', '1']

/-- What the occurrences of an entry are counted by. -/
def exifKey (e : EntryRef) : Text :=
  "exif/".toList ++ ifdName e.ifd ++ "/0x".toList ++ lowerHex 4 e.tag.toNat

/-- The state of the inspection of an EXIF tree. -/
structure Inspection where
  entries : List Entry
  findings : List Finding
  occurrences : Text → ℕ
  budget : ℕ

def Inspection.start : Inspection where
  entries := []
  findings := [.exifCoverageLimited]
  occurrences _ := 0
  budget := 0

/-- The path of the next entry under a key. -/
def occurrencePath (key : Text) (index : ℕ) : Text := key ++ '[' :: (decimal index ++ [']'])

/-- One pass of the loop over the entries, within the budget. -/
def Inspection.entry (debug : Debug) (order : ByteOrder) (s : Inspection) (e : EntryRef)
    (budget : ℕ) : Inspection :=
  let key := exifKey e
  let index := s.occurrences key
  let path := occurrencePath key index
  { entries := s.entries ++ [{
      path
      kind := "TIFF type=".toList ++ decimal e.kind.toNat ++ " count=".toList ++
        decimal e.count.toNat
      value := displayValue debug e.kind e.value order }]
    findings :=
      if e.tag = tagMakerNote then s.findings ++ [.makerNote path e.value.length]
      else s.findings
    occurrences := Function.update s.occurrences key (index + 1)
    budget }

/-- The loop over the entries. -/
def Inspection.run (debug : Debug) (order : ByteOrder) (s : Inspection) :
    List EntryRef → Inspection
  | [] => s
  | e :: es =>
    let budget := saturatingAdd
      (saturatingAdd s.budget (min (e.value.length * 24) usizeMax)) 256
    if budget > maxBytes then { s with findings := s.findings ++ [.limit] }
    else (s.entry debug order e budget).run debug order es

namespace Report

/-- A report of findings alone. -/
def ofFindings (findings : List Finding) : Report where
  entries := []
  findings
  sorted := List.Pairwise.nil

/-- A report of the given entries, put in order. -/
def ofEntries (entries : List Entry) (findings : List Finding) : Report where
  entries := sortBy Entry.path entries
  findings
  sorted := sortBy_sorted _ _

/-- Inspect EXIF/TIFF. -/
def exif (debug : Debug) (bytes : Bytes) : Report :=
  if bytes.length > maxBytes then ofFindings [.limit]
  else match Exif.parse bytes with
    | none => ofFindings [.invalidExif]
    | some x =>
      let s := Inspection.start.run debug x.order (Audit.entries x)
      ofEntries s.entries s.findings

/-- `Error::to_string` -/
def errorText (debug : Debug) : Error → Text
  | .limit => "XMP: Limit".toList
  | .xml message => "XMP: Xml(".toList ++ debug.text message ++ [')']

/-- The entry of an XML field. -/
def ofField (f : Xmp.Field) : Entry where
  path := f.path
  kind := "XML".toList
  value := f.value

theorem sorted_map_ofField {fs : List Xmp.Field} (h : SortedBy Xmp.Field.path fs) :
    SortedBy Entry.path (fs.map ofField) :=
  List.pairwise_map.mpr h

/-- Inspect every XML field, including unknown namespaces and annotations. -/
def xmp (debug : Debug) (reader : Text → Except Text Document) (xml : Text) : Report :=
  match h : (Packet.parse reader xml).bind Packet.fields with
  | .ok fields =>
    { entries := fields.map ofField
      findings := []
      sorted := sorted_map_ofField (by
        cases hparse : Packet.parse reader xml with
        | error e => rw [hparse] at h; cases h
        | ok d => rw [hparse] at h; exact fields_sorted h) }
  | .error e => ofFindings [.invalidXmp (errorText debug e)]

/-- The differences between two reports. -/
def diff (self after : Report) : List (KeyedDiff.Change Entry) :=
  KeyedDiff.diff Entry.path self.entries after.entries

end Report

end Audit

end Zencodec
