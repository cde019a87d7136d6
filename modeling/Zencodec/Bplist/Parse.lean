/-
Reading a binary property list.

`parseBplist` checks the trailer and reads the root object. `readObject` reads one object and,
at one level less, the objects that it refers to: an object is read again at each use. A budget
bounds the values visited and the bytes allocated. `fail` stands for a `None` of the source.

The floating-point numbers, the sizes of the values in memory and the allocator are those of the
host.
-/
import Zencodec.Bplist.Value
import Zencodec.Lib.Slices
import Zencodec.Machine

open Slices

namespace Zencodec.Bplist

variable {Ω F : Type}

/-- The host, with its floating-point numbers and the sizes of values and entries. -/
structure Env (Ω F : Type) extends Host Ω where
  ofF32 : ℕ → F
  ofF64 : ℕ → F
  valueSize : ℕ
  entrySize : ℕ

namespace Env

variable (env : Env Ω F)

/-- `usize::try_from`. -/
def usize (n : ℕ) : Option ℕ := if n ≤ env.usizeMax then some n else none

/-- `usize::checked_add`. -/
def add (a b : ℕ) : Option ℕ := env.usize (a + b)

/-- `usize::checked_mul`. -/
def mul (a b : ℕ) : Option ℕ := env.usize (a * b)

end Env

/-- Maximum container nesting depth before parsing bails. -/
def maxDepth : ℕ := 32

def maxNodes : ℕ := 65536

def maxBytes : ℕ := 16 * 1024 * 1024

/-- What is left to visit and to allocate. -/
structure Budget where
  nodes : ℕ
  bytes : ℕ
  deriving DecidableEq, Repr

/-- A computation on the budget, which may return `None`. -/
abbrev Read (Ω α : Type) := Act (Budget × Ω) Unit α

def visit : Read Ω Unit := do
  let t ← Act.get
  Act.require (1 ≤ t.1.nodes) ()
  Act.modify fun t => ({ t.1 with nodes := t.1.nodes - 1 }, t.2)

def charge (n : ℕ) : Read Ω Unit := do
  let t ← Act.get
  Act.require (n ≤ t.1.bytes) ()
  Act.modify fun t => ({ t.1 with bytes := t.1.bytes - n }, t.2)

/-- Charge `n` bytes and reserve them. -/
def allocate (host : Host Ω) (n : ℕ) : Read Ω Unit := do
  charge n
  onWorld (host.reserve ())

/-! ### Bytes -/

/-- Read a big-endian unsigned integer of `size` bytes (`1..=8`). -/
def readUintBe (data : Bytes) (off size : ℕ) : Option ℕ :=
  if size = 0 ∨ 8 < size then none else (slice data off (off + size)).map (wordValue .big)

/-- `as i64`. -/
def asI64 (raw : ℕ) : ℤ := if raw < 2 ^ 63 then raw else raw - 2 ^ 64

/-- Big-endian units of two bytes. -/
def units : Bytes → List ℕ
  | a :: b :: rest => (a.toNat * 256 + b.toNat) :: units rest
  | _ => []

def replacement : Char := Char.ofNat 0xFFFD

/-- `char::decode_utf16`, with a replacement for each unpaired surrogate. -/
def decodeUtf16 : List ℕ → List Char
  | [] => []
  | [u] => if u < 0xD800 ∨ 0xDFFF < u then [Char.ofNat u] else [replacement]
  | u :: v :: rest =>
    if u < 0xD800 ∨ 0xDFFF < u then Char.ofNat u :: decodeUtf16 (v :: rest)
    else if u < 0xDC00 ∧ 0xDC00 ≤ v ∧ v ≤ 0xDFFF then
      Char.ofNat (0x10000 + (u - 0xD800) * 0x400 + (v - 0xDC00)) :: decodeUtf16 rest
    else replacement :: decodeUtf16 (v :: rest)

/-- `core::str::from_utf8`. -/
def fromUtf8 (bytes : Bytes) : Option String := String.fromUTF8? ⟨bytes.toArray⟩

/-! ### The context -/

/-- Immutable parsing context. -/
structure Ctx where
  data : Bytes
  numObjects : ℕ
  offsetSize : ℕ
  refSize : ℕ
  offsetTableOff : ℕ
  deriving DecidableEq, Repr

namespace Ctx

variable (env : Env Ω F) (c : Ctx)

def payload : Bytes := c.data.take c.offsetTableOff

/-- Byte offset of object `index` from the offset table. -/
def objectOffset (index : ℕ) : Option ℕ :=
  if c.numObjects ≤ index then none
  else do
    let offset ← readUintBe c.data (c.offsetTableOff + index * c.offsetSize) c.offsetSize
    let offset ← env.usize offset
    if 8 ≤ offset ∧ offset < c.offsetTableOff then some offset else none

/-- An object reference at byte `pos`. -/
def readRef (pos : ℕ) : Option ℕ := (readUintBe c.payload pos c.refSize).bind env.usize

/-- The length of a container, of data or of a string, and the offset of its first element. -/
def readCount (off lo : ℕ) : Option (ℕ × ℕ) :=
  if lo ≠ 0xF then some (lo, off + 1)
  else do
    let at1 ← env.add off 1
    let sizeMarker ← c.payload[at1]?
    if sizeMarker.toNat / 16 ≠ 1 then none
    else
      let n := 2 ^ (sizeMarker.toNat % 16)
      if 8 < n then none
      else do
        let count ← (readUintBe c.payload (off + 2) n).bind env.usize
        let at2 ← env.add off 2
        let base ← env.add at2 n
        some (count, base)

/-! ### Leaves -/

/-- The `n` bytes after the marker. -/
def bytesAt (off n : ℕ) : Option Bytes := do
  let at1 ← env.add off 1
  let stop ← env.add at1 n
  slice c.payload (off + 1) stop

/-- The last eight of the bytes after the marker, as a number. -/
def uintAt (off n : ℕ) : Option ℕ := do
  let bytes ← c.bytesAt env off n
  readUintBe bytes (n - 8) (min n 8)

def realAt (off lo : ℕ) : Option F := do
  let n := 2 ^ lo
  let bytes ← c.bytesAt env off n
  if n = 4 then some (env.ofF32 (wordValue .big bytes))
  else if n = 8 then some (env.ofF64 (wordValue .big bytes))
  else none

def dateAt (off marker : ℕ) : Option F :=
  if marker ≠ 0x33 then none
  else do
    let stop ← env.add off 9
    let bytes ← slice c.payload (off + 1) stop
    some (env.ofF64 (wordValue .big bytes))

/-- A string of bytes, and how many they are. -/
def dataAt (off lo : ℕ) : Option (Bytes × ℕ) := do
  let (count, base) ← c.readCount env off lo
  let stop ← env.add base count
  let bytes ← slice c.payload base stop
  some (bytes, count)

def asciiAt (off lo : ℕ) : Option (String × ℕ) := do
  let (bytes, count) ← c.dataAt env off lo
  let text ← fromUtf8 bytes
  some (text, count)

/-- A string of two-byte units, and the bytes to reserve for it. -/
def utf16At (off lo : ℕ) : Option (String × ℕ) := do
  let (count, base) ← c.readCount env off lo
  let n ← env.mul count 2
  let stop ← env.add base n
  let bytes ← slice c.payload base stop
  let capacity ← env.mul count 3
  some (String.ofList (decodeUtf16 (units bytes)), capacity)

/-- An object that refers to no other, and what it allocates, if it does. -/
def leafAt (off marker : ℕ) : Option (PlistValue F × Option ℕ) :=
  let lo := marker % 16
  match marker / 16 with
  | 0x0 =>
    if marker = 0x08 then some (.bool false, none)
    else if marker = 0x09 then some (.bool true, none)
    else none
  | 0x1 => (c.uintAt env off (2 ^ lo)).map fun raw => (.integer (asI64 raw), none)
  | 0x2 => (c.realAt env off lo).map fun r => (.real r, none)
  | 0x3 => (c.dateAt env off marker).map fun r => (.date r, none)
  | 0x4 => (c.dataAt env off lo).map fun p => (.data p.1, some p.2)
  | 0x5 => (c.asciiAt env off lo).map fun p => (.string p.1, some p.2)
  | 0x6 => (c.utf16At env off lo).map fun p => (.string p.1, some p.2)
  | 0x8 => (c.uintAt env off (lo + 1)).map fun raw => (.uid raw, none)
  | _ => none

def readLeaf (off marker : ℕ) : Read Ω (PlistValue F) := do
  let (v, allocated) ← Act.getOr (c.leafAt env off marker) ()
  match allocated with
  | some n => do
    allocate env.toHost n
    pure v
  | none => pure v

/-! ### Objects -/

/-- The number of elements of an array or set, and where their references are. -/
def arrayAt (off lo : ℕ) : Option (ℕ × ℕ) := do
  let (count, base) ← c.readCount env off lo
  let size ← env.mul count c.refSize
  let stop ← env.add base size
  let _ ← slice c.payload base stop
  some (count, base)

/-- The number of entries of a dictionary, and where the references to keys and values are. -/
def dictAt (off lo : ℕ) : Option (ℕ × ℕ × ℕ) := do
  let (count, keysBase) ← c.readCount env off lo
  let size ← env.mul count c.refSize
  let valsBase ← env.add keysBase size
  let stop ← env.add valsBase size
  let _ ← slice c.payload keysBase stop
  some (count, keysBase, valsBase)

/-- A key has to be a string. -/
def asKey : PlistValue F → Option String
  | .string s => some s
  | _ => none

/-- Object `index`, where as many levels are left. -/
def readObject : ℕ → ℕ → Read Ω (PlistValue F)
  | 0, _ => Act.fail ()
  | left + 1, index => do
    visit
    let off ← Act.getOr (c.objectOffset env index) ()
    let marker ← Act.getOr (c.payload[off]?.map UInt8.toNat) ()
    let lo := marker % 16
    if marker / 16 = 0xA ∨ marker / 16 = 0xC then do
      let (count, base) ← Act.getOr (c.arrayAt env off lo) ()
      let t ← Act.get
      Act.require (count ≤ t.1.nodes) ()
      let bytes ← Act.getOr (env.mul count env.valueSize) ()
      allocate env.toHost bytes
      let items ← Act.collect (fun i => do
        let r ← Act.getOr (c.readRef env (base + i * c.refSize)) ()
        readObject left r) (List.range count)
      pure (.array items)
    else if marker / 16 = 0xD then do
      let (count, keysBase, valsBase) ← Act.getOr (c.dictAt env off lo) ()
      let double ← Act.getOr (env.mul count 2) ()
      let t ← Act.get
      Act.require (double ≤ t.1.nodes) ()
      let bytes ← Act.getOr (env.mul count env.entrySize) ()
      allocate env.toHost bytes
      let entries ← Act.collect (fun i => do
        let k ← Act.getOr (c.readRef env (keysBase + i * c.refSize)) ()
        let v ← Act.getOr (c.readRef env (valsBase + i * c.refSize)) ()
        let key ← readObject left k
        let key ← Act.getOr (asKey key) ()
        let value ← readObject left v
        pure (key, value)) (List.range count)
      pure (.dict entries)
    else c.readLeaf env off marker

end Ctx

/-! ### The list -/

/-- `bplist00`. -/
def header : Bytes := [0x62, 0x70, 0x6c, 0x69, 0x73, 0x74, 0x30, 0x30]

/-- The context and the root object of a property list. -/
def readTrailer (env : Env Ω F) (data : Bytes) : Option (Ctx × ℕ) :=
  if data.length < 8 + 32 ∨ maxBytes < data.length ∨ data.take 8 ≠ header then none
  else do
    let trailer := data.drop (data.length - 32)
    let offsetSize ← trailer[6]?.map UInt8.toNat
    let refSize ← trailer[7]?.map UInt8.toNat
    if offsetSize = 0 ∨ 8 < offsetSize ∨ refSize = 0 ∨ 8 < refSize then none
    else do
      let numObjects ← (readUintBe trailer 8 8).bind env.usize
      let topObject ← (readUintBe trailer 16 8).bind env.usize
      let offsetTableOff ← (readUintBe trailer 24 8).bind env.usize
      if numObjects ≤ topObject ∨ offsetTableOff < 8 then none
      else do
        let size ← env.mul numObjects offsetSize
        let tableEnd ← env.add offsetTableOff size
        if data.length - 32 < tableEnd then none
        else some (⟨data, numObjects, offsetSize, refSize, offsetTableOff⟩, topObject)

/-- The top-level object, or `none` if the data is not well formed within the limits. -/
def parseBplist (env : Env Ω F) (data : Bytes) (w : Ω) : Option (PlistValue F) := do
  let (c, topObject) ← readTrailer env data
  (c.readObject env (maxDepth + 1) topObject (⟨maxNodes, maxBytes⟩, w)).1.toOption

end Zencodec.Bplist
