/-
The structural inventory: parts, the linked lists of siblings, and the checks.

An `Inventory` records parts in push order.  Sibling lists are linked through
`firstChild` and `nextSibling`, in reverse push order, and readers sort them by offset;
`validate` checks that the parts account for every byte.

Growing the arrays is taken to succeed, so no operation here fails for want of memory.
-/
import Zencodec.Lib.StableSort
import Zencodec.Lib.Tiling

open StableSort Tiling

namespace Zencodec

/-- The structural class of a part. -/
inductive PartKind
  | header | segment | scanData | chunk | box | item | extent | property | block | ifd
  | field | attribute | embeddedImage | codedUnit | trailer | gap
  deriving DecidableEq, Repr

/-- Short lowercase name, for tables and logs. -/
def PartKind.name : PartKind → String
  | .header => "header"
  | .segment => "segment"
  | .scanData => "scan-data"
  | .chunk => "chunk"
  | .box => "box"
  | .item => "item"
  | .extent => "extent"
  | .property => "property"
  | .block => "block"
  | .ifd => "ifd"
  | .field => "field"
  | .attribute => "attribute"
  | .embeddedImage => "embedded-image"
  | .codedUnit => "coded-unit"
  | .trailer => "trailer"
  | .gap => "gap"

/-- A part's identity within its format. -/
inductive PartTag
  | none
  | marker (m : UInt8)
  | fourCc (a b c d : UInt8)
  | code (c : UInt32)
  | name (n : String)
  deriving DecidableEq, Repr

/-- Which surfaced metadata a part feeds. -/
inductive MetadataKind
  | exif | xmp | icc | cicp | colour | hdrStatic | gainMap | orientation | resolution
  | animation | supplement
  deriving DecidableEq, Repr

/-- What the decoder does with a part's bytes. -/
inductive Disposition
  | «structure»
  | imageData
  | metadata (kind : MetadataKind)
  | dropped
  | skipped
  | unknown
  | trailing
  | unreferenced
  | padding
  | malformed
  deriving DecidableEq, Repr

/-- Index of a part within its inventory. -/
abbrev PartId := ℕ

/-- One structural part of a file. -/
structure Part where
  /-- The part this one is nested in, or `none` at the top level. -/
  parent : Option PartId
  kind : PartKind
  tag : PartTag
  label : Option String
  range : Span ℕ
  /-- The range the children tile exactly, if declared. -/
  body : Option (Span ℕ)
  disposition : Disposition
  detail : Option String
  deriving DecidableEq, Repr

/-- A part with no label, body or detail. -/
def Part.new (kind : PartKind) (tag : PartTag) (range : Span ℕ)
    (disposition : Disposition) : Part where
  parent := none
  kind := kind
  tag := tag
  label := none
  range := range
  body := none
  disposition := disposition
  detail := none

def Part.withLabel (p : Part) (label : String) : Part := { p with label := some label }

def Part.withBody (p : Part) (body : Span ℕ) : Part := { p with body := some body }

def Part.withDetail (p : Part) (detail : String) : Part := { p with detail := some detail }

/-- Why an inventory is invalid, or could not grow. -/
inductive InventoryError
  | tooManyParts (max : UInt32)
  | badParent (part : PartId)
  | emptyPart (part : PartId)
  | outOfBounds (part : PartId)
  | outsideParent (part : PartId)
  | overlap (first second : PartId)
  | uncovered (parent : Option PartId) (range : Span ℕ)
  deriving DecidableEq, Repr

/-- A byte-exact map of a file's structural parts. -/
structure Inventory where
  len : ℕ
  parts : List Part
  maxParts : UInt32
  /-- First child of each part, or `endOfList`. -/
  firstChild : List ℕ
  /-- Next sibling of each part, or `endOfList`; sibling lists run in reverse push
  order. -/
  nextSibling : List ℕ
  /-- First top-level part, or `endOfList`. -/
  firstTop : ℕ
  deriving DecidableEq, Repr

/-- End of a sibling list: `u32::MAX`. -/
def endOfList : ℕ := 2 ^ 32 - 1

def defaultMaxParts : UInt32 := 1048576

namespace Inventory

/-- An empty inventory for an input of `len` bytes. -/
def new (len : ℕ) : Inventory where
  len := len
  parts := []
  maxParts := defaultMaxParts
  firstChild := []
  nextSibling := []
  firstTop := endOfList

def withMaxParts (inv : Inventory) (maxParts : UInt32) : Inventory :=
  { inv with maxParts := maxParts }

/-- The head of a sibling list. -/
def first (inv : Inventory) : Option PartId → ℕ
  | none => inv.firstTop
  | some p => inv.firstChild.getD p endOfList

/-- The range of a recorded part. -/
def range (inv : Inventory) (id : PartId) : Span ℕ :=
  (inv.parts[id]?.map Part.range).getD ⟨0, 0⟩

/-! ### Recording parts -/

/-- The cap leaves room for `additional` parts. -/
def reserveParts (inv : Inventory) (additional : ℕ) : Except InventoryError Unit :=
  if inv.maxParts.toNat - inv.parts.length < additional then
    .error (.tooManyParts inv.maxParts)
  else .ok ()

/-- The inventory with `part` recorded at the head of the sibling list of `parent`. -/
def link (inv : Inventory) (parent : Option PartId) (part : Part) : Inventory :=
  let id := inv.parts.length
  { inv with
    parts := inv.parts ++ [{ part with parent := parent }]
    firstChild := (match parent with
      | some p => inv.firstChild.set p id
      | none => inv.firstChild) ++ [endOfList]
    nextSibling := inv.nextSibling ++ [inv.first parent]
    firstTop := match parent with
      | some _ => inv.firstTop
      | none => id }

/-- Record `part` under `parent` (`none` is the top level) and return its id. -/
def push (inv : Inventory) (parent : Option PartId) (part : Part) :
    Except InventoryError (PartId × Inventory) := do
  let id := inv.parts.length
  if inv.maxParts.toNat ≤ inv.parts.length then
    throw (.tooManyParts inv.maxParts)
  if parent.any (inv.parts.length ≤ ·) then
    throw (.badParent id)
  inv.reserveParts 1
  return (id, inv.link parent part)

/-- Replace a recorded part's detail. -/
def setDetail (inv : Inventory) (id : PartId) (detail : String) : Inventory :=
  { inv with parts := inv.parts.modify id fun p => { p with detail := some detail } }

/-! ### Reading levels -/

/-- The sibling list that starts at `id`.  The fuel is the number of parts, which no list
exceeds (`siblings_eq`). -/
def siblings (next : List ℕ) : ℕ → ℕ → List PartId
  | 0, _ => []
  | fuel + 1, id =>
    if id = endOfList then [] else id :: siblings next fuel (next.getD id endOfList)

/-- Children of `parent` (`none` is the top level), sorted by start offset, ties in
recording order. -/
def children (inv : Inventory) (parent : Option PartId) : List PartId :=
  sortBy (fun id => toLex ((inv.range id).start, id))
    (siblings inv.nextSibling inv.parts.length (inv.first parent))

/-- The holes between the parts `ids` of `span`, from `cursor` on. -/
def holes (inv : Inventory) (span : Span ℕ) : ℕ → List PartId → List (Span ℕ)
  | cursor, [] => if cursor < span.stop then [⟨cursor, span.stop⟩] else []
  | cursor, id :: ids =>
    let r := inv.range id
    (if cursor < r.start then [⟨cursor, min r.start span.stop⟩] else []) ++
      inv.holes span (max cursor r.stop) ids

/-- Push one gap part for each hole that is not empty. -/
def pushGaps (parent : Option PartId) (disposition : Disposition) :
    Inventory → List (Span ℕ) → Except InventoryError Inventory
  | inv, [] => .ok inv
  | inv, hole :: rest =>
    if hole.start < hole.stop then do
      let (_, inv) ← inv.push parent (Part.new .gap .none hole disposition)
      pushGaps parent disposition inv rest
    else pushGaps parent disposition inv rest

/-- The range whose bytes the children of `parent` are to cover, if there is one. -/
def span (inv : Inventory) : Option PartId → Option (Span ℕ)
  | none => some ⟨0, inv.len⟩
  | some p => inv.parts[p]?.bind Part.body

/-- Cover every byte of the top level, or of a declared body, that no child covers. -/
def fillGaps (inv : Inventory) (parent : Option PartId) (disposition : Disposition) :
    Except InventoryError Inventory :=
  match inv.span parent with
  | none => .ok inv
  | some span => do
    let holes := inv.holes span span.start (inv.children parent)
    inv.reserveParts (holes.countP fun h => h.start < h.stop)
    pushGaps parent disposition inv holes

/-! ### Validation -/

/-- The checks on the part at index `i` against its parent. -/
def checkParent (inv : Inventory) (part : Part) (i : ℕ) :
    Option PartId → Except InventoryError Unit
  | none => .ok ()
  | some p =>
    if i ≤ p then
      .error (.badParent i)
    else if part.range.start < (inv.range p).start ∨
        (inv.range p).stop < part.range.stop then
      .error (.outsideParent i)
    else .ok ()

/-- The checks on the part at index `i` by itself and against its parent. -/
def checkPart (inv : Inventory) (part : Part) (i : ℕ) : Except InventoryError Unit :=
  if part.range.stop ≤ part.range.start then
    .error (.emptyPart i)
  else if inv.len < part.range.stop then
    .error (.outOfBounds i)
  else if part.body.any fun body => body.start < part.range.start ||
      part.range.stop < body.stop || body.stop < body.start then
    .error (.outsideParent i)
  else inv.checkParent part i part.parent

/-- No part starts inside the one before it. -/
def checkOverlap (inv : Inventory) : List PartId → Except InventoryError Unit
  | a :: b :: ids =>
    if (inv.range b).start < (inv.range a).stop then .error (.overlap a b)
    else inv.checkOverlap (b :: ids)
  | _ => .ok ()

/-- The parts cover `span` from `cursor` on. -/
def checkCover (inv : Inventory) (parent : Option PartId) (span : Span ℕ) :
    ℕ → List PartId → Except InventoryError Unit
  | cursor, [] =>
    if cursor < span.stop then .error (.uncovered parent ⟨cursor, span.stop⟩) else .ok ()
  | cursor, id :: ids =>
    let r := inv.range id
    if r.start < span.start ∨ span.stop < r.stop then .error (.outsideParent id)
    else if cursor < r.start then .error (.uncovered parent ⟨cursor, r.start⟩)
    else inv.checkCover parent span r.stop ids

/-- Siblings do not overlap; with a `span`, they tile it exactly. -/
def checkLevel (inv : Inventory) (parent : Option PartId) (ids : List PartId) :
    Option (Span ℕ) → Except InventoryError Unit
  | none => inv.checkOverlap ids
  | some span => do
    inv.checkOverlap ids
    inv.checkCover parent span span.start ids

/-- The level below the part at index `i`, unless it has neither children nor a body. -/
def checkChildren (inv : Inventory) (part : Part) (i : ℕ) : Except InventoryError Unit :=
  if inv.first (some i) = endOfList ∧ part.body = none then .ok ()
  else inv.checkLevel (some i) (inv.children (some i)) part.body

/-- The coverage guarantees. -/
def validate (inv : Inventory) : Except InventoryError Unit := do
  inv.parts.zipIdx.forM fun (part, i) => inv.checkPart part i
  inv.checkLevel none (inv.children none) (some ⟨0, inv.len⟩)
  inv.parts.zipIdx.forM fun (part, i) => inv.checkChildren part i

/-! ### Runs -/

/-- A run of pushes; one that fails leaves the inventory as it was. -/
def pushes : Inventory → List (Option PartId × Part) → Inventory
  | inv, [] => inv
  | inv, (parent, part) :: rest =>
    match inv.push parent part with
    | .ok (_, inv) => inv.pushes rest
    | .error _ => inv.pushes rest

end Inventory

end Zencodec
