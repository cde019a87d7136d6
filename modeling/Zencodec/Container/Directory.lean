/-
The GContainer directory of a packet, and the edit of its lengths.

`Packet.parse` and `resourceSequenceSpanned` read the RDF sequence of a property with
the place of each field; `Directory.parse` checks the items of the two container
namespaces and keeps the places of their `Length` and `Padding` values;
`rewriteItemLengths` puts new numerals at the places of the secondaries.
-/
import Zencodec.Container.Markup
import Zencodec.Lib.Weave

namespace Zencodec.Container

open Xmp (Text Attribute byteLen decimal)

inductive Error
  | limit
  | xml (message : Text)
  | duplicate (name : Text)
  | structural (name : Text)
  deriving DecidableEq, Repr

def rdf : Text := "http://www.w3.org/1999/02/22-rdf-syntax-ns#".toList

def containerNamespace : Text := "http://ns.google.com/photos/1.0/container/".toList

def itemNamespace : Text := "http://ns.google.com/photos/1.0/container/item/".toList

def depthContainerNamespace : Text := "http://ns.google.com/photos/dd/1.0/container/".toList

def depthItemNamespace : Text := "http://ns.google.com/photos/dd/1.0/item/".toList

/-- `gainmap::MAX_XMP_LENGTH` -/
def maxXmpLength : ℕ := 16 * 1024 * 1024

def maxItems : ℕ := 256

/-! ### Packets -/

/-- `Packet::parse`, over the XML reader. -/
def Packet.parse (reader : Text → Except Text Document) (xml : Text) : Except Error Document :=
  if byteLen xml > Xmp.maxBytes then .error .limit
  else if Xmp.nestsDeeperThan xml Xmp.maxNesting then .error .limit
  else match reader xml with
    | .error message => .error (.xml message)
    | .ok doc =>
      if doc.ancestorCounts.any fun count => min 66 count > 65 then .error .limit
      else .ok doc

/-- `p.has_tag_name((RDF, "RDF"))` and `p` is the root element or below an `xmpmeta`. -/
def isMetadata : List Tag → Bool
  | [p] => p.hasName rdf "RDF".toList
  | [p, root] => p.hasName rdf "RDF".toList && root.hasName "adobe:ns:meta/".toList "xmpmeta".toList
  | _ => false

def Document.descriptions (d : Document) : List Node :=
  (d.descendants.filter fun n =>
    n.2.tag.hasName rdf "Description".toList && isMetadata n.1).map Prod.snd

def onlyChild (n : Node) : Option Node :=
  match n.elements with
  | [first] => some first
  | _ => none

def plainText (n : Node) : Except Error Text :=
  if n.elements ≠ [] ∨ n.tag.attributes ≠ [] then .error (.structural n.tag.name)
  else .ok (textOf n.children)

def structuralNode (n : Node) (allowResource : Bool) : Except Error Unit :=
  if n.tag.attributes.any (fun a => !(allowResource && a.ns = some rdf &&
      a.name = "parseType".toList && a.value = "Resource".toList)) || n.hasText then
    .error (.structural n.tag.name)
  else .ok ()

def emptySubject (t : Tag) : Except Error Unit :=
  if t.attributes.any fun a => a.ns = some rdf && (a.name != "about".toList || a.value != []) then
    .error (.structural "RDF subject/qualifier".toList)
  else .ok ()

/-- A namespace-qualified scalar in an RDF resource structure. -/
structure Property where
  ns : Text
  name : Text
  value : Text
  deriving DecidableEq

structure SpannedProperty where
  property : Property
  start : ℕ
  stop : ℕ
  isAttribute : Bool
  deriving DecidableEq

/-- One pass of the loop over an item's attributes. -/
def attributeField (name : Text) (fields : List SpannedProperty) (p : ℕ × Attr) :
    Except Error (List SpannedProperty) :=
  match p.2.meaning with
  | none => .ok fields
  | some a =>
    if a.ns = some rdf then .error (.structural name)
    else .ok (fields ++ [⟨⟨a.ns.getD [], a.name, a.value⟩, p.1, p.1 + p.2.source.length, true⟩])

/-- One pass of the loop over an item's child elements. -/
def childField (fields : List SpannedProperty) (child : Node) :
    Except Error (List SpannedProperty) := do
  let value ← plainText child
  return fields ++ [⟨⟨child.tag.ns.getD [], child.tag.name, value⟩, child.start,
    child.start + child.markup.render.length, false⟩]

/-- The name of the first field that repeats an earlier one. -/
def repeated (seen : List Property) : List SpannedProperty → Option Text
  | [] => none
  | f :: fields =>
    if seen.any fun b => b.ns = f.property.ns && b.name = f.property.name then
      some f.property.name
    else repeated (seen ++ [f.property]) fields

/-- The fields of one item. -/
def itemFields (name : Text) (item : Node) : Except Error (List SpannedProperty) := do
  let fields ← (attrsFrom (item.start + 1 + item.tag.spelling.length) item.tag.attrs).foldlM
    (attributeField name) []
  let fields ← item.elements.foldlM childField fields
  if fields.length > 256 then .error .limit
  else match repeated [] fields with
    | some twice => .error (.duplicate twice)
    | none => .ok fields

/-- One pass of the loop over the entries of the sequence. -/
def listItem (name itemNs itemName : Text) (maxItems : ℕ) (items : List (List SpannedProperty))
    (li : Node) : Except Error (List (List SpannedProperty)) := do
  if !li.tag.hasName rdf "li".toList then .error (.structural name)
  else if items.length ≥ maxItems then .error .limit
  else
    structuralNode li true
    match onlyChild li with
    | none => .error (.structural name)
    | some item =>
      if !item.tag.hasName itemNs itemName || item.hasText then .error (.structural name)
      else return items ++ [← itemFields name item]

/-- The items of the sequence that a property node holds. -/
def sequenceItems (name itemNs itemName : Text) (maxItems : ℕ) (node : Node) :
    Except Error (List (List SpannedProperty)) := do
  structuralNode node false
  match (onlyChild node).filter fun n => n.tag.hasName rdf "Seq".toList with
  | none => .error (.structural name)
  | some seq =>
    structuralNode seq false
    seq.elements.foldlM (listItem name itemNs itemName maxItems) []

/-- The nodes of a property, each with the description it belongs to. -/
def Document.propertyNodes (d : Document) (ns name : Text) : List (Node × Node) :=
  d.descriptions.flatMap fun p =>
    (p.elements.filter fun n => n.tag.hasName ns name).map fun n => (p, n)

def resourceSequenceSpanned (d : Document) (ns name itemNs itemName : Text) (maxItems : ℕ) :
    Except Error (List (List SpannedProperty)) := do
  if d.descriptions.any fun n => n.tag.hasAttribute ns name then .error (.structural name)
  else match d.propertyNodes ns name with
    | [] => .ok []
    | [(parent, node)] =>
      emptySubject parent.tag
      sequenceItems name itemNs itemName maxItems node
    | _ => .error (.duplicate name)

/-! ### Items -/

inductive ItemSemantic
  | primary
  | gainMap
  | depthMap
  | confidenceMap
  | other (s : Text)
  deriving DecidableEq

namespace ItemSemantic

def fromXmp (s : Text) : ItemSemantic :=
  if s = "Primary".toList then .primary
  else if s = "GainMap".toList then .gainMap
  else if s = "DepthMap".toList then .depthMap
  else if s = "ConfidenceMap".toList then .confidenceMap
  else .other s

def asXmpStr : ItemSemantic → Text
  | .primary => "Primary".toList
  | .gainMap => "GainMap".toList
  | .depthMap => "DepthMap".toList
  | .confidenceMap => "ConfidenceMap".toList
  | .other s => s

end ItemSemantic

structure ContainerItem where
  semantic : ItemSemantic
  mime : Text
  length : Option ℕ
  padding : Option ℕ
  deriving DecidableEq

/-- An item and the places of its two numerals. -/
structure Entry where
  item : ContainerItem
  length : Option (ℕ × ℕ)
  padding : Option (ℕ × ℕ)
  deriving DecidableEq

structure Directory where
  xml : Text
  entries : List Entry
  deriving DecidableEq

def Directory.items (d : Directory) : List ContainerItem := d.entries.map Entry.item

/-! ### Places of values -/

/-- `source.rfind(needle)` -/
def rfind (needle : Text) : Text → Option ℕ
  | [] => if needle = [] then some 0 else none
  | c :: t =>
    match rfind needle t with
    | some i => some (i + 1)
    | none => if needle <+: c :: t then some 0 else none

/-- The position after the first `>` that no quotes hide. -/
def contentFrom : (quote : Option Char) → (i : ℕ) → Text → Option ℕ
  | _, _, [] => none
  | some q, i, b :: t => contentFrom (if b = q then none else some q) (i + 1) t
  | none, i, b :: t =>
    if b = '\'' ∨ b = '"' then contentFrom (some b) (i + 1) t
    else if b = '>' then some (i + 1)
    else contentFrom none (i + 1) t

def invalidSpan : Error := .structural "directory value span".toList

def valueRange (xml : Text) (field : SpannedProperty) : Except Error (ℕ × ℕ) :=
  let source := (xml.take field.stop).drop field.start
  if field.isAttribute then
    match source.findIdx? fun b => b = '\'' || b = '"' with
    | none => .error invalidSpan
    | some first =>
      if source.getLast? ≠ source[first]? then .error invalidSpan
      else .ok (field.start + first + 1, field.stop - 1)
  else
    match contentFrom none 0 source, rfind ['<', '/'] source with
    | some start, some stop =>
      if start > stop then .error invalidSpan
      else .ok (field.start + start, field.start + stop)
    | _, _ => .error invalidSpan

/-! ### The directory -/

def field (itemNs : Text) (fields : List SpannedProperty) (name : Text) : Option SpannedProperty :=
  fields.find? fun f => f.property.ns = itemNs && f.property.name = name

/-- The value of a field that must be there. -/
def required (itemNs : Text) (fields : List SpannedProperty) (name : Text) : Except Error Text :=
  match (field itemNs fields name).map (·.property.value) with
  | none | some [] => .error (.structural ("missing item ".toList ++ name))
  | some value => .ok value

/-- The value of a field that must be a number when it is there. -/
def number (itemNs : Text) (fields : List SpannedProperty) (name : Text) :
    Except Error (Option ℕ) :=
  match field itemNs fields name with
  | none => .ok none
  | some f =>
    let value := f.property.value
    if value = [] ∨ ¬value.all Char.isDigit then
      .error (.structural ("invalid item ".toList ++ name))
    else if Nat.ofDigitChars 10 value 0 > Xmp.usizeMax then
      .error (.structural ("invalid item ".toList ++ name))
    else .ok (some (Nat.ofDigitChars 10 value 0))

/-- The place of a field's value, when the field is there. -/
def fieldRange (xml itemNs : Text) (fields : List SpannedProperty) (name : Text) :
    Except Error (Option (ℕ × ℕ)) :=
  match field itemNs fields name with
  | none => .ok none
  | some f => (valueRange xml f).map some

/-- One pass of the loop over the items of a namespace. -/
def pushItem (xml itemNs : Text) (entries : List Entry) (fields : List SpannedProperty) :
    Except Error (List Entry) := do
  let semantic ← required itemNs fields "Semantic".toList
  let mime ← required itemNs fields "Mime".toList
  if entries.any fun e => e.item.semantic.asXmpStr = semantic then
    .error (.duplicate "item semantic".toList)
  else if ¬(semantic = "Primary".toList ↔ entries = []) then
    .error (.structural "primary must be the first directory item".toList)
  else
    let length ← number itemNs fields "Length".toList
    let padding ← number itemNs fields "Padding".toList
    if semantic ≠ "Primary".toList ∧ length = none then
      .error (.structural "secondary item requires Length".toList)
    else
      let lengthRange ← fieldRange xml itemNs fields "Length".toList
      let paddingRange ← fieldRange xml itemNs fields "Padding".toList
      return entries ++ [⟨⟨.fromXmp semantic, mime, length, padding⟩, lengthRange, paddingRange⟩]

/-- One pass of the loop over the namespaces. -/
def namespacePass (xml : Text) (doc : Document) (entries : List Entry) (ns : Text × Text) :
    Except Error (List Entry) := do
  let count := doc.descendants.countP fun n => n.2.tag.hasName ns.1 "Directory".toList
  if count > 1 ∨ doc.descendants.any fun n => n.2.tag.hasAttribute ns.1 "Directory".toList then
    .error (.duplicate "Directory".toList)
  else
    let items ←
      resourceSequenceSpanned doc ns.1 "Directory".toList ns.1 "Item".toList maxItems
    if count ≠ 0 ∧ items = [] then
      .error (.structural "empty or misplaced Directory".toList)
    else if entries ≠ [] ∧ items ≠ [] then
      .error (.duplicate "Directory namespaces".toList)
    else items.foldlM (pushItem xml ns.2) entries

/-- The container namespaces, each with the one of its items. -/
def namespaces : List (Text × Text) :=
  [(containerNamespace, itemNamespace), (depthContainerNamespace, depthItemNamespace)]

/-- `Directory::parse` -/
def Directory.parse (reader : Text → Except Text Document) (xml : Text) :
    Except Error Directory := do
  let doc ← Packet.parse reader xml
  let entries ← namespaces.foldlM (namespacePass xml doc) []
  return ⟨xml, entries⟩

/-! ### The edit -/

/-- One pass of the loop over the entries. -/
def collectEdits (secondaries : List (Text × UInt64)) (edits : List (Weave.Edit Char))
    (entry : Entry) : Except Error (List (Weave.Edit Char)) :=
  if entry.item.semantic = .primary then .ok edits
  else match secondaries.filter fun p => p.1 = entry.item.semantic.asXmpStr with
    | [] => .error (.structural "directory item has no carried payload".toList)
    | _ :: _ :: _ => .error (.duplicate "carried item semantic".toList)
    | [(_, length)] =>
      match entry.length with
      | none => .error (.structural "secondary Length".toList)
      | some range =>
        .ok (edits ++ ⟨range.1, range.2, decimal length.toNat⟩ ::
          (match entry.padding with
            | none => []
            | some range => [⟨range.1, range.2, ['0']⟩]))

def checkedAdd (a b : ℕ) : Option ℕ := if a + b ≤ Xmp.usizeMax then some (a + b) else none

def checkedSub (a b : ℕ) : Option ℕ := if b ≤ a then some (a - b) else none

/-- One pass of the loop over the sorted edits: the size of the result, and where the last
edit ends. -/
def checkEdit (xml : Text) (state : ℕ × ℕ) (e : Weave.Edit Char) : Except Error (ℕ × ℕ) :=
  if e.start < state.2 ∨ e.stop > xml.length ∨ e.start > e.stop then
    .error (.structural "overlapping directory edits".toList)
  else
    match (checkedSub state.1 (byteLen ((xml.take e.stop).drop e.start))).bind
        (checkedAdd · (byteLen e.text)) with
    | none => .error .limit
    | some size => .ok (size, e.stop)

/-- The text with its edits put in, from position `last` on. -/
def spliced (xml : Text) (last : ℕ) : List (Weave.Edit Char) → Text
  | [] => xml.drop last
  | e :: es => (xml.take e.start).drop last ++ (e.text ++ spliced xml e.stop es)

/-- `Directory::rewrite_item_lengths`, memory for the result taken to suffice. -/
def Directory.rewriteItemLengths (d : Directory) (secondaries : List (Text × UInt64)) :
    Except Error Text := do
  let edits ← d.entries.foldlM (collectEdits secondaries) []
  let edits := StableSort.sortBy Weave.Edit.start edits
  let (size, _) ← edits.foldlM (checkEdit d.xml) (byteLen d.xml, 0)
  if size > maxXmpLength then .error .limit
  else return spliced d.xml 0 edits

end Zencodec.Container
