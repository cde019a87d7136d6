/-
XML documents with their source text.

A `Document` is an XML text in its parts, each with its spelling and with what the
reader makes of it: expanded names, decoded values.  `Document.render` is the text, and
the places of a node and of an attribute count its characters.

The reader itself is a parameter.  `ExactReader` is what is relied on: a document it
returns spells the text it was given, and it reads a text again in which numerals stand
for numerals, with the same tree around them.
-/
import Zencodec.Xmp.Packet

namespace Zencodec.Container

open Xmp (Text Attribute)

/-! ### Spelling -/

/-- An attribute as it stands in a tag. -/
structure Attr where
  /-- White space before it. -/
  gap : Text
  /-- The name and the `=`, up to the opening quote. -/
  spelling : Text
  quote : Char
  /-- Between the quotes. -/
  raw : Text
  /-- A namespace declaration is no attribute of the tree. -/
  meaning : Option Attribute
  deriving DecidableEq

namespace Attr

def source (a : Attr) : Text := a.spelling ++ a.quote :: (a.raw ++ [a.quote])

def render (a : Attr) : Text := a.gap ++ a.source

end Attr

/-- The tags of an element. -/
structure Tag where
  spelling : Text
  ns : Option Text
  name : Text
  attrs : List Attr
  /-- White space after the attributes. -/
  gap : Text
  /-- Between `</` and `>`; none for an empty-element tag. -/
  closing : Option Text
  deriving DecidableEq

namespace Tag

def attributes (t : Tag) : List Attribute := t.attrs.filterMap Attr.meaning

/-- `n.has_tag_name((ns, name))` -/
def hasName (t : Tag) (ns name : Text) : Bool := t.ns = some ns && t.name = name

/-- `n.attribute((ns, name)).is_some()` -/
def hasAttribute (t : Tag) (ns name : Text) : Bool :=
  t.attributes.any fun a => a.ns = some ns && a.name = name

def opening (t : Tag) : Text :=
  '<' :: (t.spelling ++ t.attrs.flatMap Attr.render ++ t.gap ++
    if t.closing.isNone then ['/', '>'] else ['>'])

def ending (t : Tag) : Text :=
  match t.closing with
  | none => []
  | some c => '<' :: '/' :: (c ++ ['>'])

end Tag

/-- An attribute and the place of its first character. -/
def attrsFrom (s : ℕ) : List Attr → List (ℕ × Attr)
  | [] => []
  | a :: l => (s + a.gap.length, a) :: attrsFrom (s + a.render.length) l

/-- A node and what it holds.  Character data stands with its character data sections. -/
inductive Markup
  | element (tag : Tag) (children : List Markup)
  | text (raw value : Text)
  | comment (raw : Text)
  | pi (raw : Text)

mutual

def Markup.render : Markup → Text
  | .element t cs => t.opening ++ (renderAll cs ++ t.ending)
  | .text raw _ => raw
  | .comment raw => ['<', '!', '-', '-'] ++ raw ++ ['-', '-', '>']
  | .pi raw => ['<', '?'] ++ raw ++ ['?', '>']

def renderAll : List Markup → Text
  | [] => []
  | m :: ms => m.render ++ renderAll ms

end

/-- A document.  The text around the root holds no element. -/
structure Document where
  prolog : Text
  tag : Tag
  children : List Markup
  epilog : Text

namespace Document

def root (d : Document) : Markup := .element d.tag d.children

def render (d : Document) : Text := d.prolog ++ (d.root.render ++ d.epilog)

end Document

/-! ### The tree -/

/-- An element and the place of its first character. -/
structure Node where
  start : ℕ
  tag : Tag
  children : List Markup

namespace Markup

def isElement : Markup → Bool
  | .element .. => true
  | _ => false

/-- The text of a text node. -/
def value? : Markup → Option Text
  | .text _ value => some value
  | _ => none

def node? (s : ℕ) : Markup → Option Node
  | .element t cs => some ⟨s, t, cs⟩
  | _ => none

end Markup

/-- The elements of a list of siblings, the first of which starts at `s`. -/
def elementsFrom (s : ℕ) : List Markup → List Node
  | [] => []
  | m :: ms => (m.node? s).toList ++ elementsFrom (s + m.render.length) ms

/-- The text of the text nodes of a list of siblings. -/
def textOf (ms : List Markup) : Text := (ms.filterMap Markup.value?).flatten

namespace Node

def markup (n : Node) : Markup := .element n.tag n.children

/-- The place of the first character within. -/
def inner (n : Node) : ℕ := n.start + n.tag.opening.length

/-- `n.children().filter(Node::is_element)` -/
def elements (n : Node) : List Node := elementsFrom n.inner n.children

/-- Some text within is more than white space. -/
def hasText (n : Node) : Bool := (n.children.filterMap Markup.value?).any fun s => !Xmp.isBlank s

end Node

def Document.node (d : Document) : Node := ⟨d.prolog.length, d.tag, d.children⟩

mutual

/-- The elements of a tree in document order, each with the elements around it, nearest
first. -/
def Markup.descendants (ancestors : List Tag) (s : ℕ) : Markup → List (List Tag × Node)
  | .element t cs =>
    (ancestors, ⟨s, t, cs⟩) :: descendantsAll (t :: ancestors) (s + t.opening.length) cs
  | _ => []

def descendantsAll (ancestors : List Tag) (s : ℕ) : List Markup → List (List Tag × Node)
  | [] => []
  | m :: ms => m.descendants ancestors s ++ descendantsAll ancestors (s + m.render.length) ms

end

mutual

/-- `n.ancestors().count()` for the nodes of a tree that has `above` nodes above it. -/
def Markup.ancestorCounts (above : ℕ) : Markup → List ℕ
  | .element _ cs => (above + 1) :: ancestorCountsAll (above + 1) cs
  | _ => [above + 1]

def ancestorCountsAll (above : ℕ) : List Markup → List ℕ
  | [] => []
  | m :: ms => m.ancestorCounts above ++ ancestorCountsAll above ms

end

namespace Document

/-- `doc.descendants()`, of the elements. -/
def descendants (d : Document) : List (List Tag × Node) :=
  d.root.descendants [] d.prolog.length

/-- `doc.descendants()` with the number of nodes on the way to the root.  A comment or an
instruction beside the root element has two. -/
def ancestorCounts (d : Document) : List ℕ := d.root.ancestorCounts 1

end Document

/-! ### The reader -/

/-- No markup and no quote. -/
def Inert (c : Char) : Prop := c ≠ '<' ∧ c ≠ '>' ∧ c ≠ '"' ∧ c ≠ '\''

/-- How the grammar lets an attribute be spelled. -/
structure Attr.Lexical (a : Attr) : Prop where
  gap : ∀ c ∈ a.gap, Inert c
  spelling : ∀ c ∈ a.spelling, Inert c
  quote : a.quote = '"' ∨ a.quote = '\''
  raw : a.quote ∉ a.raw
  empty : ∀ m, a.meaning = some m → a.raw = [] → m.value = []

/-- How the grammar lets a tag be spelled. -/
structure Tag.Lexical (t : Tag) : Prop where
  spelling : ∀ c ∈ t.spelling, Inert c
  attrs : ∀ a ∈ t.attrs, a.Lexical
  gap : ∀ c ∈ t.gap, Inert c
  closing : ∀ c, t.closing = some c → '<' ∉ c

mutual

/-- How the grammar lets a node be spelled. -/
def Markup.Lexical : Markup → Prop
  | .element t cs => t.Lexical ∧ (t.closing = none → cs = []) ∧ LexicalAll cs
  | .text raw value => raw = [] → value = []
  | _ => True

def LexicalAll : List Markup → Prop
  | [] => True
  | m :: ms => m.Lexical ∧ LexicalAll ms

end

/-- A numeral: decimal digits, at least one. -/
def Numeral (t : Text) : Prop := t ≠ [] ∧ ∀ c ∈ t, c.isDigit = true

instance decidableNumeral : DecidablePred Numeral := fun t =>
  inferInstanceAs (Decidable (t ≠ [] ∧ ∀ c ∈ t, c.isDigit = true))

/-- An attribute with another value. -/
def Attr.set (a : Attr) (n : Text) : Attr :=
  { a with raw := n, meaning := a.meaning.map fun m => { m with value := n } }

/-- The same attribute, or a numeral for the numeral it holds. -/
inductive Attr.Renumbered (a : Attr) : Attr → Prop
  | same : a.Renumbered a
  | numeral (m : Attribute) (n : Text) (hm : a.meaning = some m) (hv : Numeral m.value)
      (hn : Numeral n) : a.Renumbered (a.set n)

/-- Content that is a numeral, comments and instructions aside. -/
def HoldsNumeral (ms : List Markup) : Prop :=
  (∀ m ∈ ms, m.isElement = false) ∧ Numeral (textOf ms)

instance decidableHoldsNumeral : DecidablePred HoldsNumeral := fun ms =>
  inferInstanceAs (Decidable ((∀ m ∈ ms, m.isElement = false) ∧ Numeral (textOf ms)))

mutual

/-- The same node but for numerals that stand for numerals. -/
def Markup.Renumbered : Markup → Markup → Prop
  | .element t cs, m' => ∃ attrs cs', m' = .element { t with attrs } cs' ∧
      List.Forall₂ Attr.Renumbered t.attrs attrs ∧
      (RenumberedAll cs cs' ∨ HoldsNumeral cs ∧ ∃ n, Numeral n ∧ cs' = [.text n n])
  | m, m' => m' = m

def RenumberedAll : List Markup → List Markup → Prop
  | [], ms' => ms' = []
  | m :: ms, ms' => ∃ m' rest, ms' = m' :: rest ∧ m.Renumbered m' ∧ RenumberedAll ms rest

end

namespace Document

def Lexical (d : Document) : Prop := d.root.Lexical

/-- The same document but for numerals that stand for numerals. -/
structure Renumbered (d d' : Document) : Prop where
  prolog : d'.prolog = d.prolog
  epilog : d'.epilog = d.epilog
  root : d.root.Renumbered d'.root

end Document

/-- An exact XML reader. -/
structure ExactReader (reader : Text → Except Text Document) : Prop where
  /-- The tree and its places are those of the text. -/
  source : ∀ {xml d}, reader xml = .ok d → d.render = xml ∧ d.Lexical
  /-- Digits are character data wherever digits are. -/
  numerals : ∀ {d d'}, reader d.render = .ok d → d.Renumbered d' → reader d'.render = .ok d'

end Zencodec.Container
