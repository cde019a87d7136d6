/-
The grammar of XML texts without a document type definition.

A text is a sequence of tokens: start, end and empty-element tags, and between them
character data, character data sections, comments and processing instructions.  `unclosed`
follows the open elements through a sequence of tokens; a `Document` is a tree of them.

The characters and references that XML refuses are not refused here, so more texts are
well formed than XML has.
-/
import Zencodec.Xmp.Scan

namespace Zencodec

namespace Xmp

namespace Grammar

/-! ### Names -/

/-- `S` -/
def isSpace (c : Char) : Bool := c = ' ' || c = '\t' || c = '\n' || c = '\r'

/-- The character is in one of the ranges. -/
def inRanges (c : Char) (ranges : List (ℕ × ℕ)) : Bool :=
  ranges.any fun r => r.1 ≤ c.toNat && c.toNat ≤ r.2

/-- `NameStartChar` -/
def isNameStart (c : Char) : Bool :=
  c = ':' || c = '_' || c.isAlpha ||
    inRanges c [(0xC0, 0xD6), (0xD8, 0xF6), (0xF8, 0x2FF), (0x370, 0x37D), (0x37F, 0x1FFF),
      (0x200C, 0x200D), (0x2070, 0x218F), (0x2C00, 0x2FEF), (0x3001, 0xD7FF), (0xF900, 0xFDCF),
      (0xFDF0, 0xFFFD), (0x10000, 0xEFFFF)]

/-- `NameChar` -/
def isNameChar (c : Char) : Bool :=
  isNameStart c || c = '-' || c = '.' || c.isDigit ||
    inRanges c [(0xB7, 0xB7), (0x300, 0x36F), (0x203F, 0x2040)]

/-- `Name` -/
def IsName : Text → Prop
  | [] => False
  | c :: t => isNameStart c = true ∧ ∀ d ∈ t, isNameChar d = true

/-- `S?` -/
def Blank (t : Text) : Prop := ∀ c ∈ t, isSpace c = true

/-! ### Tags -/

/-- `S Attribute` -/
structure Attr where
  gap : Text
  name : Text
  /-- White space on either side of the `=`. -/
  left : Text
  right : Text
  quote : Char
  value : Text

structure Attr.WellFormed (a : Attr) : Prop where
  gap : a.gap ≠ [] ∧ Blank a.gap
  name : IsName a.name
  left : Blank a.left
  right : Blank a.right
  quote : a.quote = '"' ∨ a.quote = '\''
  value : a.quote ∉ a.value ∧ '<' ∉ a.value

def Attr.render (a : Attr) : Text :=
  a.gap ++ (a.name ++ (a.left ++ '=' :: (a.right ++ a.quote :: (a.value ++ [a.quote]))))

/-- A tag between its `<` and its `>` or `/>`. -/
structure Tag where
  name : Text
  attrs : List Attr
  gap : Text

structure Tag.WellFormed (t : Tag) : Prop where
  name : IsName t.name
  attrs : ∀ a ∈ t.attrs, a.WellFormed
  gap : Blank t.gap

def Tag.render (t : Tag) : Text := t.name ++ (t.attrs.flatMap Attr.render ++ t.gap)

/-! ### Tokens -/

/-- What stands between tags. -/
inductive Data
  | text (t : Text)
  | cdata (t : Text)
  | comment (t : Text)
  | pi (target rest : Text)

namespace Data

def render : Data → Text
  | .text t => t
  | .cdata t => ['<', '!', '[', 'C', 'D', 'A', 'T', 'A', '['] ++ (t ++ [']', ']', '>'])
  | .comment t => ['<', '!', '-', '-'] ++ (t ++ ['-', '-', '>'])
  | .pi target rest => ['<', '?'] ++ (target ++ (rest ++ ['?', '>']))

def WellFormed : Data → Prop
  | .text t => '<' ∉ t
  | .cdata t => ¬[']', ']', '>'] <:+: t
  | .comment t => ¬['-', '-'] <:+: t ∧ t.getLast? ≠ some '-'
  | .pi target rest => IsName target ∧ (rest.head?.all isSpace = true) ∧ ¬['?', '>'] <:+: rest

/-- The data is no comment whose text begins with `>` or with `->`. -/
def Told : Data → Prop
  | .comment t => ¬['>'] <+: t ∧ ¬['-', '>'] <+: t
  | _ => True

end Data

inductive Token
  | start (tag : Tag)
  | empty (tag : Tag)
  | stop (name gap : Text)
  | data (d : Data)

namespace Token

def render : Token → Text
  | .start tag => '<' :: (tag.render ++ ['>'])
  | .empty tag => '<' :: (tag.render ++ ['/', '>'])
  | .stop name gap => '<' :: '/' :: (name ++ (gap ++ ['>']))
  | .data d => d.render

def WellFormed : Token → Prop
  | .start tag => tag.WellFormed
  | .empty tag => tag.WellFormed
  | .stop name gap => IsName name ∧ Blank gap
  | .data d => d.WellFormed

def Told : Token → Prop
  | .data d => d.Told
  | _ => True

/-- The open elements after a token; none when it closes another than the last. -/
def follow (names : List Text) : Token → Option (List Text)
  | .start tag => some (tag.name :: names)
  | .stop name _ => if names.head? = some name then some names.tail else none
  | _ => some names

end Token

/-- The elements that tokens leave open, the last opened first. -/
def unclosed (names : List Text) (ts : List Token) : Option (List Text) :=
  ts.foldlM Token.follow names

/-! ### Documents -/

inductive Node
  | element (tag : Tag) (children : List Node) (gap : Text)
  | empty (tag : Tag)
  | data (d : Data)

mutual

def Node.render : Node → Text
  | .element tag cs gap =>
    (Token.start tag).render ++ (renderAll cs ++ (Token.stop tag.name gap).render)
  | .empty tag => (Token.empty tag).render
  | .data d => d.render

def renderAll : List Node → Text
  | [] => []
  | n :: ns => n.render ++ renderAll ns

end

mutual

def Node.WellFormed : Node → Prop
  | .element tag cs gap => tag.WellFormed ∧ WellFormedAll cs ∧ Blank gap
  | .empty tag => tag.WellFormed
  | .data d => d.WellFormed

def WellFormedAll : List Node → Prop
  | [] => True
  | n :: ns => n.WellFormed ∧ WellFormedAll ns

end

mutual

def Node.Told : Node → Prop
  | .element _ cs _ => ToldAll cs
  | .empty _ => True
  | .data d => d.Told

def ToldAll : List Node → Prop
  | [] => True
  | n :: ns => n.Told ∧ ToldAll ns

end

mutual

/-- How many elements are around the deepest one, itself among them. -/
def Node.depth : Node → ℕ
  | .element _ cs _ => depthAll cs + 1
  | .empty _ => 1
  | .data _ => 0

def depthAll : List Node → ℕ
  | [] => 0
  | n :: ns => max n.depth (depthAll ns)

end

mutual

/-- How many start tags are open at most. -/
def Node.opened : Node → ℕ
  | .element _ cs _ => openedAll cs + 1
  | .empty _ => 0
  | .data _ => 0

def openedAll : List Node → ℕ
  | [] => 0
  | n :: ns => max n.opened (openedAll ns)

end

namespace Node

def isElement : Node → Bool
  | .data _ => false
  | _ => true

end Node

/-- A root element with comments, instructions and white space on either side. -/
structure Document where
  prolog : List Data
  root : Node
  epilog : List Data

namespace Data

/-- No character data but white space, and no character data section. -/
def Misc : Data → Prop
  | .text t => Blank t
  | .cdata _ => False
  | _ => True

end Data

namespace Document

def render (d : Document) : Text :=
  d.prolog.flatMap Data.render ++ (d.root.render ++ d.epilog.flatMap Data.render)

structure WellFormed (d : Document) : Prop where
  prolog : ∀ x ∈ d.prolog, x.WellFormed ∧ x.Misc
  root : d.root.WellFormed
  isElement : d.root.isElement = true
  epilog : ∀ x ∈ d.epilog, x.WellFormed ∧ x.Misc

/-- No comment of the document begins with `>` or with `->`. -/
structure Told (d : Document) : Prop where
  prolog : ∀ x ∈ d.prolog, x.Told
  root : d.root.Told
  epilog : ∀ x ∈ d.epilog, x.Told

end Document

end Grammar

end Xmp

end Zencodec
