/-
XMP packets and their structural snapshot.

A `Document` is what the XML reader returns: the nodes but the root, in document
order, each with the number of its parent.  `Packet.parse` admits a text within
the size and nesting budgets; `Packet.fields` walks the nodes once and lists every
element, attribute, text, comment and processing instruction under a path that is
its parent's path followed by its own name and its number among the siblings of
that name.
-/
import Zencodec.Lib.StableSort

open StableSort

namespace Zencodec

namespace Xmp

/-- Text, as the list of its characters. -/
abbrev Text := List Char

/-- The length of a text in UTF-8. -/
def byteLen (t : Text) : ℕ := (t.map Char.utf8Size).sum

/-- A number in decimal digits. -/
def decimal (n : ℕ) : Text := Nat.toDigits 10 n

inductive Error
  | limit
  | xml (message : Text)
  deriving DecidableEq, Repr

structure Attribute where
  /-- The namespace URI, if any. -/
  ns : Option Text
  name : Text
  value : Text
  deriving DecidableEq, Repr

inductive Node
  | element (ns : Option Text) (name : Text) (attributes : List Attribute)
  | comment (text : Text)
  | pi (target : Text) (value : Option Text)
  | text (text : Text)
  deriving DecidableEq, Repr

namespace Node

def isElement : Node → Bool
  | .element .. => true
  | _ => false

def attributes : Node → List Attribute
  | .element _ _ attributes => attributes
  | _ => []

/-- A node's name within a path. -/
def name : Node → Text
  | .element ns name _ => '{' :: ns.getD [] ++ '}' :: name
  | .comment _ => ['#', 'c', 'o', 'm', 'm', 'e', 'n', 't']
  | .pi _ _ => ['#', 'p', 'i']
  | .text _ => ['#', 't', 'e', 'x', 't']

/-- Local names are XML names: none of them has a brace or a bracket. -/
structure Plain (n : Node) : Prop where
  element : ∀ ns name attributes, n = .element ns name attributes →
    '}' ∉ name ∧ '[' ∉ name
  attributes : ∀ a ∈ n.attributes, '}' ∉ a.name
  /-- No element has two attributes of one expanded name. -/
  distinct : n.attributes.Pairwise fun a b => (a.ns, a.name) ≠ (b.ns, b.name)

end Node

/-- A node and the number of its parent. -/
structure Row where
  parent : ℕ
  node : Node
  deriving DecidableEq, Repr

/-- A parsed document: the root is number `0`, the node at index `i` is number `i + 1`. -/
structure Document where
  nodes : List Row
  parent_le : ∀ (i : ℕ) (r : Row), nodes[i]? = some r → r.parent ≤ i
  plain : ∀ r ∈ nodes, r.node.Plain

namespace Document

/-- The node of a number. -/
def row (d : Document) : ℕ → Option Row
  | 0 => none
  | i + 1 => d.nodes[i]?

/-- `p.children().any(|c| c.is_element())` -/
def hasElement (d : Document) (p : ℕ) : Bool :=
  d.nodes.any fun r => r.parent = p && r.node.isElement

/-- `n.ancestors().take(fuel).count()`, the node itself among them. -/
def ancestors (d : Document) : ℕ → ℕ → ℕ
  | 0, _ => 0
  | fuel + 1, id => match d.row id with
    | none => 1
    | some r => d.ancestors fuel r.parent + 1

end Document

/-! ### Parsing -/

/-- Element nesting a packet may use. -/
def maxNesting : ℕ := 64

/-- The text after the first occurrence of `needle`. -/
def after (needle : Text) : Text → Option Text
  | [] => if needle = [] then some [] else none
  | c :: t => if needle <+: c :: t then some ((c :: t).drop needle.length) else after needle t

/-- The rest of a tag after its `>`, which no quoted value hides, and whether a `/` stands
before it. -/
def tagEnd : (quote : Option Char) → (last : Char) → Text → Option (Bool × Text)
  | _, _, [] => none
  | some q, _, c :: t => tagEnd (if c = q then none else some q) c t
  | none, last, c :: t =>
    if c = '"' ∨ c = '\'' then tagEnd (some c) c t
    else if c = '>' then some (last = '/', t)
    else tagEnd none c t

/-- What a markup starting at `<` is skipped to, for comments, character data, processing
instructions and declarations. -/
def skipped (rest : Text) : Option (Option Text) :=
  if ['<', '!', '-', '-'] <+: rest then some (after ['-', '-', '>'] rest)
  else if ['<', '!', '[', 'C', 'D', 'A', 'T', 'A', '['] <+: rest then
    some (after [']', ']', '>'] rest)
  else if ['<', '?'] <+: rest then some (after ['?', '>'] rest)
  else if ['<', '!'] <+: rest then some (after ['>'] rest)
  else none

/-- The scan of `nestsDeeperThan`; each step takes at least one character. -/
def nestsFrom (limit : ℕ) : (fuel depth : ℕ) → Text → Bool
  | 0, _, _ => false
  | fuel + 1, depth, t =>
    match t.dropWhile (· ≠ '<') with
    | [] => false
    | c :: body =>
      match skipped (c :: body) with
      | some none => false
      | some (some t) => nestsFrom limit fuel depth t
      | none =>
        match tagEnd none '<' body with
        | none => false
        | some (closed, t) =>
          if body.head? = some '/' then nestsFrom limit fuel (depth - 1) t
          else if closed then nestsFrom limit fuel depth t
          else if depth + 1 > limit then true
          else nestsFrom limit fuel (depth + 1) t

/-- Whether `xml` nests elements deeper than `limit`. -/
def nestsDeeperThan (xml : Text) (limit : ℕ) : Bool := nestsFrom limit (xml.length + 1) 0 xml

/-- The byte budget of a packet, and of its snapshot. -/
def maxBytes : ℕ := 16 * 1024 * 1024

/-- `Packet::parse`, over the XML reader (with its node limit, and document type
definitions refused). -/
def Packet.parse (reader : Text → Except Text Document) (xml : Text) : Except Error Document :=
  if byteLen xml > maxBytes then .error .limit
  else if nestsDeeperThan xml maxNesting then .error .limit
  else match reader xml with
    | .error message => .error (.xml message)
    | .ok d =>
      if (List.range (d.nodes.length + 1)).any fun id => d.ancestors 66 id > 65 then
        .error .limit
      else .ok d

/-! ### The snapshot -/

/-- One XML field in a namespace-resolved structural snapshot. -/
structure Field where
  path : Text
  value : Text
  deriving DecidableEq, Repr

def usizeMax : ℕ := 2 ^ 64 - 1

def saturatingAdd (a b : ℕ) : ℕ := min (a + b) usizeMax

/-- `char::is_whitespace` -/
def isWhitespace (c : Char) : Bool :=
  (9 ≤ c.toNat && c.toNat ≤ 13) || c.toNat = 0x20 || c.toNat = 0x85 || c.toNat = 0xA0 ||
    c.toNat = 0x1680 || (0x2000 ≤ c.toNat && c.toNat ≤ 0x200A) || c.toNat = 0x2028 ||
    c.toNat = 0x2029 || c.toNat = 0x202F || c.toNat = 0x205F || c.toNat = 0x3000

/-- `text.trim().is_empty()` -/
def isBlank (t : Text) : Bool := t.all isWhitespace

/-- The state of the walk over the nodes. -/
structure Walk where
  out : List Field
  paths : ℕ → Option Text
  occurrences : ℕ × Text → ℕ
  budget : ℕ

def Walk.start : Walk where
  out := []
  paths _ := none
  occurrences _ := 0
  budget := 0

def Walk.push (w : Walk) (path value : Text) : Walk :=
  { w with out := w.out ++ [⟨path, value⟩] }

/-- The path of an attribute below that of its element. -/
def attributePath (path : Text) (a : Attribute) : Text :=
  path ++ '/' :: '@' :: '{' :: (a.ns.getD [] ++ '}' :: a.name)

/-- One pass of the loop over the attributes. -/
def Walk.attr (path : Text) (w : Walk) (a : Attribute) : Except Error Walk :=
  let budget := saturatingAdd w.budget
    (byteLen path + byteLen (a.ns.getD []) + byteLen a.name + byteLen a.value)
  if budget > maxBytes then .error .limit
  else .ok ({ w with budget }.push (attributePath path a) a.value)

/-- What the walk lists for a node. -/
def Walk.list (d : Document) (parent : ℕ) (path : Text) (w : Walk) :
    Node → Except Error Walk
  | .element _ _ attributes => attributes.foldlM (Walk.attr path) (w.push path [])
  | .pi target value => .ok (w.push path (target ++ ' ' :: value.getD []))
  | .comment text => .ok (w.push path text)
  | .text text =>
    -- formatting whitespace between elements is not a property
    .ok (if !isBlank text || !d.hasElement parent then w.push path text else w)

/-- One pass of the loop over the nodes. -/
def Walk.node (d : Document) (w : Walk) (id : ℕ) (r : Row) : Except Error Walk :=
  let name := r.node.name
  let index := w.occurrences (r.parent, name)
  let path := (w.paths r.parent).getD [] ++ '/' :: (name ++ '[' :: (decimal index ++ [']']))
  let budget := saturatingAdd w.budget (byteLen path * 2)
  if budget > maxBytes then .error .limit
  else Walk.list d r.parent path
    { w with
      paths := Function.update w.paths id (some path)
      occurrences := Function.update w.occurrences (r.parent, name) (index + 1)
      budget } r.node

/-- The loop over the nodes from number `id` on. -/
def Walk.nodes (d : Document) (w : Walk) (id : ℕ) : List Row → Except Error Walk
  | [] => .ok w
  | r :: rows => do Walk.nodes d (← w.node d id r) (id + 1) rows

def Packet.fields (d : Document) : Except Error (List Field) := do
  let w ← Walk.start.nodes d 1 d.nodes
  return sortBy Field.path w.out

theorem fields_sorted {d : Document} {fs : List Field} (h : Packet.fields d = .ok fs) :
    SortedBy Field.path fs := by
  unfold Packet.fields at h
  cases hw : Walk.start.nodes d 1 d.nodes with
  | error e => rw [hw] at h; cases h
  | ok w =>
    rw [hw] at h
    rw [← Except.ok.inj h]
    exact sortBy_sorted _ _

end Xmp

end Zencodec
