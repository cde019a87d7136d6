/-
The places of values.

`attrSlot` and `childSlot` are the places of an attribute's value and of an element's
content as the document has them.  `valueRange` finds them again in the text: the first
quote of an attribute is the opening one, and the first `>` of an element that no quotes
hide ends its start tag (`valueRange_attr`, `valueRange_child`).
-/
import Zencodec.Container.Directory
import Zencodec.Lib.Slices

namespace Zencodec.Container

open Xmp (Text Attribute)
open Slices (HasAt hasAt_append)

/-- A field of an item and the place of its value. -/
structure Slot where
  property : Property
  start : ℕ
  stop : ℕ
  deriving DecidableEq

/-- The place of a slot. -/
def Slot.range (s : Slot) : ℕ × ℕ := (s.start, s.stop)

/-- The slot of an attribute that starts at `s`. -/
def attrSlot (s : ℕ) (a : Attr) : Option Slot :=
  a.meaning.map fun m => ⟨⟨m.ns.getD [], m.name, m.value⟩, s + a.spelling.length + 1,
    s + a.spelling.length + 1 + a.raw.length⟩

/-- The slot of a child element. -/
def childSlot (n : Node) : Slot where
  property := ⟨n.tag.ns.getD [], n.tag.name, textOf n.children⟩
  start := n.inner
  stop := n.inner + (renderAll n.children).length

/-- The place of the first attribute of a node. -/
def Node.attrStart (n : Node) : ℕ := n.start + 1 + n.tag.spelling.length

/-- The slots of an item in document order. -/
def Node.slots (n : Node) : List Slot :=
  (attrsFrom n.attrStart n.tag.attrs).filterMap (fun p => attrSlot p.1 p.2) ++
    n.elements.map childSlot

/-! ### Where things stand -/

@[simp] theorem Markup.render_element (t : Tag) (cs : List Markup) :
    (Markup.element t cs).render = t.opening ++ (renderAll cs ++ t.ending) := rfl

@[simp] theorem renderAll_nil : renderAll [] = [] := rfl

@[simp] theorem renderAll_cons (m : Markup) (ms : List Markup) :
    renderAll (m :: ms) = m.render ++ renderAll ms := rfl

/-- A node of a text: it stands there and is spelled as the grammar lets it. -/
structure Node.In (n : Node) (xml : Text) : Prop where
  hasAt : HasAt xml n.start n.markup.render
  lexical : n.markup.Lexical

theorem Document.node_in {d : Document} (hd : d.Lexical) : d.node.In d.render where
  hasAt := (hasAt_append.mp (Slices.hasAt_append_self d.prolog (d.root.render ++ d.epilog))).1
  lexical := hd

theorem elementsFrom_in {xml : Text} {ms : List Markup} {s : ℕ} (h : HasAt xml s (renderAll ms))
    (hl : LexicalAll ms) {n : Node} (hn : n ∈ elementsFrom s ms) : n.In xml := by
  induction ms generalizing s with
  | nil => exact absurd hn List.not_mem_nil
  | cons m ms ih =>
    obtain ⟨hm, hms⟩ := hasAt_append.mp h
    rcases List.mem_append.mp hn with hn | hn
    · cases m with
      | element t cs =>
        obtain rfl : n = ⟨s, t, cs⟩ := by simpa [Markup.node?] using hn
        exact ⟨hm, hl.1⟩
      | text => exact absurd hn List.not_mem_nil
      | comment => exact absurd hn List.not_mem_nil
      | pi => exact absurd hn List.not_mem_nil
    · exact ih hms hl.2 hn

namespace Node.In

variable {n : Node} {xml : Text}

theorem tag (h : n.In xml) : n.tag.Lexical := h.lexical.1

theorem children (h : n.In xml) : LexicalAll n.children := h.lexical.2.2

theorem inner (h : n.In xml) : HasAt xml n.inner (renderAll n.children) := by
  have h := h.hasAt
  rw [Node.markup, Markup.render_element, hasAt_append, hasAt_append] at h
  exact h.2.1

theorem elements (h : n.In xml) {c : Node} (hc : c ∈ n.elements) : c.In xml :=
  elementsFrom_in h.inner h.children hc

theorem attrs (h : n.In xml) : HasAt xml n.attrStart (n.tag.attrs.flatMap Attr.render) := by
  have h := (hasAt_append.mp h.hasAt).1
  rw [Tag.opening, ← List.singleton_append, hasAt_append, List.append_assoc, List.append_assoc,
    hasAt_append, hasAt_append] at h
  exact h.2.2.1

end Node.In

theorem attrsFrom_in {xml : Text} {l : List Attr} {s : ℕ}
    (h : HasAt xml s (l.flatMap Attr.render)) {p : ℕ × Attr} (hp : p ∈ attrsFrom s l) :
    p.2 ∈ l ∧ HasAt xml p.1 p.2.source := by
  induction l generalizing s with
  | nil => exact absurd hp List.not_mem_nil
  | cons a l ih =>
    rw [List.flatMap_cons, hasAt_append] at h
    rcases List.mem_cons.mp hp with rfl | hp
    · exact ⟨List.mem_cons_self, (hasAt_append.mp h.1).2⟩
    · have := ih h.2 hp
      exact ⟨List.mem_cons_of_mem _ this.1, this.2⟩

/-- What a place of a text holds. -/
theorem take_drop_of_hasAt {xml bs : Text} {s : ℕ} (h : HasAt xml s bs) :
    (xml.take (s + bs.length)).drop s = bs := by
  have := (Slices.hasAt_iff.mp h).2
  rwa [List.drop_take, Nat.add_sub_cancel_left]

/-! ### Attributes -/

theorem Inert.not_quote {c : Char} (h : Inert c) : ¬(c = '\'' ∨ c = '"') := by
  rintro (hc | hc)
  · exact h.2.2.2 hc
  · exact h.2.2.1 hc

theorem findIdx?_quote {u v : Text} {q : Char} (hu : ∀ c ∈ u, Inert c)
    (hq : q = '"' ∨ q = '\'') :
    (u ++ q :: v).findIdx? (fun b => b = '\'' || b = '"') = some u.length := by
  induction u with
  | nil =>
    rcases hq with rfl | rfl
    · rfl
    · rfl
  | cons c u ih =>
    have hc := (hu c List.mem_cons_self).not_quote
    have hrest := ih fun b hb => hu b (List.mem_cons_of_mem _ hb)
    rw [List.cons_append, List.findIdx?_cons, hrest]
    simp [not_or.mp hc]

theorem valueRange_attr {xml : Text} {s : ℕ} {a : Attr} (p : Property)
    (h : HasAt xml s a.source) (ha : a.Lexical) :
    valueRange xml ⟨p, s, s + a.source.length, true⟩ =
      .ok (s + a.spelling.length + 1, s + a.spelling.length + 1 + a.raw.length) := by
  have hfirst : a.source.findIdx? (fun b => b = '\'' || b = '"') = some a.spelling.length :=
    findIdx?_quote ha.spelling ha.quote
  have hlast : a.source.getLast? = some a.quote := by
    rw [Attr.source, ← List.cons_append, ← List.append_assoc, List.getLast?_concat]
  have hget : a.source[a.spelling.length]? = some a.quote := by
    simp [Attr.source]
  have hlen : a.source.length = a.spelling.length + 1 + a.raw.length + 1 := by
    simp [Attr.source]
    omega
  simp only [valueRange, take_drop_of_hasAt h, hfirst, hlast, hget, if_true, ne_eq,
    not_true_eq_false, if_false]
  rw [hlen]
  congr 2
  omega

/-! ### Elements -/

theorem contentFrom_inert {u : Text} (hu : ∀ c ∈ u, Inert c) (i : ℕ) (v : Text) :
    contentFrom none i (u ++ v) = contentFrom none (i + u.length) v := by
  induction u generalizing i with
  | nil => rfl
  | cons c u ih =>
    have hc := hu c List.mem_cons_self
    have hrest := ih (fun b hb => hu b (List.mem_cons_of_mem _ hb)) (i + 1)
    rw [List.cons_append, contentFrom, if_neg hc.not_quote, if_neg hc.2.1, hrest]
    congr 1
    simp [Nat.add_comm, Nat.add_left_comm]

theorem contentFrom_quoted {u : Text} {q : Char} (hu : q ∉ u) (i : ℕ) (v : Text) :
    contentFrom (some q) i (u ++ q :: v) = contentFrom none (i + u.length + 1) v := by
  induction u generalizing i with
  | nil => simp [contentFrom]
  | cons c u ih =>
    have hne : c ≠ q := fun h => hu (h ▸ List.mem_cons_self)
    have hrest := ih (fun h => hu (List.mem_cons_of_mem _ h)) (i + 1)
    rw [List.cons_append, contentFrom, if_neg hne, hrest]
    congr 1
    simp [Nat.add_comm, Nat.add_left_comm]

theorem contentFrom_attr {a : Attr} (ha : a.Lexical) (i : ℕ) (v : Text) :
    contentFrom none i (a.render ++ v) = contentFrom none (i + a.render.length) v := by
  have hquote : a.quote = '\'' ∨ a.quote = '"' := ha.quote.symm
  rw [Attr.render, Attr.source, List.append_assoc, contentFrom_inert ha.gap, List.append_assoc,
    contentFrom_inert ha.spelling, List.cons_append, contentFrom, if_pos hquote,
    List.append_assoc, List.singleton_append, contentFrom_quoted ha.raw]
  congr 1
  simp
  omega

theorem contentFrom_attrs {l : List Attr} (hl : ∀ a ∈ l, a.Lexical) (i : ℕ) (v : Text) :
    contentFrom none i (l.flatMap Attr.render ++ v) =
      contentFrom none (i + (l.flatMap Attr.render).length) v := by
  induction l generalizing i with
  | nil => rfl
  | cons a l ih =>
    rw [List.flatMap_cons, List.append_assoc, contentFrom_attr (hl a List.mem_cons_self),
      ih fun b hb => hl b (List.mem_cons_of_mem _ hb), List.length_append, Nat.add_assoc]

/-- The scan stops at the end of the start tag. -/
theorem contentFrom_opening {t : Tag} (ht : t.Lexical) {c : Text} (hc : t.closing = some c)
    (v : Text) : contentFrom none 0 (t.opening ++ v) = some t.opening.length := by
  have hopen : t.opening =
      '<' :: (t.spelling ++ (t.attrs.flatMap Attr.render ++ (t.gap ++ ['>']))) := by
    simp [Tag.opening, hc]
  rw [hopen, List.cons_append, contentFrom, if_neg (by decide), if_neg (by decide),
    List.append_assoc, contentFrom_inert ht.spelling, List.append_assoc,
    contentFrom_attrs ht.attrs, List.append_assoc, contentFrom_inert ht.gap,
    List.singleton_append, contentFrom, if_neg (by decide), if_pos rfl]
  simp
  omega

theorem rfind_none {v : Text} (hv : '<' ∉ v) : rfind ['<', '/'] v = none := by
  induction v with
  | nil => rfl
  | cons c v ih =>
    have hne : '<' ≠ c := fun h => hv (h ▸ List.mem_cons_self)
    rw [rfind, ih fun h => hv (List.mem_cons_of_mem _ h)]
    simp [List.cons_prefix_cons, hne]

theorem rfind_append (u : Text) {v : Text} (hv : '<' ∉ v) :
    rfind ['<', '/'] (u ++ '<' :: '/' :: v) = some u.length := by
  induction u with
  | nil =>
    have hnone : rfind ['<', '/'] ('/' :: v) = none :=
      rfind_none (by simpa using hv)
    rw [List.nil_append, rfind, hnone]
    simp [List.cons_prefix_cons]
  | cons c u ih => rw [List.cons_append, rfind, ih, List.length_cons]

theorem valueRange_child {xml : Text} {n : Node} (p : Property) (h : n.In xml)
    (hc : n.tag.closing ≠ none) :
    valueRange xml ⟨p, n.start, n.start + n.markup.render.length, false⟩ =
      .ok (n.inner, n.inner + (renderAll n.children).length) := by
  obtain ⟨c, hc⟩ := Option.ne_none_iff_exists'.mp hc
  have hsource : HasAt xml n.start (n.tag.opening ++ (renderAll n.children ++ n.tag.ending)) :=
    h.hasAt
  have hstart := contentFrom_opening h.tag hc (renderAll n.children ++ n.tag.ending)
  have hend : n.tag.ending = '<' :: '/' :: (c ++ ['>']) := by rw [Tag.ending, hc]
  have hclose : '<' ∉ c ++ ['>'] := by
    simpa using h.tag.closing c hc
  have hstop : rfind ['<', '/'] (n.tag.opening ++ (renderAll n.children ++ n.tag.ending)) =
      some (n.tag.opening.length + (renderAll n.children).length) := by
    rw [hend, ← List.append_assoc, rfind_append _ hclose, List.length_append]
  have hle : ¬n.tag.opening.length > n.tag.opening.length + (renderAll n.children).length := by
    omega
  rw [Node.markup, Markup.render_element]
  simp only [valueRange, take_drop_of_hasAt hsource, hstart, hstop, if_neg hle,
    Bool.false_eq_true, if_false, Node.inner, Nat.add_assoc]

end Zencodec.Container
