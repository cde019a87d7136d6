/-
New values for the fields of an element.

`Rewriter.values` puts a numeral for the numeral of every field that a choice names, the
fields of an element being its attributes and its child elements.  Its replacements are
those of the fields' slots (`edits_values`), and the rewritten element has the fields it
had, with the new values (`properties_values`).
-/
import Zencodec.Container.Refill

namespace Zencodec.Container

open Xmp (Text Attribute)
open Weave (Piece Edit before after)

/-- The value put for a field of a name, if any. -/
abbrev Choice := Text → Text → Option Text

/-- Only numerals are put. -/
def Choice.Numerals (v : Choice) : Prop := ∀ ns name n, v ns name = some n → Numeral n

/-! ### Attributes -/

namespace Attr

/-- The numeral put for an attribute's. -/
def refill (v : Choice) (a : Attr) : Option Text :=
  a.meaning.bind fun m => if Numeral m.value then v (m.ns.getD []) m.name else none

def target (v : Choice) (a : Attr) : Attr :=
  match a.refill v with
  | some n => a.set n
  | none => a

def script (v : Choice) (a : Attr) : List (Piece Char) :=
  match a.refill v with
  | some n => [.keep (a.gap ++ (a.spelling ++ [a.quote])), .put a.raw n, .keep [a.quote]]
  | none => [.keep a.render]

variable {v : Choice}

theorem refill_eq_some {a : Attr} {n : Text} :
    a.refill v = some n ↔
      ∃ m, a.meaning = some m ∧ Numeral m.value ∧ v (m.ns.getD []) m.name = some n := by
  rw [refill, Option.bind_eq_some_iff]
  refine exists_congr fun m => and_congr_right fun _ => ?_
  split
  · next h => exact (and_iff_right h).symm
  · next h => simp [h]

theorem before_script (v : Choice) (a : Attr) : before (a.script v) = a.render := by
  rw [script]
  split
  · simp [Piece.old, render, source]
  · simp [Piece.old]

theorem after_script (v : Choice) (a : Attr) : after (a.script v) = (a.target v).render := by
  rw [script, target]
  split
  · simp [Piece.new, render, source, set]
  · simp [Piece.new]

theorem renumbered_target (hv : v.Numerals) (a : Attr) : a.Renumbered (a.target v) := by
  rw [target]
  split
  · next n h =>
    obtain ⟨m, hm, hnum, hn⟩ := refill_eq_some.mp h
    exact .numeral m n hm hnum (hv _ _ _ hn)
  · exact .same

theorem proper_script {a : Attr} (ha : a.Lexical) : ∀ p ∈ a.script v, p.Proper := by
  rw [script]
  split
  · next n h =>
    obtain ⟨m, hm, hnum, -⟩ := refill_eq_some.mp h
    have hraw : a.raw ≠ [] := fun h => hnum.1 (ha.empty m hm h)
    simp [Piece.Proper, hraw]
  · simp [Piece.Proper]

end Attr

/-- The replacement of a slot. -/
def Slot.edit (v : Choice) (s : Slot) : Option (Edit Char) :=
  (v s.property.ns s.property.name).map fun n => ⟨s.start, s.stop, n⟩

theorem edits_attr {v : Choice} {a : Attr}
    (h : ∀ m, a.meaning = some m → v (m.ns.getD []) m.name ≠ none → Numeral m.value) (s : ℕ) :
    Weave.edits s (a.script v) = ((attrSlot (s + a.gap.length) a).bind (Slot.edit v)).toList := by
  rw [Attr.script]
  cases hm : a.meaning with
  | none => simp [Attr.refill, attrSlot, hm]
  | some m =>
    have hslot : attrSlot (s + a.gap.length) a = some
        ⟨⟨m.ns.getD [], m.name, m.value⟩, s + a.gap.length + a.spelling.length + 1,
          s + a.gap.length + a.spelling.length + 1 + a.raw.length⟩ := by
      rw [attrSlot, hm]
      rfl
    rw [hslot]
    cases hv : v (m.ns.getD []) m.name with
    | none =>
      have hrefill : a.refill v = none := by
        simp [Attr.refill, hm, hv]
      simp [hrefill, Slot.edit, hv]
    | some n =>
      have hnum := h m hm (by simp [hv])
      have hrefill : a.refill v = some n := Attr.refill_eq_some.mpr ⟨m, hm, hnum, hv⟩
      simp [hrefill, Slot.edit, hv, Nat.add_assoc]

theorem edits_attrs {v : Choice} {l : List Attr}
    (h : ∀ a ∈ l, ∀ m, a.meaning = some m → v (m.ns.getD []) m.name ≠ none → Numeral m.value)
    (s : ℕ) : Weave.edits s (l.flatMap (Attr.script v)) =
      ((attrsFrom s l).filterMap fun p => attrSlot p.1 p.2).filterMap (Slot.edit v) := by
  induction l generalizing s with
  | nil => rfl
  | cons a l ih =>
    have hrest := ih (fun b hb => h b (List.mem_cons_of_mem _ hb)) (s + a.render.length)
    rw [List.flatMap_cons, Weave.edits_append, edits_attr (h a List.mem_cons_self),
      Attr.before_script, hrest, attrsFrom, List.filterMap_cons]
    cases attrSlot (s + a.gap.length) a with
    | none => rfl
    | some slot =>
      rw [Option.bind_some, List.filterMap_cons]
      cases Slot.edit v slot with
      | none => rfl
      | some e => rfl

theorem before_flatMap_attr (v : Choice) (l : List Attr) :
    before (l.flatMap (Attr.script v)) = l.flatMap Attr.render := by
  induction l with
  | nil => rfl
  | cons a l ih =>
    rw [List.flatMap_cons, Weave.before_append, Attr.before_script, ih, List.flatMap_cons]

theorem after_flatMap_attr (v : Choice) (l : List Attr) :
    after (l.flatMap (Attr.script v)) = (l.map (Attr.target v)).flatMap Attr.render := by
  induction l with
  | nil => rfl
  | cons a l ih =>
    rw [List.flatMap_cons, Weave.after_append, Attr.after_script, ih, List.map_cons,
      List.flatMap_cons]

/-! ### Content -/

theorem elementsFrom_eq_nil {ms : List Markup} {s : ℕ} :
    elementsFrom s ms = [] ↔ ∀ m ∈ ms, m.isElement = false := by
  induction ms generalizing s with
  | nil => simp [elementsFrom]
  | cons m ms ih =>
    have hm : (m.node? s).toList = [] ↔ m.isElement = false := by
      cases m <;> simp [Markup.node?, Markup.isElement]
    rw [elementsFrom, List.append_eq_nil_iff, ih, hm, List.forall_mem_cons]

/-- The numeral put for an element's content. -/
def refillContent (v : Choice) (t : Tag) (cs : List Markup) : Option Text :=
  if HoldsNumeral cs then v (t.ns.getD []) t.name else none

def contentTarget (v : Choice) (t : Tag) (cs : List Markup) : Markup :=
  match refillContent v t cs with
  | some n => .element t [.text n n]
  | none => .element t cs

def contentScript (v : Choice) (t : Tag) (cs : List Markup) : List (Piece Char) :=
  match refillContent v t cs with
  | some n => [.keep t.opening, .put (renderAll cs) n, .keep t.ending]
  | none => [.keep (Markup.element t cs).render]

theorem refillContent_eq_some {v : Choice} {t : Tag} {cs : List Markup} {n : Text} :
    refillContent v t cs = some n ↔ HoldsNumeral cs ∧ v (t.ns.getD []) t.name = some n := by
  rw [refillContent]
  split
  · next h => exact (and_iff_right h).symm
  · next h => simp [h]

/-- A text that holds something is spelled with something. -/
theorem renderAll_ne_nil {ms : List Markup} (hl : LexicalAll ms)
    (h : ∀ m ∈ ms, m.isElement = false) (hne : textOf ms ≠ []) : renderAll ms ≠ [] := by
  induction ms with
  | nil => exact absurd rfl hne
  | cons m ms ih =>
    have hrest := ih hl.2 fun n hn => h n (List.mem_cons_of_mem _ hn)
    intro hnil
    obtain ⟨hm, hms⟩ := List.append_eq_nil_iff.mp hnil
    cases m with
    | element t cs => exact absurd (h _ List.mem_cons_self) (by simp [Markup.isElement])
    | text raw value =>
      have hvalue : value = [] := hl.1 hm
      have htext : textOf ms ≠ [] := by simpa [textOf, Markup.value?, hvalue] using hne
      exact hrest htext hms
    | comment => exact absurd hm (by simp [Markup.render])
    | pi => exact absurd hm (by simp [Markup.render])

namespace Rewriter

/-- Puts a numeral for the one an element holds. -/
def content (v : Choice) (hv : v.Numerals) : Rewriter :=
  onElements (contentTarget v) (contentScript v)
    (fun t cs => by
      rw [contentScript]
      split
      · simp [Piece.old]
      · simp [Piece.old])
    (fun t cs => by
      rw [contentScript, contentTarget]
      split
      · simp [Piece.new, Markup.render]
      · simp [Piece.new])
    (fun t cs => by
      rw [contentTarget]
      split
      · next n h =>
        obtain ⟨hnum, hn⟩ := refillContent_eq_some.mp h
        exact ⟨t.attrs, _, rfl, attrs_renumbered_refl t.attrs, .inr ⟨hnum, n, hv _ _ _ hn, rfl⟩⟩
      · exact Markup.Renumbered.refl _)
    (fun t cs h => by
      rw [contentScript]
      split
      · next n hn =>
        have hnum := (refillContent_eq_some.mp hn).1
        have hne := renderAll_ne_nil h.2.2 hnum.1 hnum.2.1
        simp [Piece.Proper, hne]
      · simp [Piece.Proper])

theorem edits_content {v : Choice} (hv : v.Numerals) {n : Node}
    (h : v (n.tag.ns.getD []) n.tag.name ≠ none → HoldsNumeral n.children) :
    (content v hv).edits n.start n.markup = ((childSlot n).edit v).toList := by
  show Weave.edits n.start (contentScript v n.tag n.children) = _
  rw [contentScript]
  cases hn : v (n.tag.ns.getD []) n.tag.name with
  | none =>
    have hrefill : refillContent v n.tag n.children = none := by
      rw [refillContent, hn, ite_self]
    simp [hrefill, Slot.edit, childSlot, hn]
  | some value =>
    have hrefill := refillContent_eq_some.mpr ⟨h (by simp [hn]), hn⟩
    simp [hrefill, Slot.edit, childSlot, hn, Node.inner]

/-- The end of a start tag. -/
def tagClose (t : Tag) : Text := t.gap ++ if t.closing.isNone then ['/', '>'] else ['>']

theorem opening_eq (t : Tag) :
    t.opening = '<' :: t.spelling ++ (t.attrs.flatMap Attr.render ++ tagClose t) := by
  simp [Tag.opening, tagClose]

/-- Puts numerals into the fields of an element. -/
def values (v : Tag → List Markup → Choice) (hv : ∀ t cs, (v t cs).Numerals) : Rewriter :=
  onElements
    (fun t cs => .element { t with attrs := t.attrs.map (Attr.target (v t cs)) }
      (cs.map (content (v t cs) (hv t cs)).target))
    (fun t cs => .keep ('<' :: t.spelling) :: (t.attrs.flatMap (Attr.script (v t cs)) ++
      .keep (tagClose t) :: (cs.flatMap (content (v t cs) (hv t cs)).script ++ [.keep t.ending])))
    (fun t cs => by
      rw [Weave.before_cons, Weave.before_append, before_flatMap_attr, Weave.before_cons,
        Weave.before_append, before_flatMap_script]
      simp [Piece.old, opening_eq])
    (fun t cs => by
      rw [Weave.after_cons, Weave.after_append, after_flatMap_attr, Weave.after_cons,
        Weave.after_append, after_flatMap_script]
      simp [Piece.new, opening_eq, tagClose, Tag.ending])
    (fun t cs => ⟨_, _, rfl, List.forall₂_map_right_iff.mpr
        (List.forall₂_same.mpr fun a _ => Attr.renumbered_target (hv t cs) a),
      .inl (RenumberedAll.map fun m _ => (content (v t cs) (hv t cs)).renumbered m)⟩)
    (fun t cs h p hp => by
      rcases List.mem_cons.mp hp with rfl | hp
      · trivial
      rcases List.mem_append.mp hp with hp | hp
      · obtain ⟨a, ha, hp⟩ := List.mem_flatMap.mp hp
        exact Attr.proper_script (h.1.attrs a ha) p hp
      rcases List.mem_cons.mp hp with rfl | hp
      · trivial
      rcases List.mem_append.mp hp with hp | hp
      · exact proper_flatMap_script _ h.2.2 p hp
      · rw [List.mem_singleton.mp hp]
        trivial)

end Rewriter

/-- Every field a choice names is a numeral that can be put anew. -/
structure Node.Fit (n : Node) (v : Choice) : Prop where
  plain : ∀ c ∈ n.elements, c.elements = []
  numeral : ∀ s ∈ n.slots, v s.property.ns s.property.name ≠ none → Numeral s.property.value

theorem mem_attrsFrom {l : List Attr} {a : Attr} (ha : a ∈ l) (s : ℕ) :
    ∃ p, (p, a) ∈ attrsFrom s l := by
  induction l generalizing s with
  | nil => exact absurd ha List.not_mem_nil
  | cons b l ih =>
    rcases List.mem_cons.mp ha with rfl | ha
    · exact ⟨_, List.mem_cons_self⟩
    · obtain ⟨p, hp⟩ := ih ha (s + b.render.length)
      exact ⟨p, List.mem_cons_of_mem _ hp⟩

theorem edits_values {v : Tag → List Markup → Choice} (hv : ∀ t cs, (v t cs).Numerals) {n : Node}
    (h : n.Fit (v n.tag n.children)) :
    (Rewriter.values v hv).edits n.start n.markup =
      n.slots.filterMap (Slot.edit (v n.tag n.children)) := by
  have hattrs : ∀ a ∈ n.tag.attrs, ∀ m, a.meaning = some m →
      v n.tag n.children (m.ns.getD []) m.name ≠ none → Numeral m.value := by
    intro a ha m hm hne
    obtain ⟨p, hp⟩ := mem_attrsFrom ha n.attrStart
    refine h.numeral ⟨⟨m.ns.getD [], m.name, m.value⟩, p + a.spelling.length + 1,
      p + a.spelling.length + 1 + a.raw.length⟩ ?_ hne
    refine List.mem_append_left _ (List.mem_filterMap.mpr ⟨(p, a), hp, ?_⟩)
    rw [attrSlot, hm]
    rfl
  have hchild : ∀ c ∈ n.elements,
      (Rewriter.content _ (hv n.tag n.children)).edits c.start c.markup =
        ((childSlot c).edit (v n.tag n.children)).toList := by
    intro c hc
    refine Rewriter.edits_content _ fun hne => ⟨elementsFrom_eq_nil.mp (h.plain c hc), ?_⟩
    exact h.numeral (childSlot c)
      (List.mem_append_right _ (List.mem_map.mpr ⟨c, hc, rfl⟩)) hne
  have hinner : n.start + ('<' :: n.tag.spelling).length +
      (n.tag.attrs.flatMap Attr.render).length + (Rewriter.tagClose n.tag).length = n.inner := by
    rw [Node.inner, Rewriter.opening_eq, List.length_append, List.length_append]
    omega
  show Weave.edits n.start (.keep ('<' :: n.tag.spelling) :: (_ ++ .keep _ :: (_ ++ _))) = _
  rw [Weave.edits_keep, Weave.edits_append, before_flatMap_attr, Weave.edits_keep,
    Weave.edits_append, hinner, Rewriter.edits_flatMap_script, Node.slots, List.filterMap_append,
    List.filterMap_map]
  have hstart : n.start + ('<' :: n.tag.spelling).length = n.attrStart := by
    rw [Node.attrStart, List.length_cons]
    omega
  rw [hstart, edits_attrs hattrs, Weave.edits_keep, Weave.edits_nil, List.append_nil,
    ← Node.elements, List.flatMap_congr hchild]
  exact congrArg (_ ++ ·) (List.filterMap_eq_flatMap_toList _ _).symm

/-! ### The fields of a rewritten element -/

/-- The property of a child element. -/
def contentProperty : Markup → Option Property :=
  Markup.onElement (fun t cs => some ⟨t.ns.getD [], t.name, textOf cs⟩) none

/-- The properties of an element. -/
def propertiesOf (t : Tag) (cs : List Markup) : List Property :=
  t.attributes.map (fun m => ⟨m.ns.getD [], m.name, m.value⟩) ++ cs.filterMap contentProperty

/-- A property with the value put for it. -/
def Property.put (v : Choice) (p : Property) : Property :=
  { p with value := (v p.ns p.name).getD p.value }

theorem filterMap_attrSlot (l : List Attr) (s : ℕ) :
    ((attrsFrom s l).filterMap fun p => attrSlot p.1 p.2).map Slot.property =
      (l.filterMap Attr.meaning).map fun m => ⟨m.ns.getD [], m.name, m.value⟩ := by
  induction l generalizing s with
  | nil => rfl
  | cons a l ih =>
    rw [attrsFrom, List.filterMap_cons, List.filterMap_cons, attrSlot]
    cases a.meaning with
    | none => exact ih _
    | some m => exact congrArg (_ :: ·) (ih _)

theorem map_childSlot (ms : List Markup) (s : ℕ) :
    ((elementsFrom s ms).map childSlot).map Slot.property = ms.filterMap contentProperty := by
  induction ms generalizing s with
  | nil => rfl
  | cons m ms ih =>
    rw [elementsFrom, List.map_append, List.map_append, ih, List.filterMap_cons]
    cases m <;> rfl

theorem Node.map_slots (n : Node) : n.slots.map Slot.property = propertiesOf n.tag n.children := by
  rw [slots, List.map_append, filterMap_attrSlot, elements, map_childSlot]
  rfl

theorem attributes_target {v : Choice} {l : List Attr}
    (h : ∀ m ∈ l.filterMap Attr.meaning, v (m.ns.getD []) m.name ≠ none → Numeral m.value) :
    ((l.map (Attr.target v)).filterMap Attr.meaning).map
        (fun m => (⟨m.ns.getD [], m.name, m.value⟩ : Property)) =
      ((l.filterMap Attr.meaning).map fun m => ⟨m.ns.getD [], m.name, m.value⟩).map
        (Property.put v) := by
  induction l with
  | nil => rfl
  | cons a l ih =>
    rw [List.map_cons, List.filterMap_cons, List.filterMap_cons, Attr.target]
    cases hm : a.meaning with
    | none =>
      have hrefill : a.refill v = none := by simp [Attr.refill, hm]
      rw [List.filterMap_cons, hm] at h
      rw [hrefill, hm]
      exact ih h
    | some m =>
      rw [List.filterMap_cons, hm] at h
      have hrest := ih fun m hm => h m (List.mem_cons_of_mem _ hm)
      cases hv : v (m.ns.getD []) m.name with
      | none =>
        have hrefill : a.refill v = none := by simp [Attr.refill, hm, hv]
        simp only [hrefill, hm, List.map_cons, hrest, Property.put, hv, Option.getD_none]
      | some n =>
        have hnum := h m List.mem_cons_self (by simp [hv])
        have hrefill : a.refill v = some n := Attr.refill_eq_some.mpr ⟨m, hm, hnum, hv⟩
        simp only [hrefill, Attr.set, hm, Option.map_some, List.map_cons, hrest, Property.put, hv,
          Option.getD_some]

theorem contentProperty_target {v : Choice} {t : Tag} {cs : List Markup}
    (h : v (t.ns.getD []) t.name ≠ none → HoldsNumeral cs) :
    contentProperty (contentTarget v t cs) =
      (contentProperty (.element t cs)).map (Property.put v) := by
  show _ = some _
  rw [contentTarget]
  cases hv : v (t.ns.getD []) t.name with
  | none =>
    have hrefill : refillContent v t cs = none := by rw [refillContent, hv, ite_self]
    rw [hrefill]
    simp [contentProperty, Markup.onElement, Property.put, hv]
  | some n =>
    have hrefill := refillContent_eq_some.mpr ⟨h (by simp [hv]), hv⟩
    rw [hrefill]
    simp [contentProperty, Markup.onElement, Property.put, hv, textOf, Markup.value?]

theorem contentProperties_target {v : Choice} (hv : v.Numerals) {ms : List Markup} {s : ℕ}
    (h : ∀ c ∈ elementsFrom s ms, v (c.tag.ns.getD []) c.tag.name ≠ none →
      HoldsNumeral c.children) :
    (ms.map (Rewriter.content v hv).target).filterMap contentProperty =
      (ms.filterMap contentProperty).map (Property.put v) := by
  induction ms generalizing s with
  | nil => rfl
  | cons m ms ih =>
    rw [elementsFrom, List.forall_mem_append] at h
    have hrest := ih h.2
    rw [List.map_cons, List.filterMap_cons, List.filterMap_cons]
    cases m with
    | element t cs =>
      have hhead : contentProperty ((Rewriter.content v hv).target (.element t cs)) = _ :=
        contentProperty_target (h.1 ⟨s, t, cs⟩ List.mem_cons_self)
      rw [hhead]
      exact congrArg (_ :: ·) hrest
    | text => exact hrest
    | comment => exact hrest
    | pi => exact hrest

/-- A rewritten element has the fields it had, with the new values. -/
theorem properties_values {v : Tag → List Markup → Choice} (hv : ∀ t cs, (v t cs).Numerals)
    {n n' : Node} (h : n.Fit (v n.tag n.children))
    (hn : (Rewriter.values v hv).Maps n n') :
    n'.slots.map Slot.property =
      (n.slots.map Slot.property).map (Property.put (v n.tag n.children)) := by
  obtain ⟨htag, hcs⟩ := Markup.element.inj (show Markup.element n'.tag n'.children = _ from hn)
  have hnum : ∀ p ∈ propertiesOf n.tag n.children,
      v n.tag n.children p.ns p.name ≠ none → Numeral p.value := by
    rw [← Node.map_slots]
    intro p hp
    obtain ⟨s, hs, rfl⟩ := List.mem_map.mp hp
    exact h.numeral s hs
  rw [Node.map_slots, Node.map_slots, propertiesOf, propertiesOf, List.map_append, htag, hcs]
  congr 1
  · refine attributes_target fun m hm => ?_
    exact hnum _ (List.mem_append_left _ (List.mem_map_of_mem hm))
  · refine contentProperties_target (s := n.inner) (hv n.tag n.children) fun c hc hne => ?_
    refine ⟨elementsFrom_eq_nil.mp (h.plain c hc), ?_⟩
    exact h.numeral (childSlot c)
      (List.mem_append_right _ (List.mem_map.mpr ⟨c, hc, rfl⟩)) hne

/-- The content of a rewritten child element holds no element either. -/
theorem maps_content {v : Choice} (hv : v.Numerals) {c c' : Node}
    (h : (Rewriter.content v hv).Maps c c') (hc : c.elements = []) :
    c'.tag = c.tag ∧ c'.elements = [] := by
  have htarget : Markup.element c'.tag c'.children = contentTarget v c.tag c.children := h
  rw [contentTarget] at htarget
  split at htarget
  · obtain ⟨htag, hcs⟩ := Markup.element.inj htarget
    refine ⟨htag, ?_⟩
    rw [Node.elements, hcs]
    rfl
  · obtain ⟨htag, hcs⟩ := Markup.element.inj htarget
    refine ⟨htag, ?_⟩
    rw [Node.elements, hcs]
    exact elementsFrom_eq_nil.mpr (elementsFrom_eq_nil.mp hc)

/-- The child elements of a rewritten element. -/
theorem elements_values {v : Tag → List Markup → Choice} (hv : ∀ t cs, (v t cs).Numerals)
    {n n' : Node} (h : (Rewriter.values v hv).Maps n n') :
    List.Forall₂ (Rewriter.content (v n.tag n.children) (hv n.tag n.children)).Maps
      n.elements n'.elements := by
  obtain ⟨-, hcs⟩ := Markup.element.inj (show Markup.element n'.tag n'.children = _ from h)
  rw [Node.elements, Node.elements, hcs]
  exact maps_elementsFrom _ _ _ _

theorem keepsText_values {v : Tag → List Markup → Choice} (hv : ∀ t cs, (v t cs).Numerals)
    {n n' : Node} (h : (Rewriter.values v hv).Maps n n') : n'.hasText = n.hasText := by
  obtain ⟨-, hcs⟩ := Markup.element.inj (show Markup.element n'.tag n'.children = _ from h)
  rw [Node.hasText, Node.hasText, hcs, filterMap_value?_map]

end Zencodec.Container
