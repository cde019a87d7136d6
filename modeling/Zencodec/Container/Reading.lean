/-
What the readers of a packet accept.

Each reader returns a value exactly when a condition on the document holds, and then
this value is read off the document:

* `descriptions_eq` — the descriptions are those of the `RDF` element at the root, or
  of those below an `xmpmeta` root;
* `itemFields_eq_ok` — the fields of an item, in document order;
* `sequenceItems_eq_ok`, `resourceSequenceSpanned_eq_ok` — the items of a sequence.
-/
import Zencodec.Container.Fields
import Zencodec.Lib.Checks

namespace Zencodec.Container

open Xmp (Text Attribute)
open Checks

/-! ### Descriptions -/

theorem descendantsAll_eq (ancestors : List Tag) (ms : List Markup) (s : ℕ) :
    descendantsAll ancestors s ms = (elementsFrom s ms).flatMap fun n =>
      (ancestors, n) :: descendantsAll (n.tag :: ancestors) n.inner n.children := by
  induction ms generalizing s with
  | nil => rfl
  | cons m ms ih =>
    rw [descendantsAll, elementsFrom, List.flatMap_append, ih]
    congr 1
    cases m with
    | element t cs => exact (List.append_nil _).symm
    | text => rfl
    | comment => rfl
    | pi => rfl

mutual

theorem Markup.length_ancestors : ∀ (m : Markup) (a : List Tag) (s : ℕ) {p : List Tag × Node},
    p ∈ m.descendants a s → a.length ≤ p.1.length
  | .element t cs, a, s, p, hp => by
    rcases List.mem_cons.mp hp with rfl | hp
    · exact le_rfl
    · exact (Nat.le_succ _).trans (length_ancestorsAll cs (t :: a) _ hp)
  | .text _ _, _, _, _, hp => absurd hp List.not_mem_nil
  | .comment _, _, _, _, hp => absurd hp List.not_mem_nil
  | .pi _, _, _, _, hp => absurd hp List.not_mem_nil

theorem length_ancestorsAll : ∀ (ms : List Markup) (a : List Tag) (s : ℕ) {p : List Tag × Node},
    p ∈ descendantsAll a s ms → a.length ≤ p.1.length
  | [], _, _, _, hp => absurd hp List.not_mem_nil
  | m :: ms, a, s, _, hp => by
    rcases List.mem_append.mp hp with hp | hp
    · exact Markup.length_ancestors m a s hp
    · exact length_ancestorsAll ms a _ hp

end

def Tag.isDescription (t : Tag) : Bool := t.hasName rdf "Description".toList

def Tag.isRdf (t : Tag) : Bool := t.hasName rdf "RDF".toList

def Tag.isXmpmeta (t : Tag) : Bool := t.hasName "adobe:ns:meta/".toList "xmpmeta".toList

theorem Tag.not_isXmpmeta {t : Tag} (h : t.isRdf = true) : t.isXmpmeta = false := by
  have hname : t.name = "RDF".toList := by
    simp only [Tag.isRdf, Tag.hasName, Bool.and_eq_true, decide_eq_true_eq] at h
    exact h.2
  simp [Tag.isXmpmeta, Tag.hasName, hname]

/-- The descriptions among some elements with what is around them. -/
def described (l : List (List Tag × Node)) : List Node :=
  (l.filter fun n => n.2.tag.isDescription && isMetadata n.1).map Prod.snd

theorem described_append (l l' : List (List Tag × Node)) :
    described (l ++ l') = described l ++ described l' := by
  rw [described, List.filter_append, List.map_append]
  rfl

theorem described_flatMap (f : Node → List (List Tag × Node)) (l : List Node) :
    described (l.flatMap f) = l.flatMap fun n => described (f n) := by
  induction l with
  | nil => rfl
  | cons n l ih => rw [List.flatMap_cons, described_append, ih, List.flatMap_cons]

theorem described_deep (a : List Tag) (s : ℕ) (ms : List Markup) (h : 3 ≤ a.length) :
    described (descendantsAll a s ms) = [] := by
  rw [described, List.map_eq_nil_iff, List.filter_eq_nil_iff]
  intro p hp hdesc
  have hlen := h.trans (length_ancestorsAll ms a s hp)
  have hmeta : isMetadata p.1 = false := by
    match h : p.1, hlen with
    | _ :: _ :: _ :: _, _ => rfl
  rw [hmeta, Bool.and_false] at hdesc
  exact absurd hdesc (by decide)

theorem described_cons (a : List Tag) (n : Node) (l : List (List Tag × Node)) :
    described ((a, n) :: l) =
      (if n.tag.isDescription && isMetadata a then [n] else []) ++ described l := by
  rw [described, List.filter_cons]
  split
  · rfl
  · rfl

/-- The descriptions below the element `n` of the root `t`. -/
theorem described_inner (t : Tag) (n : Node) :
    described (descendantsAll [n.tag, t] n.inner n.children) =
      if n.tag.isRdf && t.isXmpmeta then n.elements.filter (·.tag.isDescription) else [] := by
  have hinner : ∀ c : Node, described (([n.tag, t], c) ::
      descendantsAll (c.tag :: [n.tag, t]) c.inner c.children) =
      if c.tag.isDescription && (n.tag.isRdf && t.isXmpmeta) then [c] else [] := by
    intro c
    rw [described_cons, described_deep _ _ _ (by simp), List.append_nil]
    rfl
  rw [descendantsAll_eq, described_flatMap]
  simp only [hinner]
  by_cases h : (n.tag.isRdf && t.isXmpmeta) = true
  · simp only [h, Bool.and_true, if_true]
    rw [Node.elements]
    generalize elementsFrom n.inner n.children = l
    induction l with
    | nil => rfl
    | cons c l ih =>
      rw [List.flatMap_cons, ih, List.filter_cons]
      split <;> rfl
  · simp [h]

theorem Document.descriptions_eq (d : Document) : d.descriptions =
    if d.tag.isRdf then d.node.elements.filter (·.tag.isDescription)
    else if d.tag.isXmpmeta then
      d.node.elements.flatMap fun n =>
        if n.tag.isRdf then n.elements.filter (·.tag.isDescription) else []
    else [] := by
  have hroot : d.descriptions = d.node.elements.flatMap fun n =>
      (if n.tag.isDescription && d.tag.isRdf then [n] else []) ++
        if n.tag.isRdf && d.tag.isXmpmeta then n.elements.filter (·.tag.isDescription) else [] := by
    show described (([], d.node) :: descendantsAll [d.tag] d.node.inner d.children) = _
    rw [described_cons, show isMetadata [] = false from rfl, Bool.and_false,
      if_neg Bool.false_ne_true, List.nil_append, descendantsAll_eq, described_flatMap]
    refine List.flatMap_congr fun n _ => ?_
    rw [described_cons, described_inner]
    rfl
  rw [hroot]
  by_cases hrdf : d.tag.isRdf = true
  · have hmeta := Tag.not_isXmpmeta hrdf
    simp only [hrdf, hmeta, Bool.and_true, Bool.and_false, if_true, if_false, Bool.false_eq_true,
      List.append_nil]
    generalize d.node.elements = l
    induction l with
    | nil => rfl
    | cons c l ih =>
      rw [List.flatMap_cons, ih, List.filter_cons]
      split <;> rfl
  · by_cases hmeta : d.tag.isXmpmeta = true
    · simp [hrdf, hmeta]
    · simp [hrdf, hmeta]

/-! ### Fields -/

/-- The field of an attribute. -/
def attrSpanned (p : ℕ × Attr) : Option SpannedProperty :=
  p.2.meaning.map fun m =>
    ⟨⟨m.ns.getD [], m.name, m.value⟩, p.1, p.1 + p.2.source.length, true⟩

/-- The field of a child element. -/
def childSpanned (c : Node) : SpannedProperty where
  property := ⟨c.tag.ns.getD [], c.tag.name, textOf c.children⟩
  start := c.start
  stop := c.start + c.markup.render.length
  isAttribute := false

/-- The fields of an element in document order. -/
def Node.fields (n : Node) : List SpannedProperty :=
  (attrsFrom n.attrStart n.tag.attrs).filterMap attrSpanned ++ n.elements.map childSpanned

/-- Two fields of one name. -/
def SpannedProperty.Twin (f g : SpannedProperty) : Prop :=
  f.property.ns = g.property.ns ∧ f.property.name = g.property.name

/-- The fields of an item are plain, few and of different names. -/
structure Node.Plain (n : Node) : Prop where
  attributes : ∀ m ∈ n.tag.attributes, m.ns ≠ some rdf
  elements : ∀ c ∈ n.elements, c.elements = [] ∧ c.tag.attributes = []
  length : n.fields.length ≤ 256
  distinct : n.fields.Pairwise fun f g => ¬f.Twin g

theorem plainText_eq_ok {c : Node} {value : Text} :
    plainText c = .ok value ↔
      (c.elements = [] ∧ c.tag.attributes = []) ∧ value = textOf c.children := by
  rw [plainText]
  split
  · next h =>
    refine ⟨(fun h' => by cases h'), fun h' => ?_⟩
    rcases h with h | h
    · exact absurd h'.1.1 h
    · exact absurd h'.1.2 h
  · next h =>
    rw [not_or, not_not, not_not] at h
    refine ⟨fun h' => ⟨h, (Except.ok.inj h').symm⟩, fun h' => by rw [h'.2]⟩

theorem forall_attrsFrom {P : Attribute → Prop} {l : List Attr} {s : ℕ} :
    (∀ p ∈ attrsFrom s l, ∀ m, p.2.meaning = some m → P m) ↔
      ∀ m ∈ l.filterMap Attr.meaning, P m := by
  induction l generalizing s with
  | nil => simp [attrsFrom]
  | cons a l ih =>
    rw [attrsFrom, List.forall_mem_cons, ih, List.filterMap_cons]
    cases a.meaning with
    | none => simp
    | some m => simp

theorem attributeFields_eq_ok (name : Text) {l : List (ℕ × Attr)} {acc out : List SpannedProperty} :
    l.foldlM (attributeField name) acc = .ok out ↔
      (∀ p ∈ l, ∀ m, p.2.meaning = some m → m.ns ≠ some rdf) ∧
        out = acc ++ l.filterMap attrSpanned := by
  induction l generalizing acc with
  | nil =>
    simp only [List.foldlM_nil, List.filterMap_nil, List.append_nil]
    refine ⟨fun h => ⟨fun p hp => absurd hp List.not_mem_nil, (Except.ok.inj h).symm⟩, ?_⟩
    rintro ⟨-, rfl⟩
    rfl
  | cons p l ih =>
    rw [List.foldlM_cons, List.forall_mem_cons, List.filterMap_cons, attributeField, attrSpanned]
    cases hm : p.2.meaning with
    | none =>
      show l.foldlM (attributeField name) acc = .ok out ↔ _
      rw [ih]
      simp
    | some m =>
      by_cases hrdf : m.ns = some rdf
      · simp only [hrdf, if_true]
        refine ⟨(fun h => by cases h), fun h => ?_⟩
        exact absurd hrdf (h.1.1 m rfl)
      · simp only [hrdf, if_false]
        show l.foldlM (attributeField name) _ = .ok out ↔ _
        rw [ih]
        simp [hrdf]

theorem childFields_eq_ok {l : List Node} {acc out : List SpannedProperty} :
    l.foldlM childField acc = .ok out ↔
      (∀ c ∈ l, c.elements = [] ∧ c.tag.attributes = []) ∧ out = acc ++ l.map childSpanned := by
  induction l generalizing acc with
  | nil =>
    simp only [List.foldlM_nil, List.map_nil, List.append_nil]
    refine ⟨fun h => ⟨fun p hp => absurd hp List.not_mem_nil, (Except.ok.inj h).symm⟩, ?_⟩
    rintro ⟨-, rfl⟩
    rfl
  | cons c l ih =>
    rw [List.foldlM_cons, List.forall_mem_cons, List.map_cons, childField]
    cases hc : plainText c with
    | error e =>
      refine ⟨(fun h => by cases h), fun h => ?_⟩
      have hok := plainText_eq_ok.mpr ⟨h.1.1, rfl⟩
      rw [hok] at hc
      cases hc
    | ok value =>
      obtain ⟨hplain, rfl⟩ := plainText_eq_ok.mp hc
      show l.foldlM childField (acc ++ [childSpanned c]) = .ok out ↔ _
      rw [ih, List.append_assoc]
      exact and_congr_left fun _ => (and_iff_right hplain).symm

theorem repeated_eq_none {fields : List SpannedProperty} {seen : List Property} :
    repeated seen fields = none ↔
      (∀ f ∈ fields, ∀ b ∈ seen, ¬(b.ns = f.property.ns ∧ b.name = f.property.name)) ∧
        fields.Pairwise fun f g => ¬f.Twin g := by
  induction fields generalizing seen with
  | nil => simp [repeated]
  | cons f fields ih =>
    rw [repeated]
    split
    · next h =>
      refine ⟨(fun h' => by cases h'), fun h' => ?_⟩
      obtain ⟨b, hb, hf⟩ := List.any_eq_true.mp h
      exact absurd (by simpa using hf) (h'.1 f List.mem_cons_self b hb)
    · next h =>
      have hf : ∀ b ∈ seen, ¬(b.ns = f.property.ns ∧ b.name = f.property.name) := by
        intro b hb hbf
        exact h (List.any_eq_true.mpr ⟨b, hb, by simpa using hbf⟩)
      rw [ih, List.pairwise_cons, List.forall_mem_cons]
      constructor
      · rintro ⟨hseen, hpair⟩
        refine ⟨⟨hf, fun g hg b hb => hseen g hg b (List.mem_append_left _ hb)⟩,
          fun g hg => ?_, hpair⟩
        exact hseen g hg f.property (List.mem_append_right _ List.mem_cons_self)
      · rintro ⟨⟨-, hseen⟩, hhead, hpair⟩
        refine ⟨fun g hg b hb => ?_, hpair⟩
        rcases List.mem_append.mp hb with hb | hb
        · exact hseen g hg b hb
        · rw [List.mem_singleton.mp hb]
          exact hhead g hg

theorem itemFields_eq_ok {name : Text} {item : Node} {fs : List SpannedProperty} :
    itemFields name item = .ok fs ↔ item.Plain ∧ fs = item.fields := by
  rw [itemFields, bind_eq_ok]
  constructor
  · rintro ⟨fs₁, h₁, h⟩
    obtain ⟨hattr, rfl⟩ := (attributeFields_eq_ok name).mp h₁
    obtain ⟨fs₂, h₂, h⟩ := bind_eq_ok.mp h
    obtain ⟨hchild, rfl⟩ := childFields_eq_ok.mp h₂
    obtain ⟨hlen, h⟩ := guard_eq_ok.mp h
    split at h
    · cases h
    · next hrepeated =>
      obtain rfl := Except.ok.inj h
      exact ⟨⟨forall_attrsFrom.mp hattr, hchild, not_lt.mp hlen,
        (repeated_eq_none.mp hrepeated).2⟩, rfl⟩
  · rintro ⟨h, rfl⟩
    refine ⟨_, (attributeFields_eq_ok name).mpr ⟨forall_attrsFrom.mpr h.attributes, rfl⟩, ?_⟩
    refine bind_eq_ok.mpr ⟨_, childFields_eq_ok.mpr ⟨h.elements, rfl⟩, ?_⟩
    have hrepeated : repeated [] item.fields = none :=
      repeated_eq_none.mpr ⟨fun f _ b hb => absurd hb List.not_mem_nil, h.distinct⟩
    refine guard_eq_ok.mpr ⟨not_lt.mpr h.length, ?_⟩
    split
    · next twice htwice => exact absurd (hrepeated.symm.trans htwice) (by simp)
    · rfl

/-! ### Sequences -/

/-- An entry of the sequence and its item. -/
structure ListItem (itemNs itemName : Text) (li item : Node) : Prop where
  entry : li.tag.hasName rdf "li".toList = true
  structural : structuralNode li true = .ok ()
  only : li.elements = [item]
  named : item.tag.hasName itemNs itemName = true
  blank : item.hasText = false

theorem onlyChild_eq_some {n c : Node} : onlyChild n = some c ↔ n.elements = [c] := by
  rw [onlyChild]
  split
  · next first h => simp [h]
  · next h => exact ⟨(fun h' => by cases h'), fun h' => absurd h' (h c)⟩

theorem listItem_eq_ok {name itemNs itemName : Text} {maxItems : ℕ} {li : Node}
    {acc out : List (List SpannedProperty)} :
    listItem name itemNs itemName maxItems acc li = .ok out ↔
      acc.length < maxItems ∧ ∃ item, ListItem itemNs itemName li item ∧ item.Plain ∧
        out = acc ++ [item.fields] := by
  rw [listItem, guard_eq_ok, guard_eq_ok, seq_eq_ok]
  constructor
  · rintro ⟨hli, hlen, hstruct, h⟩
    refine ⟨by omega, ?_⟩
    cases hitem : onlyChild li with
    | none =>
      rw [hitem] at h
      cases h
    | some item =>
      rw [hitem] at h
      obtain ⟨hname, h⟩ := guard_eq_ok.mp h
      obtain ⟨fs, hfs, h⟩ := bind_eq_ok.mp h
      obtain ⟨hplain, rfl⟩ := itemFields_eq_ok.mp hfs
      have hname : item.tag.hasName itemNs itemName = true ∧ item.hasText = false := by
        simpa using hname
      have hli : li.tag.hasName rdf "li".toList = true := by
        simpa only [Bool.not_eq_true', Bool.not_eq_false] using hli
      exact ⟨item, ⟨hli, hstruct, onlyChild_eq_some.mp hitem, hname.1, hname.2⟩, hplain,
        (Except.ok.inj h).symm⟩
  · rintro ⟨hlen, item, h, hplain, rfl⟩
    refine ⟨by simp only [h.entry, Bool.not_true, Bool.false_eq_true, not_false_eq_true],
      by omega, h.structural, ?_⟩
    rw [onlyChild_eq_some.mpr h.only]
    refine guard_eq_ok.mpr ⟨by simp [h.named, h.blank], ?_⟩
    exact bind_eq_ok.mpr ⟨item.fields, itemFields_eq_ok.mpr ⟨hplain, rfl⟩, rfl⟩

theorem listItems_eq_ok {name itemNs itemName : Text} {maxItems : ℕ} {lis : List Node}
    {acc out : List (List SpannedProperty)} (hacc : acc.length ≤ maxItems) :
    lis.foldlM (listItem name itemNs itemName maxItems) acc = .ok out ↔
      ∃ items, List.Forall₂ (ListItem itemNs itemName) lis items ∧
        acc.length + items.length ≤ maxItems ∧ (∀ item ∈ items, item.Plain) ∧
        out = acc ++ items.map Node.fields := by
  induction lis generalizing acc with
  | nil =>
    constructor
    · intro h
      exact ⟨[], .nil, by simpa using hacc, fun item h => absurd h List.not_mem_nil,
        by simpa using (Except.ok.inj h).symm⟩
    · rintro ⟨items, hitems, -, -, rfl⟩
      cases hitems
      simp [pure, Except.pure]
  | cons li lis ih =>
    rw [List.foldlM_cons, bind_eq_ok]
    constructor
    · rintro ⟨acc', hli, h⟩
      obtain ⟨hlen, item, hitem, hplain, rfl⟩ := listItem_eq_ok.mp hli
      obtain ⟨items, hitems, hsum, hplains, rfl⟩ := (ih (by simpa using hlen)).mp h
      refine ⟨item :: items, .cons hitem hitems, ?_, List.forall_mem_cons.mpr ⟨hplain, hplains⟩, ?_⟩
      · simp only [List.length_append, List.length_cons, List.length_nil] at hsum ⊢
        omega
      · simp
    · rintro ⟨items, hitems, hsum, hplains, rfl⟩
      cases hitems with
      | @cons _ item _ items hitem hitems =>
        obtain ⟨hplain, hplains⟩ := List.forall_mem_cons.mp hplains
        rw [List.length_cons] at hsum
        refine ⟨acc ++ [item.fields], listItem_eq_ok.mpr ⟨by omega, item, hitem, hplain, rfl⟩, ?_⟩
        refine (ih (by simp; omega)).mpr ⟨items, hitems, ?_, hplains, by simp⟩
        simp only [List.length_append, List.length_cons, List.length_nil]
        omega

/-- A property node and the items of its sequence. -/
structure SequenceOf (itemNs itemName : Text) (node seq : Node) (items : List Node) : Prop where
  structural : structuralNode node false = .ok ()
  only : node.elements = [seq]
  named : seq.tag.hasName rdf "Seq".toList = true
  structural_seq : structuralNode seq false = .ok ()
  items : List.Forall₂ (ListItem itemNs itemName) seq.elements items

theorem sequenceItems_eq_ok {name itemNs itemName : Text} {maxItems : ℕ} {node : Node}
    {out : List (List SpannedProperty)} :
    sequenceItems name itemNs itemName maxItems node = .ok out ↔
      ∃ seq items, SequenceOf itemNs itemName node seq items ∧ items.length ≤ maxItems ∧
        (∀ item ∈ items, item.Plain) ∧ out = items.map Node.fields := by
  rw [sequenceItems, seq_eq_ok]
  constructor
  · rintro ⟨hnode, h⟩
    cases hseq : (onlyChild node).filter fun n => n.tag.hasName rdf "Seq".toList with
    | none =>
      rw [hseq] at h
      cases h
    | some seq =>
      rw [hseq] at h
      obtain ⟨honly, hname⟩ := Option.filter_eq_some_iff.mp hseq
      obtain ⟨hstruct, h⟩ := seq_eq_ok.mp h
      obtain ⟨items, hitems, hlen, hplain, rfl⟩ := (listItems_eq_ok (Nat.zero_le _)).mp h
      exact ⟨seq, items, ⟨hnode, onlyChild_eq_some.mp honly, hname, hstruct, hitems⟩,
        by simpa using hlen, hplain, rfl⟩
  · rintro ⟨seq, items, h, hlen, hplain, rfl⟩
    refine ⟨h.structural, ?_⟩
    rw [Option.filter_eq_some_iff.mpr ⟨onlyChild_eq_some.mpr h.only, h.named⟩]
    refine seq_eq_ok.mpr ⟨h.structural_seq, ?_⟩
    exact (listItems_eq_ok (Nat.zero_le _)).mpr ⟨items, h.items, by simpa using hlen, hplain, rfl⟩

theorem resourceSequenceSpanned_eq_ok {d : Document} {ns name itemNs itemName : Text}
    {maxItems : ℕ} {out : List (List SpannedProperty)} :
    resourceSequenceSpanned d ns name itemNs itemName maxItems = .ok out ↔
      (∀ n ∈ d.descriptions, n.tag.hasAttribute ns name = false) ∧
        (d.propertyNodes ns name = [] ∧ out = [] ∨
          ∃ parent node, d.propertyNodes ns name = [(parent, node)] ∧
            emptySubject parent.tag = .ok () ∧
            sequenceItems name itemNs itemName maxItems node = .ok out) := by
  have hany : (¬(d.descriptions.any fun n => n.tag.hasAttribute ns name) = true) ↔
      ∀ n ∈ d.descriptions, n.tag.hasAttribute ns name = false := by
    simp
  rw [resourceSequenceSpanned, guard_eq_ok, hany]
  refine and_congr_right fun _ => ?_
  match h : d.propertyNodes ns name with
  | [] =>
    simp [eq_comm]
  | [(parent, node)] =>
    rw [seq_eq_ok]
    simp
  | _ :: _ :: _ => simp

end Zencodec.Container
