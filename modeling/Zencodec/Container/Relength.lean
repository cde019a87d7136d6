/-
Directories with other lengths.

`Document.relength` is the packet in which every secondary item has a given length, and
zero padding where it has any.  An item of it reads as the item it was, with the new
numbers (`Entry.Of.relength`), and so does its directory (`namespacePasses_relength`).
-/
import Zencodec.Container.Items

namespace Zencodec.Container

open Xmp (Text Attribute decimal)
open Checks

/-- An item with another length and no padding; the primary stays as it is. -/
def ContainerItem.relength (lengths : Text → ℕ) (i : ContainerItem) : ContainerItem :=
  if i.semantic = .primary then i
  else { i with
    length := some (lengths i.semantic.asXmpStr)
    padding := i.padding.map fun _ => 0 }

/-- The semantic that the properties of an item give it. -/
def semanticOf (itemNs : Text) (ps : List Property) : Option Text :=
  (property itemNs "Semantic".toList ps).map (·.value)

/-- The value put for the fields of an item of some semantic. -/
def valueChoice (lengths : Text → ℕ) (itemNs : Text) : Option Text → Text → Text → Option Text
  | none, _, _ => none
  | some semantic, ns, name =>
    if semantic = "Primary".toList ∨ ns ≠ itemNs then none
    else if name = "Length".toList then some (decimal (lengths semantic))
    else if name = "Padding".toList then some ['0']
    else none

/-- The value put for the fields of an item. -/
def itemChoice (lengths : Text → ℕ) (itemNs : Text) (t : Tag) (cs : List Markup) : Choice :=
  valueChoice lengths itemNs (semanticOf itemNs (propertiesOf t cs))

theorem numeral_decimal (n : ℕ) : Numeral (decimal n) := by
  refine ⟨Nat.toDigits_ne_nil, ?_⟩
  intro c hc
  have hc : c ∈ Nat.toDigits 10 n := hc
  exact Nat.isDigit_of_mem_toDigits (by decide) (by decide) hc

theorem decimal_zero : decimal 0 = ['0'] := Nat.toDigits_zero 10

theorem numeral_zero : Numeral ['0'] := decimal_zero ▸ numeral_decimal 0

theorem reads_decimal {n : ℕ} (h : n ≤ Xmp.usizeMax) : Reads (decimal n) n :=
  ⟨numeral_decimal n, Nat.ofDigitChars_ten_toDigits, h⟩

theorem reads_zero : Reads ['0'] 0 := decimal_zero ▸ reads_decimal (Nat.zero_le _)

theorem valueChoice_numerals (lengths : Text → ℕ) (itemNs : Text) (semantic : Option Text) :
    Choice.Numerals (valueChoice lengths itemNs semantic) := by
  intro ns name n h
  cases semantic with
  | none => cases h
  | some semantic =>
    rw [valueChoice] at h
    split at h
    · cases h
    split at h
    · rw [← Option.some.inj h]
      exact numeral_decimal _
    split at h
    · rw [← Option.some.inj h]
      exact numeral_zero
    · cases h

/-- Puts lengths into an item. -/
def itemRewriter (lengths : Text → ℕ) (itemNs : Text) : Rewriter :=
  .values (itemChoice lengths itemNs) fun _ _ => valueChoice_numerals _ _ _

/-- The packet in which the secondaries have the given lengths. -/
def Document.relength (lengths : Text → ℕ) (d : Document) : Document :=
  d.rewrite (itemRewriter lengths)

/-! ### What is put -/

section

variable (lengths : Text → ℕ) (itemNs : Text)

theorem valueChoice_primary :
    valueChoice lengths itemNs (some "Primary".toList) = fun _ _ => none := by
  funext ns name
  rw [valueChoice, if_pos (Or.inl rfl)]

variable {semantic : Text} (hs : semantic ≠ "Primary".toList)

include hs

theorem valueChoice_length : valueChoice lengths itemNs (some semantic) itemNs "Length".toList =
    some (decimal (lengths semantic)) := by
  have hne : ¬(semantic = "Primary".toList ∨ itemNs ≠ itemNs) := fun h => h.elim hs fun h => h rfl
  rw [valueChoice, if_neg hne, if_pos rfl]

theorem valueChoice_padding :
    valueChoice lengths itemNs (some semantic) itemNs "Padding".toList = some ['0'] := by
  have hne : ¬(semantic = "Primary".toList ∨ itemNs ≠ itemNs) := fun h => h.elim hs fun h => h rfl
  rw [valueChoice, if_neg hne, if_neg (by decide), if_pos rfl]

end

theorem valueChoice_other (lengths : Text → ℕ) (itemNs : Text) (semantic : Option Text)
    {ns name : Text} (hl : name ≠ "Length".toList) (hp : name ≠ "Padding".toList) :
    valueChoice lengths itemNs semantic ns name = none := by
  cases semantic with
  | none => rfl
  | some semantic =>
    rw [valueChoice, if_neg hl, if_neg hp, ite_self]

/-- Only numbers of secondaries are put. -/
theorem valueChoice_ne_none {lengths : Text → ℕ} {itemNs : Text} {semantic : Option Text}
    {ns name : Text} (h : valueChoice lengths itemNs semantic ns name ≠ none) :
    ns = itemNs ∧ (name = "Length".toList ∨ name = "Padding".toList) := by
  cases semantic with
  | none => exact absurd rfl h
  | some semantic =>
    rw [valueChoice] at h
    split at h
    · exact absurd rfl h
    · next hne =>
      refine ⟨not_not.mp (not_or.mp hne).2, ?_⟩
      by_contra hother
      obtain ⟨hl, hp⟩ := not_or.mp hother
      rw [if_neg hl, if_neg hp] at h
      exact absurd rfl h

theorem Property.put_of_none {v : Choice} {p : Property} (h : v p.ns p.name = none) :
    p.put v = p := by
  rw [Property.put, h]
  rfl

theorem Property.put_value {v : Choice} {p : Property} {n : Text} (h : v p.ns p.name = some n) :
    (p.put v).value = n := by
  rw [Property.put, h]
  rfl

theorem property_eq_some {itemNs name : Text} {ps : List Property} {p : Property}
    (h : property itemNs name ps = some p) : p.ns = itemNs ∧ p.name = name := by
  have := List.find?_some h
  simpa using this

theorem slotNamed_of_mem {itemNs name : Text} {ss : List Slot} {s : Slot}
    (hpair : (ss.map (·.property)).Pairwise fun a b => ¬(a.ns = b.ns ∧ a.name = b.name))
    (hs : s ∈ ss) (hns : s.property.ns = itemNs) (hname : s.property.name = name) :
    slotNamed itemNs name ss = some s := by
  induction ss with
  | nil => exact absurd hs List.not_mem_nil
  | cons a ss ih =>
    obtain ⟨ha, hpair⟩ := List.pairwise_cons.mp hpair
    rw [slotNamed, List.find?_cons]
    rcases List.mem_cons.mp hs with rfl | hs
    · simp [hns, hname]
    · have hne := ha s.property (List.mem_map_of_mem hs)
      have hfalse : (a.property.ns = itemNs && a.property.name = name : Bool) = false := by
        simpa [hns, hname] using hne
      rw [hfalse]
      exact ih hpair hs

/-! ### An item -/

section

variable {xml itemNs : Text} {n : Node} {e : Entry}

theorem map_fields (n : Node) : n.fields.map (·.property) = propertiesOf n.tag n.children := by
  rw [← Node.map_slots, Node.fields, Node.slots, List.map_append, List.map_append,
    List.map_filterMap, List.map_filterMap, List.map_map, List.map_map]
  congr 1
  refine List.filterMap_congr fun p _ => ?_
  rw [attrSpanned, attrSlot]
  cases p.2.meaning <;> rfl

theorem Node.Plain.distinct_properties (h : n.Plain) :
    (propertiesOf n.tag n.children).Pairwise fun a b => ¬(a.ns = b.ns ∧ a.name = b.name) := by
  rw [← map_fields, List.pairwise_map]
  exact h.distinct

theorem Entry.Of.semanticOf (h : e.Of xml itemNs n.fields) :
    Container.semanticOf itemNs (propertiesOf n.tag n.children) =
      some e.item.semantic.asXmpStr := by
  rw [Container.semanticOf, ← map_fields]
  exact (required_eq_ok.mp h.semantic).1

theorem Entry.Of.primary (h : e.Of xml itemNs n.fields) :
    e.item.semantic = .primary ↔ e.item.semantic.asXmpStr = "Primary".toList := by
  rw [← ItemSemantic.fromXmp_eq_primary, h.canonical]

theorem Entry.Of.number (h : e.Of xml itemNs n.fields) :
    ReadsField (property itemNs "Length".toList (propertiesOf n.tag n.children)) e.item.length ∧
      ReadsField (property itemNs "Padding".toList (propertiesOf n.tag n.children))
        e.item.padding := by
  rw [← map_fields]
  exact ⟨number_eq_ok.mp h.length, number_eq_ok.mp h.padding⟩

/-- The fields that get a value hold one. -/
theorem Entry.Of.fit (h : e.Of xml itemNs n.fields) (hn : n.Plain) (lengths : Text → ℕ) :
    n.Fit (itemChoice lengths itemNs n.tag n.children) where
  plain c hc := (hn.elements c hc).1
  numeral s hs hne := by
    obtain ⟨hns, hname⟩ := valueChoice_ne_none hne
    have hpair := hn.distinct_properties
    rw [← Node.map_slots] at hpair
    have hnumeral : ∀ {k : Option ℕ},
        ReadsField (property itemNs s.property.name (propertiesOf n.tag n.children)) k →
          Numeral s.property.value := by
      intro k hk
      rw [← Node.map_slots, ← slotNamed_property, slotNamed_of_mem hpair hs hns rfl] at hk
      rcases hk with ⟨hnone, -⟩ | ⟨q, k, hq, -, hreads⟩
      · cases hnone
      · rw [← Option.some.inj hq] at hreads
        exact hreads.1
    rcases hname with hname | hname
    · exact hnumeral (hname ▸ h.number.1)
    · exact hnumeral (hname ▸ h.number.2)

end

/-! ### An item with another length -/

section

variable {xml xml' itemNs : Text} {n n' : Node} {e : Entry} {lengths : Text → ℕ}

theorem properties_relength (h : e.Of xml itemNs n.fields) (hn : n.Plain)
    (hmaps : (itemRewriter lengths itemNs).Maps n n') :
    propertiesOf n'.tag n'.children = (propertiesOf n.tag n.children).map
      (Property.put (valueChoice lengths itemNs (some e.item.semantic.asXmpStr))) := by
  have hput := properties_values (v := itemChoice lengths itemNs)
    (fun t cs => valueChoice_numerals _ _ _) (h.fit hn lengths) hmaps
  have hchoice : itemChoice lengths itemNs n.tag n.children =
      valueChoice lengths itemNs (some e.item.semantic.asXmpStr) := by
    rw [← h.semanticOf]
    rfl
  rw [Node.map_slots, Node.map_slots, hchoice] at hput
  exact hput

/-- A field that gets no value is read as before. -/
theorem required_relength (h : e.Of xml itemNs n.fields) (hn : n.Plain)
    (hmaps : (itemRewriter lengths itemNs).Maps n n') {name value : Text}
    (hl : name ≠ "Length".toList) (hp : name ≠ "Padding".toList)
    (hr : required itemNs n.fields name = .ok value) :
    required itemNs n'.fields name = .ok value := by
  rw [required_eq_ok, map_fields] at hr ⊢
  refine ⟨?_, hr.2⟩
  obtain ⟨p, hprop, hvalue⟩ := Option.map_eq_some_iff.mp hr.1
  have hname : p.name = name := (property_eq_some hprop).2
  have hkept : p.put (valueChoice lengths itemNs (some e.item.semantic.asXmpStr)) = p :=
    Property.put_of_none (valueChoice_other _ _ _ (hname ▸ hl) (hname ▸ hp))
  rw [properties_relength h hn hmaps, property_put, hprop]
  show some (p.put _).value = _
  rw [hkept, hvalue]

/-- A field that gets a value is read as that value. -/
theorem readsField_put {v : Choice} {name t : Text} {m k : ℕ} {ps : List Property}
    (hv : v itemNs name = some t) (ht : Reads t m)
    (hr : ReadsField (property itemNs name ps) (some k)) :
    ReadsField (property itemNs name (ps.map (Property.put v))) (some m) := by
  rcases hr with ⟨-, hk⟩ | ⟨p, k, hp, -, -⟩
  · cases hk
  · obtain ⟨hns, hname⟩ := property_eq_some hp
    refine .inr ⟨p.put v, m, ?_, rfl, ?_⟩
    · rw [property_put, hp]
      rfl
    · have hvalue : v p.ns p.name = some t := by rw [hns, hname, hv]
      rw [Property.put_value hvalue]
      exact ht

theorem readsField_none {v : Choice} {name : Text} {ps : List Property}
    (hr : ReadsField (property itemNs name ps) none) :
    ReadsField (property itemNs name (ps.map (Property.put v))) none := by
  rcases hr with ⟨hp, -⟩ | ⟨p, k, -, hk, -⟩
  · exact .inl ⟨by rw [property_put, hp]; rfl, rfl⟩
  · cases hk

theorem numbers_relength (h : e.Of xml itemNs n.fields) (hn : n.Plain)
    (hmaps : (itemRewriter lengths itemNs).Maps n n') (hlen : ∀ s, lengths s ≤ Xmp.usizeMax) :
    ReadsField (property itemNs "Length".toList (propertiesOf n'.tag n'.children))
        (e.item.relength lengths).length ∧
      ReadsField (property itemNs "Padding".toList (propertiesOf n'.tag n'.children))
        (e.item.relength lengths).padding := by
  rw [properties_relength h hn hmaps]
  obtain ⟨hlength, hpadding⟩ := h.number
  by_cases hprimary : e.item.semantic = .primary
  · -- nothing is put into the primary
    have hkeep : Property.put (valueChoice lengths itemNs
        (some e.item.semantic.asXmpStr)) = id := by
      funext p
      refine Property.put_of_none ?_
      rw [h.primary.mp hprimary, valueChoice_primary]
    rw [hkeep, List.map_id, ContainerItem.relength, if_pos hprimary]
    exact ⟨hlength, hpadding⟩
  · have hne : e.item.semantic.asXmpStr ≠ "Primary".toList := fun hs => hprimary (h.primary.mpr hs)
    rw [ContainerItem.relength, if_neg hprimary]
    constructor
    · obtain ⟨k, hk⟩ := Option.ne_none_iff_exists'.mp (h.needed hne)
      rw [hk] at hlength
      exact readsField_put (valueChoice_length lengths itemNs hne) (reads_decimal (hlen _)) hlength
    · cases hp : e.item.padding with
      | none =>
        rw [hp] at hpadding
        exact readsField_none hpadding
      | some k =>
        rw [hp] at hpadding
        exact readsField_put (valueChoice_padding lengths itemNs hne) reads_zero hpadding

@[simp] theorem ContainerItem.relength_semantic (lengths : Text → ℕ) (i : ContainerItem) :
    (i.relength lengths).semantic = i.semantic := by
  rw [relength]
  split <;> rfl

@[simp] theorem ContainerItem.relength_mime (lengths : Text → ℕ) (i : ContainerItem) :
    (i.relength lengths).mime = i.mime := by
  rw [relength]
  split <;> rfl

/-- The item of a rewritten node is the item of the node, with its new numbers. -/
theorem Entry.Of.relength (h : e.Of xml itemNs n.fields) (hn : n.Plain) (hn' : n'.In xml')
    (hmaps : (itemRewriter lengths itemNs).Maps n n') (hlen : ∀ s, lengths s ≤ Xmp.usizeMax) :
    ∃ e' : Entry, e'.Of xml' itemNs n'.fields ∧ e'.item = e.item.relength lengths := by
  obtain ⟨hlength, hpadding⟩ := numbers_relength h hn hmaps hlen
  rw [← map_fields] at hlength hpadding
  refine ⟨⟨e.item.relength lengths, (slotNamed itemNs "Length".toList n'.slots).map Slot.range,
    (slotNamed itemNs "Padding".toList n'.slots).map Slot.range⟩, ⟨?_, ?_, ?_, ?_, ?_, ?_, ?_, ?_⟩,
    rfl⟩
  · rw [ContainerItem.relength_semantic]
    exact required_relength h hn hmaps (by decide) (by decide) h.semantic
  · rw [ContainerItem.relength_semantic]
    exact h.canonical
  · rw [ContainerItem.relength_mime]
    exact required_relength h hn hmaps (by decide) (by decide) h.mime
  · exact number_eq_ok.mpr hlength
  · exact number_eq_ok.mpr hpadding
  · rw [ContainerItem.relength_semantic]
    intro hne
    show (e.item.relength lengths).length ≠ none
    rw [ContainerItem.relength, if_neg fun hs => hne (h.primary.mp hs)]
    exact Option.some_ne_none _
  · exact fieldRange_of_spans hn'.spans hlength
  · exact fieldRange_of_spans hn'.spans hpadding

/-- A rewritten item is as plain as it was. -/
theorem plain_relength (h : e.Of xml itemNs n.fields) (hn : n.Plain)
    (hmaps : (itemRewriter lengths itemNs).Maps n n') : n'.Plain := by
  have hprops := properties_relength h hn hmaps
  constructor
  · intro m hm
    have hnames : n'.tag.attributeNames = n.tag.attributeNames :=
      (Prod.mk.inj (Prod.mk.inj hmaps.names).2).2
    have hmem : (m.ns, m.name) ∈ n.tag.attributeNames :=
      hnames ▸ List.mem_map.mpr ⟨m, hm, rfl⟩
    obtain ⟨m', hm', heq⟩ := List.mem_map.mp hmem
    rw [← (Prod.mk.inj heq).1]
    exact hn.attributes m' hm'
  · intro c' hc'
    obtain ⟨c, hc, hcc'⟩ := exists_of_forall₂ (elements_values _ hmaps) hc'
    obtain ⟨helements, hattributes⟩ := hn.elements c hc
    obtain ⟨htag, helements'⟩ := maps_content _ hcc' helements
    exact ⟨helements', htag ▸ hattributes⟩
  · have hlen := congrArg List.length hprops
    rw [List.length_map, ← map_fields, ← map_fields, List.length_map, List.length_map] at hlen
    rw [hlen]
    exact hn.length
  · have hpair := hn.distinct_properties
    have hdistinct : (propertiesOf n'.tag n'.children).Pairwise
        fun a b => ¬(a.ns = b.ns ∧ a.name = b.name) := by
      rw [hprops, List.pairwise_map]
      exact hpair
    rw [← map_fields, List.pairwise_map] at hdistinct
    exact hdistinct

end

/-! ### A directory with other lengths -/

theorem entries_relength {xml xml' itemNs : Text} {lengths : Text → ℕ}
    (hlen : ∀ s, lengths s ≤ Xmp.usizeMax) {its its' : List Node} {es : List Entry}
    (hmaps : List.Forall₂ (itemRewriter lengths itemNs).Maps its its')
    (hplain : ∀ i ∈ its, i.Plain) (hin : ∀ i ∈ its', i.In xml')
    (hes : List.Forall₂ (Entry.Of xml itemNs) (its.map Node.fields) es) :
    (∀ i ∈ its', i.Plain) ∧ ∃ es' : List Entry,
      List.Forall₂ (Entry.Of xml' itemNs) (its'.map Node.fields) es' ∧
        es'.map (·.item) = es.map (·.item.relength lengths) := by
  induction hmaps generalizing es with
  | nil =>
    rw [List.forall₂_nil_left_iff.mp hes]
    exact ⟨fun i hi => absurd hi List.not_mem_nil, [], .nil, rfl⟩
  | @cons i i' its its' hi _ ih =>
    obtain ⟨e, rest, he, hrest, rfl⟩ := List.forall₂_cons_left_iff.mp hes
    obtain ⟨hplaini, hplain⟩ := List.forall_mem_cons.mp hplain
    obtain ⟨hini, hin⟩ := List.forall_mem_cons.mp hin
    obtain ⟨e', he', hitem⟩ := he.relength hplaini hini hi hlen
    obtain ⟨hplains', es', hes', hitems⟩ := ih hplain hin hrest
    refine ⟨List.forall_mem_cons.mpr ⟨plain_relength he hplaini hi, hplains'⟩, e' :: es',
      .cons he' hes', ?_⟩
    rw [List.map_cons, hitem, hitems, List.map_cons]

theorem semantics_relength {lengths : Text → ℕ} {es es' : List Entry}
    (h : es'.map (·.item) = es.map (·.item.relength lengths)) : semantics es' = semantics es := by
  have hmap : ∀ l : List Entry, semantics l = (l.map (·.item)).map (·.semantic.asXmpStr) := by
    intro l
    rw [semantics, List.map_map]
    rfl
  rw [hmap, h, List.map_map, semantics]
  refine List.map_congr_left fun e _ => ?_
  show (e.item.relength lengths).semantic.asXmpStr = _
  rw [ContainerItem.relength_semantic]

section

variable {d : Document} {lengths : Text → ℕ} (hd' : (d.relength lengths).Lexical)
  (hlen : ∀ s, lengths s ≤ Xmp.usizeMax)

include hd' hlen

/-- The sequence of a namespace, in the packet with other lengths. -/
theorem resource_relength {xml : Text} {ns : Text × Text} (hns : ns ∈ namespaces)
    {fss : List (List SpannedProperty)} {es : List Entry}
    (h : resourceSequenceSpanned d ns.1 "Directory".toList ns.1 "Item".toList maxItems = .ok fss)
    (hes : List.Forall₂ (Entry.Of xml ns.2) fss es) :
    ∃ fss' es', resourceSequenceSpanned (d.relength lengths) ns.1 "Directory".toList ns.1
        "Item".toList maxItems = .ok fss' ∧ (fss' = [] ↔ fss = []) ∧
      List.Forall₂ (Entry.Of (d.relength lengths).render ns.2) fss' es' ∧
      es'.map (·.item) = es.map (·.item.relength lengths) := by
  obtain ⟨hattrs, hnodes⟩ := resourceSequenceSpanned_eq_ok.mp h
  have hattrs' : ∀ n ∈ (d.relength lengths).descriptions,
      n.tag.hasAttribute ns.1 "Directory".toList = false := by
    intro n' hn'
    obtain ⟨n, hn, hmaps⟩ := exists_of_forall₂ (descriptions_rewrite (itemRewriter lengths) d) hn'
    rw [hmaps.tag]
    exact hattrs n hn
  have hprops := propertyNodes_rewrite (itemRewriter lengths) d ns.1 "Directory".toList
  rcases hnodes with ⟨hnil, rfl⟩ | ⟨parent, node, hone, hsubject, hseq⟩
  · rw [hnil] at hprops
    have hnil' := List.forall₂_nil_left_iff.mp hprops
    rw [List.forall₂_nil_left_iff.mp hes]
    exact ⟨[], [], resourceSequenceSpanned_eq_ok.mpr ⟨hattrs', .inl ⟨hnil', rfl⟩⟩, Iff.rfl,
      .nil, rfl⟩
  · rw [hone] at hprops
    obtain ⟨⟨parent', node'⟩, rest, ⟨htag, hmaps, hname⟩, hrest, hone'⟩ :=
      List.forall₂_cons_left_iff.mp hprops
    rw [List.forall₂_nil_left_iff.mp hrest] at hone'
    obtain ⟨seq, its, hsequence, hmax, hplain, rfl⟩ := sequenceItems_eq_ok.mp hseq
    have hitems := maps_directory (itemRewriter lengths) hns hname hmaps
    obtain ⟨seq', its', hsequence', hits⟩ := hsequence.rewrite
      (fun n n' h => keepsText_values _ h) hitems
    have hnode' : node'.In (d.relength lengths).render :=
      propertyNodes_in hd' (p := (parent', node')) (hone' ▸ List.mem_cons_self)
    have hin : ∀ i ∈ its', i.In (d.relength lengths).render := fun i hi =>
      hnode'.entryNodes (hsequence'.entryNodes.symm ▸ hi)
    obtain ⟨hplain', es', hes', hitem⟩ := entries_relength hlen hits hplain hin hes
    refine ⟨its'.map Node.fields, es', ?_, ?_, hes', hitem⟩
    · refine resourceSequenceSpanned_eq_ok.mpr ⟨hattrs', .inr ⟨parent', node', hone', ?_, ?_⟩⟩
      · rw [htag]
        exact hsubject
      · exact sequenceItems_eq_ok.mpr ⟨seq', its', hsequence', hits.length_eq ▸ hmax, hplain', rfl⟩
    · rw [List.map_eq_nil_iff, List.map_eq_nil_iff]
      have hlength := hits.length_eq
      rw [← List.length_eq_zero_iff, ← List.length_eq_zero_iff, hlength]

/-- One namespace passes in the packet with other lengths, and gives the entries it gave, with
those. -/
theorem namespacePass_relength {xml : Text} {ns : Text × Text} (hns : ns ∈ namespaces)
    {entries entries' out : List Entry}
    (hentries : entries'.map (·.item) = entries.map (·.item.relength lengths))
    (h : namespacePass xml d entries ns = .ok out) :
    ∃ out', namespacePass (d.relength lengths).render (d.relength lengths) entries' ns = .ok out' ∧
      out'.map (·.item) = out.map (·.item.relength lengths) := by
  obtain ⟨⟨hcount, hattrs⟩, fss, es, hfss, hempty, hone, hes, hfresh, rfl⟩ :=
    namespacePass_eq_ok.mp h
  obtain ⟨fss', es', hfss', hnil, hes', hitems⟩ := resource_relength hd' hlen hns hfss hes
  have hcount' := countP_rewrite (itemRewriter lengths) d ns.1 "Directory".toList
  have hentries_nil : entries' = [] ↔ entries = [] := by
    rw [← List.map_eq_nil_iff (f := Entry.item), ← List.map_eq_nil_iff (l := entries), hentries]
  refine ⟨entries' ++ es', namespacePass_eq_ok.mpr ⟨⟨?_, ?_⟩, fss', es', hfss', ?_, ?_, hes', ?_,
    rfl⟩, ?_⟩
  · exact hcount'.trans_le hcount
  · exact hasAttribute_rewrite (itemRewriter lengths) hattrs
  · exact fun h => hcount'.trans (hempty (hnil.mp h))
  · exact hone.imp hentries_nil.mpr hnil.mpr
  · rw [semantics_relength hentries, semantics_relength hitems]
    exact hfresh
  · rw [List.map_append, List.map_append, hentries, hitems]

/-- All namespaces pass. -/
theorem namespacePasses_relength {xml : Text} {nss : List (Text × Text)}
    (hnss : ∀ ns ∈ nss, ns ∈ namespaces) {entries entries' out : List Entry}
    (hentries : entries'.map (·.item) = entries.map (·.item.relength lengths))
    (h : nss.foldlM (namespacePass xml d) entries = .ok out) :
    ∃ out', nss.foldlM (namespacePass (d.relength lengths).render (d.relength lengths)) entries' =
        .ok out' ∧ out'.map (·.item) = out.map (·.item.relength lengths) := by
  induction nss generalizing entries entries' with
  | nil =>
    obtain rfl := Except.ok.inj h
    exact ⟨entries', rfl, hentries⟩
  | cons ns nss ih =>
    obtain ⟨hns, hnss⟩ := List.forall_mem_cons.mp hnss
    rw [List.foldlM_cons] at h
    obtain ⟨mid, hmid, h⟩ := bind_eq_ok.mp h
    obtain ⟨mid', hmid', hitems⟩ := namespacePass_relength hd' hlen hns hentries hmid
    obtain ⟨out', hout', hout⟩ := ih hnss hitems h
    refine ⟨out', ?_, hout⟩
    rw [List.foldlM_cons]
    exact bind_eq_ok.mpr ⟨mid', hmid', hout'⟩

end

end Zencodec.Container
