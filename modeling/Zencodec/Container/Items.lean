/-
The items of a directory.

`Entry.Of` is what `Directory.parse` requires of the fields of an item and what it makes
of them; `namespacePass_eq_ok` says when one namespace passes.  `Node.In.spans` pairs the
fields of an item with the slots of its values, so that an entry keeps the places of the
slots (`fieldRange_of_spans`).
-/
import Zencodec.Container.Path

namespace Zencodec.Container

open Xmp (Text Attribute decimal)
open Checks

/-! ### Semantics -/

namespace ItemSemantic

@[simp] theorem asXmpStr_fromXmp (s : Text) : (fromXmp s).asXmpStr = s := by
  rw [fromXmp]
  split
  · next h => exact h.symm
  split
  · next h => exact h.symm
  split
  · next h => exact h.symm
  split
  · next h => exact h.symm
  · rfl

theorem fromXmp_eq_primary {s : Text} : fromXmp s = primary ↔ s = "Primary".toList := by
  constructor
  · intro h
    rw [← asXmpStr_fromXmp s, h]
    rfl
  · rintro rfl
    rfl

end ItemSemantic

/-! ### Fields by name -/

/-- The property of a name. -/
def property (itemNs name : Text) (ps : List Property) : Option Property :=
  ps.find? fun p => p.ns = itemNs && p.name = name

theorem field_property (itemNs name : Text) (fs : List SpannedProperty) :
    (field itemNs fs name).map (·.property) = property itemNs name (fs.map (·.property)) := by
  rw [field, property, List.find?_map]
  rfl

theorem property_put (v : Choice) (itemNs name : Text) (ps : List Property) :
    property itemNs name (ps.map (Property.put v)) =
      (property itemNs name ps).map (Property.put v) := by
  rw [property, List.find?_map]
  rfl

theorem required_eq_ok {itemNs name value : Text} {fs : List SpannedProperty} :
    required itemNs fs name = .ok value ↔
      (property itemNs name (fs.map (·.property))).map (·.value) = some value ∧ value ≠ [] := by
  rw [← field_property, Option.map_map]
  show _ ↔ (field itemNs fs name).map (·.property.value) = some value ∧ value ≠ []
  rw [required]
  split
  · next h => simp [h]
  · next h =>
    rw [h]
    exact ⟨(fun h' => by cases h'), fun h' => absurd (Option.some.inj h'.1).symm h'.2⟩
  · next v hne h =>
    rw [h]
    constructor
    · intro h'
      obtain rfl := Except.ok.inj h'
      exact ⟨rfl, fun hnil => hne hnil⟩
    · rintro ⟨h', -⟩
      rw [Option.some.inj h']

/-- A numeral and its value. -/
def Reads (t : Text) (n : ℕ) : Prop := Numeral t ∧ Nat.ofDigitChars 10 t 0 = n ∧ n ≤ Xmp.usizeMax

/-- What a number field is read as. -/
def ReadsField (p : Option Property) (n : Option ℕ) : Prop :=
  (p = none ∧ n = none) ∨ ∃ q k, p = some q ∧ n = some k ∧ Reads q.value k

theorem number_eq_ok {itemNs name : Text} {fs : List SpannedProperty} {n : Option ℕ} :
    number itemNs fs name = .ok n ↔
      ReadsField (property itemNs name (fs.map (·.property))) n := by
  rw [← field_property, number, ReadsField]
  cases hf : field itemNs fs name with
  | none => simp [eq_comm]
  | some f =>
    have hnumeral : ¬(f.property.value = [] ∨ ¬f.property.value.all Char.isDigit = true) ↔
        Numeral f.property.value := by
      rw [not_or, not_not, List.all_eq_true]
      rfl
    dsimp only
    rw [guard_eq_ok, guard_eq_ok, hnumeral]
    constructor
    · rintro ⟨hnum, hle, h⟩
      exact .inr ⟨f.property, _, rfl, (Except.ok.inj h).symm, hnum, rfl, not_lt.mp hle⟩
    · rintro (⟨h, -⟩ | ⟨q, k, hq, rfl, hnum, rfl, hle⟩)
      · cases h
      · obtain rfl := Option.some.inj hq
        exact ⟨hnum, not_lt.mpr hle, rfl⟩

theorem fieldRange_eq_ok {xml itemNs name : Text} {fs : List SpannedProperty}
    {r : Option (ℕ × ℕ)} :
    fieldRange xml itemNs fs name = .ok r ↔
      (field itemNs fs name = none ∧ r = none) ∨
        ∃ f q, field itemNs fs name = some f ∧ r = some q ∧ valueRange xml f = .ok q := by
  rw [fieldRange]
  cases hf : field itemNs fs name with
  | none => simp [eq_comm]
  | some f =>
    cases hv : valueRange xml f with
    | error e => simp [hv, Except.map]
    | ok q =>
      dsimp only
      rw [hv]
      show Except.ok (some q) = .ok r ↔ _
      constructor
      · intro h
        exact .inr ⟨f, q, rfl, (Except.ok.inj h).symm, hv⟩
      · rintro (⟨h, -⟩ | ⟨g, p, hg, rfl, hp⟩)
        · cases h
        · rw [← Option.some.inj hg, hv] at hp
          rw [Except.ok.inj hp]

/-! ### Items -/

/-- The entry that the fields of an item are read as. -/
structure Entry.Of (xml itemNs : Text) (fs : List SpannedProperty) (e : Entry) : Prop where
  semantic : required itemNs fs "Semantic".toList = .ok e.item.semantic.asXmpStr
  canonical : .fromXmp e.item.semantic.asXmpStr = e.item.semantic
  mime : required itemNs fs "Mime".toList = .ok e.item.mime
  length : number itemNs fs "Length".toList = .ok e.item.length
  padding : number itemNs fs "Padding".toList = .ok e.item.padding
  needed : e.item.semantic.asXmpStr ≠ "Primary".toList → e.item.length ≠ none
  lengthRange : fieldRange xml itemNs fs "Length".toList = .ok e.length
  paddingRange : fieldRange xml itemNs fs "Padding".toList = .ok e.padding

/-- A semantic that may follow others. -/
def Fresh (seen : List Text) (s : Text) : Prop :=
  s ∉ seen ∧ (s = "Primary".toList ↔ seen = [])

/-- Semantics each of which may follow those before it. -/
def FreshAll : List Text → List Text → Prop
  | _, [] => True
  | seen, s :: l => Fresh seen s ∧ FreshAll (seen ++ [s]) l

/-- The semantics of some entries, as they are spelled. -/
def semantics (es : List Entry) : List Text := es.map (·.item.semantic.asXmpStr)

theorem pushItem_eq_ok {xml itemNs : Text} {entries out : List Entry}
    {fs : List SpannedProperty} :
    pushItem xml itemNs entries fs = .ok out ↔
      ∃ e, Entry.Of xml itemNs fs e ∧ Fresh (semantics entries) e.item.semantic.asXmpStr ∧
        out = entries ++ [e] := by
  have hany : ∀ s : Text, (¬(entries.any fun e => e.item.semantic.asXmpStr = s) = true) ↔
      s ∉ semantics entries := by
    intro s
    simp [semantics]
  have hnil : semantics entries = [] ↔ entries = [] := List.map_eq_nil_iff
  rw [pushItem]
  constructor
  · intro h
    obtain ⟨semantic, hsem, h⟩ := bind_eq_ok.mp h
    obtain ⟨mime, hmime, h⟩ := bind_eq_ok.mp h
    obtain ⟨hfresh, h⟩ := guard_eq_ok.mp h
    obtain ⟨hfirst, h⟩ := guard_eq_ok.mp h
    obtain ⟨length, hlength, h⟩ := bind_eq_ok.mp h
    obtain ⟨padding, hpadding, h⟩ := bind_eq_ok.mp h
    obtain ⟨hneeded, h⟩ := guard_eq_ok.mp h
    obtain ⟨lengthRange, hlr, h⟩ := bind_eq_ok.mp h
    obtain ⟨paddingRange, hpr, h⟩ := bind_eq_ok.mp h
    refine ⟨_, ⟨?_, ?_, hmime, hlength, hpadding, ?_, hlr, hpr⟩, ⟨?_, ?_⟩, (Except.ok.inj h).symm⟩
    · rw [ItemSemantic.asXmpStr_fromXmp]
      exact hsem
    · rw [ItemSemantic.asXmpStr_fromXmp]
    · rw [ItemSemantic.asXmpStr_fromXmp]
      exact fun hne hnone => hneeded ⟨hne, hnone⟩
    · rw [ItemSemantic.asXmpStr_fromXmp]
      exact (hany semantic).mp hfresh
    · rw [ItemSemantic.asXmpStr_fromXmp, hnil]
      exact not_not.mp hfirst
  · rintro ⟨e, he, ⟨hfresh, hfirst⟩, rfl⟩
    refine bind_eq_ok.mpr ⟨_, he.semantic, bind_eq_ok.mpr ⟨_, he.mime, ?_⟩⟩
    refine guard_eq_ok.mpr ⟨(hany _).mpr hfresh, guard_eq_ok.mpr ⟨?_, ?_⟩⟩
    · rw [not_not, hfirst, hnil]
    refine bind_eq_ok.mpr ⟨_, he.length, bind_eq_ok.mpr ⟨_, he.padding, ?_⟩⟩
    refine guard_eq_ok.mpr ⟨fun h => he.needed h.1 h.2, ?_⟩
    refine bind_eq_ok.mpr ⟨_, he.lengthRange, bind_eq_ok.mpr ⟨_, he.paddingRange, ?_⟩⟩
    rw [he.canonical]
    rfl

theorem pushItems_eq_ok {xml itemNs : Text} {fss : List (List SpannedProperty)}
    {entries out : List Entry} :
    fss.foldlM (pushItem xml itemNs) entries = .ok out ↔
      ∃ es, List.Forall₂ (Entry.Of xml itemNs) fss es ∧
        FreshAll (semantics entries) (semantics es) ∧ out = entries ++ es := by
  induction fss generalizing entries with
  | nil =>
    constructor
    · intro h
      exact ⟨[], .nil, trivial, by simpa using (Except.ok.inj h).symm⟩
    · rintro ⟨es, hes, -, rfl⟩
      cases hes
      simp [pure, Except.pure]
  | cons fs fss ih =>
    rw [List.foldlM_cons, bind_eq_ok]
    constructor
    · rintro ⟨mid, hfs, h⟩
      obtain ⟨e, he, hfresh, rfl⟩ := pushItem_eq_ok.mp hfs
      obtain ⟨es, hes, hfreshes, rfl⟩ := ih.mp h
      refine ⟨e :: es, .cons he hes, ⟨hfresh, ?_⟩, by simp⟩
      simpa [semantics] using hfreshes
    · rintro ⟨es, hall, hfresh, rfl⟩
      obtain ⟨e, es, he, hes, rfl⟩ := List.forall₂_cons_left_iff.mp hall
      refine ⟨entries ++ [e], pushItem_eq_ok.mpr ⟨e, he, hfresh.1, rfl⟩, ?_⟩
      refine ih.mpr ⟨es, hes, ?_, by simp⟩
      simpa [semantics] using hfresh.2

theorem namespacePass_eq_ok {xml : Text} {d : Document} {entries out : List Entry}
    {ns : Text × Text} :
    namespacePass xml d entries ns = .ok out ↔
      (d.descendants.countP (fun n => n.2.tag.hasName ns.1 "Directory".toList) ≤ 1 ∧
        ∀ n ∈ d.descendants, n.2.tag.hasAttribute ns.1 "Directory".toList = false) ∧
      ∃ fss es,
        resourceSequenceSpanned d ns.1 "Directory".toList ns.1 "Item".toList maxItems = .ok fss ∧
        (fss = [] → d.descendants.countP (fun n => n.2.tag.hasName ns.1 "Directory".toList) = 0) ∧
        (entries = [] ∨ fss = []) ∧ List.Forall₂ (Entry.Of xml ns.2) fss es ∧
        FreshAll (semantics entries) (semantics es) ∧ out = entries ++ es := by
  rw [namespacePass, guard_eq_ok]
  refine and_congr (by simp) ?_
  rw [bind_eq_ok]
  refine exists_congr fun fss => ?_
  rw [guard_eq_ok, guard_eq_ok, pushItems_eq_ok]
  constructor
  · rintro ⟨hfss, hcount, hone, es, h⟩
    exact ⟨es, hfss, fun hnil => by_contra fun hne => hcount ⟨hne, hnil⟩,
      by_contra fun h => hone (not_or.mp h), h⟩
  · rintro ⟨es, hfss, hcount, hone, h⟩
    exact ⟨hfss, fun h => h.1 (hcount h.2), fun h => hone.elim h.1 h.2, es, h⟩

/-! ### Fields and slots -/

/-- A field and its slot. -/
def Spans (xml : Text) (f : SpannedProperty) (s : Slot) : Prop :=
  f.property = s.property ∧ (f.property.value ≠ [] → valueRange xml f = .ok s.range)

theorem attrs_spans {xml : Text} {l : List (ℕ × Attr)}
    (h : ∀ p ∈ l, Slices.HasAt xml p.1 p.2.source ∧ p.2.Lexical) :
    List.Forall₂ (Spans xml) (l.filterMap attrSpanned)
      (l.filterMap fun p => attrSlot p.1 p.2) := by
  induction l with
  | nil => exact .nil
  | cons p l ih =>
    obtain ⟨⟨hat, hlex⟩, hl⟩ := List.forall_mem_cons.mp h
    rw [List.filterMap_cons, List.filterMap_cons, attrSpanned, attrSlot]
    cases p.2.meaning with
    | none => exact ih hl
    | some m => exact .cons ⟨rfl, fun _ => valueRange_attr _ hat hlex⟩ (ih hl)

theorem child_spans {xml : Text} {c : Node} (hc : c.In xml) :
    Spans xml (childSpanned c) (childSlot c) := by
  refine ⟨rfl, fun hne => valueRange_child _ hc fun hclosing => hne ?_⟩
  have hcs : c.children = [] := hc.lexical.2.1 hclosing
  rw [childSpanned, hcs]
  rfl

theorem Node.In.spans {xml : Text} {n : Node} (h : n.In xml) :
    List.Forall₂ (Spans xml) n.fields n.slots := by
  refine List.rel_append (attrs_spans fun p hp => ?_) ?_
  · obtain ⟨hmem, hat⟩ := attrsFrom_in h.attrs hp
    exact ⟨hat, h.tag.attrs _ hmem⟩
  · rw [List.forall₂_map_left_iff, List.forall₂_map_right_iff, List.forall₂_same]
    exact fun c hc => child_spans (h.elements hc)

/-- The slot of a name. -/
def slotNamed (itemNs name : Text) (ss : List Slot) : Option Slot :=
  ss.find? fun s => s.property.ns = itemNs && s.property.name = name

theorem slotNamed_property (itemNs name : Text) (ss : List Slot) :
    (slotNamed itemNs name ss).map (·.property) = property itemNs name (ss.map (·.property)) := by
  rw [slotNamed, property, List.find?_map]
  rfl

theorem field_spans {xml : Text} {fs : List SpannedProperty} {ss : List Slot}
    (h : List.Forall₂ (Spans xml) fs ss) (itemNs name : Text) :
    Option.Rel (Spans xml) (field itemNs fs name) (slotNamed itemNs name ss) := by
  induction h with
  | nil => exact .none
  | @cons f s fs ss hf _ ih =>
    rw [field, slotNamed, List.find?_cons, List.find?_cons, hf.1]
    split
    · exact .some hf
    · exact ih

/-- The place that is kept of a field is its slot's. -/
theorem fieldRange_of_spans {xml : Text} {fs : List SpannedProperty} {ss : List Slot}
    (h : List.Forall₂ (Spans xml) fs ss) {itemNs name : Text} {n : Option ℕ}
    (hn : ReadsField (property itemNs name (fs.map (·.property))) n) :
    fieldRange xml itemNs fs name = .ok ((slotNamed itemNs name ss).map Slot.range) := by
  have hrel := field_spans h itemNs name
  rw [← field_property] at hn
  refine fieldRange_eq_ok.mpr ?_
  cases hf : field itemNs fs name with
  | none =>
    rw [hf] at hrel
    cases hs : slotNamed itemNs name ss with
    | none => exact .inl ⟨rfl, rfl⟩
    | some s =>
      rw [hs] at hrel
      cases hrel
  | some f =>
    rw [hf] at hrel hn
    cases hs : slotNamed itemNs name ss with
    | none =>
      rw [hs] at hrel
      cases hrel
    | some s =>
      rw [hs] at hrel
      cases hrel with
      | some hspan =>
        refine .inr ⟨f, s.range, rfl, rfl, hspan.2 ?_⟩
        rcases hn with ⟨hnone, -⟩ | ⟨q, k, hq, -, hreads⟩
        · cases hnone
        · have hq : f.property = q := Option.some.inj hq
          rw [hq]
          exact hreads.1.1

end Zencodec.Container
