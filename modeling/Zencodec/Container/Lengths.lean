/-
What an edit of lengths does to a packet.

`Document.numberSlots` are the `Length` and `Padding` values of the secondaries, and
`Document.withLengths` is the text with other numerals at their places.

* `withLengths_eq` — this text spells the packet with other lengths;
* `rewriteItemLengths_eq_ok` — the edit succeeds exactly when every secondary is supplied
  once and the result is within the size limit, and then it is this text;
* `parse_withLengths` — the result is read as the directory with the supplied lengths,
  unless the nesting scan refuses it.
-/
import Zencodec.Container.Relength
import Zencodec.Container.Nesting

namespace Zencodec.Container

open Xmp (Text Attribute byteLen decimal)
open Checks
open Weave (Edit weave gaps held)

/-! ### Definitions -/

/-- Whether a field is the length or the padding of an item. -/
def Slot.isNumber (itemNs : Text) (s : Slot) : Bool :=
  s.property.ns = itemNs &&
    (s.property.name = "Length".toList || s.property.name = "Padding".toList)

/-- The length and the padding of a secondary, with its semantic. -/
def Node.numberSlots (itemNs : Text) (n : Node) : List (Text × Slot) :=
  match semanticOf itemNs (propertiesOf n.tag n.children) with
  | none => []
  | some semantic =>
    if semantic = "Primary".toList then []
    else (n.slots.filter (Slot.isNumber itemNs)).map fun s => (semantic, s)

/-- The lengths and paddings of the secondaries in document order. -/
def Document.numberSlots (d : Document) : List (Text × Slot) :=
  d.itemNodes.flatMap fun p => p.2.numberSlots p.1

/-- The numeral for a length or a padding. -/
def newNumber (lengths : Text → ℕ) (p : Text × Slot) : Text :=
  if p.2.property.name = "Length".toList then decimal (lengths p.1) else ['0']

/-- The places of the lengths and paddings. -/
def Document.places (d : Document) : List (ℕ × ℕ) := d.numberSlots.map (·.2.range)

/-- The text of a packet with other lengths. -/
def Document.withLengths (d : Document) (lengths : Text → ℕ) : Text :=
  weave (gaps d.render 0 d.places) (d.numberSlots.map (newNumber lengths))

/-- The length supplied for a semantic. -/
def suppliedLength (secondaries : List (Text × UInt64)) (semantic : Text) : ℕ :=
  ((secondaries.find? fun p => p.1 = semantic).map (·.2.toNat)).getD 0

/-- Every secondary has exactly one supplied pair. -/
def Supplied (items : List ContainerItem) (secondaries : List (Text × UInt64)) : Prop :=
  ∀ i ∈ items, i.semantic ≠ .primary →
    (secondaries.countP fun p => p.1 = i.semantic.asXmpStr) = 1

/-! ### The replacements of an item -/

/-- The replacement of a number. -/
def numberEdit (lengths : Text → ℕ) (p : Text × Slot) : Edit Char :=
  ⟨p.2.start, p.2.stop, newNumber lengths p⟩

/-- The replacements for an entry. -/
def entryEdits (lengths : Text → ℕ) (e : Entry) : List (Edit Char) :=
  if e.item.semantic = .primary then []
  else (e.length.toList.map fun r => ⟨r.1, r.2, decimal (lengths e.item.semantic.asXmpStr)⟩) ++
    e.padding.toList.map fun r => ⟨r.1, r.2, ['0']⟩

theorem isNumber_eq_true {itemNs : Text} {s : Slot} : s.isNumber itemNs = true ↔
    s.property.ns = itemNs ∧
      (s.property.name = "Length".toList ∨ s.property.name = "Padding".toList) := by
  simp only [Slot.isNumber, Bool.and_eq_true, Bool.or_eq_true, decide_eq_true_eq]

theorem edit_valueChoice (lengths : Text → ℕ) (itemNs : Text) {semantic : Text}
    (hs : semantic ≠ "Primary".toList) (s : Slot) :
    s.edit (valueChoice lengths itemNs (some semantic)) =
      if s.isNumber itemNs then some (numberEdit lengths (semantic, s)) else none := by
  by_cases h : s.isNumber itemNs = true
  · rw [if_pos h]
    obtain ⟨hns, hname⟩ := isNumber_eq_true.mp h
    have hpadding : ¬("Padding".toList : Text) = "Length".toList := by decide
    rw [Slot.edit, hns, numberEdit, newNumber]
    rcases hname with hname | hname
    · rw [hname, valueChoice_length lengths itemNs hs, if_pos rfl]
      rfl
    · rw [hname, valueChoice_padding lengths itemNs hs, if_neg hpadding]
      rfl
  · rw [if_neg h, Slot.edit]
    have hnone :
        valueChoice lengths itemNs (some semantic) s.property.ns s.property.name = none := by
      by_contra hne
      exact h (isNumber_eq_true.mpr (valueChoice_ne_none hne))
    rw [hnone]
    rfl

theorem filterMap_ite {α β : Type*} (p : α → Bool) (f : α → β) (l : List α) :
    l.filterMap (fun a => if p a then some (f a) else none) = (l.filter p).map f := by
  induction l with
  | nil => rfl
  | cons a l ih =>
    rw [List.filterMap_cons, List.filter_cons]
    split
    · next h =>
      split at h
      · cases h
      · next hp => rw [if_neg hp, ih]
    · next b h =>
      split at h
      · next hp => rw [if_pos hp, List.map_cons, ih, Option.some.inj h]
      · cases h

section

variable {xml itemNs : Text} {n : Node} {e : Entry}

/-- The replacements of a rewritten item are those of its numbers. -/
theorem edits_itemRewriter (h : e.Of xml itemNs n.fields) (hn : n.Plain) (lengths : Text → ℕ) :
    (itemRewriter lengths itemNs).edits n.start n.markup =
      (n.numberSlots itemNs).map (numberEdit lengths) := by
  have hchoice : itemChoice lengths itemNs n.tag n.children =
      valueChoice lengths itemNs (some e.item.semantic.asXmpStr) := by
    rw [← h.semanticOf]
    rfl
  have hvalues : (itemRewriter lengths itemNs).edits n.start n.markup = _ :=
    edits_values (v := itemChoice lengths itemNs) _ (h.fit hn lengths)
  rw [hvalues, hchoice, Node.numberSlots, h.semanticOf]
  dsimp only
  split
  · next hprimary =>
    rw [hprimary, valueChoice_primary]
    exact List.filterMap_eq_nil_iff.mpr fun s _ => rfl
  · next hprimary =>
    rw [List.map_map, List.filterMap_congr fun s _ => edit_valueChoice lengths itemNs hprimary s,
      filterMap_ite]
    rfl

theorem filter_eq_slotNamed {name : Text} {ss : List Slot}
    (hpair : (ss.map (·.property)).Pairwise fun a b => ¬(a.ns = b.ns ∧ a.name = b.name)) :
    ss.filter (fun s => s.property.ns = itemNs && s.property.name = name) =
      (slotNamed itemNs name ss).toList := by
  induction ss with
  | nil => rfl
  | cons s ss ih =>
    obtain ⟨hs, hpair⟩ := List.pairwise_cons.mp hpair
    rw [List.filter_cons, slotNamed, List.find?_cons]
    split
    · next h =>
      have hrest : ss.filter (fun s => s.property.ns = itemNs && s.property.name = name) = [] := by
        rw [List.filter_eq_nil_iff]
        intro s' hs' h'
        have hne := hs s'.property (List.mem_map_of_mem hs')
        simp only [Bool.and_eq_true, decide_eq_true_eq] at h h'
        exact hne ⟨h.1.trans h'.1.symm, h.2.trans h'.2.symm⟩
      rw [hrest, h]
      rfl
    · next h =>
      rw [ih hpair, Bool.eq_false_iff.mpr h]
      rfl

theorem filter_or_perm {α : Type*} {p q : α → Bool} (h : ∀ a, ¬(p a = true ∧ q a = true))
    (l : List α) : (l.filter fun a => p a || q a).Perm (l.filter p ++ l.filter q) := by
  induction l with
  | nil => exact .refl _
  | cons a l ih =>
    rw [List.filter_cons, List.filter_cons, List.filter_cons]
    cases hp : p a with
    | true =>
      have hq : q a = false := Bool.eq_false_iff.mpr fun hq => h a ⟨hp, hq⟩
      rw [hq]
      exact ih.cons a
    | false =>
      cases hq : q a with
      | true => exact (ih.cons a).trans List.perm_middle.symm
      | false => exact ih

/-- The places an entry keeps. -/
theorem Entry.Of.ranges (h : e.Of xml itemNs n.fields) (hn : n.In xml) :
    e.length = (slotNamed itemNs "Length".toList n.slots).map Slot.range ∧
      e.padding = (slotNamed itemNs "Padding".toList n.slots).map Slot.range := by
  have hlength := fieldRange_of_spans hn.spans (number_eq_ok.mp h.length)
  have hpadding := fieldRange_of_spans hn.spans (number_eq_ok.mp h.padding)
  rw [h.lengthRange] at hlength
  rw [h.paddingRange] at hpadding
  exact ⟨Except.ok.inj hlength, Except.ok.inj hpadding⟩

/-- A secondary keeps the place of its length. -/
theorem Entry.Of.length_ne_none (h : e.Of xml itemNs n.fields) (hn : n.In xml)
    (hprimary : e.item.semantic ≠ .primary) : e.length ≠ none := by
  have hneeded := h.needed fun hs => hprimary (h.primary.mpr hs)
  rcases h.number.1 with ⟨-, hnone⟩ | ⟨q, k, hq, -, -⟩
  · exact absurd hnone hneeded
  · rw [← Node.map_slots, ← slotNamed_property] at hq
    rw [(h.ranges hn).1]
    intro hnone
    rw [Option.map_eq_none_iff.mp hnone] at hq
    cases hq

/-- The replacement at the slot of a name. -/
theorem map_range_slotNamed {lengths : Text → ℕ} {semantic name t : Text} {ss : List Slot}
    (ht : ∀ s : Slot, s.property.name = name → newNumber lengths (semantic, s) = t) :
    (((slotNamed itemNs name ss).map Slot.range).toList.map fun r => (⟨r.1, r.2, t⟩ : Edit Char)) =
      ((slotNamed itemNs name ss).toList.map fun s => (semantic, s)).map (numberEdit lengths) := by
  cases hs : slotNamed itemNs name ss with
  | none => rfl
  | some s =>
    have hname : s.property.name = name := by
      have := List.find?_some hs
      simp only [Bool.and_eq_true, decide_eq_true_eq] at this
      exact this.2
    show [_] = [numberEdit lengths (semantic, s)]
    rw [numberEdit, ht s hname]
    rfl

/-- The replacements for an entry are those of its numbers. -/
theorem entryEdits_perm (h : e.Of xml itemNs n.fields) (hn : n.In xml) (hplain : n.Plain)
    (lengths : Text → ℕ) :
    (entryEdits lengths e).Perm ((n.numberSlots itemNs).map (numberEdit lengths)) := by
  rw [entryEdits, Node.numberSlots, h.semanticOf]
  dsimp only
  by_cases hprimary : e.item.semantic = .primary
  · rw [if_pos hprimary, if_pos (h.primary.mp hprimary)]
    exact .refl _
  rw [if_neg hprimary, if_neg fun hs => hprimary (h.primary.mpr hs)]
  have hpair : (n.slots.map (·.property)).Pairwise fun a b => ¬(a.ns = b.ns ∧ a.name = b.name) := by
    rw [Node.map_slots]
    exact hplain.distinct_properties
  have hsplit : (n.slots.filter (Slot.isNumber itemNs)).Perm
      ((slotNamed itemNs "Length".toList n.slots).toList ++
        (slotNamed itemNs "Padding".toList n.slots).toList) := by
    rw [← filter_eq_slotNamed hpair, ← filter_eq_slotNamed hpair]
    have hor := filter_or_perm (l := n.slots)
      (p := fun s => s.property.ns = itemNs && s.property.name = "Length".toList)
      (q := fun s => s.property.ns = itemNs && s.property.name = "Padding".toList) (by
        intro s hs
        simp only [Bool.and_eq_true, decide_eq_true_eq] at hs
        have hne : ("Length".toList : Text) ≠ "Padding".toList := by decide
        exact hne (hs.1.2.symm.trans hs.2.2))
    refine (List.Perm.of_eq ?_).trans hor
    refine List.filter_congr fun s _ => ?_
    rw [Slot.isNumber, Bool.and_or_distrib_left]
  obtain ⟨hlength, hpadding⟩ := h.ranges hn
  refine List.Perm.trans (.of_eq ?_) ((hsplit.map _).map _).symm
  have hne : ¬("Padding".toList : Text) = "Length".toList := by decide
  rw [hlength, hpadding, List.map_append, List.map_append,
    map_range_slotNamed fun s hs => by rw [newNumber, hs, if_pos rfl],
    map_range_slotNamed fun s hs => by rw [newNumber, hs, if_neg hne]]

end

/-! ### The replacements of a packet -/

/-- An item with its namespace, and the entry it is read as. -/
structure ReadAs (xml : Text) (p : Text × Node) (e : Entry) : Prop where
  of : e.Of xml p.1 p.2.fields
  plain : p.2.Plain

theorem forall₂_readAs {xml itemNs : Text} {its : List Node} {es : List Entry}
    (hplain : ∀ i ∈ its, i.Plain)
    (h : List.Forall₂ (Entry.Of xml itemNs) (its.map Node.fields) es) :
    List.Forall₂ (ReadAs xml) (its.map fun i => (itemNs, i)) es := by
  induction its generalizing es with
  | nil =>
    rw [List.forall₂_nil_left_iff.mp h]
    exact .nil
  | cons i its ih =>
    obtain ⟨e, es, he, hes, rfl⟩ := List.forall₂_cons_left_iff.mp h
    obtain ⟨hi, hplain⟩ := List.forall_mem_cons.mp hplain
    exact .cons ⟨he, hi⟩ (ih hplain hes)

section

variable {d : Document} {xml : Text}

theorem itemsOf_readAs {ns : Text × Text} {entries out : List Entry}
    (h : namespacePass xml d entries ns = .ok out) :
    ∃ es, List.Forall₂ (ReadAs xml) (d.itemsOf ns) es ∧ es.length ≤ maxItems ∧
      out = entries ++ es := by
  obtain ⟨-, fss, es, hfss, -, -, hes, -, rfl⟩ := namespacePass_eq_ok.mp h
  refine ⟨es, ?_, ?_, rfl⟩
  · rcases (resourceSequenceSpanned_eq_ok.mp hfss).2 with ⟨hnil, rfl⟩ | ⟨p, n, hone, -, hseq⟩
    · rw [List.forall₂_nil_left_iff.mp hes, Document.itemsOf, hnil]
      exact .nil
    · obtain ⟨seq, its, hsequence, -, hplain, rfl⟩ := sequenceItems_eq_ok.mp hseq
      rw [Document.itemsOf, hone, List.flatMap_singleton, hsequence.entryNodes]
      exact forall₂_readAs hplain hes
  · rw [← hes.length_eq]
    rcases (resourceSequenceSpanned_eq_ok.mp hfss).2 with ⟨-, rfl⟩ | ⟨p, n, -, -, hseq⟩
    · exact Nat.zero_le _
    · obtain ⟨seq, its, -, hmax, -, rfl⟩ := sequenceItems_eq_ok.mp hseq
      rwa [List.length_map]

theorem itemsOf_readAs_all {nss : List (Text × Text)} {entries out : List Entry}
    (h : nss.foldlM (namespacePass xml d) entries = .ok out) :
    ∃ es, List.Forall₂ (ReadAs xml) (nss.flatMap d.itemsOf) es ∧
      es.length ≤ maxItems * nss.length ∧ out = entries ++ es := by
  induction nss generalizing entries with
  | nil =>
    exact ⟨[], .nil, Nat.zero_le _, by simpa using (Except.ok.inj h).symm⟩
  | cons ns nss ih =>
    rw [List.foldlM_cons] at h
    obtain ⟨mid, hmid, h⟩ := bind_eq_ok.mp h
    obtain ⟨es₁, h₁, hlen₁, rfl⟩ := itemsOf_readAs hmid
    obtain ⟨es₂, h₂, hlen₂, rfl⟩ := ih h
    refine ⟨es₁ ++ es₂, List.rel_append h₁ h₂, ?_, List.append_assoc _ _ _⟩
    rw [List.length_append, List.length_cons, Nat.mul_succ]
    omega

theorem flatMap_perm_of_forall₂ {α β γ : Type*} {R : α → β → Prop} {f : α → List γ}
    {g : β → List γ} {l : List α} {l' : List β} (h : List.Forall₂ R l l')
    (hfg : ∀ a ∈ l, ∀ b, R a b → (g b).Perm (f a)) : (l'.flatMap g).Perm (l.flatMap f) := by
  induction h with
  | nil => exact .refl _
  | cons hab _ ih =>
    rw [List.flatMap_cons, List.flatMap_cons]
    exact (hfg _ List.mem_cons_self _ hab).append
      (ih fun a ha => hfg a (List.mem_cons_of_mem _ ha))

variable {es : List Entry}
  (hes : List.Forall₂ (ReadAs d.render) (namespaces.flatMap d.itemsOf) es)

include hes

/-- The replacements for the entries are those of the numbers. -/
theorem entryEdits_all_perm (hd : d.Lexical) (lengths : Text → ℕ) :
    (es.flatMap (entryEdits lengths)).Perm (d.numberSlots.map (numberEdit lengths)) := by
  have hmap : d.numberSlots.map (numberEdit lengths) =
      d.itemNodes.flatMap fun p => (p.2.numberSlots p.1).map (numberEdit lengths) :=
    List.map_flatMap
  rw [hmap]
  refine List.Perm.trans ?_ ((itemsOf_perm d).flatMap_right _)
  refine flatMap_perm_of_forall₂ hes fun p hp e he => ?_
  exact entryEdits_perm he.of (itemNodes_in hd ((itemsOf_perm d).mem_iff.mp hp)) he.plain lengths

/-- The replacements of the rewritten packet are those of the numbers. -/
theorem edits_relength (lengths : Text → ℕ) :
    Weave.edits 0 (d.script (itemRewriter lengths)) = d.numberSlots.map (numberEdit lengths) := by
  rw [edits_rewrite, Document.numberSlots, List.map_flatMap]
  refine List.flatMap_congr fun p hp => ?_
  have hp' := (itemsOf_perm d).mem_iff.mpr hp
  obtain ⟨e, -, he⟩ := exists_of_forall₂
    (List.Forall₂.flip (R := flip (ReadAs d.render)) hes) hp'
  exact edits_itemRewriter he.of he.plain lengths

/-- The packet with other lengths is spelled by the text with other lengths. -/
theorem withLengths_eq (lengths : Text → ℕ) :
    d.withLengths lengths = (d.relength lengths).render := by
  have hweave := Weave.weave_gaps_edits (d.script (itemRewriter lengths))
  rw [before_script, after_script, edits_relength hes, List.map_map, List.map_map] at hweave
  exact hweave

end

end Zencodec.Container
