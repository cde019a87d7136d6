/-
When two fields of a document have the same path.

Names, numbers and labels end where their marks stand, so the only part of a path
whose end cannot be told is a namespace: an XML namespace is any text, brackets
and braces included.  Two different addresses are spelled alike only if the
namespace of one runs on over the text of the other (`RunsOver`), or if an element
has an attribute of no namespace and one of the empty namespace (`alike`); the
paths of a snapshot are distinct precisely when its document is `Unambiguous`
(`paths_nodup_iff`).
-/
import Zencodec.Xmp.Address

open StableSort

namespace Zencodec.Xmp

/-! ### Marks -/

section Marks

variable {c : Char} {x y : Text}

/-- A text is determined up to a mark that it does not contain. -/
theorem cut_at : ∀ {a b : Text}, c ∉ a → c ∉ b → a ++ c :: x = b ++ c :: y → a = b ∧ x = y
  | [], [], _, _, h => ⟨rfl, (List.cons.inj h).2⟩
  | [], d :: b, _, hb, h => absurd ((List.cons.inj h).1 ▸ List.mem_cons_self) hb
  | d :: a, [], ha, _, h => absurd ((List.cons.inj h).1 ▸ List.mem_cons_self) ha
  | d :: a, e :: b, ha, hb, h => by
    obtain ⟨rfl, htail⟩ := List.cons.inj h
    obtain ⟨rfl, rfl⟩ := cut_at (fun h => ha (List.mem_cons_of_mem _ h))
      (fun h => hb (List.mem_cons_of_mem _ h)) htail
    exact ⟨rfl, rfl⟩

/-- A text is determined from its last mark on. -/
theorem cut_at_last {a b : Text} (hx : c ∉ x) (hy : c ∉ y) (h : a ++ c :: x = b ++ c :: y) :
    a = b ∧ x = y := by
  have hrev : x.reverse ++ c :: a.reverse = y.reverse ++ c :: b.reverse := by
    simpa using congrArg List.reverse h
  obtain ⟨hxy, hab⟩ := cut_at (by simpa using hx) (by simpa using hy) hrev
  exact ⟨List.reverse_injective hab, List.reverse_injective hxy⟩

/-- A text with a mark reaches past every text without one. -/
theorem reach_past {p u z : Text} (hp : c ∉ p) (h : p ++ x = u ++ c :: z) :
    ∃ t, u = p ++ t ∧ x = t ++ c :: z := by
  rcases List.append_eq_append_iff.mp h with ⟨t, hu, hx⟩ | ⟨t, hpt, hz⟩
  · exact ⟨t, hu, hx⟩
  · cases t with
    | nil => exact ⟨[], by simpa using hpt.symm, by simpa using hz.symm⟩
    | cons d t =>
      obtain ⟨rfl, -⟩ := List.cons.inj hz
      exact absurd (hpt ▸ List.mem_append_right _ List.mem_cons_self) hp

theorem decimal_inj {m n : ℕ} (h : decimal m = decimal n) : m = n := by
  have hm := @Nat.ofDigitChars_ten_toDigits m
  rw [show Nat.toDigits 10 m = Nat.toDigits 10 n from h, Nat.ofDigitChars_ten_toDigits] at hm
  exact hm.symm

theorem notMem_decimal (hc : c.isDigit = false) (n : ℕ) : c ∉ decimal n := by
  intro h
  have hd := Nat.isDigit_of_mem_toDigits (by decide) (by decide) h
  rw [hc] at hd
  cases hd

end Marks

/-! ### Addresses spelled alike -/

/-- Local names are XML names. -/
def Step.Plain : Step → Prop
  | .element _ name _ => '}' ∉ name ∧ '[' ∉ name
  | .other _ _ => True
  | .attr _ name => '}' ∉ name

/-- The addresses of fields: attributes have nothing below them. -/
structure Shaped (a : List Step) : Prop where
  plain : ∀ s ∈ a, s.Plain
  last : ∀ before ns name rest, a = before ++ .attr ns name :: rest → rest = []

theorem Shaped.of_cons {s : Step} {a : List Step} (h : Shaped (s :: a)) : Shaped a where
  plain t ht := h.plain t (List.mem_cons_of_mem _ ht)
  last before ns name rest heq := h.last (s :: before) ns name rest (by rw [heq]; rfl)

/-- The namespace of an element of `b` runs on over the text of `a`: after the steps the
two share it begins with the namespace of the next element of `a`, goes on with a `}`,
the rest of that element and the text below it as far as another `}`, and from there on
the two read alike. -/
def RunsOver (a b : List Step) : Prop :=
  ∃ shared ns name index rest ns' name' index' rest' text,
    a = shared ++ .element ns name index :: rest ∧
    b = shared ++ .element ns' name' index' :: rest' ∧
    ns' = ns ++ '}' :: (name ++ '[' :: (decimal index ++ ']' :: text)) ∧
    spell rest = text ++ '}' :: (name' ++ '[' :: (decimal index' ++ ']' :: spell rest'))

theorem RunsOver.cons {a b : List Step} (h : RunsOver a b) (s : Step) :
    RunsOver (s :: a) (s :: b) := by
  obtain ⟨shared, ns, name, index, rest, ns', name', index', rest', text, ha, hb, h⟩ := h
  exact ⟨s :: shared, ns, name, index, rest, ns', name', index', rest', text,
    congrArg (s :: ·) ha, congrArg (s :: ·) hb, h⟩

theorem RunsOver.spell_eq {a b : List Step} (h : RunsOver a b) : spell a = spell b := by
  obtain ⟨shared, ns, name, index, rest, ns', name', index', rest', text, rfl, rfl, rfl, h⟩ := h
  simp only [spell_append, spell_cons, Step.spell, h, List.cons_append, List.append_assoc,
    List.nil_append]

theorem RunsOver.ne {a b : List Step} (h : RunsOver a b) : a ≠ b := by
  obtain ⟨shared, ns, name, index, rest, ns', name', index', rest', text, rfl, rfl, rfl, -⟩ := h
  intro heq
  have hstep := (List.cons.inj (List.append_cancel_left heq)).1
  simp only [Step.element.injEq] at hstep
  have hlen := congrArg List.length hstep.1
  simp only [List.length_append, List.length_cons] at hlen
  omega

/-- An attribute of no namespace and one of the empty namespace. -/
def EmptyNamespace (a b : List Step) : Prop :=
  ∃ shared name, a = shared ++ [.attr none name] ∧ b = shared ++ [.attr (some []) name]

theorem EmptyNamespace.cons {a b : List Step} (h : EmptyNamespace a b) (s : Step) :
    EmptyNamespace (s :: a) (s :: b) := by
  obtain ⟨shared, name, rfl, rfl⟩ := h
  exact ⟨s :: shared, name, rfl, rfl⟩

/-- The ways in which two different addresses may be spelled alike. -/
def Alike (a b : List Step) : Prop :=
  (RunsOver a b ∨ RunsOver b a) ∨ EmptyNamespace a b ∨ EmptyNamespace b a

theorem Alike.cons {a b : List Step} (h : Alike a b) (s : Step) : Alike (s :: a) (s :: b) := by
  rcases h with (h | h) | h | h
  · exact Or.inl (Or.inl (h.cons s))
  · exact Or.inl (Or.inr (h.cons s))
  · exact Or.inr (Or.inl (h.cons s))
  · exact Or.inr (Or.inr (h.cons s))

theorem Label.bracket_notMem (l : Label) : '[' ∉ l.name := by cases l <;> decide

theorem Label.name_inj {l m : Label} (h : l.name = m.name) : l = m := by
  revert h
  cases l <;> cases m <;> decide

/-- The number of a step, up to its bracket. -/
theorem cut_index {i j : ℕ} {x y : Text}
    (h : decimal i ++ ']' :: x = decimal j ++ ']' :: y) : i = j ∧ x = y := by
  obtain ⟨hij, hxy⟩ := cut_at (notMem_decimal (by decide) i) (notMem_decimal (by decide) j) h
  exact ⟨decimal_inj hij, hxy⟩

/-- Two elements whose texts begin alike: one namespace is longer and runs on over the
other address. -/
theorem runsOver_of_elements {ns ns' name name' : Text} {i j : ℕ} {a b : List Step}
    (hn : '}' ∉ name ∧ '[' ∉ name) (hn' : '[' ∉ name')
    (hne : Step.element ns name i ≠ .element ns' name' j)
    {u : Text} (hu : ns' = ns ++ u)
    (h : '}' :: (name ++ '[' :: (decimal i ++ ']' :: spell a)) =
      u ++ '}' :: (name' ++ '[' :: (decimal j ++ ']' :: spell b))) :
    RunsOver (.element ns name i :: a) (.element ns' name' j :: b) := by
  cases u with
  | nil =>
    -- equal namespaces: the names and numbers end at their marks, and agree
    obtain ⟨rfl, hrest⟩ := cut_at hn.2 hn' (List.cons.inj h).2
    obtain ⟨rfl, -⟩ := cut_index hrest
    exact absurd (by rw [hu, List.append_nil]) hne
  | cons c u =>
    obtain ⟨rfl, h⟩ := List.cons.inj h
    have hp : '}' ∉ name ++ '[' :: (decimal i ++ [']']) := by
      have hd := notMem_decimal (c := '}') (by decide) i
      simp [hn.1, hd]
    obtain ⟨text, hut, hat⟩ := @reach_past '}' (spell a) _ u _ hp (by simpa using h)
    refine ⟨[], ns, name, i, a, ns', name', j, b, text, rfl, rfl, ?_, hat⟩
    rw [hu, hut]
    simp

/-- Addresses that differ at once but are spelled alike. -/
theorem alike_of_heads {s t : Step} {a b : List Step} (ha : Shaped (s :: a))
    (hb : Shaped (t :: b)) (hne : s ≠ t) (h : spell (s :: a) = spell (t :: b)) :
    Alike (s :: a) (t :: b) := by
  have hs := ha.plain s List.mem_cons_self
  have ht := hb.plain t List.mem_cons_self
  cases s with
  | element ns name i =>
    cases t with
    | element ns' name' j =>
      simp only [spell_cons, Step.spell, List.cons_append, List.append_assoc, List.nil_append,
        List.cons.injEq, true_and] at h
      rcases List.append_eq_append_iff.mp h with ⟨u, hu, h⟩ | ⟨u, hu, h⟩
      · exact Or.inl (Or.inl (runsOver_of_elements hs ht.2 hne hu h))
      · exact Or.inl (Or.inr (runsOver_of_elements ht hs.2 hne.symm hu h))
    | other label j => cases label <;> simp [Step.spell, Label.name] at h
    | attr ns' name' => simp [Step.spell] at h
  | other label i =>
    cases t with
    | element ns' name' j => cases label <;> simp [Step.spell, Label.name] at h
    | other label' j =>
      simp only [spell_cons, Step.spell, List.cons_append, List.append_assoc, List.nil_append,
        List.cons.injEq, true_and] at h
      obtain ⟨hlabel, hrest⟩ := cut_at label.bracket_notMem label'.bracket_notMem h
      rw [Label.name_inj hlabel, (cut_index hrest).1] at hne
      exact absurd rfl hne
    | attr ns' name' => cases label <;> simp [Step.spell, Label.name] at h
  | attr ns name =>
    cases t with
    | element ns' name' j => simp [Step.spell] at h
    | other label j => cases label <;> simp [Step.spell, Label.name] at h
    | attr ns' name' =>
      obtain rfl : a = [] := ha.last [] ns name a rfl
      obtain rfl : b = [] := hb.last [] ns' name' b rfl
      simp only [spell_cons, Step.spell, spell_nil, List.append_nil, List.cons.injEq,
        true_and] at h
      obtain ⟨hns, rfl⟩ := cut_at_last hs ht h
      -- the namespaces read alike but differ: one is absent, the other empty
      match ns, ns', hns with
      | none, none, _ => exact absurd rfl hne
      | none, some e, he =>
        obtain rfl : [] = e := he
        exact Or.inr (Or.inl ⟨[], name, rfl, rfl⟩)
      | some e, none, he =>
        obtain rfl : e = [] := he
        exact Or.inr (Or.inr ⟨[], name, rfl, rfl⟩)
      | some e, some e', he =>
        obtain rfl : e = e' := he
        exact absurd rfl hne

theorem Step.spell_ne_nil (s : Step) (t : Text) : s.spell ++ t ≠ [] := by
  cases s <;> simp [Step.spell]

/-- **Different addresses are spelled alike only if a namespace runs on over the other
address, or is empty where the other has none.** -/
theorem alike {a : List Step} : ∀ {b : List Step}, Shaped a → Shaped b →
    spell a = spell b → a ≠ b → Alike a b := by
  induction a with
  | nil =>
    intro b _ _ h hne
    cases b with
    | nil => exact absurd rfl hne
    | cons t b => exact absurd h.symm (t.spell_ne_nil _)
  | cons s a ih =>
    intro b ha hb h hne
    cases b with
    | nil => exact absurd h (s.spell_ne_nil _)
    | cons t b =>
      by_cases hst : s = t
      · subst hst
        rw [spell_cons, spell_cons] at h
        have htail : Alike a b := ih ha.of_cons hb.of_cons (List.append_cancel_left h)
          (fun hab => hne (by rw [hab]))
        exact htail.cons s
      · exact alike_of_heads ha hb hst h

/-! ### The paths of a document -/

namespace Document

variable {d : Document}

/-- No two fields of the document have names, numbers and namespaces that run together. -/
structure Unambiguous (d : Document) : Prop where
  namespaces : ∀ a ∈ d.addresses, ∀ b ∈ d.addresses, ¬RunsOver a b
  attributes : ∀ r ∈ d.nodes, ∀ a ∈ r.node.attributes, ∀ b ∈ r.node.attributes,
    a.ns = none → b.ns = some [] → a.name ≠ b.name

theorem shaped_snoc {a : List Step} {s : Step}
    (ha : ∀ t ∈ a, t.Plain ∧ ∀ ns name, t ≠ .attr ns name) (hs : s.Plain) : Shaped (a ++ [s]) where
  plain t ht := by
    rcases List.mem_append.mp ht with ht | ht
    · exact (ha t ht).1
    · rw [List.mem_singleton.mp ht]
      exact hs
  last before ns name rest h := by
    rcases List.eq_nil_or_concat rest with rfl | ⟨init, x, rfl⟩
    · rfl
    · have hinit : a = before ++ .attr ns name :: init := by
        rw [List.concat_eq_append, ← List.cons_append, ← List.append_assoc] at h
        exact (List.append_inj' h rfl).1
      exact absurd rfl ((ha _ (hinit ▸ List.mem_append_right _ List.mem_cons_self)).2 ns name)

theorem Node.step_plain {n : Node} (hn : n.Plain) (i : ℕ) :
    (n.step i).Plain ∧ ∀ ns name, n.step i ≠ .attr ns name := by
  cases n with
  | element ns name attributes =>
    exact ⟨hn.element ns name attributes rfl, fun _ _ h => Step.noConfusion h⟩
  | comment _ => exact ⟨trivial, fun _ _ h => Step.noConfusion h⟩
  | pi _ _ => exact ⟨trivial, fun _ _ h => Step.noConfusion h⟩
  | text _ => exact ⟨trivial, fun _ _ h => Step.noConfusion h⟩

/-- The steps to a node are steps to nodes. -/
theorem address_steps (d : Document) (id : ℕ) :
    ∀ t ∈ d.address id, t.Plain ∧ ∀ ns name, t ≠ .attr ns name := by
  induction id using Nat.strong_induction_on with
  | _ id ih =>
    intro t ht
    cases id with
    | zero => rw [address_zero] at ht; cases ht
    | succ i =>
      rcases hr : d.nodes[i]? with - | r
      · rw [address_none hr] at ht
        cases ht
      · rw [address_succ hr] at ht
        rcases List.mem_append.mp ht with ht | ht
        · exact ih _ (Nat.lt_succ_of_le (d.parent_le i r hr)) t ht
        · rw [List.mem_singleton.mp ht]
          exact Node.step_plain (d.plain r (List.mem_of_getElem? hr)) _

/-- A field's address is that of a node, or goes on to one of its attributes. -/
theorem mem_addresses {x : List Step} (h : x ∈ d.addresses) :
    ∃ i r, d.nodes[i]? = some r ∧
      (x = d.address (i + 1) ∨
        ∃ a ∈ r.node.attributes, x = d.address (i + 1) ++ [a.step]) := by
  obtain ⟨⟨x, v⟩, hx, rfl⟩ := List.mem_map.mp h
  obtain ⟨i, -, hi⟩ := List.mem_flatMap.mp hx
  rcases hr : d.nodes[i]? with - | r
  · rw [listedAt, hr] at hi; cases hi
  · rw [listedAt_of hr] at hi
    exact ⟨i, r, hr, mem_listed hi⟩

theorem attribute_mem_addresses {i : ℕ} {r : Row} (hr : d.nodes[i]? = some r) {a : Attribute}
    (ha : a ∈ r.node.attributes) : d.address (i + 1) ++ [a.step] ∈ d.addresses := by
  have hi : i < d.nodes.length := (List.getElem?_eq_some_iff.mp hr).1
  refine List.mem_map.mpr ⟨(d.address (i + 1) ++ [a.step], a.value), ?_, rfl⟩
  refine List.mem_flatMap.mpr ⟨i, List.mem_range.mpr hi, ?_⟩
  rw [listedAt_of hr]
  cases hn : r.node with
  | element ns name attributes =>
    rw [hn] at ha
    exact List.mem_cons_of_mem _ (List.mem_map.mpr ⟨a, ha, rfl⟩)
  | comment _ => rw [hn] at ha; cases ha
  | pi _ _ => rw [hn] at ha; cases ha
  | text _ => rw [hn] at ha; cases ha

theorem shaped_of_mem {x : List Step} (h : x ∈ d.addresses) : Shaped x := by
  obtain ⟨i, r, hr, rfl | ⟨a, ha, rfl⟩⟩ := mem_addresses h
  · have hstep := Node.step_plain (d.plain r (List.mem_of_getElem? hr))
    rw [address_succ hr]
    exact shaped_snoc (d.address_steps _) (hstep _).1
  · exact shaped_snoc (d.address_steps _) ((d.plain r (List.mem_of_getElem? hr)).attributes a ha)

/-- An address that ends with an attribute is that of an attribute. -/
theorem of_attribute_mem {shared : List Step} {ns : Option Text} {name : Text}
    (h : shared ++ [.attr ns name] ∈ d.addresses) :
    ∃ i r, d.nodes[i]? = some r ∧ shared = d.address (i + 1) ∧
      ∃ a ∈ r.node.attributes, a.ns = ns ∧ a.name = name := by
  obtain ⟨i, r, hr, hx | ⟨a, ha, hx⟩⟩ := mem_addresses h
  · have hlast := (d.address_steps (i + 1) (.attr ns name)
      (hx ▸ List.mem_append_right _ List.mem_cons_self)).2 ns name
    exact absurd rfl hlast
  · obtain ⟨hshared, hstep⟩ := List.append_inj' hx rfl
    have hstep := List.singleton_inj.mp hstep
    simp only [Attribute.step, Step.attr.injEq] at hstep
    exact ⟨i, r, hr, hshared, a, ha, hstep.1.symm, hstep.2.symm⟩

theorem Unambiguous.not_emptyNamespace (hd : d.Unambiguous) {a b : List Step}
    (ha : a ∈ d.addresses) (hb : b ∈ d.addresses) : ¬EmptyNamespace a b := by
  rintro ⟨shared, name, rfl, rfl⟩
  obtain ⟨i, r, hr, hi, x, hx, hxns, hxname⟩ := of_attribute_mem ha
  obtain ⟨j, s, hs, hj, y, hy, hyns, hyname⟩ := of_attribute_mem hb
  have hij : i = j := Nat.succ.inj (address_inj (List.getElem?_eq_some_iff.mp hr).1
    (List.getElem?_eq_some_iff.mp hs).1 (hi.symm.trans hj))
  subst hij
  obtain rfl : r = s := Option.some.inj (hr.symm.trans hs)
  exact hd.attributes r (List.mem_of_getElem? hr) x hx y hy hxns hyns (hxname.trans hyname.symm)

/-- **Spelling tells the fields of a document apart if and only if it is unambiguous.** -/
theorem spell_inj_iff : (∀ a ∈ d.addresses, ∀ b ∈ d.addresses, spell a = spell b → a = b) ↔
    d.Unambiguous := by
  constructor
  · intro hinj
    refine ⟨fun a ha b hb h => h.ne (hinj a ha b hb h.spell_eq), ?_⟩
    intro r hr a ha b hb hnone hempty hname
    obtain ⟨i, hi⟩ := List.mem_iff_getElem?.mp hr
    -- the two attributes are spelled alike, but their steps differ
    have heq := hinj _ (attribute_mem_addresses hi ha) _ (attribute_mem_addresses hi hb) (by
      simp [Attribute.step, Step.spell, hnone, hempty, hname])
    have hstep := List.singleton_inj.mp (List.append_cancel_left heq)
    simp only [Attribute.step, Step.attr.injEq, hnone, hempty, reduceCtorEq, false_and] at hstep
  · intro hd a ha b hb h
    by_contra hne
    rcases alike (shaped_of_mem ha) (shaped_of_mem hb) h hne with (h | h) | h | h
    · exact hd.namespaces a ha b hb h
    · exact hd.namespaces b hb a ha h
    · exact hd.not_emptyNamespace ha hb h
    · exact hd.not_emptyNamespace hb ha h

/-- **The paths of a snapshot are distinct if and only if its document is unambiguous.** -/
theorem paths_nodup_iff {fs : List Field} (h : Packet.fields d = .ok fs) :
    (fs.map Field.path).Nodup ↔ d.Unambiguous := by
  have hperm : (fs.map Field.path).Perm (d.addresses.map spell) := by
    rw [fields_eq h, addresses, List.map_map]
    have hp := (sortBy_perm Field.path (d.listing.map toField)).map Field.path
    rw [List.map_map] at hp
    exact hp
  rw [hperm.nodup_iff, List.nodup_map_iff_inj_on d.addresses_nodup, spell_inj_iff]

end Document

end Zencodec.Xmp
