/-
Rewriting the numerals of a document.

A `Rewriter` turns nodes into nodes and lists, for each, the parts it keeps and puts.
It carries that the parts spell both nodes, and that only numerals changed.
`Rewriter.children` and `Rewriter.choose` lead one down the tree, `Rewriter.values` puts
values into the fields of an element; the replacements of each are those of the places
where they stand (`edits_children`, `edits_values`).
-/
import Zencodec.Container.Places

namespace Zencodec.Container

open Xmp (Text Attribute)
open Weave (Piece Edit before after edits)

theorem exists_of_forall₂ {α β : Type*} {R : α → β → Prop} {l : List α} {l' : List β}
    (h : List.Forall₂ R l l') {b : β} (hb : b ∈ l') : ∃ a ∈ l, R a b := by
  induction h with
  | nil => exact absurd hb List.not_mem_nil
  | @cons a b' _ _ hab _ ih =>
    rcases List.mem_cons.mp hb with rfl | hb
    · exact ⟨a, List.mem_cons_self, hab⟩
    · obtain ⟨c, hc, hcb⟩ := ih hb
      exact ⟨c, List.mem_cons_of_mem _ hc, hcb⟩

/-! ### Renumbered nodes -/

theorem attrs_renumbered_refl (l : List Attr) : List.Forall₂ Attr.Renumbered l l := by
  induction l with
  | nil => exact .nil
  | cons a l ih => exact .cons .same ih

mutual

theorem Markup.Renumbered.refl : ∀ m : Markup, m.Renumbered m
  | .element t cs =>
    ⟨t.attrs, cs, rfl, attrs_renumbered_refl t.attrs, .inl (RenumberedAll.refl cs)⟩
  | .text _ _ => rfl
  | .comment _ => rfl
  | .pi _ => rfl

theorem RenumberedAll.refl : ∀ ms : List Markup, RenumberedAll ms ms
  | [] => rfl
  | m :: ms => ⟨m, ms, rfl, Markup.Renumbered.refl m, RenumberedAll.refl ms⟩

end

theorem RenumberedAll.map {f : Markup → Markup} {ms : List Markup}
    (h : ∀ m ∈ ms, m.Renumbered (f m)) : RenumberedAll ms (ms.map f) := by
  induction ms with
  | nil => rfl
  | cons m ms ih =>
    exact ⟨f m, ms.map f, rfl, h m List.mem_cons_self,
      ih fun n hn => h n (List.mem_cons_of_mem _ hn)⟩

theorem Markup.Renumbered.eq_of_text {m m' : Markup} (h : m.Renumbered m')
    (hm : m.isElement = false) : m' = m := by
  cases m with
  | element t cs => exact absurd hm (by simp [Markup.isElement])
  | text => exact h
  | comment => exact h
  | pi => exact h

/-- The expanded names of a tag's attributes. -/
def Tag.attributeNames (t : Tag) : List (Option Text × Text) :=
  t.attributes.map fun a => (a.ns, a.name)

/-- The names of a tag, those of its attributes included. -/
def Tag.names (t : Tag) : Option Text × Text × List (Option Text × Text) :=
  (t.ns, t.name, t.attributeNames)

theorem attributeNames_renumbered {l l' : List Attr} (h : List.Forall₂ Attr.Renumbered l l') :
    (l'.filterMap Attr.meaning).map (fun a => (a.ns, a.name)) =
      (l.filterMap Attr.meaning).map fun a => (a.ns, a.name) := by
  induction h with
  | nil => rfl
  | cons ha _ ih =>
    cases ha with
    | same => simp only [List.filterMap_cons]; split <;> simp [ih]
    | numeral m n hm => simp [Attr.set, hm, ih]

theorem names_renumbered {t : Tag} {attrs : List Attr}
    (h : List.Forall₂ Attr.Renumbered t.attrs attrs) : { t with attrs }.names = t.names := by
  simp only [Tag.names, Tag.attributeNames, Tag.attributes]
  rw [attributeNames_renumbered h]

theorem hasName_of_names {t t' : Tag} (h : t'.names = t.names) (ns name : Text) :
    t'.hasName ns name = t.hasName ns name := by
  obtain ⟨hns, hname⟩ := Prod.mk.inj h
  rw [Tag.hasName, Tag.hasName, hns, (Prod.mk.inj hname).1]

theorem hasAttribute_of_names {t t' : Tag} (h : t'.names = t.names) (ns name : Text) :
    t'.hasAttribute ns name = t.hasAttribute ns name := by
  have hattrs : t'.attributeNames = t.attributeNames :=
    (Prod.mk.inj (Prod.mk.inj h).2).2
  have key : ∀ u : Tag, u.hasAttribute ns name =
      u.attributeNames.any fun p => p.1 = some ns && p.2 = name := by
    intro u
    rw [Tag.hasAttribute, Tag.attributeNames, List.any_map]
    rfl
  rw [key, key, hattrs]

theorem HoldsNumeral.ne_nil {ms : List Markup} (h : HoldsNumeral ms) : ms ≠ [] := by
  rintro rfl
  exact h.2.1 rfl

theorem descendantsAll_of_text {ms : List Markup} (h : ∀ m ∈ ms, m.isElement = false)
    (ancestors : List Tag) (s : ℕ) : descendantsAll ancestors s ms = [] := by
  induction ms generalizing s with
  | nil => rfl
  | cons m ms ih =>
    have hrest := ih (fun n hn => h n (List.mem_cons_of_mem _ hn)) (s + m.render.length)
    have hm := h m List.mem_cons_self
    rw [descendantsAll, hrest]
    cases m with
    | element t cs => exact absurd hm (by simp [Markup.isElement])
    | text => rfl
    | comment => rfl
    | pi => rfl

mutual

/-- The elements of a renumbered tree have the names they had. -/
theorem Markup.Renumbered.descendants : ∀ {m m' : Markup}, m.Renumbered m' →
    ∀ (a a' : List Tag) (s s' : ℕ), (m'.descendants a' s').map (·.2.tag.names) =
      (m.descendants a s).map (·.2.tag.names)
  | .element t cs, m', h, a, a', s, s' => by
    obtain ⟨attrs, cs', rfl, hattrs, hcs⟩ := h
    have hnames := names_renumbered hattrs
    rcases hcs with hcs | ⟨hnum, n, -, rfl⟩
    · have ih := RenumberedAll.descendants hcs (t :: a) ({ t with attrs } :: a')
        (s + t.opening.length) (s' + { t with attrs }.opening.length)
      simp only [Markup.descendants, List.map_cons, hnames, ih]
    · simp only [Markup.descendants, List.map_cons, hnames]
      rw [descendantsAll_of_text hnum.1]
      rfl
  | .text _ _, m', h, _, _, _, _ => by
    rw [show m' = _ from h]
    rfl
  | .comment _, m', h, _, _, _, _ => by
    rw [show m' = _ from h]
    rfl
  | .pi _, m', h, _, _, _, _ => by
    rw [show m' = _ from h]
    rfl

theorem RenumberedAll.descendants : ∀ {ms ms' : List Markup}, RenumberedAll ms ms' →
    ∀ (a a' : List Tag) (s s' : ℕ), (descendantsAll a' s' ms').map (·.2.tag.names) =
      (descendantsAll a s ms).map (·.2.tag.names)
  | [], ms', h, _, _, _, _ => by
    rw [show ms' = [] from h]
    rfl
  | m :: ms, ms', h, a, a', s, s' => by
    obtain ⟨m', rest, rfl, hm, hms⟩ := h
    have h₁ := Markup.Renumbered.descendants hm a a' s s'
    have h₂ := RenumberedAll.descendants hms a a' (s + m.render.length) (s' + m'.render.length)
    simp only [descendantsAll, List.map_append, h₁, h₂]

end

mutual

/-- A renumbered tree is no deeper. -/
theorem Markup.Renumbered.ancestorCounts : ∀ {m m' : Markup}, m.Renumbered m' →
    ∀ (above : ℕ), m'.ancestorCounts above ⊆ m.ancestorCounts above
  | .element t cs, m', h, above => by
    obtain ⟨attrs, cs', rfl, -, hcs⟩ := h
    rcases hcs with hcs | ⟨hnum, n, -, rfl⟩
    · exact List.cons_subset_cons _ (RenumberedAll.ancestorCounts hcs (above + 1))
    · -- the numeral stood in some text node
      obtain ⟨m, ms, rfl⟩ := List.exists_cons_of_ne_nil hnum.ne_nil
      have hm : m.ancestorCounts (above + 1) = [above + 1 + 1] := by
        have := hnum.1 m List.mem_cons_self
        cases m with
        | element t cs => exact absurd this (by simp [Markup.isElement])
        | text => rfl
        | comment => rfl
        | pi => rfl
      have hcounts : ancestorCountsAll (above + 1) (m :: ms) =
          (above + 1 + 1) :: ancestorCountsAll (above + 1) ms := by
        rw [ancestorCountsAll, hm]
        rfl
      refine List.cons_subset_cons _ ?_
      rw [hcounts]
      exact List.cons_subset_cons _ (List.nil_subset _)
  | .text _ _, m', h, _ => by rw [show m' = _ from h]; exact List.Subset.refl _
  | .comment _, m', h, _ => by rw [show m' = _ from h]; exact List.Subset.refl _
  | .pi _, m', h, _ => by rw [show m' = _ from h]; exact List.Subset.refl _

theorem RenumberedAll.ancestorCounts : ∀ {ms ms' : List Markup}, RenumberedAll ms ms' →
    ∀ (above : ℕ), ancestorCountsAll above ms' ⊆ ancestorCountsAll above ms
  | [], ms', h, _ => by rw [show ms' = [] from h]; exact List.Subset.refl _
  | m :: ms, ms', h, above => by
    obtain ⟨m', rest, rfl, hm, hms⟩ := h
    exact List.append_subset.mpr
      ⟨List.subset_append_of_subset_left _ (Markup.Renumbered.ancestorCounts hm above),
        List.subset_append_of_subset_right _ (RenumberedAll.ancestorCounts hms above)⟩

end

/-! ### Rewriters -/

structure Rewriter where
  target : Markup → Markup
  script : Markup → List (Piece Char)
  before_script : ∀ m : Markup, before (script m) = m.render
  after_script : ∀ m : Markup, after (script m) = (target m).render
  renumbered : ∀ m : Markup, m.Renumbered (target m)
  /-- Where nothing was, nothing is put. -/
  proper : ∀ m : Markup, m.Lexical → ∀ p ∈ script m, p.Proper
  /-- Text, comments and instructions are kept. -/
  script_text : ∀ m : Markup, m.isElement = false → script m = [.keep m.render]

/-- `f` of an element, `other` of any other node. -/
def Markup.onElement {β : Type*} (f : Tag → List Markup → β) (other : β) : Markup → β
  | .element t cs => f t cs
  | _ => other

namespace Rewriter

variable (r q : Rewriter)

/-- Keeps everything. -/
def keep : Rewriter where
  target m := m
  script m := [.keep m.render]
  before_script _ := List.append_nil _
  after_script _ := List.append_nil _
  renumbered := Markup.Renumbered.refl
  proper m _ p hp := by
    rw [List.mem_singleton.mp hp]
    trivial
  script_text _ _ := rfl

/-- What is done to elements. -/
def onElements (target : Tag → List Markup → Markup)
    (script : Tag → List Markup → List (Piece Char))
    (hb : ∀ t cs, before (script t cs) = (Markup.element t cs).render)
    (ha : ∀ t cs, after (script t cs) = (target t cs).render)
    (hr : ∀ t cs, (Markup.element t cs).Renumbered (target t cs))
    (hp : ∀ t cs, (Markup.element t cs).Lexical → ∀ p ∈ script t cs, p.Proper) : Rewriter where
  target m := m.onElement target m
  script m := m.onElement script [.keep m.render]
  before_script m := by
    cases m with
    | element t cs => exact hb t cs
    | text => exact keep.before_script _
    | comment => exact keep.before_script _
    | pi => exact keep.before_script _
  after_script m := by
    cases m with
    | element t cs => exact ha t cs
    | text => exact keep.after_script _
    | comment => exact keep.after_script _
    | pi => exact keep.after_script _
  renumbered m := by
    cases m with
    | element t cs => exact hr t cs
    | text => exact Markup.Renumbered.refl _
    | comment => exact Markup.Renumbered.refl _
    | pi => exact Markup.Renumbered.refl _
  proper m hm := by
    cases m with
    | element t cs => exact hp t cs hm
    | text => exact keep.proper _ hm
    | comment => exact keep.proper _ hm
    | pi => exact keep.proper _ hm
  script_text m hm := by
    cases m with
    | element t cs => exact absurd hm (by simp [Markup.isElement])
    | text => rfl
    | comment => rfl
    | pi => rfl

/-- The one or the other, as the element is. -/
def choose (c : Tag → Bool) : Rewriter :=
  onElements
    (fun t cs => if c t then r.target (.element t cs) else q.target (.element t cs))
    (fun t cs => if c t then r.script (.element t cs) else q.script (.element t cs))
    (fun t cs => by
      split
      · exact r.before_script _
      · exact q.before_script _)
    (fun t cs => by
      split
      · exact r.after_script _
      · exact q.after_script _)
    (fun t cs => by
      split
      · exact r.renumbered _
      · exact q.renumbered _)
    (fun t cs h => by
      split
      · exact r.proper _ h
      · exact q.proper _ h)

theorem before_flatMap_script (ms : List Markup) : before (ms.flatMap r.script) = renderAll ms := by
  induction ms with
  | nil => rfl
  | cons m ms ih => rw [List.flatMap_cons, Weave.before_append, r.before_script, ih, renderAll_cons]

theorem after_flatMap_script (ms : List Markup) :
    after (ms.flatMap r.script) = renderAll (ms.map r.target) := by
  induction ms with
  | nil => rfl
  | cons m ms ih =>
    rw [List.flatMap_cons, Weave.after_append, r.after_script, ih, List.map_cons, renderAll_cons]

theorem proper_flatMap_script {ms : List Markup} (h : LexicalAll ms) :
    ∀ p ∈ ms.flatMap r.script, p.Proper := by
  induction ms with
  | nil => exact fun p hp => absurd hp List.not_mem_nil
  | cons m ms ih =>
    intro p hp
    rw [List.flatMap_cons] at hp
    rcases List.mem_append.mp hp with hp | hp
    · exact r.proper m h.1 p hp
    · exact ih h.2 p hp

/-- Rewrites the children. -/
def children : Rewriter :=
  onElements
    (fun t cs => .element t (cs.map r.target))
    (fun t cs => .keep t.opening :: (cs.flatMap r.script ++ [.keep t.ending]))
    (fun t cs => by
      rw [Weave.before_cons, Weave.before_append, before_flatMap_script]
      simp [Piece.old])
    (fun t cs => by
      rw [Weave.after_cons, Weave.after_append, after_flatMap_script]
      simp [Piece.new])
    (fun t cs => ⟨t.attrs, _, rfl, attrs_renumbered_refl t.attrs,
      .inl (RenumberedAll.map fun m _ => r.renumbered m)⟩)
    (fun t cs h p hp => by
      rcases List.mem_cons.mp hp with rfl | hp
      · trivial
      · rcases List.mem_append.mp hp with hp | hp
        · exact r.proper_flatMap_script h.2.2 p hp
        · rw [List.mem_singleton.mp hp]
          trivial)

theorem target_text {m : Markup} (h : m.isElement = false) : r.target m = m :=
  (r.renumbered m).eq_of_text h

/-- The replacements of a node that starts at `s`. -/
def edits (s : ℕ) (m : Markup) : List (Edit Char) := Weave.edits s (r.script m)

theorem edits_text {s : ℕ} {m : Markup} (h : m.isElement = false) : r.edits s m = [] := by
  rw [edits, r.script_text m h]
  rfl

theorem edits_choose (c : Tag → Bool) (s : ℕ) (n : Node) :
    (r.choose q c).edits s n.markup =
      if c n.tag then r.edits s n.markup else q.edits s n.markup := by
  show Weave.edits s (if c n.tag then r.script n.markup else q.script n.markup) = _
  split <;> rfl

@[simp] theorem edits_keep (s : ℕ) (m : Markup) : keep.edits s m = [] := rfl

theorem edits_flatMap_script (s : ℕ) (ms : List Markup) :
    Weave.edits s (ms.flatMap r.script) =
      (elementsFrom s ms).flatMap fun n => r.edits n.start n.markup := by
  induction ms generalizing s with
  | nil => rfl
  | cons m ms ih =>
    rw [List.flatMap_cons, Weave.edits_append, ih, r.before_script, elementsFrom,
      List.flatMap_append]
    congr 1
    cases m with
    | element t cs => exact (List.append_nil _).symm
    | text => exact r.edits_text rfl
    | comment => exact r.edits_text rfl
    | pi => exact r.edits_text rfl

theorem edits_children (n : Node) :
    r.children.edits n.start n.markup =
      n.elements.flatMap fun c => r.edits c.start c.markup := by
  show Weave.edits n.start (.keep n.tag.opening :: (n.children.flatMap r.script ++ _)) = _
  rw [Weave.edits_keep, Weave.edits_append, edits_flatMap_script]
  exact List.append_nil _

theorem target_choose (c : Tag → Bool) (n : Node) :
    (r.choose q c).target n.markup = if c n.tag then r.target n.markup else q.target n.markup :=
  rfl

theorem target_children (n : Node) :
    r.children.target n.markup = .element n.tag (n.children.map r.target) := rfl

end Rewriter

/-! ### The elements of a rewritten node -/

/-- `n'` is the node that `n` is rewritten to. -/
def Rewriter.Maps (r : Rewriter) (n n' : Node) : Prop := n'.markup = r.target n.markup

theorem maps_elementsFrom (r : Rewriter) (ms : List Markup) (s s' : ℕ) :
    List.Forall₂ r.Maps (elementsFrom s ms) (elementsFrom s' (ms.map r.target)) := by
  induction ms generalizing s s' with
  | nil => exact .nil
  | cons m ms ih =>
    rw [List.map_cons, elementsFrom, elementsFrom]
    refine List.rel_append ?_ (ih _ _)
    cases m with
    | element t cs =>
      obtain ⟨attrs, cs', hcs', -⟩ := r.renumbered (.element t cs)
      rw [hcs']
      exact .cons hcs'.symm .nil
    | text => rw [r.target_text rfl]; exact .nil
    | comment => rw [r.target_text rfl]; exact .nil
    | pi => rw [r.target_text rfl]; exact .nil

theorem filterMap_value?_map (r : Rewriter) (ms : List Markup) :
    (ms.map r.target).filterMap Markup.value? = ms.filterMap Markup.value? := by
  rw [List.filterMap_map]
  refine List.filterMap_congr fun m _ => ?_
  cases m with
  | element t cs =>
    obtain ⟨attrs, cs', hcs', -⟩ := r.renumbered (.element t cs)
    rw [Function.comp_apply, hcs']
    rfl
  | text => rw [Function.comp_apply, r.target_text rfl]
  | comment => rw [Function.comp_apply, r.target_text rfl]
  | pi => rw [Function.comp_apply, r.target_text rfl]

namespace Rewriter.Maps

variable {r : Rewriter} {n n' : Node}

/-- A rewritten element has the names it had. -/
theorem names (h : r.Maps n n') : n'.tag.names = n.tag.names := by
  obtain ⟨attrs, cs', htarget, hattrs, -⟩ := r.renumbered n.markup
  obtain ⟨htag, -⟩ := Markup.element.inj (h.trans htarget)
  rw [htag]
  exact names_renumbered hattrs

theorem hasName (h : r.Maps n n') (ns name : Text) :
    n'.tag.hasName ns name = n.tag.hasName ns name :=
  hasName_of_names h.names ns name

theorem tag (h : r.children.Maps n n') : n'.tag = n.tag :=
  (Markup.element.inj (h.trans (r.target_children n))).1

theorem children (h : r.children.Maps n n') : n'.children = n.children.map r.target :=
  (Markup.element.inj (h.trans (r.target_children n))).2

theorem elements (h : r.children.Maps n n') : List.Forall₂ r.Maps n.elements n'.elements := by
  rw [Node.elements, Node.elements, h.children]
  exact maps_elementsFrom r n.children _ _

theorem hasText (h : r.children.Maps n n') : n'.hasText = n.hasText := by
  rw [Node.hasText, Node.hasText, h.children, filterMap_value?_map]

end Rewriter.Maps

end Zencodec.Container
