/-
`Inventory.validate` is exact.

`Tiled inv` is what a valid inventory is: the parts are non-empty and lie inside the
input and inside their parents, siblings do not meet, the top level covers the input, and
the children of a part with a declared body cover the body.

* `validate_eq_ok_iff` — of an inventory whose sibling lists are right, `validate` accepts
  exactly the tiled ones;
* `validate_pushes` — so it does after any run of pushes.

A declared body is to be covered also when the part has no children at all:
`validate_childlessBox`.
-/
import Zencodec.Inventory.Links
import Zencodec.Lib.Checks

open StableSort Tiling Checks

namespace Zencodec

namespace Inventory

variable {inv : Inventory}

/-! ### Coverage, in terms of the parts alone -/

/-- Every byte is accounted for, where the bodies of the parts in `bodies` are to be
covered. -/
structure Covered (inv : Inventory) (bodies : PartId → Prop) : Prop where
  nonempty : ∀ (i : PartId) (part : Part), inv.parts[i]? = some part → part.range.Nonempty
  inBounds : ∀ (i : PartId) (part : Part), inv.parts[i]? = some part →
    part.range.stop ≤ inv.len
  inParent : ∀ (i : PartId) (part : Part) (p : PartId), inv.parts[i]? = some part →
    part.parent = some p → p < i ∧ ∃ parent : Part, inv.parts[p]? = some parent ∧
      part.range.Within (parent.body.getD parent.range)
  disjoint : ∀ (i j : PartId) (a b : Part), inv.parts[i]? = some a →
    inv.parts[j]? = some b → i ≠ j → a.parent = b.parent → a.range.Disjoint b.range
  top : ∀ x, (∃ (i : PartId) (part : Part), inv.parts[i]? = some part ∧
    part.parent = none ∧ x ∈ part.range) ↔ x < inv.len
  body : ∀ (p : PartId) (parent : Part) (body : Span ℕ), inv.parts[p]? = some parent →
    bodies p → parent.body = some body → ∀ x, (∃ (i : PartId) (part : Part),
      inv.parts[i]? = some part ∧ part.parent = some p ∧ x ∈ part.range) ↔ x ∈ body

/-- Every byte is accounted for, and every declared body is covered. -/
structure Tiled (inv : Inventory) : Prop extends Covered inv fun _ => True where
  bodyIn : ∀ (i : PartId) (part : Part) (body : Span ℕ), inv.parts[i]? = some part →
    part.body = some body → body.start ≤ body.stop ∧ body.Within part.range

/-! ### One part -/

/-- A part by itself and against its parent. -/
structure PartOk (inv : Inventory) (part : Part) (i : ℕ) : Prop where
  nonempty : part.range.Nonempty
  inBounds : part.range.stop ≤ inv.len
  bodyIn : ∀ body ∈ part.body, body.start ≤ body.stop ∧ body.Within part.range
  inParent : ∀ p ∈ part.parent, p < i ∧ part.range.Within (inv.range p)

theorem range_eq {i : PartId} {part : Part} (h : inv.parts[i]? = some part) :
    inv.range i = part.range := by
  rw [range, h, Option.map_some, Option.getD_some]

theorem checkPart_eq_ok_iff {part : Part} {i : ℕ} :
    inv.checkPart part i = .ok () ↔ inv.PartOk part i := by
  have hbody : (¬(part.body.any fun body => body.start < part.range.start ||
      part.range.stop < body.stop || body.stop < body.start) = true) ↔
        ∀ body ∈ part.body, body.start ≤ body.stop ∧ body.Within part.range := by
    cases part.body with
    | none => simp
    | some body =>
      simp only [Option.any_some, Bool.or_eq_true, decide_eq_true_eq, not_or, not_lt,
        Option.mem_def, Option.some.injEq, forall_eq', Span.Within]
      tauto
  have hparent : inv.checkParent part i part.parent = .ok () ↔
      ∀ p ∈ part.parent, p < i ∧ part.range.Within (inv.range p) := by
    cases part.parent with
    | none => simp [checkParent]
    | some p => simp [checkParent, guard_eq_ok, Span.Within]
  rw [checkPart, guard_eq_ok, guard_eq_ok, guard_eq_ok, hbody, hparent]
  constructor
  · rintro ⟨h1, h2, h3, h4⟩
    exact ⟨not_le.mp h1, not_lt.mp h2, h3, h4⟩
  · intro h
    exact ⟨not_le.mpr h.nonempty, not_lt.mpr h.inBounds, h.bodyIn, h.inParent⟩

/-! ### One level -/

theorem checkOverlap_eq_ok_iff (inv : Inventory) : ∀ ids : List PartId,
    inv.checkOverlap ids = .ok () ↔
      (ids.map inv.range).IsChain fun s t => s.stop ≤ t.start
  | [] => by simp [checkOverlap]
  | [a] => by simp [checkOverlap]
  | a :: b :: ids => by
    rw [checkOverlap, guard_eq_ok, checkOverlap_eq_ok_iff inv (b :: ids), not_lt]
    simp only [List.map_cons, List.isChain_cons_cons]

/-- On separated parts the running cursor accepts exactly a tiling. -/
theorem checkCover_eq_ok_iff {parent : Option PartId} {span : Span ℕ} :
    ∀ {ids : List PartId} {cursor : ℕ}, (∀ i ∈ ids, (inv.range i).Nonempty) →
      Separated (ids.map inv.range) → (∀ i ∈ ids, cursor ≤ (inv.range i).start) →
      span.start ≤ cursor → cursor ≤ span.stop →
      (inv.checkCover parent span cursor ids = .ok () ↔
        Tiles cursor span.stop (ids.map inv.range)) := by
  intro ids
  induction ids with
  | nil =>
    intro cursor _ _ _ _ hstop
    rw [checkCover, guard_eq_ok, List.map_nil, Tiles]
    exact ⟨fun h => le_antisymm hstop (not_lt.mp h.1), fun h => ⟨h.not_lt, rfl⟩⟩
  | cons i ids ih =>
    intro cursor hne hsep hcursor hstart hstop
    obtain ⟨hi, hne'⟩ := List.forall_mem_cons.mp hne
    obtain ⟨hfront, hsep'⟩ := List.pairwise_cons.mp hsep
    obtain ⟨hci, -⟩ := List.forall_mem_cons.mp hcursor
    have hnext : ∀ j ∈ ids, (inv.range i).stop ≤ (inv.range j).start := fun j hj =>
      hfront _ (List.mem_map_of_mem hj)
    have hlt : (inv.range i).start < (inv.range i).stop := hi
    rw [checkCover, guard_eq_ok, guard_eq_ok, List.map_cons, Tiles, not_or, not_lt, not_lt,
      not_lt]
    constructor
    · rintro ⟨⟨-, hin⟩, hcover, hrest⟩
      refine ⟨le_antisymm hcover hci, ?_⟩
      exact (ih hne' hsep' hnext (hstart.trans (hci.trans hlt.le)) hin).mp hrest
    · rintro ⟨heq, htiles⟩
      have hle : (inv.range i).stop ≤ span.stop := htiles.le fun s hs => by
        obtain ⟨j, hj, rfl⟩ := List.mem_map.mp hs
        exact hne' j hj
      refine ⟨⟨heq ▸ hstart, hle⟩, heq.le, ?_⟩
      exact (ih hne' hsep' hnext (hstart.trans (hci.trans hlt.le)) hle).mpr htiles

theorem le_start_of_checkCover {parent : Option PartId} {span : Span ℕ} :
    ∀ {ids : List PartId} {cursor : ℕ}, inv.checkCover parent span cursor ids = .ok () →
      ∀ i ∈ ids, span.start ≤ (inv.range i).start := by
  intro ids
  induction ids with
  | nil => exact fun _ i hi => absurd hi List.not_mem_nil
  | cons j ids ih =>
    intro cursor h
    rw [checkCover, guard_eq_ok, guard_eq_ok, not_or, not_lt] at h
    exact List.forall_mem_cons.mpr ⟨h.1.1, ih h.2.2⟩

theorem checkLevel_eq_ok_iff {parent : Option PartId} {ids : List PartId}
    {span : Option (Span ℕ)} (hne : ∀ i ∈ ids, (inv.range i).Nonempty)
    (hsort : ids.Pairwise fun i j => (inv.range i).start ≤ (inv.range j).start)
    (hspan : ∀ s ∈ span, s.start ≤ s.stop) :
    inv.checkLevel parent ids span = .ok () ↔
      (ids.map inv.range).Pairwise Span.Disjoint ∧
        ∀ s ∈ span, ∀ x, (∃ i ∈ ids, x ∈ inv.range i) ↔ x ∈ s := by
  have hne' : ∀ s ∈ ids.map inv.range, s.Nonempty := by
    intro s hs
    obtain ⟨i, hi, rfl⟩ := List.mem_map.mp hs
    exact hne i hi
  have hsort' : (ids.map inv.range).Pairwise fun s t => s.start ≤ t.start :=
    List.pairwise_map.mpr hsort
  have hoverlap : inv.checkOverlap ids = .ok () ↔
      (ids.map inv.range).Pairwise Span.Disjoint := by
    rw [checkOverlap_eq_ok_iff, ← separated_iff_isChain hne', separated_iff hne' hsort']
  cases span with
  | none => simpa [checkLevel] using hoverlap
  | some s =>
    rw [checkLevel, seq_eq_ok, hoverlap]
    refine and_congr_right fun hdisj => ?_
    have hsep : Separated (ids.map inv.range) := (separated_iff hne' hsort').mpr hdisj
    have hcover : (∀ t ∈ some s, ∀ x, (∃ i ∈ ids, x ∈ inv.range i) ↔ x ∈ t) ↔
        ∀ x, (∃ t ∈ ids.map inv.range, x ∈ t) ↔ s.start ≤ x ∧ x < s.stop := by
      simp [Span.mem_def]
    have hle : s.start ≤ s.stop := hspan s rfl
    rw [hcover]
    constructor
    · intro h
      have hstart := le_start_of_checkCover h
      exact ((checkCover_eq_ok_iff hne hsep hstart le_rfl hle).mp h).mem_iff hne'
    · intro h
      have htiles : Tiles s.start s.stop (ids.map inv.range) :=
        (tiles_iff hle hne' hsort').mpr ⟨hdisj, h⟩
      refine (checkCover_eq_ok_iff hne hsep (fun i hi => ?_) le_rfl hle).mpr htiles
      exact htiles.start_le hne' _ (List.mem_map_of_mem hi)

/-- The children of `parent` do not meet, and they cover `span` when there is one. -/
structure LevelOk (inv : Inventory) (parent : Option PartId) (span : Option (Span ℕ)) :
    Prop where
  disjoint : ∀ i j, inv.IsChild parent i → inv.IsChild parent j → i ≠ j →
    (inv.range i).Disjoint (inv.range j)
  cover : ∀ s ∈ span, ∀ x, (∃ i, inv.IsChild parent i ∧ x ∈ inv.range i) ↔ x ∈ s

section

variable (hlinked : inv.Linked)
  (hne : ∀ (i : PartId) (part : Part), inv.parts[i]? = some part → part.range.Nonempty)
include hlinked hne

theorem checkLevel_children {parent : Option PartId} {span : Option (Span ℕ)}
    (hspan : ∀ s ∈ span, s.start ≤ s.stop) :
    inv.checkLevel parent (inv.children parent) span = .ok () ↔
      inv.LevelOk parent span := by
  have hne' : ∀ i ∈ inv.children parent, (inv.range i).Nonempty := by
    intro i hi
    obtain ⟨part, hpart, -⟩ := (mem_children hlinked parent).mp hi
    exact range_eq hpart ▸ hne i part hpart
  have hdisj : ((inv.children parent).map inv.range).Pairwise Span.Disjoint ↔
      ∀ i j, inv.IsChild parent i → inv.IsChild parent j → i ≠ j →
        (inv.range i).Disjoint (inv.range j) := by
    rw [List.pairwise_map]
    constructor
    · intro h i j hi hj hij
      have hsymm : Std.Symm fun a b => (inv.range a).Disjoint (inv.range b) :=
        ⟨fun _ _ hab => hab.symm⟩
      exact h.forall ((mem_children hlinked parent).mpr hi)
        ((mem_children hlinked parent).mpr hj) hij
    · intro h
      refine (children_nodup hlinked parent).pairwise_of_forall_ne fun i hi j hj => ?_
      exact h i j ((mem_children hlinked parent).mp hi) ((mem_children hlinked parent).mp hj)
  rw [checkLevel_eq_ok_iff hne' (children_sorted inv parent) hspan, hdisj]
  simp only [mem_children hlinked parent]
  exact ⟨fun h => ⟨h.1, h.2⟩, fun h => ⟨h.1, h.2⟩⟩

theorem checkChildren_eq_ok_iff {part : Part} {i : PartId}
    (hspan : ∀ s ∈ part.body, s.start ≤ s.stop) :
    inv.checkChildren part i = .ok () ↔ inv.LevelOk (some i) part.body := by
  rw [checkChildren]
  by_cases hleaf : inv.first (some i) = endOfList ∧ part.body = none
  · -- The level that is left out has no parts and nothing to cover.
    rw [if_pos hleaf]
    have hnil : inv.children (some i) = [] :=
      (first_eq_endOfList_iff hlinked _).mp hleaf.1
    have hno : ∀ j, ¬inv.IsChild (some i) j := fun j hj => by
      have hmem := (mem_children hlinked _).mpr hj
      rw [hnil] at hmem
      exact List.not_mem_nil hmem
    refine iff_of_true rfl ⟨fun j _ hj _ _ => absurd hj (hno j), fun s hs => ?_⟩
    rw [hleaf.2] at hs
    cases hs
  · rw [if_neg hleaf]
    exact checkLevel_children hlinked hne hspan

end

/-- What `validate` checks: every part, then every level. -/
theorem validate_eq_ok_iff_levels (h : inv.Linked) :
    inv.validate = .ok () ↔
      (∀ (i : PartId) (part : Part), inv.parts[i]? = some part → inv.PartOk part i) ∧
        inv.LevelOk none (some ⟨0, inv.len⟩) ∧
        ∀ (i : PartId) (part : Part), inv.parts[i]? = some part →
          inv.LevelOk (some i) part.body := by
  have hmem : ∀ (f : Part → ℕ → Except InventoryError Unit),
      inv.parts.zipIdx.forM (fun q => f q.1 q.2) = .ok () ↔
        ∀ (i : PartId) (part : Part), inv.parts[i]? = some part → f part i = .ok () := by
    intro f
    rw [forM_eq_ok]
    constructor
    · intro hall i part hi
      exact hall (part, i) (List.mk_mem_zipIdx_iff_getElem?.mpr hi)
    · rintro hall ⟨part, i⟩ hmem
      exact hall i part (List.mk_mem_zipIdx_iff_getElem?.mp hmem)
  rw [validate, seq_eq_ok, seq_eq_ok]
  refine (and_congr (hmem fun part i => inv.checkPart part i)
    (and_congr_right fun _ => hmem fun part i => inv.checkChildren part i)).trans ?_
  simp only [checkPart_eq_ok_iff]
  refine and_congr_right fun hparts => ?_
  have hne : ∀ (i : PartId) (part : Part), inv.parts[i]? = some part →
      part.range.Nonempty := fun i part hi => (hparts i part hi).nonempty
  refine and_congr (checkLevel_children h hne fun s hs => ?_) ?_
  · cases hs
    exact Nat.zero_le _
  · refine forall_congr' fun i => forall_congr' fun part => forall_congr' fun hi => ?_
    exact checkChildren_eq_ok_iff h hne fun s hs => ((hparts i part hi).bodyIn s hs).1

/-! ### Exactness -/

theorem validate_eq_ok_iff (h : inv.Linked) : inv.validate = .ok () ↔ inv.Tiled := by
  have hcover : ∀ parent x, (∃ i, inv.IsChild parent i ∧ x ∈ inv.range i) ↔
      ∃ (i : PartId) (part : Part), inv.parts[i]? = some part ∧ part.parent = parent ∧
        x ∈ part.range := by
    intro parent x
    constructor
    · rintro ⟨i, ⟨part, hi, hp⟩, hx⟩
      exact ⟨i, part, hi, hp, range_eq hi ▸ hx⟩
    · rintro ⟨i, part, hi, hp, hx⟩
      exact ⟨i, ⟨part, hi, hp⟩, (range_eq hi).symm ▸ hx⟩
  rw [validate_eq_ok_iff_levels h]
  constructor
  · rintro ⟨hparts, htop, hlevels⟩
    refine
      { nonempty := fun i part hi => (hparts i part hi).nonempty
        inBounds := fun i part hi => (hparts i part hi).inBounds
        inParent := fun i part p hi hp => ?_
        disjoint := fun i j a b hi hj hij hab => ?_
        top := fun x => ?_
        body := fun p parent body hp _ hbody x => ?_
        bodyIn := fun i part body hi hbody => (hparts i part hi).bodyIn body hbody }
    · obtain ⟨hlt, hin⟩ := (hparts i part hi).inParent p hp
      have hlen : p < inv.parts.length :=
        hlt.trans (List.getElem?_eq_some_iff.mp hi).1
      have hparent : inv.parts[p]? = some inv.parts[p] := List.getElem?_eq_getElem hlen
      refine ⟨hlt, inv.parts[p], hparent, ?_⟩
      cases hbody : inv.parts[p].body with
      | none => exact range_eq hparent ▸ hin
      | some body =>
        -- Everything the child covers is in the body, since the children cover it exactly.
        refine Span.within_of_subset (hparts i part hi).nonempty fun x hx => ?_
        have hcovered := (hlevels p _ hparent).cover body hbody x
        exact hcovered.mp ((hcover _ x).mpr ⟨i, part, hi, hp, hx⟩)
    · rw [← range_eq hi, ← range_eq hj]
      cases hparent : a.parent with
      | none => exact htop.disjoint i j ⟨a, hi, hparent⟩ ⟨b, hj, hab ▸ hparent⟩ hij
      | some p =>
        have hlen : p < inv.parts.length := ((hparts i a hi).inParent p hparent).1.trans
          (List.getElem?_eq_some_iff.mp hi).1
        exact (hlevels p _ (List.getElem?_eq_getElem hlen)).disjoint i j ⟨a, hi, hparent⟩
          ⟨b, hj, hab ▸ hparent⟩ hij
    · rw [← hcover none x, htop.cover _ rfl x]
      exact ⟨fun hx => hx.2, fun hx => ⟨Nat.zero_le x, hx⟩⟩
    · rw [← hcover (some p) x, (hlevels p parent hp).cover body hbody x]
  · intro ht
    have hdisj : ∀ q i j, inv.IsChild q i → inv.IsChild q j → i ≠ j →
        (inv.range i).Disjoint (inv.range j) := by
      rintro q i j ⟨a, hi, ha⟩ ⟨b, hj, hb⟩ hij
      rw [range_eq hi, range_eq hj]
      exact ht.disjoint i j a b hi hj hij (ha.trans hb.symm)
    refine ⟨fun i part hi => ?_, ⟨hdisj none, ?_⟩, fun i part hi => ⟨hdisj (some i), ?_⟩⟩
    · refine ⟨ht.nonempty i part hi, ht.inBounds i part hi, fun body hbody =>
        ht.bodyIn i part body hi hbody, fun p hp => ?_⟩
      obtain ⟨hlt, parent, hparent, hin⟩ := ht.inParent i part p hi hp
      refine ⟨hlt, ?_⟩
      rw [range_eq hparent]
      cases hbody : parent.body with
      | none => simpa [hbody] using hin
      | some body =>
        rw [hbody, Option.getD_some] at hin
        exact hin.trans (ht.bodyIn p parent body hparent hbody).2
    · rintro s hs x
      cases hs
      rw [hcover none x, ht.top x]
      exact ⟨fun hx => ⟨Nat.zero_le x, hx⟩, fun hx => hx.2⟩
    · intro body hbody x
      rw [hcover (some i) x, ht.body i part body hi trivial hbody x]

/-- **Validation is exact**: after any run of pushes, `validate` accepts exactly the
inventories whose parts account for every byte. -/
theorem validate_pushes (len : ℕ) (cap : UInt32) (ops : List (Option PartId × Part)) :
    (((new len).withMaxParts cap).pushes ops).validate = .ok () ↔
      (((new len).withMaxParts cap).pushes ops).Tiled :=
  validate_eq_ok_iff (linked_pushes (new_linked len cap) ops)

/-- A box of four bytes that declares the inner two as its body and has no children. -/
def childlessBox : Inventory :=
  ((new 4).withMaxParts 16).pushes
    [(none, (Part.new .box .none ⟨0, 4⟩ .structure).withBody ⟨1, 3⟩)]

/-- The body of a part without children is to be covered too. -/
theorem validate_childlessBox :
    childlessBox.validate = .error (.uncovered (some 0) ⟨1, 3⟩) ∧
      childlessBox.Covered fun p => ∃ i, childlessBox.IsChild (some p) i := by
  have hget : ∀ (i : PartId) (part : Part), childlessBox.parts[i]? = some part →
      i = 0 ∧ part = (Part.new .box .none ⟨0, 4⟩ .structure).withBody ⟨1, 3⟩ := by
    intro i part hi
    cases i with
    | zero => exact ⟨rfl, (Option.some.inj hi).symm⟩
    | succ i => cases hi
  refine ⟨by decide,
    { nonempty := fun i part hi => ?_
      inBounds := fun i part hi => ?_
      inParent := fun i part p hi hp => ?_
      disjoint := fun i j a b hi hj hij _ => ?_
      top := fun x => ?_
      body := fun p parent body _ hchild _ x => ?_ }⟩
  · obtain ⟨-, rfl⟩ := hget i part hi
    decide
  · obtain ⟨-, rfl⟩ := hget i part hi
    decide
  · obtain ⟨-, rfl⟩ := hget i part hi
    cases hp
  · exact absurd ((hget i a hi).1.trans (hget j b hj).1.symm) hij
  · constructor
    · rintro ⟨i, part, hi, -, hx⟩
      obtain ⟨-, rfl⟩ := hget i part hi
      exact hx.2
    · intro hx
      exact ⟨0, _, rfl, rfl, Nat.zero_le x, hx⟩
  · obtain ⟨i, part, hi, hp⟩ := hchild
    obtain ⟨-, rfl⟩ := hget i part hi
    cases hp

end Inventory

end Zencodec
