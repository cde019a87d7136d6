/-
Growing an inventory part by part.

`Grown inv inv' parent rs` says that `inv'` is `inv` with new parts: those recorded directly
under `parent` have the ranges `rs`, the others lie under new parts, and every new part is
accounted for by its own children.

* `Grown.trans` — growing twice under one parent;
* `Grown.node` — a part with all that was recorded under it;
* `fillGaps_grown` — filling the gaps of a level.
-/
import Zencodec.Inventory.Validate

open StableSort Tiling Checks

namespace Zencodec

namespace Inventory

/-- A part is non-empty, lies inside the input, and its children lie in its body, or its
range when it has none, do not meet, and cover the body. -/
structure NodeOk (inv : Inventory) (i : PartId) (part : Part) : Prop where
  nonempty : part.range.Nonempty
  inBounds : part.range.stop ≤ inv.len
  bodyIn : ∀ body ∈ part.body, body.start ≤ body.stop ∧ body.Within part.range
  within : ∀ j, inv.IsChild (some i) j → (inv.range j).Within (part.body.getD part.range)
  level : inv.LevelOk (some i) part.body

/-- `inv'` is `inv` with new parts, of which those under `parent` have the ranges `rs`. -/
structure Grown (inv inv' : Inventory) (parent : Option PartId) (rs : List (Span ℕ)) :
    Prop where
  linked : inv'.Linked
  len_eq : inv'.len = inv.len
  old : inv.parts <+: inv'.parts
  ids : ∃ ids : List PartId, ids.Nodup ∧ ids.map inv'.range = rs ∧
    ∀ j, j ∈ ids ↔ inv.parts.length ≤ j ∧ inv'.IsChild parent j
  under : ∀ q j, inv.parts.length ≤ j → inv'.IsChild q j →
    q = parent ∨ ∃ p ∈ q, inv.parts.length ≤ p
  sound : ∀ i part, inv.parts.length ≤ i → inv'.parts[i]? = some part → inv'.NodeOk i part

variable {inv inv' : Inventory}

/-! ### Old parts -/

theorem getElem?_of_old (h : inv.parts <+: inv'.parts) {i : PartId}
    (hi : i < inv.parts.length) : inv'.parts[i]? = inv.parts[i]? := by
  obtain ⟨l, hl⟩ := h
  rw [← hl, List.getElem?_append_left hi]

theorem range_of_old (h : inv.parts <+: inv'.parts) {i : PartId}
    (hi : i < inv.parts.length) : inv'.range i = inv.range i := by
  rw [range, range, getElem?_of_old h hi]

theorem isChild_of_old (h : inv.parts <+: inv'.parts) {q : Option PartId} {i : PartId}
    (hi : i < inv.parts.length) : inv'.IsChild q i ↔ inv.IsChild q i := by
  rw [IsChild, IsChild, getElem?_of_old h hi]

/-- New parts under others leave a part's children alone. -/
theorem NodeOk.of_old {i : PartId} {part : Part} (hnode : inv.NodeOk i part)
    (hold : inv.parts <+: inv'.parts) (hlen : inv'.len = inv.len)
    (hnew : ∀ j, inv.parts.length ≤ j → ¬inv'.IsChild (some i) j) : inv'.NodeOk i part := by
  have hchild : ∀ j, inv'.IsChild (some i) j →
      inv.IsChild (some i) j ∧ inv'.range j = inv.range j := by
    intro j hj
    have hlt : j < inv.parts.length := not_le.mp fun hle => hnew j hle hj
    exact ⟨(isChild_of_old hold hlt).mp hj, range_of_old hold hlt⟩
  constructor
  case nonempty => exact hnode.nonempty
  case inBounds => exact hlen ▸ hnode.inBounds
  case bodyIn => exact hnode.bodyIn
  case within =>
    intro j hj
    obtain ⟨hj, hrange⟩ := hchild j hj
    exact hrange ▸ hnode.within j hj
  case level =>
    constructor
    · intro j k hj hk hjk
      obtain ⟨hj, hjr⟩ := hchild j hj
      obtain ⟨hk, hkr⟩ := hchild k hk
      rw [hjr, hkr]
      exact hnode.level.disjoint j k hj hk hjk
    · intro s hs x
      rw [← hnode.level.cover s hs x]
      constructor
      · rintro ⟨j, hj, hx⟩
        obtain ⟨hj, hjr⟩ := hchild j hj
        exact ⟨j, hj, hjr ▸ hx⟩
      · rintro ⟨j, hj, hx⟩
        exact ⟨j, (isChild_of_old hold hj.lt).mpr hj, (range_of_old hold hj.lt).symm ▸ hx⟩

/-! ### Composition -/

theorem Grown.refl (h : inv.Linked) (parent : Option PartId) : Grown inv inv parent [] where
  linked := h
  len_eq := rfl
  old := List.prefix_refl _
  ids := ⟨[], List.nodup_nil, rfl, fun j => by
    simpa using fun hle (hj : inv.IsChild parent j) => absurd hj.lt (not_lt.mpr hle)⟩
  under := fun q j hle hj => absurd hj.lt (not_lt.mpr hle)
  sound := fun i part hle hi =>
    absurd (List.getElem?_eq_some_iff.mp hi).1 (not_lt.mpr hle)

theorem Grown.length_le {parent : Option PartId} {rs : List (Span ℕ)}
    (h : Grown inv inv' parent rs) : inv.parts.length ≤ inv'.parts.length :=
  h.old.length_le

/-- Growing twice under one parent, which is not new. -/
theorem Grown.trans {inv'' : Inventory} {parent : Option PartId} {rs rs' : List (Span ℕ)}
    (h : Grown inv inv' parent rs) (h' : Grown inv' inv'' parent rs')
    (hparent : ∀ p ∈ parent, p < inv.parts.length) :
    Grown inv inv'' parent (rs ++ rs') := by
  have hle := h.length_le
  constructor
  case linked => exact h'.linked
  case len_eq => exact h'.len_eq.trans h.len_eq
  case old => exact h.old.trans h'.old
  case ids =>
    obtain ⟨ids, hnodup, hmap, hmem⟩ := h.ids
    obtain ⟨ids', hnodup', hmap', hmem'⟩ := h'.ids
    have hlt : ∀ j ∈ ids, j < inv'.parts.length := fun j hj => ((hmem j).mp hj).2.lt
    refine ⟨ids ++ ids', List.nodup_append.mpr ⟨hnodup, hnodup', ?_⟩, ?_, fun j => ?_⟩
    · intro a ha b hb heq
      exact absurd (hlt a ha) (not_lt.mpr (heq ▸ ((hmem' b).mp hb).1))
    · rw [List.map_append, hmap', ← hmap]
      congr 1
      exact List.map_congr_left fun j hj => range_of_old h'.old (hlt j hj)
    · rw [List.mem_append, hmem, hmem']
      rcases lt_or_ge j inv'.parts.length with hj | hj
      · rw [isChild_of_old h'.old hj]
        constructor
        · rintro (hj' | hj')
          · exact hj'
          · exact absurd hj (not_lt.mpr hj'.1)
        · exact fun hj' => Or.inl hj'
      · constructor
        · rintro (hj' | hj')
          · exact absurd hj'.2.lt (not_lt.mpr hj)
          · exact ⟨hle.trans hj, hj'.2⟩
        · exact fun hj' => Or.inr ⟨hj, hj'.2⟩
  case under =>
    intro q j hj hchild
    rcases lt_or_ge j inv'.parts.length with hlt | hge
    · exact h.under q j hj ((isChild_of_old h'.old hlt).mp hchild)
    · rcases h'.under q j hge hchild with heq | ⟨p, hp, hge'⟩
      · exact Or.inl heq
      · exact Or.inr ⟨p, hp, hle.trans hge'⟩
  case sound =>
    intro i part hi hpart
    rcases lt_or_ge i inv'.parts.length with hlt | hge
    · rw [getElem?_of_old h'.old hlt] at hpart
      refine (h.sound i part hi hpart).of_old h'.old h'.len_eq fun j hj hchild => ?_
      rcases h'.under _ j hj hchild with heq | ⟨p, hp, hge⟩
      · exact absurd (hparent i heq.symm) (not_lt.mpr hi)
      · obtain rfl : i = p := Option.some.inj hp
        exact absurd hlt (not_lt.mpr hge)
    · exact h'.sound i part hge hpart

/-! ### One part -/

/-- Disjoint ranges are those of different parts. -/
theorem disjoint_of_ids {ids : List PartId}
    (hdisj : (ids.map inv.range).Pairwise Span.Disjoint) {i j : PartId} (hi : i ∈ ids)
    (hj : j ∈ ids) (hij : i ≠ j) : (inv.range i).Disjoint (inv.range j) := by
  have hsymm : Std.Symm fun a b => (inv.range a).Disjoint (inv.range b) :=
    ⟨fun _ _ hab => hab.symm⟩
  exact (List.pairwise_map.mp hdisj).forall hi hj hij

/-- A part pushed under `parent`, with all that was recorded under it since. -/
theorem Grown.node {inv₁ : Inventory} {parent : Option PartId} {part : Part} {id : PartId}
    {rs : List (Span ℕ)} (hlinked : inv.Linked)
    (hpush : inv.push parent part = .ok (id, inv₁)) (h : Grown inv₁ inv' (some id) rs)
    (hne : part.range.Nonempty) (hlen : part.range.stop ≤ inv.len)
    (hbody : ∀ body ∈ part.body, body.start ≤ body.stop ∧ body.Within part.range)
    (hin : ∀ r ∈ rs, r.Within (part.body.getD part.range))
    (hdisj : rs.Pairwise Span.Disjoint)
    (hcover : ∀ body ∈ part.body, ∀ x, (∃ r ∈ rs, x ∈ r) ↔ x ∈ body) :
    Grown inv inv' parent [part.range] := by
  obtain ⟨hcap, hparent, rfl, rfl⟩ := push_cases hpush
  have hlinked₁ : (inv.link parent part).Linked := linked_link hlinked hcap hparent
  have hparts : (inv.link parent part).parts = inv.parts ++ [{ part with parent := parent }] :=
    rfl
  have hlength : (inv.link parent part).parts.length = inv.parts.length + 1 := by simp [hparts]
  have hle₁ : inv.parts.length ≤ (inv.link parent part).parts.length := hlength ▸ Nat.le_succ _
  have hold : inv.parts <+: inv'.parts := (List.prefix_append _ _).trans (hparts ▸ h.old)
  have hnew : inv'.parts[inv.parts.length]? = some { part with parent := parent } := by
    rw [getElem?_of_old h.old (hlength ▸ Nat.lt_succ_self _), hparts,
      List.getElem?_concat_length]
  have hchild : ∀ q, inv'.IsChild q inv.parts.length ↔ q = parent := by
    intro q
    rw [IsChild, hnew]
    simp [eq_comm]
  -- Nothing was recorded under the part before.
  have hfresh : ∀ j, inv'.IsChild (some inv.parts.length) j →
      inv.parts.length + 1 ≤ j := fun j hj => h.linked.parent_lt _ j hj
  obtain ⟨ids, hnodup, hmap, hmem⟩ := h.ids
  have hids : ∀ j, inv'.IsChild (some inv.parts.length) j ↔ j ∈ ids := by
    intro j
    rw [hmem, hlength]
    exact ⟨fun hj => ⟨hfresh j hj, hj⟩, fun hj => hj.2⟩
  have hrange : ∀ j ∈ ids, inv'.range j ∈ rs := fun j hj => hmap ▸ List.mem_map_of_mem hj
  constructor
  case linked => exact h.linked
  case len_eq => exact h.len_eq
  case old => exact hold
  case ids =>
    refine ⟨[inv.parts.length], List.nodup_singleton _, ?_, fun j => ?_⟩
    · rw [List.map_singleton, range_eq hnew]
    · rw [List.mem_singleton]
      constructor
      · rintro rfl
        exact ⟨le_rfl, (hchild _).mpr rfl⟩
      · rintro ⟨hle, hj⟩
        by_contra hj'
        have hgt : (inv.link parent part).parts.length ≤ j :=
          hlength ▸ hle.lt_of_ne (Ne.symm hj')
        rcases h.under _ j hgt hj with heq | ⟨p, hp, hge⟩
        · exact absurd (hparent _ heq) (lt_irrefl _)
        · rw [hlength] at hge
          exact absurd (hparent p hp) (not_lt.mpr (Nat.le_of_succ_le hge))
  case under =>
    intro q j hle hj
    rcases hle.eq_or_lt with rfl | hgt
    · exact Or.inl ((hchild q).mp hj)
    · rcases h.under q j (hlength ▸ hgt) hj with rfl | ⟨p, hp, hge⟩
      · exact Or.inr ⟨_, rfl, le_rfl⟩
      · exact Or.inr ⟨p, hp, hle₁.trans hge⟩
  case sound =>
    intro i part' hle hpart'
    rcases hle.eq_or_lt with rfl | hgt
    · obtain rfl : { part with parent := parent } = part' := Option.some.inj (hnew ▸ hpart')
      have hmem' : ∀ j, inv'.IsChild (some inv.parts.length) j → inv'.range j ∈ rs :=
        fun j hj => hrange j ((hids j).mp hj)
      refine ⟨hne, (h.len_eq.trans rfl : inv'.len = inv.len) ▸ hlen, hbody,
        fun j hj => hin _ (hmem' j hj), fun i j hi hj hij => ?_, fun s hs x => ?_⟩
      · exact disjoint_of_ids (hmap ▸ hdisj) ((hids i).mp hi) ((hids j).mp hj) hij
      · rw [← hcover s hs x, ← hmap]
        simp [hids]
    · exact h.sound i part' (hlength ▸ hgt) hpart'

/-- A part without children. -/
theorem push_grown {parent : Option PartId} {part : Part} {id : PartId}
    (hlinked : inv.Linked) (hpush : inv.push parent part = .ok (id, inv'))
    (hne : part.range.Nonempty) (hlen : part.range.stop ≤ inv.len)
    (hbody : part.body = none) : Grown inv inv' parent [part.range] :=
  Grown.node hlinked hpush (.refl (linked_push hlinked hpush) _) hne hlen (by simp [hbody])
    (by simp) .nil (by simp [hbody])

section

variable {parent : Option PartId} {rs : List (Span ℕ)} (h : Grown inv inv' parent rs)
  (hfresh : ∀ j, ¬inv.IsChild parent j)
include h hfresh

/-- A level that was empty before: its children are the new parts. -/
theorem Grown.exists_ids : ∃ ids : List PartId, ids.Nodup ∧ ids.map inv'.range = rs ∧
    ∀ j, inv'.IsChild parent j ↔ j ∈ ids := by
  obtain ⟨ids, hnodup, hmap, hmem⟩ := h.ids
  refine ⟨ids, hnodup, hmap, fun j => ?_⟩
  rw [hmem]
  refine ⟨fun hj => ⟨not_lt.mp fun hlt => ?_, hj⟩, fun hj => hj.2⟩
  exact hfresh j ((isChild_of_old h.old hlt).mp hj)

theorem Grown.range_mem {j : PartId} (hj : inv'.IsChild parent j) : inv'.range j ∈ rs := by
  obtain ⟨ids, -, hmap, hmem⟩ := h.exists_ids hfresh
  exact hmap ▸ List.mem_map_of_mem ((hmem j).mp hj)

theorem Grown.disjoint (hdisj : rs.Pairwise Span.Disjoint) {i j : PartId}
    (hi : inv'.IsChild parent i) (hj : inv'.IsChild parent j) (hij : i ≠ j) :
    (inv'.range i).Disjoint (inv'.range j) := by
  obtain ⟨ids, -, hmap, hmem⟩ := h.exists_ids hfresh
  exact disjoint_of_ids (hmap ▸ hdisj) ((hmem i).mp hi) ((hmem j).mp hj) hij

theorem Grown.children_perm : ((inv'.children parent).map inv'.range).Perm rs := by
  obtain ⟨ids, hnodup, hmap, hmem⟩ := h.exists_ids hfresh
  rw [← hmap]
  refine List.Perm.map _ ((List.perm_ext_iff_of_nodup (children_nodup h.linked parent)
    hnodup).mpr fun j => ?_)
  rw [mem_children h.linked, hmem]

end

theorem push_getElem? {parent : Option PartId} {part : Part} {id : PartId}
    (hpush : inv.push parent part = .ok (id, inv')) :
    inv'.parts[id]? = some { part with parent := parent } := by
  obtain ⟨-, -, rfl, rfl⟩ := push_cases hpush
  exact List.getElem?_concat_length

/-- Nothing is recorded under a part that has just been pushed. -/
theorem push_fresh {parent : Option PartId} {part : Part} {id : PartId}
    (hlinked : inv.Linked) (hpush : inv.push parent part = .ok (id, inv')) (j : PartId) :
    ¬inv'.IsChild (some id) j := by
  intro hj
  have hlt := (linked_push hlinked hpush).parent_lt id j hj
  have hbound := hj.lt
  obtain ⟨-, -, rfl, rfl⟩ := push_cases hpush
  have hlength : (inv.link parent part).parts.length = inv.parts.length + 1 := by simp [link]
  rw [hlength] at hbound
  exact absurd hlt (not_lt.mpr (Nat.le_of_lt_succ hbound))

/-! ### Filling gaps -/

theorem holes_eq_gaps (inv : Inventory) (span : Span ℕ) : ∀ (ids : List PartId) (cursor : ℕ),
    inv.holes span cursor ids = gaps cursor span.stop (ids.map inv.range) := by
  intro ids
  induction ids with
  | nil => exact fun cursor => rfl
  | cons i ids ih =>
    intro cursor
    rw [holes, List.map_cons, gaps, ih]

theorem pushGaps_grown {parent : Option PartId} {d : Disposition} :
    ∀ {holes : List (Span ℕ)} {inv : Inventory}, inv.Linked →
      (∀ p ∈ parent, p < inv.parts.length) → (∀ h ∈ holes, h.Nonempty) →
      (∀ h ∈ holes, h.stop ≤ inv.len) → pushGaps parent d inv holes = .ok inv' →
      Grown inv inv' parent holes := by
  intro holes
  induction holes with
  | nil =>
    intro inv hlinked _ _ _ h
    obtain rfl : inv = inv' := Except.ok.inj h
    exact .refl hlinked parent
  | cons hole rest ih =>
    intro inv hlinked hparent hne hlen h
    obtain ⟨hhole, hne⟩ := List.forall_mem_cons.mp hne
    obtain ⟨hstop, hlen⟩ := List.forall_mem_cons.mp hlen
    rw [pushGaps, if_pos (show hole.start < hole.stop from hhole), bind_eq_ok] at h
    obtain ⟨⟨id, inv₁⟩, hpush, h⟩ := h
    have hfirst := push_grown hlinked hpush hhole hstop rfl
    have hparent₁ : ∀ p ∈ parent, p < inv₁.parts.length := fun p hp =>
      (hparent p hp).trans_le hfirst.length_le
    exact hfirst.trans (ih hfirst.linked hparent₁ hne (hfirst.len_eq ▸ hlen) h) hparent

/-- Filling the gaps of a level whose children do not meet adds parts that, together with
these, split its span. -/
theorem fillGaps_grown {parent : Option PartId} {d : Disposition} {span : Span ℕ}
    (hlinked : inv.Linked) (hparent : ∀ p ∈ parent, p < inv.parts.length)
    (hspan : inv.span parent = some span) (hlen : span.stop ≤ inv.len)
    (hin : ∀ j, inv.IsChild parent j → (inv.range j).Nonempty ∧ (inv.range j).Within span)
    (hdisj : ∀ i j, inv.IsChild parent i → inv.IsChild parent j → i ≠ j →
      (inv.range i).Disjoint (inv.range j))
    (h : inv.fillGaps parent d = .ok inv') :
    ∃ gs : List (Span ℕ), Grown inv inv' parent gs ∧ (∀ g ∈ gs, g.Nonempty) ∧
      Partition span.start span.stop ((inv.children parent).map inv.range ++ gs) := by
  have hmem := fun j => mem_children hlinked parent (i := j)
  have hin' : ∀ s ∈ (inv.children parent).map inv.range, s.Nonempty ∧ s.Within span := by
    intro s hs
    obtain ⟨j, hj, rfl⟩ := List.mem_map.mp hs
    exact hin j ((hmem j).mp hj)
  have hsort : ((inv.children parent).map inv.range).Pairwise
      fun s t => s.start ≤ t.start := List.pairwise_map.mpr (children_sorted inv parent)
  have hdisj' : ((inv.children parent).map inv.range).Pairwise Span.Disjoint := by
    rw [List.pairwise_map]
    refine (children_nodup hlinked parent).pairwise_of_forall_ne fun i hi j hj => ?_
    exact hdisj i j ((hmem i).mp hi) ((hmem j).mp hj)
  have hne : ∀ g ∈ gaps span.start span.stop ((inv.children parent).map inv.range),
      g.Nonempty := gaps_nonempty fun s hs => (le_of_lt (hin' s hs).1).trans (hin' s hs).2.2
  simp only [fillGaps, hspan, holes_eq_gaps, bind_eq_ok] at h
  obtain ⟨-, -, h⟩ := h
  refine ⟨_, pushGaps_grown hlinked hparent hne (fun g hg => ?_) h, hne,
    gaps_partition (fun s hs => (hin' s hs).1) hsort hdisj' fun s hs => (hin' s hs).2⟩
  have hwithin : g.Within span := Span.within_of_subset (hne g hg) fun x hx =>
    ((mem_gaps hsort x).mp ⟨g, hg, hx⟩).1
  exact hwithin.2.trans hlen

/-! ### Details -/

section

variable (id : PartId) (detail : String)

theorem setDetail_getElem? (i : PartId) : (inv.setDetail id detail).parts[i]? =
    inv.parts[i]?.map fun p => if id = i then { p with detail := some detail } else p := by
  rw [setDetail, List.getElem?_modify]
  cases inv.parts[i]? <;> by_cases hi : id = i <;> simp [hi]

@[simp]
theorem setDetail_range (i : PartId) : (inv.setDetail id detail).range i = inv.range i := by
  rw [range, range, setDetail_getElem?]
  cases inv.parts[i]? with
  | none => rfl
  | some p => by_cases hi : id = i <;> simp [hi]

theorem setDetail_range_eq : (inv.setDetail id detail).range = inv.range :=
  funext fun i => setDetail_range id detail i

@[simp]
theorem setDetail_isChild (q : Option PartId) (i : PartId) :
    (inv.setDetail id detail).IsChild q i ↔ inv.IsChild q i := by
  rw [IsChild, IsChild, setDetail_getElem?]
  cases inv.parts[i]? with
  | none => simp
  | some p => by_cases hi : id = i <;> simp [hi]

@[simp]
theorem setDetail_length : (inv.setDetail id detail).parts.length = inv.parts.length := by
  simp [setDetail]

theorem setDetail_linked (h : inv.Linked) : (inv.setDetail id detail).Linked where
  firstChild_length := h.firstChild_length.trans (setDetail_length ..).symm
  nextSibling_length := h.nextSibling_length.trans (setDetail_length ..).symm
  length_le := (setDetail_length ..).trans_le h.length_le
  parent_lt := fun p i hi => h.parent_lt p i ((setDetail_isChild ..).mp hi)
  links := fun parent => by
    have hrec : (inv.setDetail id detail).recorded parent = inv.recorded parent := by
      simp [recorded]
    rw [hrec]
    exact h.links parent

/-- Details of new parts may change. -/
theorem Grown.setDetail {parent : Option PartId} {rs : List (Span ℕ)}
    (h : Grown inv inv' parent rs) (hid : inv.parts.length ≤ id) :
    Grown inv (inv'.setDetail id detail) parent rs := by
  constructor
  case linked => exact setDetail_linked id detail h.linked
  case len_eq => exact h.len_eq
  case old =>
    obtain ⟨l, hl⟩ := h.old
    refine List.prefix_iff_getElem?.mpr fun i hi => ?_
    have hne : id ≠ i := (hi.trans_le hid).ne'
    rw [setDetail_getElem?, getElem?_of_old h.old hi, List.getElem?_eq_getElem hi]
    simp [hne]
  case ids => simpa [setDetail_range_eq] using h.ids
  case under => simpa using h.under
  case sound =>
    intro i part hi hpart
    rw [setDetail_getElem?] at hpart
    obtain ⟨p, hp, rfl⟩ := Option.map_eq_some_iff.mp hpart
    have hnode := h.sound i p hi hp
    by_cases heq : id = i
    · rw [if_pos heq]
      exact ⟨hnode.nonempty, hnode.inBounds, hnode.bodyIn, by simpa using hnode.within,
        by simpa using hnode.level.disjoint, by simpa using hnode.level.cover⟩
    · rw [if_neg heq]
      exact ⟨hnode.nonempty, hnode.inBounds, hnode.bodyIn, by simpa using hnode.within,
        by simpa using hnode.level.disjoint, by simpa using hnode.level.cover⟩

end

/-! ### From nothing -/

/-- An inventory grown from nothing is accounted for once its top level is. -/
theorem Grown.validate {len : ℕ} {cap : UInt32} {rs : List (Span ℕ)}
    (h : Grown ((new len).withMaxParts cap) inv none rs) (hrs : Partition 0 len rs) :
    inv.validate = .ok () ∧ inv.Tiled := by
  rw [← validate_eq_ok_iff h.linked, and_self]
  have hlen : inv.len = len := h.len_eq
  have hsound : ∀ i part, inv.parts[i]? = some part → inv.NodeOk i part := fun i part hi =>
    h.sound i part (Nat.zero_le i) hi
  have hfresh : ∀ j, ¬((new len).withMaxParts cap).IsChild none j := fun j hj =>
    absurd hj.lt (Nat.not_lt_zero j)
  obtain ⟨ids, -, hmap, htop⟩ := h.exists_ids hfresh
  rw [validate_eq_ok_iff_levels h.linked]
  refine ⟨fun i part hi => ?_, ⟨fun i j hi hj hij => ?_, fun s hs x => ?_⟩,
    fun i part hi => (hsound i part hi).level⟩
  · have hnode := hsound i part hi
    refine ⟨hnode.nonempty, hnode.inBounds, hnode.bodyIn, fun p hp => ?_⟩
    have hchild : inv.IsChild (some p) i := ⟨part, hi, hp⟩
    have hlt := h.linked.parent_lt p i hchild
    have hp' : p < inv.parts.length := hlt.trans hchild.lt
    have hparent := List.getElem?_eq_getElem hp'
    have hin := (hsound p _ hparent).within i hchild
    rw [range_eq hi] at hin
    rw [range_eq hparent]
    refine ⟨hlt, ?_⟩
    generalize inv.parts[p] = parent at hparent hin
    cases hbody : parent.body with
    | none => simpa [hbody] using hin
    | some body =>
      rw [hbody, Option.getD_some] at hin
      exact hin.trans ((hsound p _ hparent).bodyIn body hbody).2
  · exact h.disjoint hfresh hrs.1 hi hj hij
  · cases hs
    rw [Span.mem_def, hlen, ← hrs.2 x, ← hmap]
    simp [htop]

end Inventory

end Zencodec
