/-
Filling the gaps of a level in place.

`fillGapsIn` is `fill_gaps` on an inventory that a walker holds: an operation that fails
leaves it in the state it had reached. Here the inventory is any that the operations build
(`Built`), its part cap may change at any time, and the bodies it records may lie anywhere.

* `Built.chained`: the sibling lists of a built inventory hold the children they should;
* `fillGapsIn_eq`: either there is room for every gap, or nothing is pushed;
* `fillGaps_exact`: a filled level is tiled by its old parts and the gaps.
-/
import Zencodec.Lib.Act
import Zencodec.Inventory.Growth

open StableSort Tiling

namespace Zencodec

namespace Inventory

/-! ### In place -/

/-- Replace a recorded part's disposition. -/
def setDisposition (inv : Inventory) (id : PartId) (disposition : Disposition) : Inventory :=
  { inv with parts := inv.parts.modify id fun p => { p with disposition } }

/-- `push` on the inventory itself. -/
def pushIn (parent : Option PartId) (part : Part) : Act Inventory InventoryError PartId :=
  fun inv =>
    match inv.push parent part with
    | .ok (id, inv') => (.ok id, inv')
    | .error e => (.error e, inv)

/-- One round of the loop over the holes. -/
def pushHole (parent : Option PartId) (disposition : Disposition) (hole : Span ℕ) :
    Act Inventory InventoryError Unit :=
  if hole.start < hole.stop then do
    let _ ← pushIn parent (Part.new .gap .none hole disposition)
    pure ()
  else pure ()

/-- `fill_gaps` on the inventory itself. -/
def fillGapsIn (parent : Option PartId) (disposition : Disposition) :
    Act Inventory InventoryError Unit := do
  let inv ← Act.get
  match inv.span parent with
  | none => pure ()
  | some span => do
    let holes := inv.holes span span.start (inv.children parent)
    Act.lift (inv.reserveParts (holes.countP fun h => h.start < h.stop))
    Act.each (pushHole parent disposition) holes

/-- Inventories that the operations build. -/
inductive Built : Inventory → Prop
  | new (len : ℕ) : Built (new len)
  | withMaxParts {inv : Inventory} (h : Built inv) (maxParts : UInt32) :
      Built (inv.withMaxParts maxParts)
  | push {inv : Inventory} (h : Built inv) (parent : Option PartId) (part : Part) :
      Built (pushIn parent part inv).2
  | setDisposition {inv : Inventory} (h : Built inv) (id : PartId) (disposition : Disposition) :
      Built (inv.setDisposition id disposition)
  | setDetail {inv : Inventory} (h : Built inv) (id : PartId) (detail : String) :
      Built (inv.setDetail id detail)
  | fillGaps {inv : Inventory} (h : Built inv) (parent : Option PartId)
      (disposition : Disposition) : Built (fillGapsIn parent disposition inv).2

variable {inv inv' : Inventory} {parent : Option PartId} {d : Disposition}

/-! ### The sibling lists -/

/-- The sibling lists are right, whatever the part cap has become. -/
def Chained (inv : Inventory) : Prop := (inv.withMaxParts 4294967295).Linked

theorem chained_link (h : inv.Chained) {part : Part}
    (hcap : inv.parts.length < inv.maxParts.toNat)
    (hparent : ∀ p ∈ parent, p < inv.parts.length) : (inv.link parent part).Chained := by
  have hlt : inv.parts.length < (4294967295 : UInt32).toNat := by
    have := inv.maxParts.toNat_lt
    show _ < 4294967295
    omega
  exact linked_link h hlt hparent

/-- Changing a part, but not where it hangs, keeps the sibling lists. -/
theorem chained_modify (h : inv.Chained) (id : PartId) (f : Part → Part)
    (hf : ∀ p, (f p).parent = p.parent) : Chained { inv with parts := inv.parts.modify id f } := by
  have hlength : (inv.parts.modify id f).length = inv.parts.length := List.length_modify ..
  have hchild : ∀ q i, IsChild { inv with parts := inv.parts.modify id f } q i ↔
      inv.IsChild q i := by
    intro q i
    unfold IsChild
    rw [List.getElem?_modify]
    cases inv.parts[i]? with
    | none => simp
    | some p => by_cases hi : id = i <;> simp [hi, hf]
  refine ⟨h.firstChild_length.trans hlength.symm, h.nextSibling_length.trans hlength.symm,
    hlength.trans_le h.length_le, fun p i hi => h.parent_lt p i ((hchild _ i).mp hi), fun q => ?_⟩
  have hrec : ({ inv with parts := inv.parts.modify id f, maxParts := 4294967295 } :
      Inventory).recorded q = (inv.withMaxParts 4294967295).recorded q := by
    unfold recorded
    rw [show ({ inv with parts := inv.parts.modify id f, maxParts := 4294967295 } :
      Inventory).parts.length = inv.parts.length from hlength]
    congr 1
    exact List.filter_congr fun i _ => decide_eq_decide.mpr (hchild q i)
  exact hrec ▸ h.links q

theorem pushIn_cases (part : Part) (inv : Inventory) :
    (pushIn parent part inv).2 = inv ∨
      (pushIn parent part inv).2 = inv.link parent part ∧
        inv.parts.length < inv.maxParts.toNat ∧ ∀ p ∈ parent, p < inv.parts.length := by
  unfold pushIn
  split
  · next id inv' hpush =>
    obtain ⟨hcap, hparent, -, rfl⟩ := push_cases hpush
    exact .inr ⟨rfl, hcap, hparent⟩
  · exact .inl rfl

theorem chained_pushIn (h : inv.Chained) (parent : Option PartId) (part : Part) :
    (pushIn parent part inv).2.Chained := by
  rcases @pushIn_cases parent part inv with heq | ⟨heq, hcap, hparent⟩
  · rw [heq]
    exact h
  · rw [heq]
    exact chained_link h hcap hparent

theorem spec_pushHole (h : inv.Chained) (hole : Span ℕ) :
    Act.Spec (pushHole parent d hole) (fun _ => Chained) (fun _ => Chained) inv := by
  unfold pushHole
  rw [Act.spec_ite]
  refine ⟨fun _ => ?_, fun _ => h⟩
  rw [Act.spec_bind]
  exact Act.spec_of_run (fun _ _ => chained_pushIn h parent _) fun _ _ => chained_pushIn h parent _

/-- Every push of a fill keeps the sibling lists. -/
theorem chained_fillGapsIn (h : inv.Chained) (parent : Option PartId) (d : Disposition) :
    (fillGapsIn parent d inv).2.Chained := by
  refine Act.Spec.state (P := Chained) ?_
  unfold fillGapsIn
  simp only [Act.spec_bind, Act.spec_get]
  split
  · exact h
  · simp only [Act.spec_bind, Act.spec_lift]
    refine ⟨fun _ _ => ?_, fun _ _ => h⟩
    exact Act.spec_each (fun _ => Chained) (fun hole _ _ hinv => spec_pushHole hinv hole) h

theorem Built.chained (h : Built inv) : inv.Chained := by
  induction h with
  | new len => exact new_linked len 4294967295
  | withMaxParts _ _ ih => exact ih
  | push _ parent part ih => exact chained_pushIn ih parent part
  | setDisposition _ id disposition ih => exact chained_modify ih id _ fun _ => rfl
  | setDetail _ id detail ih => exact chained_modify ih id _ fun _ => rfl
  | fillGaps _ parent disposition ih => exact chained_fillGapsIn ih parent disposition

/-! ### What a fill pushes -/

/-- The part that fills a hole. -/
def gapPart (parent : Option PartId) (d : Disposition) (hole : Span ℕ) : Part :=
  { Part.new .gap .none hole d with parent }

/-- `inv` with a gap part for each hole. -/
def withGaps (inv : Inventory) (parent : Option PartId) (d : Disposition)
    (holes : List (Span ℕ)) : Inventory :=
  holes.foldl (fun inv hole => inv.link parent (Part.new .gap .none hole d)) inv

theorem withGaps_parts (inv : Inventory) (parent : Option PartId) (d : Disposition)
    (holes : List (Span ℕ)) :
    (inv.withGaps parent d holes).parts = inv.parts ++ holes.map (gapPart parent d) := by
  induction holes generalizing inv with
  | nil => exact (List.append_nil _).symm
  | cons hole holes ih =>
    rw [withGaps, List.foldl_cons, ← withGaps, ih, List.map_cons]
    exact List.append_assoc inv.parts [gapPart parent d hole] _

theorem withGaps_len (inv : Inventory) (parent : Option PartId) (d : Disposition)
    (holes : List (Span ℕ)) : (inv.withGaps parent d holes).len = inv.len ∧
      (inv.withGaps parent d holes).maxParts = inv.maxParts := by
  induction holes generalizing inv with
  | nil => exact ⟨rfl, rfl⟩
  | cons hole holes ih =>
    rw [withGaps, List.foldl_cons, ← withGaps]
    exact ih _

theorem pushHole_ok {hole : Span ℕ} (hne : hole.Nonempty)
    (hcap : inv.parts.length < inv.maxParts.toNat)
    (hparent : ∀ p ∈ parent, p < inv.parts.length) :
    pushHole parent d hole inv = (.ok (), inv.link parent (Part.new .gap .none hole d)) := by
  have hany : parent.any (inv.parts.length ≤ ·) = false := by
    cases parent with
    | none => rfl
    | some p => exact decide_eq_false (not_le.mpr (hparent p rfl))
  have hpush : ∀ part, inv.push parent part = .ok (inv.parts.length, inv.link parent part) := by
    intro part
    have hroom : ¬inv.maxParts.toNat - inv.parts.length < 1 := by omega
    simp only [push, if_neg (not_le.mpr hcap), hany, Bool.false_eq_true, if_false, reserveParts,
      if_neg hroom, bind, Except.bind, pure, Except.pure]
  unfold pushHole
  rw [if_pos (show hole.start < hole.stop from hne)]
  refine Act.bind_of_ok (b := inv.parts.length) ?_
  unfold pushIn
  rw [hpush]

/-- Once the cap has room for all of them, no push of a fill fails. -/
theorem each_pushHole {holes : List (Span ℕ)} (hne : ∀ h ∈ holes, h.Nonempty)
    (hroom : holes.length ≤ inv.maxParts.toNat - inv.parts.length)
    (hparent : ∀ p ∈ parent, p < inv.parts.length) :
    Act.each (pushHole parent d) holes inv = (.ok (), inv.withGaps parent d holes) := by
  induction holes generalizing inv with
  | nil => rfl
  | cons hole holes ih =>
    obtain ⟨hhole, hne⟩ := List.forall_mem_cons.mp hne
    rw [List.length_cons] at hroom
    have hlength : (inv.link parent (Part.new .gap .none hole d)).parts.length =
        inv.parts.length + 1 := by simp [link]
    refine (Act.bind_of_ok (pushHole_ok hhole (by omega) hparent)).trans ?_
    refine ih hne ?_ fun p hp => ?_
    · rw [hlength]
      show _ ≤ inv.maxParts.toNat - _
      omega
    · rw [hlength]
      exact Nat.lt_succ_of_lt (hparent p hp)

theorem reserveParts_ok {n : ℕ} (h : n ≤ inv.maxParts.toNat - inv.parts.length) :
    (Act.lift (inv.reserveParts n) : Act Inventory InventoryError Unit) inv = (.ok (), inv) := by
  unfold Act.lift reserveParts
  rw [if_neg (not_lt.mpr h)]

theorem reserveParts_full {n : ℕ} (h : inv.maxParts.toNat - inv.parts.length < n) :
    (Act.lift (inv.reserveParts n) : Act Inventory InventoryError Unit) inv =
      (.error (.tooManyParts inv.maxParts), inv) := by
  unfold Act.lift reserveParts
  rw [if_pos h]

/-- Either the cap has room for every gap, or nothing is pushed. -/
theorem fillGapsIn_eq {span : Span ℕ} (hspan : inv.span parent = some span) (d : Disposition)
    (hne : ∀ g ∈ inv.holes span span.start (inv.children parent), g.Nonempty) :
    fillGapsIn parent d inv =
      if (inv.holes span span.start (inv.children parent)).length ≤
          inv.maxParts.toNat - inv.parts.length then
        (.ok (), inv.withGaps parent d (inv.holes span span.start (inv.children parent)))
      else (.error (.tooManyParts inv.maxParts), inv) := by
  have hparent : ∀ p ∈ parent, p < inv.parts.length := by
    rintro p rfl
    obtain ⟨part, hpart, -⟩ := Option.bind_eq_some_iff.mp hspan
    exact (List.getElem?_eq_some_iff.mp hpart).1
  have hcount : (inv.holes span span.start (inv.children parent)).countP
      (fun h => h.start < h.stop) =
      (inv.holes span span.start (inv.children parent)).length :=
    List.countP_eq_length.mpr fun g hg => decide_eq_true (hne g hg)
  unfold fillGapsIn
  rw [Act.bind_of_ok (show Act.get inv = (.ok inv, inv) from rfl), hspan]
  dsimp only
  rw [hcount]
  split
  · next hroom =>
    rw [Act.bind_of_ok (reserveParts_ok hroom)]
    exact each_pushHole hne hroom hparent
  · next hfull => exact Act.bind_of_error (reserveParts_full (not_le.mp hfull))

/-! ### The filled level -/

/-- A level after a fill: it is tiled, and the parts added are gaps on what was uncovered. -/
structure Filled (inv inv' : Inventory) (parent : Option PartId) (d : Disposition)
    (span : Span ℕ) : Prop where
  tiled : Partition span.start span.stop ((inv'.children parent).map inv'.range)
  len_eq : inv'.len = inv.len
  kept : inv.parts <+: inv'.parts
  onlyGaps : ∀ i part, inv.parts.length ≤ i → inv'.parts[i]? = some part →
    ∃ hole : Span ℕ, hole.Nonempty ∧ part = gapPart parent d hole
  exact : ∀ x, (∃ i part, inv.parts.length ≤ i ∧ inv'.parts[i]? = some part ∧ x ∈ part.range) ↔
    x ∈ span ∧ ∀ j, inv.IsChild parent j → x ∉ inv.range j

section

variable {holes : List (Span ℕ)}

theorem withGaps_new {i : ℕ} (hi : inv.parts.length ≤ i) :
    (inv.withGaps parent d holes).parts[i]? =
      holes[i - inv.parts.length]?.map (gapPart parent d) := by
  rw [withGaps_parts, List.getElem?_append_right hi, List.getElem?_map]

theorem withGaps_prefix : inv.parts <+: (inv.withGaps parent d holes).parts := by
  rw [withGaps_parts]
  exact List.prefix_append _ _

theorem withGaps_length : (inv.withGaps parent d holes).parts.length =
    inv.parts.length + holes.length := by
  rw [withGaps_parts, List.length_append, List.length_map]

/-- The children of the level: the old ones and the gaps. -/
theorem withGaps_isChild {i : ℕ} : (inv.withGaps parent d holes).IsChild parent i ↔
    inv.IsChild parent i ∨ inv.parts.length ≤ i ∧ i < inv.parts.length + holes.length := by
  rcases lt_or_ge i inv.parts.length with hi | hi
  · rw [isChild_of_old withGaps_prefix hi]
    constructor
    · exact fun h => .inl h
    · rintro (h | h)
      · exact h
      · exact absurd hi (not_lt.mpr h.1)
  · unfold IsChild
    rw [withGaps_new hi]
    constructor
    · rintro ⟨part, hpart, -⟩
      obtain ⟨hole, hhole, -⟩ := Option.map_eq_some_iff.mp hpart
      have hlt := (List.getElem?_eq_some_iff.mp hhole).1
      exact .inr ⟨hi, by omega⟩
    · rintro (⟨part, hpart, -⟩ | ⟨-, hlt⟩)
      · exact absurd (List.getElem?_eq_some_iff.mp hpart).1 (not_lt.mpr hi)
      · have hsub : i - inv.parts.length < holes.length := by omega
        exact ⟨_, by rw [List.getElem?_eq_getElem hsub]; rfl, rfl⟩

theorem chained_withGaps (h : inv.Chained)
    (hroom : holes.length ≤ inv.maxParts.toNat - inv.parts.length)
    (hparent : ∀ p ∈ parent, p < inv.parts.length) : (inv.withGaps parent d holes).Chained := by
  induction holes generalizing inv with
  | nil => exact h
  | cons hole holes ih =>
    rw [List.length_cons] at hroom
    rw [withGaps, List.foldl_cons, ← withGaps]
    have hlength : (inv.link parent (Part.new .gap .none hole d)).parts.length =
        inv.parts.length + 1 := by simp [link]
    refine ih (chained_link h (by omega) hparent) ?_ fun p hp => ?_
    · rw [hlength]
      show _ ≤ inv.maxParts.toNat - _
      omega
    · rw [hlength]
      exact Nat.lt_succ_of_lt (hparent p hp)

/-- The ranges of the level: the old ones and the holes. -/
theorem withGaps_ranges (h : inv.Chained) (h' : (inv.withGaps parent d holes).Chained) :
    (((inv.withGaps parent d holes).children parent).map
      (inv.withGaps parent d holes).range).Perm
      ((inv.children parent).map inv.range ++ holes) := by
  have hids : ((inv.withGaps parent d holes).children parent).Perm
      (inv.children parent ++ List.range' inv.parts.length holes.length) := by
    refine (List.perm_ext_iff_of_nodup (children_nodup h' parent) ?_).mpr fun i => ?_
    · refine List.nodup_append.mpr ⟨children_nodup h parent, List.nodup_range', ?_⟩
      intro a ha b hb heq
      have hlt := ((mem_children h parent).mp ha).lt
      have hge := (List.mem_range'_1.mp hb).1
      exact absurd (heq ▸ hge) (not_le.mpr hlt)
    · refine (mem_children h' parent).trans (withGaps_isChild.trans ?_)
      rw [List.mem_append, List.mem_range'_1]
      exact or_congr_left (mem_children h parent).symm
  refine (hids.map _).trans (List.Perm.of_eq ?_)
  rw [List.map_append]
  congr 1
  · exact List.map_congr_left fun i hi =>
      range_of_old withGaps_prefix ((mem_children h parent).mp hi).lt
  · refine List.ext_getElem (by simp) fun n hn hn' => ?_
    rw [List.getElem_map, List.getElem_range', Nat.one_mul]
    have hnew : (inv.withGaps parent d holes).parts[inv.parts.length + n]? =
        some (gapPart parent d holes[n]) := by
      rw [withGaps_new (Nat.le_add_right _ _), Nat.add_sub_cancel_left,
        List.getElem?_eq_getElem hn', Option.map_some]
    rw [range, hnew]
    rfl

end

/-- A level that is tiled has no holes. -/
theorem holes_eq_nil {span : Span ℕ}
    (hne : ∀ s ∈ (inv.children parent).map inv.range, s.Nonempty)
    (htiled : Partition span.start span.stop ((inv.children parent).map inv.range)) :
    inv.holes span span.start (inv.children parent) = [] := by
  have hsort : ((inv.children parent).map inv.range).Pairwise
      fun s t => s.start ≤ t.start := List.pairwise_map.mpr (children_sorted inv parent)
  rw [holes_eq_gaps]
  refine List.eq_nil_iff_forall_not_mem.mpr fun g hg => ?_
  have hstart : ∀ s ∈ (inv.children parent).map inv.range, s.start ≤ span.stop := fun s hs =>
    ((htiled.2 s.start).mp ⟨s, hs, (hne s hs).start_mem⟩).2.le
  have hmem := ((mem_gaps hsort g.start).mp ⟨g, hg, (gaps_nonempty hstart g hg).start_mem⟩)
  obtain ⟨s, hs, hx⟩ := (htiled.2 g.start).mpr hmem.1
  exact hmem.2 s hs hx

/-- **Filling the gaps of a level.** Where the old parts of a level are non-empty, disjoint
and inside its span, a fill that succeeds leaves the level tiled, and the next fill adds
nothing; a fill that fails leaves the inventory as it was. -/
theorem fillGaps_exact (hbuilt : Built inv) (parent : Option PartId) (d : Disposition)
    (span : Span ℕ) (hspan : inv.span parent = some span)
    (hin : ∀ j, inv.IsChild parent j → (inv.range j).Nonempty ∧ (inv.range j).Within span)
    (hdisj : ∀ i j, inv.IsChild parent i → inv.IsChild parent j → i ≠ j →
      (inv.range i).Disjoint (inv.range j)) :
    (∀ inv', fillGapsIn parent d inv = (.ok (), inv') →
      Filled inv inv' parent d span ∧ ∀ d', fillGapsIn parent d' inv' = (.ok (), inv')) ∧
    ∀ e inv', fillGapsIn parent d inv = (.error e, inv') →
      e = .tooManyParts inv.maxParts ∧ inv' = inv := by
  have hchained := hbuilt.chained
  have hparent : ∀ p ∈ parent, p < inv.parts.length := by
    rintro p rfl
    obtain ⟨part, hpart, -⟩ := Option.bind_eq_some_iff.mp hspan
    exact (List.getElem?_eq_some_iff.mp hpart).1
  have hmem := fun j => mem_children hchained parent (i := j)
  have hranges : ∀ s ∈ (inv.children parent).map inv.range, s.Nonempty ∧ s.Within span := by
    intro s hs
    obtain ⟨j, hj, rfl⟩ := List.mem_map.mp hs
    exact hin j ((hmem j).mp hj)
  have hsort : ((inv.children parent).map inv.range).Pairwise
      fun s t => s.start ≤ t.start := List.pairwise_map.mpr (children_sorted inv parent)
  have hdisj' : ((inv.children parent).map inv.range).Pairwise Span.Disjoint := by
    rw [List.pairwise_map]
    refine (children_nodup hchained parent).pairwise_of_forall_ne fun i hi j hj => ?_
    exact hdisj i j ((hmem i).mp hi) ((hmem j).mp hj)
  have hne : ∀ g ∈ inv.holes span span.start (inv.children parent), g.Nonempty := by
    rw [holes_eq_gaps]
    exact gaps_nonempty fun s hs => (le_of_lt (hranges s hs).1).trans (hranges s hs).2.2
  have hpartition : Partition span.start span.stop ((inv.children parent).map inv.range ++
      inv.holes span span.start (inv.children parent)) := by
    rw [holes_eq_gaps]
    exact gaps_partition (fun s hs => (hranges s hs).1) hsort hdisj' fun s hs => (hranges s hs).2
  have huncovered : ∀ x, (∃ g ∈ inv.holes span span.start (inv.children parent), x ∈ g) ↔
      x ∈ span ∧ ∀ j, inv.IsChild parent j → x ∉ inv.range j := by
    intro x
    rw [holes_eq_gaps, mem_gaps hsort]
    refine and_congr_right fun _ => ⟨fun h j hj => ?_, fun h s hs => ?_⟩
    · exact h _ (List.mem_map_of_mem ((hmem j).mpr hj))
    · obtain ⟨j, hj, rfl⟩ := List.mem_map.mp hs
      exact h j ((hmem j).mp hj)
  rw [fillGapsIn_eq hspan d hne]
  generalize inv.holes span span.start (inv.children parent) = holes at *
  split
  · next hroom =>
    refine ⟨fun inv' heq => ?_, fun e inv' heq => by cases (Prod.mk.inj heq).1⟩
    obtain rfl := (Prod.mk.inj heq).2
    have hchained' := chained_withGaps (d := d) hchained hroom hparent
    have hperm := withGaps_ranges (d := d) hchained hchained'
    have htiled := hpartition.perm hperm.symm
    refine ⟨⟨htiled, (withGaps_len ..).1, withGaps_prefix, fun i part hi hpart => ?_, fun x => ?_⟩,
      fun d' => ?_⟩
    · rw [withGaps_new hi] at hpart
      obtain ⟨hole, hhole, rfl⟩ := Option.map_eq_some_iff.mp hpart
      exact ⟨hole, hne hole (List.mem_of_getElem? hhole), rfl⟩
    · rw [← huncovered x]
      constructor
      · rintro ⟨i, part, hi, hpart, hx⟩
        rw [withGaps_new hi] at hpart
        obtain ⟨hole, hhole, rfl⟩ := Option.map_eq_some_iff.mp hpart
        exact ⟨hole, List.mem_of_getElem? hhole, hx⟩
      · rintro ⟨g, hg, hx⟩
        obtain ⟨n, hn, rfl⟩ := List.getElem_of_mem hg
        refine ⟨inv.parts.length + n, gapPart parent d holes[n], Nat.le_add_right _ _, ?_, hx⟩
        rw [withGaps_new (Nat.le_add_right _ _), Nat.add_sub_cancel_left,
          List.getElem?_eq_getElem hn, Option.map_some]
    · have hspan' : (inv.withGaps parent d holes).span parent = some span := by
        cases parent with
        | none =>
          rw [← hspan]
          exact congrArg (fun n => some (⟨0, n⟩ : Span ℕ)) (withGaps_len ..).1
        | some p =>
          rw [← hspan]
          exact congrArg (·.bind Part.body) (getElem?_of_old withGaps_prefix (hparent p rfl))
      have hnil := holes_eq_nil (fun s hs => by
        rcases List.mem_append.mp (hperm.mem_iff.mp hs) with hs | hs
        · exact (hranges s hs).1
        · exact hne s hs) htiled
      rw [fillGapsIn_eq hspan' d' (by rw [hnil]; exact fun g hg => by cases hg), hnil]
      exact if_pos (Nat.zero_le _)
  · refine ⟨fun inv' heq => (by cases (Prod.mk.inj heq).1), fun e inv' heq => ?_⟩
    obtain ⟨he, hinv⟩ := Prod.mk.inj heq
    exact ⟨(Except.error.inj he).symm, hinv.symm⟩

/-- A file of 30 bytes with one known chunk in the middle, and room for the two gaps. -/
def oneChunk : Inventory :=
  (pushIn none (Part.new .chunk .none ⟨10, 20⟩ .unknown) ((new 30).withMaxParts 3)).2

theorem fillGaps_exact_oneChunk :
    Filled oneChunk (fillGapsIn none .trailing oneChunk).2 none .trailing ⟨0, 30⟩ := by
  have hchild : ∀ j, oneChunk.IsChild none j → j = 0 := fun j hj =>
    Nat.lt_one_iff.mp (show j < oneChunk.parts.length from hj.lt)
  refine ((fillGaps_exact (((Built.new 30).withMaxParts 3).push none _) none .trailing ⟨0, 30⟩
    rfl (fun j hj => ?_) fun i j hi hj hij => ?_).1 _ (by decide +kernel)).1
  · rw [show j = 0 from hchild j hj]
    exact ⟨by decide, by decide⟩
  · exact absurd ((hchild i hi).trans (hchild j hj).symm) hij

end Inventory

end Zencodec
