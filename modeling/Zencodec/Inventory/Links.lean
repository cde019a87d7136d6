/-
The sibling lists of an inventory hold the children they should.

`Linked inv` says that following the links from the head recorded for a parent visits
exactly the parts recorded under it, newest first.  It holds of an empty inventory and
every push keeps it.

* `mem_children` — a level lists the parts recorded under its parent;
* `children_nodup`, `children_sorted` — once each, in order of their start;
* `linked_pushes` — after any run of pushes.
-/
import Zencodec.Inventory.Parts

open StableSort Tiling

namespace Zencodec

namespace Inventory

/-- Following `next` from `id` visits the ids of the list and stops. -/
inductive Links (next : List ℕ) : ℕ → List PartId → Prop
  | stop : Links next endOfList []
  | step {id j : ℕ} {l : List PartId} : id ≠ endOfList → next[id]? = some j →
      Links next j l → Links next id (id :: l)

theorem Links.append {next : List ℕ} {id : ℕ} {l : List PartId} (h : Links next id l)
    (x : ℕ) : Links (next ++ [x]) id l := by
  induction h with
  | stop => exact .stop
  | @step id j l hid hj _ ih =>
    have hlt : id < next.length := (List.getElem?_eq_some_iff.mp hj).1
    exact .step hid (by rw [List.getElem?_append_left hlt, hj]) ih

theorem Links.eq_endOfList_iff {next : List ℕ} {id : ℕ} {l : List PartId}
    (h : Links next id l) : id = endOfList ↔ l = [] := by
  cases h with
  | stop => simp
  | step hne => simp [hne]

/-- Reading a sibling list returns it whole: the fuel suffices and no link leads out of
the array. -/
theorem siblings_eq {next : List ℕ} {id : ℕ} {l : List PartId} (h : Links next id l) :
    ∀ {fuel : ℕ}, l.length ≤ fuel → siblings next fuel id = l := by
  induction h with
  | stop =>
    intro fuel _
    cases fuel with
    | zero => rfl
    | succ fuel => simp [siblings]
  | @step id j l hid hj _ ih =>
    intro fuel hfuel
    cases fuel with
    | zero => simp at hfuel
    | succ fuel =>
      have hnext : next.getD id endOfList = j := by
        rw [List.getD_eq_getElem?_getD, hj, Option.getD_some]
      rw [siblings, if_neg hid, hnext, ih (Nat.le_of_succ_le_succ hfuel)]

/-- The part at index `i` is recorded under `parent`. -/
def IsChild (inv : Inventory) (parent : Option PartId) (i : PartId) : Prop :=
  ∃ part, inv.parts[i]? = some part ∧ part.parent = parent

instance (inv : Inventory) (parent : Option PartId) (i : PartId) :
    Decidable (inv.IsChild parent i) :=
  match h : inv.parts[i]? with
  | none => .isFalse fun ⟨_, hp, _⟩ => by rw [h] at hp; cases hp
  | some part =>
    if hp : part.parent = parent then .isTrue ⟨part, h, hp⟩
    else .isFalse fun ⟨q, hq, hqp⟩ => by
      rw [h] at hq
      cases hq
      exact hp hqp

/-- The parts recorded under `parent`, newest first. -/
def recorded (inv : Inventory) (parent : Option PartId) : List PartId :=
  ((List.range inv.parts.length).filter (inv.IsChild parent ·)).reverse

theorem IsChild.lt {inv : Inventory} {parent : Option PartId} {i : PartId}
    (h : inv.IsChild parent i) : i < inv.parts.length := by
  obtain ⟨part, hi, -⟩ := h
  exact (List.getElem?_eq_some_iff.mp hi).1

@[simp] theorem mem_recorded {inv : Inventory} {parent : Option PartId} {i : PartId} :
    i ∈ inv.recorded parent ↔ inv.IsChild parent i := by
  simp only [recorded, List.mem_reverse, List.mem_filter, List.mem_range,
    decide_eq_true_eq, and_iff_right_iff_imp]
  exact fun h => h.lt

theorem recorded_nodup (inv : Inventory) (parent : Option PartId) :
    (inv.recorded parent).Nodup :=
  List.nodup_reverse.mpr (List.nodup_range.filter _)

theorem recorded_length_le (inv : Inventory) (parent : Option PartId) :
    (inv.recorded parent).length ≤ inv.parts.length := by
  rw [recorded, List.length_reverse]
  exact (List.length_filter_le _ _).trans_eq List.length_range

/-- The sibling lists hold the children of every part. -/
structure Linked (inv : Inventory) : Prop where
  firstChild_length : inv.firstChild.length = inv.parts.length
  nextSibling_length : inv.nextSibling.length = inv.parts.length
  length_le : inv.parts.length ≤ inv.maxParts.toNat
  parent_lt : ∀ p i, inv.IsChild (some p) i → p < i
  links : ∀ parent, Links inv.nextSibling (inv.first parent) (inv.recorded parent)

/-! ### What a push does -/

theorem push_cases {inv inv' : Inventory} {parent : Option PartId} {part : Part}
    {id : PartId} (h : inv.push parent part = .ok (id, inv')) :
    inv.parts.length < inv.maxParts.toNat ∧ (∀ p ∈ parent, p < inv.parts.length) ∧
      id = inv.parts.length ∧ inv' = inv.link parent part := by
  simp only [push, bind, Except.bind, pure, Except.pure, throw, throwThe,
    MonadExceptOf.throw] at h
  by_cases hcap : inv.maxParts.toNat ≤ inv.parts.length
  · simp [hcap] at h
  · by_cases hparent : parent.any (inv.parts.length ≤ ·) = true
    · simp [hcap, hparent] at h
    · have hroom : ¬inv.maxParts.toNat - inv.parts.length < 1 := by omega
      simp only [hcap, if_false, hparent, reserveParts, hroom, Except.ok.injEq,
        Prod.mk.injEq, Bool.false_eq_true] at h
      refine ⟨not_le.mp hcap, fun p hp => ?_, h.1.symm, h.2.symm⟩
      rw [Option.mem_def] at hp
      simpa [hp] using hparent

theorem isChild_link {inv : Inventory} {parent q : Option PartId} {part : Part}
    {i : PartId} : (inv.link parent part).IsChild q i ↔
      inv.IsChild q i ∨ i = inv.parts.length ∧ q = parent := by
  simp only [IsChild, link]
  rcases lt_trichotomy i inv.parts.length with hlt | rfl | hgt
  · rw [List.getElem?_append_left hlt]
    simp [hlt.ne]
  · simp [eq_comm]
  · have hnone : inv.parts[i]? = none := List.getElem?_eq_none hgt.le
    have hnone' : (inv.parts ++ [{ part with parent := parent }])[i]? = none :=
      List.getElem?_eq_none (by simpa using hgt)
    simp [hnone, hnone', hgt.ne']

theorem recorded_link (inv : Inventory) (parent q : Option PartId) (part : Part) :
    (inv.link parent part).recorded q =
      if q = parent then inv.parts.length :: inv.recorded q else inv.recorded q := by
  have hold : (List.range inv.parts.length).filter
      ((inv.link parent part).IsChild q ·) =
        (List.range inv.parts.length).filter (inv.IsChild q ·) := by
    refine List.filter_congr fun i hi => ?_
    have hne : i ≠ inv.parts.length := (List.mem_range.mp hi).ne
    simp [isChild_link, hne]
  have hnew : ¬inv.IsChild q inv.parts.length := fun h => lt_irrefl _ h.lt
  have hlen : (inv.link parent part).parts.length = inv.parts.length + 1 := by
    simp [link]
  rw [recorded, recorded, hlen, List.range_succ, List.filter_append, hold,
    List.reverse_append]
  by_cases hq : q = parent
  · simp [isChild_link, hq]
  · simp [isChild_link, hnew, hq]

theorem first_link {inv : Inventory} {parent q : Option PartId} {part : Part}
    (hfirst : inv.firstChild.length = inv.parts.length)
    (hparent : ∀ p ∈ parent, p < inv.parts.length) :
    (inv.link parent part).first q =
      if q = parent then inv.parts.length else inv.first q := by
  have hget : ∀ (l : List ℕ) (p : ℕ), (l ++ [endOfList]).getD p endOfList =
      l.getD p endOfList := by
    intro l p
    rcases lt_trichotomy p l.length with hp | rfl | hp
    · simp [List.getD_eq_getElem?_getD, List.getElem?_append_left hp]
    · simp [List.getD_eq_getElem?_getD]
    · simp [List.getD_eq_getElem?_getD, List.getElem?_eq_none hp.le,
        List.getElem?_eq_none (l := l ++ [endOfList]) (i := p) (by simpa using hp)]
  cases parent with
  | none =>
    cases q with
    | none => rfl
    | some r => exact hget _ _
  | some p =>
    have hp : p < inv.firstChild.length := hfirst ▸ hparent p rfl
    cases q with
    | none => simp [link, first]
    | some r =>
      simp only [link, first, hget, Option.some.injEq]
      by_cases hr : r = p
      · simp [hr, List.getD_eq_getElem?_getD, hp]
      · simp [hr, Ne.symm hr, List.getD_eq_getElem?_getD]

theorem new_linked (len : ℕ) (cap : UInt32) : ((new len).withMaxParts cap).Linked where
  firstChild_length := rfl
  nextSibling_length := rfl
  length_le := Nat.zero_le _
  parent_lt := fun _ _ h => absurd h.lt (Nat.not_lt_zero _)
  links := fun parent => by
    cases parent with
    | none => exact .stop
    | some p => exact .stop

/-- A push keeps the sibling lists right: the new id goes to the head of one list, and its
own list is empty because no recorded part names it yet. -/
theorem linked_link {inv : Inventory} (h : inv.Linked) {parent : Option PartId}
    {part : Part} (hcap : inv.parts.length < inv.maxParts.toNat)
    (hparent : ∀ p ∈ parent, p < inv.parts.length) : (inv.link parent part).Linked where
  firstChild_length := by
    cases parent with
    | none => simp [link, h.firstChild_length]
    | some p => simp [link, h.firstChild_length]
  nextSibling_length := by simp [link, h.nextSibling_length]
  length_le := by simpa [link] using hcap
  parent_lt := by
    intro p i hi
    rcases isChild_link.mp hi with hi | ⟨rfl, hp⟩
    · exact h.parent_lt p i hi
    · exact hparent p hp.symm
  links := by
    intro q
    rw [first_link h.firstChild_length hparent, recorded_link]
    have hold : ∀ q, Links (inv.link parent part).nextSibling (inv.first q)
        (inv.recorded q) := fun q => (h.links q).append _
    by_cases hq : q = parent
    · rw [if_pos hq, if_pos hq]
      have hlt : inv.parts.length < 2 ^ 32 := hcap.trans inv.maxParts.toNat_lt
      have hne : inv.parts.length ≠ endOfList := by
        have := inv.maxParts.toNat_lt
        simp only [endOfList]
        omega
      have hnext : (inv.link parent part).nextSibling[inv.parts.length]? =
          some (inv.first q) := by
        rw [← h.nextSibling_length, hq]
        exact List.getElem?_concat_length
      exact .step hne hnext (hold q)
    · rw [if_neg hq, if_neg hq]
      exact hold q

theorem linked_push {inv inv' : Inventory} (h : inv.Linked) {parent : Option PartId}
    {part : Part} {id : PartId} (hpush : inv.push parent part = .ok (id, inv')) :
    inv'.Linked := by
  obtain ⟨hcap, hparent, -, rfl⟩ := push_cases hpush
  exact linked_link h hcap hparent

theorem linked_pushes {inv : Inventory} (h : inv.Linked)
    (ops : List (Option PartId × Part)) : (inv.pushes ops).Linked := by
  induction ops generalizing inv with
  | nil => exact h
  | cons op ops ih =>
    obtain ⟨parent, part⟩ := op
    rw [pushes]
    split
    · next hpush => exact ih (linked_push h hpush)
    · exact ih h

/-! ### The children of a part -/

section

variable {inv : Inventory} (h : inv.Linked) (parent : Option PartId)
include h

theorem siblings_recorded : siblings inv.nextSibling inv.parts.length (inv.first parent) =
    inv.recorded parent :=
  siblings_eq (h.links parent) (recorded_length_le inv parent)

theorem children_perm : (inv.children parent).Perm (inv.recorded parent) := by
  rw [children, siblings_recorded h]
  exact sortBy_perm _ _

theorem mem_children {i : PartId} : i ∈ inv.children parent ↔ inv.IsChild parent i :=
  (children_perm h parent).mem_iff.trans mem_recorded

theorem children_nodup : (inv.children parent).Nodup :=
  (children_perm h parent).nodup_iff.mpr (recorded_nodup inv parent)

end

theorem children_sorted (inv : Inventory) (parent : Option PartId) :
    (inv.children parent).Pairwise fun i j => (inv.range i).start ≤ (inv.range j).start := by
  refine (sortBy_sorted _ _).imp fun {i j} hij => ?_
  rcases Prod.Lex.le_iff.mp hij with hlt | ⟨heq, -⟩
  · exact hlt.le
  · exact heq.le

/-- An empty sibling list is recorded as such. -/
theorem first_eq_endOfList_iff {inv : Inventory} (h : inv.Linked)
    (parent : Option PartId) :
    inv.first parent = endOfList ↔ inv.children parent = [] := by
  have hlinks := h.links parent
  have hnil : inv.children parent = [] ↔ inv.recorded parent = [] := by
    constructor
    · intro hc
      exact List.nil_perm.mp (hc ▸ children_perm h parent)
    · intro hr
      exact List.perm_nil.mp (hr ▸ children_perm h parent)
  rw [hnil]
  exact hlinks.eq_endOfList_iff

end Inventory

end Zencodec
