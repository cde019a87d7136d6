/-
Stable sorting by a key.

`sortBy key l` is the list `l` in increasing order of `key`, entries with equal
keys in their old order.  Everything below is a fact about this one function:

* `filter_sortBy`, `map_sortBy` — it commutes with filtering and with maps that
  keep the key;
* `eq_of_sorted_of_filter_eq` — a sorted list is determined by its sublists of
  equal key, which is what stability means;
* `sortBy_first` — the first entry of a key is exchanged in place;
* `sortBy_eraseP` — erasing the first entry of a key commutes with sorting.
-/
import Mathlib

namespace StableSort

variable {α β κ : Type*} [LinearOrder κ] {key : α → κ}

/-- `l` in increasing order of `key`; entries with equal keys keep their order. -/
def sortBy (key : α → κ) (l : List α) : List α :=
  l.insertionSort fun a b => key a ≤ key b

/-- `l` is in increasing order of `key`. -/
def SortedBy (key : α → κ) (l : List α) : Prop :=
  l.Pairwise fun a b => key a ≤ key b

instance total_key : Std.Total fun a b : α => key a ≤ key b := ⟨fun _ _ => le_total _ _⟩

instance isTrans_key : IsTrans α fun a b : α => key a ≤ key b := ⟨fun _ _ _ => le_trans⟩

@[simp] theorem sortBy_nil : sortBy key [] = [] := rfl

theorem sortBy_perm (key : α → κ) (l : List α) : (sortBy key l).Perm l :=
  List.perm_insertionSort _ l

@[simp] theorem mem_sortBy {l : List α} {a : α} : a ∈ sortBy key l ↔ a ∈ l :=
  (sortBy_perm key l).mem_iff

@[simp] theorem length_sortBy (key : α → κ) (l : List α) :
    (sortBy key l).length = l.length :=
  (sortBy_perm key l).length_eq

theorem sortBy_sorted (key : α → κ) (l : List α) : SortedBy key (sortBy key l) :=
  List.pairwise_insertionSort _ l

theorem sortBy_eq_self {l : List α} (h : SortedBy key l) : sortBy key l = l :=
  List.Pairwise.insertionSort_eq h

/-- The last entry in order has the greatest key. -/
theorem getLast?_sortBy {l : List α} {a : α} (h : (sortBy key l).getLast? = some a) :
    a ∈ l ∧ ∀ b ∈ l, key b ≤ key a := by
  obtain ⟨init, hinit⟩ := List.getLast?_eq_some_iff.mp h
  have hsorted := sortBy_sorted key l
  rw [hinit, SortedBy, List.pairwise_append] at hsorted
  refine ⟨mem_sortBy.mp (hinit ▸ List.mem_append_right _ List.mem_cons_self), fun b hb => ?_⟩
  rcases List.mem_append.mp (hinit ▸ mem_sortBy.mpr hb) with hb | hb
  · exact hsorted.2.2 b hb a List.mem_cons_self
  · exact (congrArg key (List.mem_singleton.mp hb)).le

theorem SortedBy.filter {l : List α} (h : SortedBy key l) (p : α → Bool) :
    SortedBy key (l.filter p) :=
  List.Pairwise.filter p h

theorem sortBy_sortBy (key : α → κ) (l : List α) :
    sortBy key (sortBy key l) = sortBy key l :=
  sortBy_eq_self (sortBy_sorted key l)

/-- A list whose keys are all equal is its own sorted form. -/
theorem sortBy_of_const {l : List α} {k : κ} (h : ∀ a ∈ l, key a = k) :
    sortBy key l = l :=
  sortBy_eq_self (List.pairwise_of_forall_mem_list fun a ha b hb => by
    rw [h a ha, h b hb])

/-! ### Filters and maps -/

theorem filter_orderedInsert_of_neg {p : α → Bool} {a : α} (ha : p a = false)
    (l : List α) :
    (l.orderedInsert (fun a b => key a ≤ key b) a).filter p = l.filter p := by
  induction l with
  | nil => simp [ha]
  | cons b l ih =>
    by_cases hab : key a ≤ key b
    · simp [List.orderedInsert, hab, ha]
    · simp only [List.orderedInsert, hab, if_false, List.filter_cons, ih]

theorem filter_orderedInsert_of_pos {p : α → Bool} {a : α} (ha : p a = true)
    {l : List α} (hl : SortedBy key l) :
    (l.orderedInsert (fun a b => key a ≤ key b) a).filter p =
      (l.filter p).orderedInsert (fun a b => key a ≤ key b) a := by
  induction l with
  | nil => simp [ha]
  | cons b l ih =>
    obtain ⟨hb, hl'⟩ := List.pairwise_cons.mp hl
    by_cases hab : key a ≤ key b
    · -- `a` goes in front of everything that survives the filter.
      have hfront : ∀ c ∈ (b :: l).filter p, key a ≤ key c := by
        intro c hc
        rcases List.mem_cons.mp (List.mem_filter.mp hc).1 with rfl | hcl
        · exact hab
        · exact hab.trans (hb c hcl)
      rw [show (b :: l).orderedInsert (fun a b => key a ≤ key b) a = a :: b :: l by
        simp [List.orderedInsert, hab], List.filter_cons_of_pos ha]
      cases hf : (b :: l).filter p with
      | nil => rfl
      | cons c t =>
        have hac : key a ≤ key c := hfront c (by rw [hf]; exact List.mem_cons_self)
        simp [List.orderedInsert, hac]
    · rw [show (b :: l).orderedInsert (fun a b => key a ≤ key b) a =
        b :: l.orderedInsert (fun a b => key a ≤ key b) a by
          simp [List.orderedInsert, hab]]
      by_cases hpb : p b = true
      · rw [List.filter_cons_of_pos hpb, List.filter_cons_of_pos hpb, ih hl']
        simp [List.orderedInsert, hab]
      · rw [List.filter_cons_of_neg hpb, List.filter_cons_of_neg hpb, ih hl']

/-- Sorting commutes with filtering. -/
theorem filter_sortBy (p : α → Bool) (l : List α) :
    (sortBy key l).filter p = sortBy key (l.filter p) := by
  induction l with
  | nil => rfl
  | cons a l ih =>
    have hcons : sortBy key (a :: l) =
        (sortBy key l).orderedInsert (fun a b => key a ≤ key b) a := rfl
    rw [hcons]
    by_cases ha : p a = true
    · rw [filter_orderedInsert_of_pos ha (sortBy_sorted key l), ih,
        List.filter_cons_of_pos ha]
      rfl
    · rw [filter_orderedInsert_of_neg (by simpa using ha), ih,
        List.filter_cons_of_neg ha]

/-- Sorting commutes with a map that keeps the key. -/
theorem map_sortBy {key' : β → κ} (f : α → β) (hf : ∀ a, key' (f a) = key a)
    (l : List α) : (sortBy key l).map f = sortBy key' (l.map f) :=
  List.map_insertionSort _ _ f l fun a _ b _ => by rw [hf, hf]

/-- The entries of one key come out in their old order. -/
theorem filter_key_sortBy (k : κ) (l : List α) :
    (sortBy key l).filter (fun a => key a = k) = l.filter (fun a => key a = k) := by
  rw [filter_sortBy]
  exact sortBy_of_const (k := k) fun a ha => by simpa using (List.mem_filter.mp ha).2

theorem filter_key_map {key' : β → κ} (f : α → β) (hf : ∀ a, key' (f a) = key a) (k : κ)
    (l : List α) : (l.map f).filter (fun b => key' b = k) =
      (l.filter fun a => key a = k).map f := by
  rw [List.filter_map]
  refine congrArg (List.map f) (List.filter_congr fun a _ => ?_)
  simp [hf]

theorem find?_key_sortBy (k : κ) (l : List α) :
    (sortBy key l).find? (fun a => key a = k) = l.find? (fun a => key a = k) := by
  rw [← List.head?_filter, ← List.head?_filter, filter_key_sortBy]

/-! ### A sorted list is determined by its sublists of equal key -/

theorem eq_of_sorted_of_filter_eq : ∀ {a b : List α}, SortedBy key a → SortedBy key b →
    (∀ k, a.filter (fun x => key x = k) = b.filter (fun x => key x = k)) → a = b := by
  intro a
  induction a with
  | nil =>
    intro b _ _ h
    cases b with
    | nil => rfl
    | cons y b => exact absurd (h (key y)) (by simp)
  | cons x a ih =>
    intro b ha hb h
    cases b with
    | nil => exact absurd (h (key x)) (by simp)
    | cons y b =>
      have hmem : ∀ {z : α}, z ∈ x :: a ↔ z ∈ y :: b := by
        intro z
        have := congrArg (z ∈ ·) (h (key z))
        simpa only [List.mem_filter, decide_true, and_true, eq_iff_iff] using this
      -- Both heads carry the least key, so the keys agree, and then the heads do.
      have hxy : key x ≤ key y := by
        rcases List.mem_cons.mp (hmem.mpr List.mem_cons_self) with hyx | hya
        · rw [hyx]
        · exact (List.pairwise_cons.mp ha).1 y hya
      have hyx : key y ≤ key x := by
        rcases List.mem_cons.mp (hmem.mp List.mem_cons_self) with hxy' | hxb
        · rw [hxy']
        · exact (List.pairwise_cons.mp hb).1 x hxb
      have hk : key x = key y := le_antisymm hxy hyx
      have hhead := h (key x)
      simp only [List.filter_cons, decide_true, if_true, hk] at hhead
      obtain rfl : x = y := (List.cons.inj hhead).1
      refine congrArg (x :: ·) (ih (List.pairwise_cons.mp ha).2
        (List.pairwise_cons.mp hb).2 fun k => ?_)
      have hk' := h k
      by_cases hxk : key x = k
      · simpa [List.filter_cons, hxk] using hk'
      · simpa [List.filter_cons, hxk] using hk'

theorem filter_key_eraseP (j k : κ) (l : List α) :
    (l.eraseP fun a => key a = k).filter (fun a => key a = j) =
      if j = k then (l.filter fun a => key a = j).tail else l.filter fun a => key a = j := by
  induction l with
  | nil => simp
  | cons a l ih =>
    by_cases hk : key a = k
    · rw [List.eraseP_cons_of_pos (by simpa using hk)]
      split
      · next hj => rw [List.filter_cons_of_pos (by simpa [hj] using hk), List.tail_cons]
      · next hj => rw [List.filter_cons_of_neg (by simpa [hk] using Ne.symm hj)]
    · rw [List.eraseP_cons_of_neg (by simpa using hk)]
      by_cases hj : key a = j
      · have hne : j ≠ k := fun h => hk (hj.trans h)
        rw [List.filter_cons_of_pos (by simpa using hj),
          List.filter_cons_of_pos (by simpa using hj), ih, if_neg hne, if_neg hne]
      · rw [List.filter_cons_of_neg (by simpa using hj),
          List.filter_cons_of_neg (by simpa using hj), ih]

/-- An entry that is the first of its key can be exchanged for another with this key before
or after sorting. -/
theorem sortBy_first (key : α → κ) (l₁ l₂ : List α) (a : α) (h : ∀ b ∈ l₁, key b ≠ key a) :
    ∃ s₁ s₂, (∀ b ∈ s₁, key b ≠ key a) ∧
      ∀ a', key a' = key a → sortBy key (l₁ ++ a' :: l₂) = s₁ ++ a' :: s₂ := by
  have hnil : ∀ {l : List α}, (∀ b ∈ l, key b ≠ key a) →
      l.filter (fun b => key b = key a) = [] := by
    intro l hl
    exact List.filter_eq_nil_iff.mpr fun b hb => by simpa using hl b hb
  have hfind : (sortBy key (l₁ ++ a :: l₂)).find? (fun b => key b = key a) = some a := by
    rw [find?_key_sortBy, ← List.head?_filter, List.filter_append, hnil h,
      List.filter_cons_of_pos (by simp)]
    rfl
  obtain ⟨-, s₁, s₂, hs, hs₁⟩ := List.find?_eq_some_iff_append.mp hfind
  replace hs₁ : ∀ b ∈ s₁, key b ≠ key a := fun b hb => by simpa using hs₁ b hb
  refine ⟨s₁, s₂, hs₁, fun a' ha' => eq_of_sorted_of_filter_eq (sortBy_sorted _ _) ?_ fun k => ?_⟩
  · -- Being sorted is a fact about the keys, and these are the same.
    have hsorted := sortBy_sorted key (l₁ ++ a :: l₂)
    unfold SortedBy at hsorted ⊢
    rw [hs] at hsorted
    rw [← List.pairwise_map] at hsorted ⊢
    simpa [ha'] using hsorted
  · have hk : (sortBy key (l₁ ++ a :: l₂)).filter (fun b => key b = k) =
        (l₁ ++ a :: l₂).filter (fun b => key b = k) := filter_key_sortBy k _
    rw [hs] at hk
    rw [filter_key_sortBy]
    simp only [List.filter_append] at hk ⊢
    by_cases hka : key a = k
    · subst hka
      rw [hnil h, hnil hs₁, List.filter_cons_of_pos (by simp),
        List.filter_cons_of_pos (by simp)] at hk
      rw [hnil h, hnil hs₁, List.filter_cons_of_pos (by simpa using ha'),
        List.filter_cons_of_pos (by simpa using ha'), List.nil_append, List.nil_append]
      rw [(List.cons.inj hk).2]
    · rw [List.filter_cons_of_neg (by simpa using hka),
        List.filter_cons_of_neg (by simpa using hka)] at hk
      rw [List.filter_cons_of_neg (by simpa [ha'] using hka),
        List.filter_cons_of_neg (by simpa [ha'] using hka), hk]

/-- Sorting commutes with erasing the first entry of a key. -/
theorem sortBy_eraseP (k : κ) (l : List α) :
    sortBy key (l.eraseP fun a => key a = k) = (sortBy key l).eraseP fun a => key a = k := by
  refine eq_of_sorted_of_filter_eq (sortBy_sorted _ _)
    ((sortBy_sorted key l).sublist List.eraseP_sublist) fun j => ?_
  rw [filter_key_sortBy, filter_key_eraseP, filter_key_eraseP, filter_key_sortBy]

end StableSort
