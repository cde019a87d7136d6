/-
Half-open ranges and tilings.

A `Span` is a half-open range of a linear order.  `Tiles a b l` says that the ranges of
`l`, in the order they come, run from `a` to `b` without a hole.

* `tiles_iff` — for non-empty ranges in order this is: pairwise disjoint with union
  `a..b`;
* `separated_iff` — each range ends before the next one starts, exactly when they are
  pairwise disjoint;
* `gaps_partition` — the ranges together with the holes between them split `a..b`.
-/
import Mathlib

namespace Tiling

variable {α : Type*} [LinearOrder α]

/-- The half-open range `start..stop`. -/
structure Span (α : Type*) where
  start : α
  stop : α
  deriving DecidableEq, Repr

namespace Span

instance : Membership α (Span α) := ⟨fun s x => s.start ≤ x ∧ x < s.stop⟩

theorem mem_def {s : Span α} {x : α} : x ∈ s ↔ s.start ≤ x ∧ x < s.stop := Iff.rfl

instance (s : Span α) (x : α) : Decidable (x ∈ s) := decidable_of_iff _ mem_def.symm

/-- Some element lies in the range. -/
def Nonempty (s : Span α) : Prop := s.start < s.stop

instance (s : Span α) : Decidable s.Nonempty := inferInstanceAs (Decidable (_ < _))

/-- No element lies in both ranges. -/
def Disjoint (s t : Span α) : Prop := ∀ x, x ∈ s → x ∉ t

theorem Disjoint.symm {s t : Span α} (h : s.Disjoint t) : t.Disjoint s :=
  fun x hxt hxs => h x hxs hxt

instance : Std.Symm (Disjoint : Span α → Span α → Prop) := ⟨fun _ _ => Disjoint.symm⟩

/-- The part of `s` that lies in `t`. -/
def inter (s t : Span α) : Span α := ⟨max s.start t.start, min s.stop t.stop⟩

@[simp] theorem mem_inter {s t : Span α} {x : α} : x ∈ s.inter t ↔ x ∈ s ∧ x ∈ t := by
  simp only [mem_def, inter, max_le_iff, lt_min_iff]
  tauto

/-- `s` lies inside `t`. -/
def Within (s t : Span α) : Prop := t.start ≤ s.start ∧ s.stop ≤ t.stop

instance (s t : Span α) : Decidable (s.Within t) := inferInstanceAs (Decidable (_ ∧ _))

theorem Within.refl (s : Span α) : s.Within s := ⟨le_rfl, le_rfl⟩

theorem Within.trans {s t u : Span α} (h : s.Within t) (h' : t.Within u) : s.Within u :=
  ⟨h'.1.trans h.1, h.2.trans h'.2⟩

theorem inter_within (s t : Span α) : (s.inter t).Within t :=
  ⟨le_max_right _ _, min_le_right _ _⟩

theorem Within.inter {s t : Span α} (h : s.Within t) (r : Span α) :
    (s.inter r).Within (t.inter r) :=
  ⟨max_le_max_right _ h.1, min_le_min_right _ h.2⟩

theorem inter_eq_right {s t : Span α} (h : t.Within s) : s.inter t = t := by
  have h1 : max s.start t.start = t.start := max_eq_right h.1
  have h2 : min s.stop t.stop = t.stop := min_eq_right h.2
  rw [Span.inter, h1, h2]

theorem Within.mem {s t : Span α} (h : s.Within t) {x : α} (hx : x ∈ s) : x ∈ t :=
  ⟨h.1.trans hx.1, hx.2.trans_le h.2⟩

/-- A non-empty range whose elements lie in `t` lies inside `t`. -/
theorem within_of_subset {s t : Span α} (hs : s.Nonempty) (h : ∀ x ∈ s, x ∈ t) :
    s.Within t := by
  refine ⟨(h s.start ⟨le_rfl, hs⟩).1, not_lt.mp fun hlt => ?_⟩
  -- Otherwise the larger of the two inner bounds lies in `s` and not in `t`.
  have hmem := h (max s.start t.stop) ⟨le_max_left _ _, max_lt hs hlt⟩
  exact absurd hmem.2 (not_lt.mpr (le_max_right _ _))

theorem Nonempty.start_mem {s : Span α} (h : s.Nonempty) : s.start ∈ s := ⟨le_rfl, h⟩

theorem disjoint_of_stop_le {s t : Span α} (h : s.stop ≤ t.start) : s.Disjoint t :=
  fun _ hs ht => absurd (hs.2.trans_le h) (not_lt.mpr ht.1)

/-- Disjoint ranges, the first starting no later, do not interleave. -/
theorem Disjoint.stop_le {s t : Span α} (h : s.Disjoint t) (ht : t.Nonempty)
    (hst : s.start ≤ t.start) : s.stop ≤ t.start := by
  by_contra hlt
  exact h t.start ⟨hst, not_le.mp hlt⟩ ht.start_mem

end Span

/-! ### Lists of ranges -/

/-- Every range ends before each later one starts. -/
def Separated (l : List (Span α)) : Prop := l.Pairwise fun s t => s.stop ≤ t.start

/-- The ranges, in order, run from `a` to `b` without a hole. -/
def Tiles : α → α → List (Span α) → Prop
  | a, b, [] => a = b
  | a, b, s :: l => s.start = a ∧ Tiles s.stop b l

/-- The ranges split `a..b`: every element lies in exactly one of them. -/
def Partition (a b : α) (l : List (Span α)) : Prop :=
  l.Pairwise Span.Disjoint ∧ ∀ x, (∃ s ∈ l, x ∈ s) ↔ a ≤ x ∧ x < b

theorem Partition.perm {a b : α} {l m : List (Span α)} (h : Partition a b l)
    (hlm : l.Perm m) : Partition a b m := by
  refine ⟨(hlm.pairwise_iff fun h => h.symm).mp h.1, fun x => ?_⟩
  rw [← h.2 x]
  constructor
  · rintro ⟨s, hs, hx⟩
    exact ⟨s, hlm.mem_iff.mpr hs, hx⟩
  · rintro ⟨s, hs, hx⟩
    exact ⟨s, hlm.mem_iff.mp hs, hx⟩

/-- Ranges in order of their start are separated exactly when they are disjoint. -/
theorem separated_iff {l : List (Span α)} (hne : ∀ s ∈ l, s.Nonempty)
    (hsort : l.Pairwise fun s t => s.start ≤ t.start) :
    Separated l ↔ l.Pairwise Span.Disjoint := by
  constructor
  · intro h
    exact h.imp fun hst => Span.disjoint_of_stop_le hst
  · intro h
    refine (h.and hsort).imp_of_mem fun _ ht hst => ?_
    exact hst.1.stop_le (hne _ ht) hst.2

/-- It is enough to compare neighbours. -/
theorem separated_iff_isChain {l : List (Span α)} (hne : ∀ s ∈ l, s.Nonempty) :
    Separated l ↔ l.IsChain fun s t => s.stop ≤ t.start := by
  refine ⟨List.Pairwise.isChain, fun h => ?_⟩
  -- With non-emptiness of the middle range recorded, the relation is transitive.
  have htrans : IsTrans (Span α)
      fun s t => s.stop ≤ t.start ∧ t.Nonempty :=
    ⟨fun _ _ _ hst htu => ⟨(hst.1.trans hst.2.le).trans htu.1, htu.2⟩⟩
  have hchain : l.IsChain fun s t => s.stop ≤ t.start ∧ t.Nonempty :=
    h.imp_of_mem_imp fun _ t _ ht hst => ⟨hst, hne t ht⟩
  exact hchain.pairwise.imp fun hst => hst.1

theorem Tiles.le {a b : α} {l : List (Span α)} (hne : ∀ s ∈ l, s.Nonempty)
    (h : Tiles a b l) : a ≤ b := by
  induction l generalizing a with
  | nil => exact le_of_eq h
  | cons s l ih =>
    obtain ⟨rfl, h⟩ := h
    have hs : s.start < s.stop := hne s List.mem_cons_self
    exact hs.le.trans (ih (fun t ht => hne t (List.mem_cons_of_mem s ht)) h)

theorem Tiles.start_le {a b : α} {l : List (Span α)} (hne : ∀ s ∈ l, s.Nonempty)
    (h : Tiles a b l) : ∀ s ∈ l, a ≤ s.start := by
  induction l generalizing a with
  | nil => exact fun s hs => absurd hs List.not_mem_nil
  | cons t l ih =>
    obtain ⟨rfl, h⟩ := h
    have hne' : ∀ s ∈ l, s.Nonempty := fun s hs => hne s (List.mem_cons_of_mem t hs)
    have ht : t.start < t.stop := hne t List.mem_cons_self
    intro s hs
    rcases List.mem_cons.mp hs with rfl | hs
    · exact le_rfl
    · exact ht.le.trans (ih hne' h s hs)

theorem Tiles.separated {a b : α} {l : List (Span α)} (hne : ∀ s ∈ l, s.Nonempty)
    (h : Tiles a b l) : Separated l := by
  induction l generalizing a with
  | nil => exact List.Pairwise.nil
  | cons s l ih =>
    have hne' : ∀ t ∈ l, t.Nonempty := fun t ht => hne t (List.mem_cons_of_mem s ht)
    exact List.pairwise_cons.mpr ⟨h.2.start_le hne', ih hne' h.2⟩

theorem Tiles.mem_iff {a b : α} {l : List (Span α)} (hne : ∀ s ∈ l, s.Nonempty)
    (h : Tiles a b l) (x : α) : (∃ s ∈ l, x ∈ s) ↔ a ≤ x ∧ x < b := by
  induction l generalizing a with
  | nil =>
    obtain rfl : a = b := h
    simp only [List.not_mem_nil, false_and, exists_false, false_iff, not_and, not_lt]
    exact fun hx => hx
  | cons s l ih =>
    obtain ⟨rfl, h⟩ := h
    have hne' : ∀ t ∈ l, t.Nonempty := fun t ht => hne t (List.mem_cons_of_mem s ht)
    have hs : s.start < s.stop := hne s List.mem_cons_self
    have hle : s.stop ≤ b := h.le hne'
    rw [List.exists_mem_cons_iff, ih hne' h, Span.mem_def]
    constructor
    · rintro (⟨h1, h2⟩ | ⟨h1, h2⟩)
      · exact ⟨h1, h2.trans_le hle⟩
      · exact ⟨hs.le.trans h1, h2⟩
    · rintro ⟨h1, h2⟩
      exact (lt_or_ge x s.stop).imp (fun hx => ⟨h1, hx⟩) fun hx => ⟨hx, h2⟩

/-- The first of the ordered ranges that split `a..b` starts at `a`. -/
theorem Partition.tiles {a b : α} (hab : a ≤ b) {l : List (Span α)}
    (hne : ∀ s ∈ l, s.Nonempty) (hsep : Separated l)
    (hmem : ∀ x, (∃ s ∈ l, x ∈ s) ↔ a ≤ x ∧ x < b) : Tiles a b l := by
  induction l generalizing a with
  | nil =>
    refine le_antisymm hab (not_lt.mp fun hlt => ?_)
    obtain ⟨s, hs, -⟩ := (hmem a).mpr ⟨le_rfl, hlt⟩
    exact absurd hs List.not_mem_nil
  | cons s l ih =>
    have hne' : ∀ t ∈ l, t.Nonempty := fun t ht => hne t (List.mem_cons_of_mem s ht)
    have hs : s.start < s.stop := hne s List.mem_cons_self
    obtain ⟨hfront, hsep'⟩ := List.pairwise_cons.mp hsep
    have hsab := (hmem s.start).mp ⟨s, List.mem_cons_self, le_rfl, hs⟩
    have hstart : s.start = a := by
      obtain ⟨t, ht, hat⟩ := (hmem a).mpr ⟨le_rfl, hsab.1.trans_lt hsab.2⟩
      rcases List.mem_cons.mp ht with rfl | ht
      · exact le_antisymm hat.1 hsab.1
      · exact absurd (hs.trans_le ((hfront t ht).trans hat.1)) (not_lt.mpr hsab.1)
    have hstop : s.stop ≤ b := by
      by_contra hlt
      -- `b` itself would be covered.
      exact absurd ((hmem b).mp ⟨s, List.mem_cons_self, hsab.2.le, not_le.mp hlt⟩).2
        (lt_irrefl b)
    refine ⟨hstart, ih hstop hne' hsep' fun x => ?_⟩
    constructor
    · rintro ⟨t, ht, hx⟩
      exact ⟨(hfront t ht).trans hx.1,
        ((hmem x).mp ⟨t, List.mem_cons_of_mem s ht, hx⟩).2⟩
    · rintro ⟨h1, h2⟩
      obtain ⟨t, ht, hx⟩ := (hmem x).mpr ⟨(hsab.1.trans hs.le).trans h1, h2⟩
      rcases List.mem_cons.mp ht with rfl | ht
      · exact absurd hx.2 (not_lt.mpr h1)
      · exact ⟨t, ht, hx⟩

/-- Non-empty ranges in order tile `a..b` exactly when they split it. -/
theorem tiles_iff {a b : α} (hab : a ≤ b) {l : List (Span α)}
    (hne : ∀ s ∈ l, s.Nonempty) (hsort : l.Pairwise fun s t => s.start ≤ t.start) :
    Tiles a b l ↔ Partition a b l := by
  constructor
  · intro h
    exact ⟨(separated_iff hne hsort).mp (h.separated hne), h.mem_iff hne⟩
  · intro h
    exact h.2 |> Partition.tiles hab hne ((separated_iff hne hsort).mpr h.1)

/-! ### The holes between the ranges -/

/-- The holes of `l` in `a..b`, for ranges in order: what lies between `a` and the first
range, between a range and the next one, and between the last range and `b`. -/
def gaps (a b : α) : List (Span α) → List (Span α)
  | [] => if a < b then [⟨a, b⟩] else []
  | s :: l =>
    (if a < s.start then [⟨a, min s.start b⟩] else []) ++ gaps (max a s.stop) b l

theorem mem_gaps {a b : α} {l : List (Span α)}
    (hsort : l.Pairwise fun s t => s.start ≤ t.start) (x : α) :
    (∃ g ∈ gaps a b l, x ∈ g) ↔ (a ≤ x ∧ x < b) ∧ ∀ s ∈ l, x ∉ s := by
  induction l generalizing a with
  | nil =>
    by_cases hab : a < b
    · simp [gaps, hab, Span.mem_def]
    · simp only [gaps, hab, if_false, List.not_mem_nil, false_and, exists_false, false_iff]
      rintro ⟨⟨h1, h2⟩, -⟩
      exact hab (h1.trans_lt h2)
  | cons s l ih =>
    obtain ⟨hfront, hsort'⟩ := List.pairwise_cons.mp hsort
    have hhead : (∃ g ∈ (if a < s.start then [Span.mk a (min s.start b)] else []), x ∈ g) ↔
        (a ≤ x ∧ x < b) ∧ x < s.start := by
      by_cases has : a < s.start
      · simp only [has, if_true, List.mem_singleton, exists_eq_left, Span.mem_def,
          lt_min_iff]
        tauto
      · simp only [has, if_false, List.not_mem_nil, false_and, exists_false, false_iff]
        rintro ⟨⟨h1, -⟩, h2⟩
        exact has (h1.trans_lt h2)
    simp only [gaps, List.mem_append, or_and_right, exists_or, hhead, ih hsort',
      List.forall_mem_cons, max_le_iff]
    constructor
    · rintro (⟨hx, hlt⟩ | ⟨⟨⟨h1, h2⟩, h3⟩, h4⟩)
      · exact ⟨hx, fun hs => absurd hs.1 (not_le.mpr hlt), fun t ht hxt =>
          absurd ((hfront t ht).trans hxt.1) (not_le.mpr hlt)⟩
      · exact ⟨⟨h1, h3⟩, fun hs => absurd hs.2 (not_lt.mpr h2), h4⟩
    · rintro ⟨hx, hs, h4⟩
      rcases lt_or_ge x s.start with hlt | hge
      · exact Or.inl ⟨hx, hlt⟩
      · exact Or.inr ⟨⟨⟨hx.1, not_lt.mp fun hlt => hs ⟨hge, hlt⟩⟩, hx.2⟩, h4⟩

theorem le_start_of_mem_gaps {a b : α} {l : List (Span α)} :
    ∀ g ∈ gaps a b l, a ≤ g.start := by
  induction l generalizing a with
  | nil =>
    intro g hg
    by_cases hab : a < b
    · simp only [gaps, hab, if_true, List.mem_singleton] at hg
      exact hg ▸ le_rfl
    · simp [gaps, hab] at hg
  | cons s l ih =>
    intro g hg
    rcases List.mem_append.mp hg with hg | hg
    · by_cases has : a < s.start
      · simp only [has, if_true, List.mem_singleton] at hg
        exact hg ▸ le_rfl
      · simp [has] at hg
    · exact (le_max_left a s.stop).trans (ih g hg)

theorem gaps_nonempty {a b : α} {l : List (Span α)} (hl : ∀ s ∈ l, s.start ≤ b) :
    ∀ g ∈ gaps a b l, g.Nonempty := by
  induction l generalizing a with
  | nil =>
    intro g hg
    by_cases hab : a < b
    · simp only [gaps, hab, if_true, List.mem_singleton] at hg
      exact hg ▸ hab
    · simp [gaps, hab] at hg
  | cons s l ih =>
    intro g hg
    rcases List.mem_append.mp hg with hg | hg
    · by_cases has : a < s.start
      · simp only [has, if_true, List.mem_singleton] at hg
        exact hg ▸ lt_min has (has.trans_le (hl s List.mem_cons_self))
      · simp [has] at hg
    · exact ih (fun t ht => hl t (List.mem_cons_of_mem s ht)) g hg

theorem gaps_separated {a b : α} {l : List (Span α)} (hne : ∀ s ∈ l, s.Nonempty) :
    Separated (gaps a b l) := by
  induction l generalizing a with
  | nil =>
    by_cases hab : a < b
    · simp [gaps, hab, Separated]
    · simp [gaps, hab, Separated]
  | cons s l ih =>
    have hs : s.start < s.stop := hne s List.mem_cons_self
    refine List.pairwise_append.mpr
      ⟨?_, ih fun t ht => hne t (List.mem_cons_of_mem s ht), ?_⟩
    · by_cases has : a < s.start <;> simp [has]
    · intro g hg h hh
      by_cases has : a < s.start
      · simp only [has, if_true, List.mem_singleton] at hg
        have hstop : g.stop ≤ s.start := hg ▸ min_le_left s.start b
        exact (hstop.trans hs.le).trans
          ((le_max_right a s.stop).trans (le_start_of_mem_gaps h hh))
      · simp [has] at hg

/-- Disjoint ranges of `a..b` in order, with the holes between them, split `a..b`. -/
theorem gaps_partition {a b : α} {l : List (Span α)} (hne : ∀ s ∈ l, s.Nonempty)
    (hsort : l.Pairwise fun s t => s.start ≤ t.start) (hdisj : l.Pairwise Span.Disjoint)
    (hin : ∀ s ∈ l, s.Within ⟨a, b⟩) : Partition a b (l ++ gaps a b l) := by
  constructor
  · refine List.pairwise_append.mpr ⟨hdisj, (gaps_separated hne).imp fun hst =>
      Span.disjoint_of_stop_le hst, fun s hs g hg x hxs hxg => ?_⟩
    exact ((mem_gaps hsort x).mp ⟨g, hg, hxg⟩).2 s hs hxs
  · intro x
    simp only [List.mem_append, or_and_right, exists_or, mem_gaps hsort]
    constructor
    · rintro (⟨s, hs, hx⟩ | ⟨hx, -⟩)
      · exact (hin s hs).mem hx
      · exact hx
    · intro hx
      by_cases hs : ∃ s ∈ l, x ∈ s
      · exact Or.inl hs
      · exact Or.inr ⟨hx, fun s hsl hxs => hs ⟨s, hsl, hxs⟩⟩

end Tiling
