/-
Joining neighbours in a sorted list.

`sweep join s b l` goes through `b :: l` with a state `s`: `join` makes one element of the
current one and the next, or keeps them apart. When each element stands for a span, and a
joined one for the hull of its two (`Joins`), the result

* covers every element (`exists_within`),
* adds nothing but the gaps between elements that were joined (`mem_or_gap`),
* keeps its elements apart (`pairwise_apart`).
-/
import Mathlib.Algebra.Order.Group.Nat
import Mathlib.Data.List.Basic
import Zencodec.Lib.Tiling

open Tiling

namespace Coalesce

variable {α β σ : Type*}

def sweep (join : σ → β → β → Option (σ × β)) : σ → β → List β → List β
  | _, cur, [] => [cur]
  | s, cur, b :: l =>
    match join s cur b with
    | some p => sweep join p.1 p.2 l
    | none => cur :: sweep join s b l

variable {join : σ → β → β → Option (σ × β)} {s : σ} {cur b : β} {l : List β}

theorem sweep_cons_some {p : σ × β} (h : join s cur b = some p) :
    sweep join s cur (b :: l) = sweep join p.1 p.2 l := by
  rw [sweep, h]

theorem sweep_cons_none (h : join s cur b = none) :
    sweep join s cur (b :: l) = cur :: sweep join s b l := by
  rw [sweep, h]

theorem length_sweep_le (join : σ → β → β → Option (σ × β)) (s : σ) (cur : β) (l : List β) :
    (sweep join s cur l).length ≤ l.length + 1 := by
  induction l generalizing s cur with
  | nil => exact le_rfl
  | cons b l ih =>
    cases h : join s cur b with
    | some p =>
      rw [sweep_cons_some h]
      exact (ih p.1 p.2).trans (Nat.le_succ _)
    | none =>
      rw [sweep_cons_none h]
      exact Nat.succ_le_succ (ih s b)

/-- Nothing changes where nothing is joined. -/
theorem sweep_eq_self (h : (cur :: l).Pairwise fun a b => ∀ s, join s a b = none) (s : σ) :
    sweep join s cur l = cur :: l := by
  induction l generalizing cur with
  | nil => rfl
  | cons b l ih =>
    obtain ⟨hcur, hl⟩ := List.pairwise_cons.mp h
    rw [sweep_cons_none (hcur b List.mem_cons_self s), ih hl]

/-- What joining keeps holds of the result. -/
theorem forall_mem_sweep {P : β → Prop}
    (hjoin : ∀ s a b p, P a → P b → join s a b = some p → P p.2) (h : ∀ b ∈ cur :: l, P b) :
    ∀ c ∈ sweep join s cur l, P c := by
  induction l generalizing s cur with
  | nil => exact h
  | cons b l ih =>
    have hcur : P cur := h cur List.mem_cons_self
    have htail : ∀ c ∈ b :: l, P c := fun c hc => h c (List.mem_cons_of_mem _ hc)
    cases hp : join s cur b with
    | some p =>
      rw [sweep_cons_some hp]
      refine ih fun c hc => ?_
      rcases List.mem_cons.mp hc with rfl | hc
      · exact hjoin s cur b p hcur (htail b List.mem_cons_self) hp
      · exact htail c (List.mem_cons_of_mem _ hc)
    | none =>
      rw [sweep_cons_none hp]
      intro c hc
      rcases List.mem_cons.mp hc with rfl | hc
      · exact hcur
      · exact ih htail c hc

/-- The state is the weight of all elements. Joining keeps it so, and within the limit. -/
theorem sum_weight_le {join : ℕ → β → β → Option (ℕ × β)} {weight : β → ℕ} {limit : ℕ}
    (hjoin : ∀ s a b p, weight a + weight b ≤ s → s ≤ limit → join s a b = some p →
      p.1 + weight a + weight b = s + weight p.2 ∧ p.1 ≤ limit)
    {s d : ℕ} (hs : s = d + ((cur :: l).map weight).sum) (hlimit : s ≤ limit) :
    d + ((sweep join s cur l).map weight).sum ≤ limit := by
  induction l generalizing s cur d with
  | nil => exact hs ▸ hlimit
  | cons b l ih =>
    simp only [List.map_cons, List.sum_cons] at hs
    cases h : join s cur b with
    | some p =>
      obtain ⟨hsum, hle⟩ := hjoin s cur b p (by omega) hlimit h
      rw [sweep_cons_some h]
      refine ih ?_ hle
      rw [List.map_cons, List.sum_cons]
      omega
    | none =>
      rw [sweep_cons_none h, List.map_cons, List.sum_cons, ← Nat.add_assoc]
      refine ih ?_ hlimit
      rw [List.map_cons, List.sum_cons]
      omega

/-! ### Spans -/

variable [LinearOrder α]

/-- From the start of `s` to whichever of the two ends last. -/
def hull (s t : Span α) : Span α := ⟨s.start, max s.stop t.stop⟩

/-- A joined element is the hull of two that are `near` each other, and elements that are kept
apart are `apart`: both of these are told by where the first ends and the second starts. -/
structure Joins (span : β → Span α) (join : σ → β → β → Option (σ × β))
    (near apart : α → α → Prop) : Prop where
  hull : ∀ s a b p, (span a).start ≤ (span a).stop → join s a b = some p →
    span p.2 = hull (span a) (span b)
  near : ∀ s a b p, join s a b = some p → near (span a).stop (span b).start
  apart : ∀ s a b, join s a b = none → apart (span a).stop (span b).start

/-- The elements end no earlier than they start, and come in the order of their starts. -/
structure InOrder (span : β → Span α) (l : List β) : Prop where
  proper : ∀ b ∈ l, (span b).start ≤ (span b).stop
  sorted : l.Pairwise fun a b => (span a).start ≤ (span b).start

variable {span : β → Span α} {near apart : α → α → Prop}

theorem InOrder.tail (h : InOrder span (cur :: l)) : InOrder span l where
  proper := fun b hb => h.proper b (List.mem_cons_of_mem _ hb)
  sorted := (List.pairwise_cons.mp h.sorted).2

theorem InOrder.le_of_mem (h : InOrder span (cur :: l)) (hb : b ∈ l) :
    (span cur).start ≤ (span b).start :=
  (List.pairwise_cons.mp h.sorted).1 b hb

theorem InOrder.joined (h : InOrder span (cur :: b :: l)) (hj : Joins span join near apart)
    {p : σ × β} (hp : join s cur b = some p) : InOrder span (p.2 :: l) := by
  have hhull := hj.hull s cur b p (h.proper cur List.mem_cons_self) hp
  refine ⟨fun c hc => ?_, List.pairwise_cons.mpr ⟨fun c hc => ?_, h.tail.tail.sorted⟩⟩
  · rcases List.mem_cons.mp hc with rfl | hc
    · rw [hhull]
      exact (h.proper cur List.mem_cons_self).trans (le_max_left _ _)
    · exact h.tail.tail.proper c hc
  · rw [hhull]
    exact h.le_of_mem (List.mem_cons_of_mem _ hc)

/-- Every element is within one of the result. -/
theorem exists_within (hj : Joins span join near apart) (h : InOrder span (cur :: l))
    {a : β} (ha : a ∈ cur :: l) : ∃ c ∈ sweep join s cur l, (span a).Within (span c) := by
  induction l generalizing s cur a with
  | nil => exact ⟨a, ha, Span.Within.refl _⟩
  | cons b l ih =>
    cases hp : join s cur b with
    | some p =>
      have hhull := hj.hull s cur b p (h.proper cur List.mem_cons_self) hp
      rw [sweep_cons_some hp]
      have hcover : ∀ t, (span t).Within (span p.2) →
          ∃ c ∈ sweep join p.1 p.2 l, (span t).Within (span c) := by
        intro t ht
        obtain ⟨c, hc, hwithin⟩ := ih (h.joined hj hp) (s := p.1) List.mem_cons_self
        exact ⟨c, hc, ht.trans hwithin⟩
      rcases List.mem_cons.mp ha with rfl | ha
      · exact hcover a (hhull ▸ ⟨le_rfl, le_max_left _ _⟩)
      rcases List.mem_cons.mp ha with rfl | ha
      · exact hcover a (hhull ▸ ⟨h.le_of_mem List.mem_cons_self, le_max_right _ _⟩)
      · exact ih (h.joined hj hp) (List.mem_cons_of_mem _ ha)
    | none =>
      rw [sweep_cons_none hp]
      rcases List.mem_cons.mp ha with rfl | ha
      · exact ⟨a, List.mem_cons_self, Span.Within.refl _⟩
      · obtain ⟨c, hc, hwithin⟩ := ih h.tail (s := s) ha
        exact ⟨c, List.mem_cons_of_mem _ hc, hwithin⟩

theorem start_le_of_mem (hj : Joins span join near apart) (h : InOrder span (cur :: l))
    {c : β} (hc : c ∈ sweep join s cur l) : (span cur).start ≤ (span c).start := by
  induction l generalizing s cur with
  | nil => exact (List.mem_singleton.mp hc ▸ le_rfl)
  | cons b l ih =>
    cases hp : join s cur b with
    | some p =>
      rw [sweep_cons_some hp] at hc
      have hle := ih (h.joined hj hp) hc
      rwa [hj.hull s cur b p (h.proper cur List.mem_cons_self) hp] at hle
    | none =>
      rw [sweep_cons_none hp] at hc
      rcases List.mem_cons.mp hc with rfl | hc
      · exact le_rfl
      · exact (h.le_of_mem List.mem_cons_self).trans (ih h.tail hc)

theorem proper_of_mem (hj : Joins span join near apart) (h : InOrder span (cur :: l))
    {c : β} (hc : c ∈ sweep join s cur l) : (span c).start ≤ (span c).stop := by
  refine forall_mem_sweep (fun s a b p ha _ hp => ?_) h.proper c hc
  rw [hj.hull s a b p ha hp]
  exact ha.trans (le_max_left _ _)

/-- The elements of the result are apart, each from all that follow it. -/
theorem pairwise_apart (hj : Joins span join near apart)
    (hmono : ∀ x y z, apart x y → y ≤ z → apart x z) (h : InOrder span (cur :: l)) :
    (sweep join s cur l).Pairwise fun a b => apart (span a).stop (span b).start := by
  induction l generalizing s cur with
  | nil => exact List.pairwise_singleton _ _
  | cons b l ih =>
    cases hp : join s cur b with
    | some p =>
      rw [sweep_cons_some hp]
      exact ih (h.joined hj hp)
    | none =>
      rw [sweep_cons_none hp]
      refine List.pairwise_cons.mpr ⟨fun c hc => ?_, ih h.tail⟩
      exact hmono _ _ _ (hj.apart s cur b hp) (start_le_of_mem hj h.tail hc)

/-- The gaps between elements of `l` that are near each other. -/
def InGap (span : β → Span α) (near : α → α → Prop) (l : List β) (x : α) : Prop :=
  ∃ a ∈ l, ∃ b ∈ l, (span a).stop ≤ x ∧ x < (span b).start ∧ near (span a).stop (span b).start

/-- What the result covers is covered by an element, or lies in a gap. -/
theorem mem_or_gap (hj : Joins span join near apart) (h : InOrder span (cur :: l)) {c : β}
    (hc : c ∈ sweep join s cur l) {x : α} (hx : x ∈ span c) :
    (∃ a ∈ cur :: l, x ∈ span a) ∨ InGap span near (cur :: l) x := by
  induction l generalizing s cur with
  | nil => exact .inl ⟨c, hc, hx⟩
  | cons b l ih =>
    have hlater : ∀ {a}, a ∈ l → a ∈ cur :: b :: l := fun ha =>
      List.mem_cons_of_mem _ (List.mem_cons_of_mem _ ha)
    have hb : b ∈ cur :: b :: l := List.mem_cons_of_mem _ List.mem_cons_self
    cases hp : join s cur b with
    | some p =>
      rw [sweep_cons_some hp] at hc
      have hhull := hj.hull s cur b p (h.proper cur List.mem_cons_self) hp
      rcases ih (h.joined hj hp) hc with ⟨a, ha, hxa⟩ | ⟨a, ha, d, hd, hstop, hstart, hnear⟩
      · rcases List.mem_cons.mp ha with rfl | ha
        · -- In the joined one: in either of the two, or between them.
          rw [hhull] at hxa
          rcases lt_or_ge x (span cur).stop with hlt | hge
          · exact .inl ⟨cur, List.mem_cons_self, hxa.1, hlt⟩
          rcases lt_or_ge x (span b).start with hlt | hge'
          · exact .inr ⟨cur, List.mem_cons_self, b, hb, hge, hlt, hj.near s cur b p hp⟩
          · exact .inl ⟨b, hb, hge', (lt_max_iff.mp hxa.2).resolve_left (not_lt.mpr hge)⟩
        · exact .inl ⟨a, hlater ha, hxa⟩
      · -- The gap begins where one of the two ends, and ends where the first starts.
        obtain ⟨a', ha', hstop'⟩ : ∃ a' ∈ cur :: b :: l, (span a').stop = (span a).stop := by
          rcases List.mem_cons.mp ha with rfl | ha
          · have hmax : (span p.2).stop = max (span cur).stop (span b).stop :=
              congrArg Span.stop hhull
            rcases le_total (span cur).stop (span b).stop with hle | hle
            · exact ⟨b, hb, (hmax.trans (max_eq_right hle)).symm⟩
            · exact ⟨cur, List.mem_cons_self, (hmax.trans (max_eq_left hle)).symm⟩
          · exact ⟨a, hlater ha, rfl⟩
        obtain ⟨d', hd', hstart'⟩ : ∃ d' ∈ cur :: b :: l, (span d').start = (span d).start := by
          rcases List.mem_cons.mp hd with rfl | hd
          · exact ⟨cur, List.mem_cons_self, (congrArg Span.start hhull).symm⟩
          · exact ⟨d, hlater hd, rfl⟩
        exact .inr ⟨a', ha', d', hd', hstop' ▸ hstop, hstart' ▸ hstart,
          hstop' ▸ hstart' ▸ hnear⟩
    | none =>
      rw [sweep_cons_none hp] at hc
      rcases List.mem_cons.mp hc with rfl | hc
      · exact .inl ⟨c, List.mem_cons_self, hx⟩
      · rcases ih h.tail hc with ⟨a, ha, hxa⟩ | ⟨a, ha, d, hd, hgap⟩
        · exact .inl ⟨a, List.mem_cons_of_mem _ ha, hxa⟩
        · exact .inr ⟨a, List.mem_cons_of_mem _ ha, d, List.mem_cons_of_mem _ hd, hgap⟩

end Coalesce
