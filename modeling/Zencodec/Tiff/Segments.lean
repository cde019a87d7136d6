/-
The stretches of one fate.

`segments` splits a candidate into stretches; each carries the rank of the fate the
candidate gives its bytes.

* `segments_of` — every stretch of a candidate says the right rank;
* `exists_mem_segments` — every byte of the candidate lies in one of them.
-/
import Zencodec.Tiff.Cand

open StableSort Tiling

namespace Zencodec

namespace Tiff

theorem mem_own {c : Cand} {cand : ℕ} {r : Span ℕ} {sg : Seg} (h : sg ∈ own c cand r) :
    sg.cand = cand ∧ sg.range.Nonempty ∧
      ∀ x ∈ sg.range, x ∈ r ∧ ownRank c x = sg.rank := by
  rw [own] at h
  split at h
  · exact absurd h List.not_mem_nil
  · next hr =>
    cases hb : c.innerBody with
    | none =>
      rw [hb] at h
      obtain rfl := List.mem_singleton.mp h
      exact ⟨rfl, not_le.mp hr, fun x hx => ⟨hx, ownRank_none hb x⟩⟩
    | some b =>
      rw [hb] at h
      obtain ⟨⟨s, k⟩, hs, hsome⟩ := List.mem_filterMap.mp h
      simp only [Option.ite_none_right_eq_some, Option.some.injEq] at hsome
      obtain ⟨hne, rfl⟩ := hsome
      refine ⟨rfl, hne, fun x hx => ?_⟩
      have hx' : s.start ≤ x ∧ x < s.stop := hx
      rw [ownRank_some hb, Span.mem_def]
      simp only [List.mem_cons, Prod.mk.injEq, List.not_mem_nil, or_false] at hs
      -- Before the body, in it, after it.
      rcases hs with ⟨rfl, rfl⟩ | ⟨rfl, rfl⟩ | ⟨rfl, rfl⟩
      · dsimp only at hx'
        have hout : x ∉ b := fun hxb => by
          have hxb' : b.start ≤ x ∧ x < b.stop := hxb
          omega
        exact ⟨by omega, if_neg hout⟩
      · dsimp only at hx'
        have hin : x ∈ b := by
          show b.start ≤ x ∧ x < b.stop
          omega
        exact ⟨by omega, if_pos hin⟩
      · dsimp only at hx'
        have hout : x ∉ b := fun hxb => by
          have hxb' : b.start ≤ x ∧ x < b.stop := hxb
          omega
        exact ⟨by omega, if_neg hout⟩

theorem exists_mem_own (c : Cand) (cand : ℕ) {r : Span ℕ} {x : ℕ} (hx : x ∈ r) :
    ∃ sg ∈ own c cand r, x ∈ sg.range := by
  have hx' : r.start ≤ x ∧ x < r.stop := hx
  have hr : ¬r.stop ≤ r.start := by omega
  rw [own, if_neg hr]
  cases hb : c.innerBody with
  | none => exact ⟨_, List.mem_singleton_self _, hx⟩
  | some b =>
    simp only [List.mem_filterMap]
    rcases lt_or_ge x b.start with hlt | hge
    · refine ⟨⟨⟨r.start, min r.stop b.start⟩, rank c.disp, cand⟩,
        ⟨_, List.mem_cons_self, ?_⟩, ?_⟩
      · exact if_pos (by show r.start < min r.stop b.start; omega)
      · show r.start ≤ x ∧ x < min r.stop b.start
        omega
    · rcases lt_or_ge x b.stop with hlt' | hge'
      · refine ⟨⟨⟨max r.start b.start, min r.stop b.stop⟩, gapRank c, cand⟩,
          ⟨_, List.mem_cons_of_mem _ List.mem_cons_self, ?_⟩, ?_⟩
        · exact if_pos (by show max r.start b.start < min r.stop b.stop; omega)
        · show max r.start b.start ≤ x ∧ x < min r.stop b.stop
          omega
      · refine ⟨⟨⟨max r.start b.stop, r.stop⟩, rank c.disp, cand⟩,
          ⟨_, List.mem_cons_of_mem _ (List.mem_cons_of_mem _ List.mem_cons_self), ?_⟩, ?_⟩
        · exact if_pos (by show max r.start b.stop < r.stop; omega)
        · show max r.start b.stop ≤ x ∧ x < r.stop
          omega

/-! ### Between the children -/

section

variable {c : Cand} {cand : ℕ} {range : Span ℕ}

/-- A stretch is one of a child's, or lies in bytes no child covers. -/
theorem mem_between {sg : Seg} : ∀ {kids : List (Span ℕ × List Seg)} {cursor : ℕ},
    kids.Pairwise (fun k k' => k.1.start ≤ k'.1.start) → range.start ≤ cursor →
      sg ∈ between c cand range cursor kids →
        (∃ k ∈ kids, sg ∈ k.2) ∨ ∃ r, sg ∈ own c cand r ∧
          ∀ x ∈ r, cursor ≤ x ∧ x < range.stop ∧ ∀ k ∈ kids, x ∉ k.1 := by
  intro kids
  induction kids with
  | nil =>
    intro cursor _ _ h
    exact Or.inr ⟨_, h, fun x hx => ⟨hx.1, hx.2, fun k hk => absurd hk List.not_mem_nil⟩⟩
  | cons k kids ih =>
    intro cursor hsort hcursor h
    obtain ⟨r, segs⟩ := k
    obtain ⟨hfront, hsort'⟩ := List.pairwise_cons.mp hsort
    rw [between, List.append_assoc] at h
    rcases List.mem_append.mp h with h | h
    · split at h
      · -- Bytes before this child, and so before the later ones.
        refine Or.inr ⟨_, h, fun x hx => ?_⟩
        have hx' : cursor ≤ x ∧ x < min (max r.start range.start) range.stop := hx
        refine ⟨hx'.1, by omega, fun k hk hxk => ?_⟩
        have hkx : k.1.start ≤ x := hxk.1
        rcases List.mem_cons.mp hk with rfl | hk
        · have hr : r.start ≤ x := hkx
          omega
        · have hr : r.start ≤ k.1.start := hfront k hk
          omega
      · exact absurd h List.not_mem_nil
    · rcases List.mem_append.mp h with h | h
      · exact Or.inl ⟨_, List.mem_cons_self, h⟩
      · rcases ih hsort' (hcursor.trans (le_max_left _ _)) h with ⟨k, hk, hsg⟩ | ⟨r', hr', hx⟩
        · exact Or.inl ⟨k, List.mem_cons_of_mem _ hk, hsg⟩
        · refine Or.inr ⟨r', hr', fun x hxr => ?_⟩
          obtain ⟨h1, h2, h3⟩ := hx x hxr
          refine ⟨by omega, h2, List.forall_mem_cons.mpr ⟨fun hxk => ?_, h3⟩⟩
          have hlt : x < r.stop := hxk.2
          omega

theorem mem_between_of_kid {sg : Seg} {k : Span ℕ × List Seg} (hsg : sg ∈ k.2) :
    ∀ {kids : List (Span ℕ × List Seg)} {cursor : ℕ}, k ∈ kids →
      sg ∈ between c cand range cursor kids := by
  intro kids
  induction kids with
  | nil => exact fun hk => absurd hk List.not_mem_nil
  | cons k' kids ih =>
    intro cursor hk
    obtain ⟨r, segs⟩ := k'
    rw [between]
    rcases List.mem_cons.mp hk with rfl | hk
    · exact List.mem_append_left _ (List.mem_append_right _ hsg)
    · exact List.mem_append_right _ (ih hk)

/-- A byte from the cursor on lies in a child or in a stretch. -/
theorem exists_mem_between {x : ℕ} (hstop : x < range.stop) :
    ∀ {kids : List (Span ℕ × List Seg)} {cursor : ℕ}, cursor ≤ x →
      (∃ k ∈ kids, x ∈ k.1) ∨ ∃ sg ∈ between c cand range cursor kids, x ∈ sg.range := by
  intro kids
  induction kids with
  | nil =>
    intro cursor hx
    have hmem : x ∈ (⟨cursor, range.stop⟩ : Span ℕ) := ⟨hx, hstop⟩
    exact Or.inr (exists_mem_own c cand hmem)
  | cons k kids ih =>
    intro cursor hx
    obtain ⟨r, segs⟩ := k
    by_cases hnext : max cursor (min r.stop range.stop) ≤ x
    · rcases ih hnext with ⟨k, hk, hxk⟩ | ⟨sg, hsg, hxsg⟩
      · exact Or.inl ⟨k, List.mem_cons_of_mem _ hk, hxk⟩
      · exact Or.inr ⟨sg, by rw [between]; exact List.mem_append_right _ hsg, hxsg⟩
    · rcases lt_or_ge x r.start with hlt | hge
      · -- Before the child: the stretch that ends at its start.
        have hcur : cursor < min (max r.start range.start) range.stop := by omega
        have hmem : x ∈ (⟨cursor, min (max r.start range.start) range.stop⟩ : Span ℕ) :=
          ⟨hx, by show x < min (max r.start range.start) range.stop; omega⟩
        obtain ⟨sg, hsg, hxsg⟩ := exists_mem_own c cand hmem
        refine Or.inr ⟨sg, ?_, hxsg⟩
        rw [between, if_pos hcur, List.append_assoc]
        exact List.mem_append_left _ hsg
      · refine Or.inl ⟨_, List.mem_cons_self, hge, ?_⟩
        show x < r.stop
        omega

end

/-! ### Whole candidates -/

/-- What a stretch says is the rank `c` gives every byte of it. -/
structure Seg.Of (sg : Seg) (c : Cand) (within : Span ℕ) (cand : ℕ) : Prop where
  cand_eq : sg.cand = cand
  nonempty : sg.range.Nonempty
  mem : ∀ x ∈ sg.range, x ∈ c.range.inter within
  rank_eq : ∀ x ∈ sg.range, c.rankAt x = some sg.rank

theorem mem_kids {c : Cand} {range : Span ℕ} {cand : ℕ} {k : Span ℕ × List Seg} :
    k ∈ sortBy (fun k => k.1.start)
        (c.children.map fun ch => (ch.range, segments ch range cand)) ↔
      ∃ ch ∈ c.children, (ch.range, segments ch range cand) = k := by
  rw [mem_sortBy, List.mem_map]

theorem segments_of {c : Cand} (h : Nested c) {within : Span ℕ} {cand : ℕ} {sg : Seg}
    (hsg : sg ∈ segments c within cand) : sg.Of c within cand := by
  induction c using Cand.induct generalizing within with
  | h c ih =>
    rw [segments_eq] at hsg
    split at hsg
    · rcases mem_between (sortBy_sorted _ _) le_rfl hsg with ⟨k, hk, hsgk⟩ | ⟨r, hr, hx⟩
      · obtain ⟨ch, hch, rfl⟩ := mem_kids.mp hk
        have hof := ih ch hch (h.child ch hch) hsgk
        refine ⟨hof.cand_eq, hof.nonempty, fun x hx => ?_, fun x hx => ?_⟩
        · exact (Span.mem_inter.mp (hof.mem x hx)).2
        · rw [h.rankAt_child hch (Span.mem_inter.mp (hof.mem x hx)).1]
          exact hof.rank_eq x hx
      · obtain ⟨hcand, hne, hown⟩ := mem_own hr
        have hin : ∀ x ∈ sg.range, x ∈ c.range.inter within := fun x hxs => by
          obtain ⟨h1, h2, -⟩ := hx x (hown x hxs).1
          exact ⟨h1, h2⟩
        refine ⟨hcand, hne, hin, fun x hxs => ?_⟩
        have hno : ∀ ch ∈ c.children, x ∉ ch.range := fun ch hch =>
          (hx x (hown x hxs).1).2.2 _ (mem_kids.mpr ⟨ch, hch, rfl⟩)
        rw [rankAt_own (Span.mem_inter.mp (hin x hxs)).1 hno, (hown x hxs).2]
    · exact absurd hsg List.not_mem_nil

theorem exists_mem_segments {c : Cand} {within : Span ℕ} (cand : ℕ) {x : ℕ}
    (hx : x ∈ c.range.inter within) : ∃ sg ∈ segments c within cand, x ∈ sg.range := by
  induction c using Cand.induct generalizing within with
  | h c ih =>
    have hne : (c.range.inter within).Nonempty := hx.1.trans_lt hx.2
    rw [segments_eq, if_pos hne]
    rcases exists_mem_between hx.2 hx.1 with ⟨k, hk, hxk⟩ | hsg
    · obtain ⟨ch, hch, rfl⟩ := mem_kids.mp hk
      obtain ⟨sg, hsg, hxsg⟩ := ih ch hch (Span.mem_inter.mpr ⟨hxk, hx⟩)
      exact ⟨sg, mem_between_of_kid hsg hk, hxsg⟩
    · exact hsg

end Tiff

end Zencodec
