/-
Emission accounts for every byte it is given.

* `intoSorted_full` — no part of a resolved candidate is empty;
* `emit_grown` — emitting a candidate adds its part, with everything under it accounted for;
* `emitTop_grown` — emitting parts in order, with gaps between them, adds disjoint parts;
* `validate_of_emit` — and filling the gaps that are left makes a valid inventory.
-/
import Zencodec.Inventory.Growth
import Zencodec.Tiff.Emit
import Zencodec.Tiff.Resolve

open Slices StableSort Tiling Checks

namespace Zencodec

open Inventory (Grown push_cases linked_push push_getElem? push_fresh fillGaps_grown getElem?_of_old)

namespace Tiff

/-! ### No empty parts -/

/-- No part of the candidate is empty, and no body is reversed. -/
inductive Full : Cand → Prop
  | mk {c : Cand} : c.range.Nonempty → (∀ b ∈ c.body, b.start ≤ b.stop) →
      (∀ ch ∈ c.children, Full ch) → Full c

theorem Full.nonempty {c : Cand} (h : Full c) : c.range.Nonempty := by
  obtain ⟨hne, -, -⟩ := h
  exact hne

theorem Full.body {c : Cand} (h : Full c) : ∀ b ∈ c.body, b.start ≤ b.stop := by
  obtain ⟨-, hbody, -⟩ := h
  exact hbody

theorem Full.child {c : Cand} (h : Full c) : ∀ ch ∈ c.children, Full ch := by
  obtain ⟨-, -, hchild⟩ := h
  exact hchild

theorem Full.leaf {range : Span ℕ} (h : range.Nonempty) (kind : PartKind) (tag : PartTag)
    (disp : Disposition) (detail : String) : Full (Cand.new range kind tag disp detail) := by
  refine ⟨h, fun b hb => ?_, fun ch hch => absurd hch List.not_mem_nil⟩
  cases hb

theorem Full.note {c : Cand} (h : Full c) (text : String) : Full (c.note text) :=
  ⟨h.nonempty, h.body, h.child⟩

theorem Noted.full {c c' : Cand} (h : Noted c c') (hc : Full c) : Full c' := by
  obtain ⟨_, _, rfl⟩ := h
  exact ⟨hc.nonempty, hc.body, hc.child⟩

/-- Cutting leaves nothing empty behind. -/
theorem clip_full {c p : Cand} {r : Span ℕ} {mark : Bool} (h : clip c r mark = some p) :
    Full p := by
  induction c using Cand.induct generalizing p r mark with
  | h c ih =>
    obtain ⟨hne, hp⟩ := clip_eq_some h
    have hcut : Full (c.cut r) := by
      refine ⟨hne, fun b hb => ?_, fun q hq => ?_⟩
      · rw [Cand.cut, Option.mem_def, Option.filter_eq_some_iff] at hb
        exact le_of_lt (of_decide_eq_true hb.2)
      · obtain ⟨ch, hch, hclip⟩ := mem_cut_children.mp hq
        exact ih ch hch hclip
    rcases hp with rfl | ⟨text, rfl⟩
    · exact hcut
    · exact hcut.note text

theorem pieces_full {won : List (Span ℕ)} {others : ℕ} {desc : String} {c p : Cand}
    (hwon : ∀ r ∈ won, r.Nonempty) (hc : Full c) (hp : p ∈ pieces won others desc c) :
    Full p := by
  rw [pieces] at hp
  split at hp
  · obtain rfl := List.mem_singleton.mp hp
    exact hc
  · obtain ⟨⟨r, j⟩, hmem, hsome⟩ := List.mem_filterMap.mp hp
    rw [piece] at hsome
    split at hsome
    · obtain rfl := Option.some.inj hsome
      exact Full.leaf (hwon r (List.fst_mem_of_mem_zipIdx hmem)) _ _ _ _
    · obtain ⟨q, hclip, rfl⟩ := Option.map_eq_some_iff.mp hsome
      exact (clip_full hclip).note _

theorem intoSorted_full {cands : List Cand} (hnested : ∀ c ∈ cands, Nested c)
    (hfull : ∀ c ∈ cands, Full c) {p : Cand} (hp : p ∈ intoSorted cands) : Full p := by
  obtain ⟨⟨c', k⟩, hmem, hp⟩ := List.mem_flatMap.mp (mem_sortBy.mp hp)
  obtain ⟨c, hc, hn⟩ := (notedAll_noted cands).exists_left
    (List.mk_mem_zipIdx_iff_getElem?.mp hmem)
  have hwon : ∀ r ∈ (sweepAll cands).won k, r.Nonempty := fun r hr =>
    (won_within hnested hc hn r hr).1
  exact pieces_full hwon (hn.full (hfull c (List.mem_of_getElem? hc))) hp

/-! ### One candidate -/

@[simp]
theorem Cand.part_range (c : Cand) (body : Option (Span ℕ)) : (c.part body).range = c.range := by
  unfold Cand.part
  cases c.label <;> cases body <;> dsimp only <;> split <;> rfl

@[simp]
theorem Cand.part_body (c : Cand) (body : Option (Span ℕ)) : (c.part body).body = body := by
  unfold Cand.part
  cases c.label <;> cases body <;> dsimp only <;> split <;> rfl

theorem emit_eq (c : Cand) (parent : Option PartId) (inv : Inventory) :
    emit c parent inv = do
      let (id, inv) ← inv.push parent (c.part c.innerBody)
      let inv ← emitAll (some id) (sortBy (fun ch => ch.range.start) c.children) inv
      if c.innerBody.isSome then fillBody inv id c.gap else return inv := by
  obtain ⟨range, kind, tag, label, disp, detail, children, body, gap, notes⟩ := c
  have hsort : (sortBy (fun ch : Cand => ch.range.start) children).map
      (fun ch => (ch.range.start, emit ch)) = sortBy Prod.fst (emitters children) := by
    rw [emitters_eq]
    have hkey : ∀ ch : Cand, Prod.fst (ch.range.start, emit ch) = ch.range.start := fun _ => rfl
    exact map_sortBy _ hkey children
  rw [emit]
  dsimp only
  simp only [← hsort, emitEach_eq]

/-- Emitting candidates one after the other under a part that is there. -/
theorem emitAll_grown {parent : Option PartId} {cs : List Cand}
    (ih : ∀ c ∈ cs, ∀ inv inv' : Inventory, inv.Linked → c.range.stop ≤ inv.len →
      emit c parent inv = .ok inv' → Grown inv inv' parent [c.range]) :
    ∀ {inv inv' : Inventory}, inv.Linked → (∀ p ∈ parent, p < inv.parts.length) →
      (∀ c ∈ cs, c.range.stop ≤ inv.len) → emitAll parent cs inv = .ok inv' →
      Grown inv inv' parent (cs.map Cand.range) := by
  induction cs with
  | nil =>
    intro inv inv' hlinked _ _ h
    obtain rfl : inv = inv' := Except.ok.inj h
    exact .refl hlinked parent
  | cons c cs ihcs =>
    intro inv inv' hlinked hparent hlen h
    obtain ⟨hc, hcs⟩ := List.forall_mem_cons.mp ih
    obtain ⟨hclen, hcslen⟩ := List.forall_mem_cons.mp hlen
    rw [emitAll, bind_eq_ok] at h
    obtain ⟨inv₁, hemit, h⟩ := h
    have hfirst := hc inv inv₁ hlinked hclen hemit
    have hparent₁ : ∀ p ∈ parent, p < inv₁.parts.length := fun p hp =>
      (hparent p hp).trans_le hfirst.length_le
    exact hfirst.trans (ihcs hcs hfirst.linked hparent₁ (hfirst.len_eq ▸ hcslen) h) hparent

/-- The details of added gaps do not matter. -/
theorem setDetail_foldl_grown {inv inv' : Inventory} {parent : Option PartId}
    {rs : List (Span ℕ)} (detail : String) {ids : List PartId}
    (hids : ∀ i ∈ ids, inv.parts.length ≤ i) (h : Grown inv inv' parent rs) :
    Grown inv (ids.foldl (fun inv g => inv.setDetail g detail) inv') parent rs := by
  induction ids generalizing inv' with
  | nil => exact h
  | cons i ids ih =>
    obtain ⟨hi, hids⟩ := List.forall_mem_cons.mp hids
    exact ih hids (h.setDetail i detail hi)

/-- Filling the gaps of a part's body, whatever their detail. -/
theorem fillBody_grown {inv inv' : Inventory} {id : PartId} {body : Span ℕ}
    {gap : Option (Disposition × String)} (hlinked : inv.Linked) (hid : id < inv.parts.length)
    (hspan : inv.span (some id) = some body) (hlen : body.stop ≤ inv.len)
    (hin : ∀ j, inv.IsChild (some id) j →
      (inv.range j).Nonempty ∧ (inv.range j).Within body)
    (hdisj : ∀ i j, inv.IsChild (some id) i → inv.IsChild (some id) j → i ≠ j →
      (inv.range i).Disjoint (inv.range j))
    (h : fillBody inv id gap = .ok inv') :
    ∃ gs : List (Span ℕ), Grown inv inv' (some id) gs ∧ (∀ g ∈ gs, g.Nonempty) ∧
      Partition body.start body.stop ((inv.children (some id)).map inv.range ++ gs) := by
  have hparent : ∀ p ∈ some id, p < inv.parts.length := fun p hp => Option.some.inj hp ▸ hid
  cases gap with
  | none => exact fillGaps_grown hlinked hparent hspan hlen hin hdisj h
  | some gap =>
    obtain ⟨d, detail⟩ := gap
    simp only [fillBody, bind_eq_ok, pure_eq_ok] at h
    obtain ⟨inv₁, hfill, rfl⟩ := h
    obtain ⟨gs, hgrown, hne, hpart⟩ := fillGaps_grown hlinked hparent hspan hlen hin hdisj hfill
    refine ⟨gs, setDetail_foldl_grown detail (fun i hi => ?_) hgrown, hne, hpart⟩
    exact of_decide_eq_true (List.mem_filter.mp hi).2

/-- **Emitting a candidate** adds its part, and accounts for everything under it. -/
theorem emit_grown {c : Cand} (hnested : Nested c) (hfull : Full c) :
    ∀ {parent : Option PartId} {inv inv' : Inventory}, inv.Linked →
      c.range.stop ≤ inv.len → emit c parent inv = .ok inv' →
      Grown inv inv' parent [c.range] := by
  induction c using Cand.induct with
  | h c ih =>
    intro parent inv inv' hlinked hlen h
    have hchildlen : ∀ ch ∈ c.children, ch.range.stop ≤ inv.len := fun ch hch =>
      (hnested.childInRange ch hch).2.trans hlen
    rw [emit_eq, hnested.innerBody] at h
    obtain ⟨⟨id, inv₁⟩, hpush, h⟩ := bind_eq_ok.mp h
    obtain ⟨inv₂, hchildren, h⟩ := bind_eq_ok.mp h
    have hlinked₁ := linked_push hlinked hpush
    have hlen₁ : inv₁.len = inv.len := by
      obtain ⟨-, -, -, rfl⟩ := push_cases hpush
      rfl
    have hget := push_getElem? hpush
    have hid₁ : id < inv₁.parts.length := (List.getElem?_eq_some_iff.mp hget).1
    have hgrown : Grown inv₁ inv₂ (some id)
        ((sortBy (fun ch : Cand => ch.range.start) c.children).map Cand.range) := by
      refine emitAll_grown (fun ch hch inv inv' hl hs he => ?_) hlinked₁ ?_ ?_ hchildren
      · have hch := mem_sortBy.mp hch
        exact ih ch hch (hnested.child ch hch) (hfull.child ch hch) hl hs he
      · exact fun p hp => Option.some.inj hp ▸ hid₁
      · exact fun ch hch => hlen₁ ▸ hchildlen ch (mem_sortBy.mp hch)
    have hrs : ∀ r ∈ (sortBy (fun ch : Cand => ch.range.start) c.children).map Cand.range,
        r.Nonempty ∧ r.Within (c.body.getD c.range) := by
      intro r hr
      obtain ⟨ch, hch, rfl⟩ := List.mem_map.mp hr
      have hch := mem_sortBy.mp hch
      exact ⟨(hfull.child ch hch).nonempty, hnested.childIn ch hch⟩
    have hdisj : ((sortBy (fun ch : Cand => ch.range.start) c.children).map
        Cand.range).Pairwise Span.Disjoint := by
      rw [List.pairwise_map]
      exact ((sortBy_perm _ _).pairwise_iff fun h => h.symm).mpr hnested.disjoint
    have hbodyIn : ∀ body ∈ (c.part c.body).body, body.start ≤ body.stop ∧
        body.Within (c.part c.body).range := by
      rw [Cand.part_body, Cand.part_range]
      exact fun b hb => ⟨hfull.body b hb, hnested.bodyIn b hb⟩
    rw [← Cand.part_range c c.body]
    cases hbody : c.body with
    | none =>
      rw [hbody] at h hpush hbodyIn hrs
      obtain rfl : inv₂ = inv' := pure_eq_ok.mp h
      refine Grown.node hlinked hpush hgrown (by simpa using hfull.nonempty) (by simpa using hlen)
        hbodyIn (fun r hr => ?_) hdisj (by simp)
      simpa using (hrs r hr).2
    | some body =>
      rw [hbody] at h hpush hbodyIn hrs
      have hspan : inv₂.span (some id) = some body := by
        rw [Inventory.span, getElem?_of_old hgrown.old hid₁, hget, Option.bind_some]
        exact (Cand.part_body c _).trans hbody
      have hfresh := push_fresh hlinked hpush
      obtain ⟨gs, hgaps, hgne, hpart⟩ := fillBody_grown hgrown.linked
        (hid₁.trans_le hgrown.length_le) hspan
        (((hnested.bodyIn body hbody).2.trans hlen).trans_eq (hgrown.len_eq.trans hlen₁).symm)
        (fun j hj => hrs _ (hgrown.range_mem hfresh hj))
        (fun i j => hgrown.disjoint hfresh hdisj) h
      have hpart' := hpart.perm ((hgrown.children_perm hfresh).append_right gs)
      have hall := hgrown.trans hgaps fun p hp => Option.some.inj hp ▸ hid₁
      refine Grown.node hlinked hpush hall (by simpa using hfull.nonempty) (by simpa using hlen)
        hbodyIn (fun r hr => ?_) hpart'.1 fun b hb x => ?_
      · rw [Cand.part_body, Option.getD_some]
        rcases List.mem_append.mp hr with hr | hr
        · exact (hrs r hr).2
        · refine Span.within_of_subset (hgne r hr) fun x hx => ?_
          exact (hpart'.2 x).mp ⟨r, List.mem_append_right _ hr, hx⟩
      · rw [Cand.part_body] at hb
        obtain rfl := Option.some.inj hb
        exact hpart'.2 x

/-! ### The top level -/

/-- New top-level parts in `a..b`, which do not meet. -/
structure Spread (inv inv' : Inventory) (a b : ℕ) (rs : List (Span ℕ)) : Prop where
  grown : Grown inv inv' none rs
  within : ∀ r ∈ rs, r.Nonempty ∧ r.Within ⟨a, b⟩
  disjoint : rs.Pairwise Span.Disjoint

theorem Spread.refl {inv : Inventory} (h : inv.Linked) (a b : ℕ) : Spread inv inv a b [] :=
  ⟨.refl h none, by simp, .nil⟩

theorem Spread.trans {inv inv₁ inv₂ : Inventory} {a b c : ℕ} {rs rs' : List (Span ℕ)}
    (h : Spread inv inv₁ a b rs) (h' : Spread inv₁ inv₂ b c rs') (hab : a ≤ b) (hbc : b ≤ c) :
    Spread inv inv₂ a c (rs ++ rs') := by
  refine ⟨h.grown.trans h'.grown (fun p hp => by cases hp), fun r hr => ?_, ?_⟩
  · rcases List.mem_append.mp hr with hr | hr
    · obtain ⟨hne, h1, h2⟩ := h.within r hr
      exact ⟨hne, h1, h2.trans hbc⟩
    · obtain ⟨hne, h1, h2⟩ := h'.within r hr
      exact ⟨hne, hab.trans h1, h2⟩
  · refine List.pairwise_append.mpr ⟨h.disjoint, h'.disjoint, fun r hr s hs => ?_⟩
    exact Span.disjoint_of_stop_le ((h.within r hr).2.2.trans (h'.within s hs).2.1)

theorem pushGap_spread {data : Bytes} {logicalEnd a b : ℕ}
    {gap : Disposition × Option String} {inv inv' : Inventory} (hlinked : inv.Linked)
    (hlen : b ≤ inv.len) (h : pushGap data logicalEnd gap inv ⟨a, b⟩ = .ok inv') :
    ∃ rs, Spread inv inv' a b rs := by
  have hpart : ∀ part : Part, part.range = ⟨a, min b logicalEnd⟩ → part.body = none →
      a < min b logicalEnd → (inv.push none part).map Prod.snd = .ok inv' →
      ∃ rs, Spread inv inv' a b rs := by
    intro part hrange hbody hlt hmap
    cases hpush : inv.push none part with
    | error e =>
      rw [hpush] at hmap
      cases hmap
    | ok out =>
      obtain ⟨id, inv₁⟩ := out
      rw [hpush] at hmap
      obtain rfl : inv₁ = inv' := Except.ok.inj hmap
      have hle : part.range.stop ≤ b := hrange ▸ min_le_left b logicalEnd
      have hne : part.range.Nonempty := hrange ▸ hlt
      refine ⟨_, Inventory.push_grown hlinked hpush hne (hle.trans hlen) hbody, ?_,
        List.pairwise_singleton _ _⟩
      exact List.forall_mem_singleton.mpr ⟨hne, (hrange ▸ le_rfl : a ≤ part.range.start), hle⟩
  rw [pushGap] at h
  split at h
  · obtain rfl : inv = inv' := Except.ok.inj h
    exact ⟨_, .refl hlinked a b⟩
  · next hlt =>
    refine hpart _ ?_ ?_ (not_le.mp hlt) h
    · cases gap.2 with
      | some d => rfl
      | none =>
        dsimp only
        split <;> rfl
    · cases gap.2 with
      | some d => rfl
      | none =>
        dsimp only
        split <;> rfl

theorem gapBefore_spread {data : Bytes} {logicalEnd a b : ℕ}
    {gap : Disposition × Option String} {inv inv' : Inventory} (hlinked : inv.Linked)
    (hlen : b ≤ inv.len) (h : gapBefore data logicalEnd gap a b inv = .ok inv') :
    ∃ rs, Spread inv inv' a b rs := by
  rw [gapBefore] at h
  split at h
  · exact pushGap_spread hlinked hlen h
  · obtain rfl : inv = inv' := Except.ok.inj h
    exact ⟨_, .refl hlinked a b⟩

/-- **Emitting parts in order**, with gaps between them, adds parts that do not meet. -/
theorem emitFrom_spread {data : Bytes} {logicalEnd : ℕ} {gap : Disposition × Option String} :
    ∀ {parts : List Cand} {cursor : ℕ} {inv inv' : Inventory}, inv.Linked →
      inv.len = data.length → cursor ≤ data.length →
      (∀ c ∈ parts, Nested c ∧ Full c ∧ c.range.Within ⟨cursor, data.length⟩) →
      (parts.Pairwise fun p q => p.range.stop ≤ q.range.start) →
      emitFrom data logicalEnd gap cursor parts inv = .ok inv' →
      ∃ rs, Spread inv inv' cursor data.length rs := by
  intro parts
  induction parts with
  | nil =>
    intro cursor inv inv' hlinked hlen _ _ _ h
    exact gapBefore_spread hlinked hlen.ge h
  | cons c rest ih =>
    intro cursor inv inv' hlinked hlen hcursor hparts hsep h
    obtain ⟨⟨hnested, hfull, hwithin⟩, hrest⟩ := List.forall_mem_cons.mp hparts
    obtain ⟨hfront, hsep'⟩ := List.pairwise_cons.mp hsep
    have hne : c.range.start < c.range.stop := hfull.nonempty
    rw [emitFrom] at h
    obtain ⟨inv₁, hgap, h⟩ := bind_eq_ok.mp h
    obtain ⟨inv₂, hemit, h⟩ := bind_eq_ok.mp h
    have hstop : c.range.stop ≤ data.length := hwithin.2
    obtain ⟨rs₁, hspread₁⟩ := gapBefore_spread hlinked
      ((hne.le.trans hstop).trans_eq hlen.symm) hgap
    have hlen₁ : inv₁.len = data.length := hspread₁.grown.len_eq.trans hlen
    have hgrown := emit_grown hnested hfull hspread₁.grown.linked (hlen₁ ▸ hstop) hemit
    have hpart : Spread inv₁ inv₂ c.range.start c.range.stop [c.range] :=
      ⟨hgrown, List.forall_mem_singleton.mpr ⟨hfull.nonempty, Span.Within.refl _⟩,
        List.pairwise_singleton _ _⟩
    have hmax : max cursor c.range.stop = c.range.stop :=
      max_eq_right (hwithin.1.trans hne.le)
    rw [hmax] at h
    obtain ⟨rs₂, hspread₂⟩ := ih hgrown.linked (hgrown.len_eq.trans hlen₁) hstop
      (fun d hd => ⟨(hrest d hd).1, (hrest d hd).2.1, hfront d hd, (hrest d hd).2.2.2⟩) hsep' h
    exact ⟨_, (hspread₁.trans hpart hwithin.1 hne.le).trans hspread₂
      (hwithin.1.trans hne.le) hstop⟩

/-- Emitted parts, with the gaps that are left filled, make a valid inventory. -/
theorem validate_of_emit {data : Bytes} {parts : List Cand} {logicalEnd : ℕ} {cap : UInt32}
    {gap : Disposition × Option String} {rest : Disposition} {inv inv' : Inventory}
    (hparts : ∀ c ∈ parts, Nested c ∧ Full c ∧ c.range.stop ≤ data.length)
    (hsep : parts.Pairwise fun p q => p.range.stop ≤ q.range.start)
    (hemit : emitTop ((Inventory.new data.length).withMaxParts cap) data parts logicalEnd gap =
      .ok inv) (hfill : inv.fillGaps none rest = .ok inv') :
    inv'.validate = .ok () ∧ inv'.Tiled := by
  obtain ⟨rs, hspread⟩ := emitFrom_spread (Inventory.new_linked data.length cap) rfl
    (Nat.zero_le _) (fun c hc => ⟨(hparts c hc).1, (hparts c hc).2.1, Nat.zero_le _,
      (hparts c hc).2.2⟩) hsep hemit
  have hlen : inv.len = data.length := hspread.grown.len_eq
  have hfresh : ∀ j, ¬((Inventory.new data.length).withMaxParts cap).IsChild none j :=
    fun j hj => absurd hj.lt (Nat.not_lt_zero j)
  have hspan : inv.span none = some ⟨0, data.length⟩ := by
    rw [Inventory.span, hlen]
  obtain ⟨gs, hgrown, -, hpart⟩ := fillGaps_grown hspread.grown.linked
    (fun p hp => by cases hp) hspan hlen.ge
    (fun j hj => hspread.within _ (hspread.grown.range_mem hfresh hj))
    (fun i j => hspread.grown.disjoint hfresh hspread.disjoint) hfill
  refine (hspread.grown.trans hgrown fun p hp => by cases hp).validate ?_
  exact hpart.perm ((hspread.grown.children_perm hfresh).append_right gs)

end Tiff

end Zencodec
