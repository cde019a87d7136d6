/-
Every byte of a TIFF is accounted for.

* `placeValues_placed` — values and extents, however they overlap or point outside the
  data, become candidates inside it;
* `ifdCand_placeable` — so do directories, with their entries as children that do not meet;
* `validate_inventoryOf` — the inventory of any walk is valid.
-/
import Zencodec.Tiff.Emission
import Zencodec.Tiff.Layout

open Slices StableSort Tiling Checks

namespace Zencodec

namespace Tiff

/-- A candidate that emission can account for: its parts are nested, none is empty, and it
lies inside the data. -/
structure Placeable (limit : ℕ) (c : Cand) : Prop where
  nested : Nested c
  full : Full c
  stop_le : c.range.stop ≤ limit

theorem Placeable.leaf {limit : ℕ} {r : Span ℕ} (hne : r.Nonempty) (hle : r.stop ≤ limit)
    (kind : PartKind) (tag : PartTag) (disp : Disposition) (detail : String) :
    Placeable limit (Cand.new r kind tag disp detail) :=
  ⟨.leaf r kind tag disp detail, .leaf hne kind tag disp detail, hle⟩

/-- A candidate without a body, from placeable children that do not meet. -/
theorem Placeable.node {limit : ℕ} {c : Cand} (hbody : c.body = none)
    (hne : c.range.Nonempty) (hle : c.range.stop ≤ limit)
    (hchild : ∀ ch ∈ c.children, Nested ch ∧ Full ch ∧ ch.range.Within c.range)
    (hdisj : c.children.Pairwise fun a b => a.range.Disjoint b.range) : Placeable limit c where
  nested := by
    refine ⟨by simp [hbody], hdisj, fun ch hch => ?_, fun ch hch => (hchild ch hch).1⟩
    rw [hbody]
    exact (hchild ch hch).2.2
  full := ⟨hne, by simp [hbody], fun ch hch => (hchild ch hch).2.1⟩
  stop_le := hle

/-! ### Entries and directories -/

section

variable {w : Walk} {rules : Rules} {ifd : Ifd} {a b : ℕ} {e : Entry}

/-- A value that lies in its entry fits there. -/
theorem loc_inline (h : w.loc e = .inline) :
    ((typeSize e.typ).bind fun s => checked (s * e.count)).getD 0 ≤ w.lay.inlineCap := by
  rw [Walk.loc] at h
  split at h
  · cases h
  · next size hsize =>
    split at h
    · cases h
    · next total htotal =>
      rw [hsize, Option.bind_some, htotal, Option.getD_some]
      split at h
      · cases h
      · split at h
        · next hle => exact hle
        · split at h <;> cases h

/-- The children of an entry lie in its field and do not meet. -/
theorem inlineChildren_in (rules : Rules) (ifd : Ifd) (he : e.In w.lay a b) (ei : ℕ) :
    (∀ ch ∈ inlineChildren w rules ifd ei e, Nested ch ∧ Full ch ∧
      ch.range.Within ⟨e.pos, e.pos + w.lay.entryLen⟩) ∧
      (inlineChildren w rules ifd ei e).Pairwise fun a b => a.range.Disjoint b.range := by
  have hleaf : ∀ (r : Span ℕ) (kind : PartKind) (tag : PartTag) (disp : Disposition)
      (detail : String), r.Nonempty → e.field ≤ r.start → r.stop ≤ e.field + w.lay.inlineCap →
      Nested (Cand.new r kind tag disp detail) ∧ Full (Cand.new r kind tag disp detail) ∧
        r.Within ⟨e.pos, e.pos + w.lay.entryLen⟩ := fun r kind tag disp detail hne h1 h2 =>
    ⟨.leaf .., .leaf hne .., he.field_ge.trans h1, h2.trans_eq he.field_eq⟩
  rw [inlineChildren]
  dsimp only
  split
  · exact ⟨fun ch hch => absurd hch List.not_mem_nil, .nil⟩
  · next size hsome =>
    have hle : size ≤ w.lay.inlineCap := by
      split at hsome
      · next hloc => exact Option.some.inj hsome ▸ loc_inline hloc
      · exact Option.some.inj hsome ▸ Nat.zero_le _
      · cases hsome
    have htail : ∀ t ∈ (if 0 < size then (rules.valueTail w ifd ei).filter fun t => t.1 < size
        else none), t.1 < size := by
      intro t ht
      split at ht
      · exact of_decide_eq_true (Option.filter_eq_some_iff.mp ht).2
      · cases ht
    generalize (if 0 < size then (rules.valueTail w ifd ei).filter fun t => t.1 < size
      else none) = tail at htail ⊢
    generalize hget : (get w.d (e.field + size) _).any _ = nonzero
    have hunused : (decide (e.field + size < e.field + w.lay.inlineCap) && nonzero) = true →
        e.field + size < e.field + w.lay.inlineCap := fun h =>
      of_decide_eq_true (Bool.and_eq_true_iff.mp h).1
    have hkept : ∀ t ∈ tail, (⟨e.field + t.1, e.field + size⟩ : Span ℕ).Nonempty := fun t ht =>
      Nat.add_lt_add_left (htail t ht) _
    have hstop : e.field + size ≤ e.field + w.lay.inlineCap := Nat.add_le_add_left hle _
    split
    · next keep fate =>
      have hne := hkept (keep, fate) rfl
      split
      · next hdirty =>
        refine ⟨?_, ?_⟩
        · refine List.forall_mem_cons.mpr ⟨hleaf _ _ _ _ _ hne (Nat.le_add_right _ _) hstop,
            List.forall_mem_singleton.mpr ?_⟩
          exact hleaf _ _ _ _ _ (hunused hdirty) (Nat.le_add_right _ _) le_rfl
        · exact List.pairwise_pair.mpr (Span.disjoint_of_stop_le le_rfl)
      · exact ⟨List.forall_mem_singleton.mpr (hleaf _ _ _ _ _ hne (Nat.le_add_right _ _) hstop),
          List.pairwise_singleton _ _⟩
    · split
      · next hdirty =>
        exact ⟨List.forall_mem_singleton.mpr
          (hleaf _ _ _ _ _ (hunused hdirty) (Nat.le_add_right _ _) le_rfl),
          List.pairwise_singleton _ _⟩
      · exact ⟨fun ch hch => absurd hch List.not_mem_nil, .nil⟩

/-- An entry becomes a candidate with its range. -/
theorem entryCand_placeable (rules : Rules) (ifd : Ifd) (he : e.In w.lay a b) (ei : ℕ) :
    Placeable b (entryCand w rules ifd ei e) := by
  obtain ⟨hin, hdisj⟩ := inlineChildren_in rules ifd he ei
  have hlen : 0 < w.lay.entryLen := by
    rw [Layout.entryLen]
    split <;> omega
  refine Placeable.node rfl (Nat.lt_add_of_pos_right hlen) he.stop_le ?_ ?_
  · intro ch hch
    rw [entryCand] at hch
    dsimp only at hch
    split at hch
    · exact hin ch hch
    · exact absurd hch List.not_mem_nil
  · rw [entryCand]
    dsimp only
    split
    · exact hdisj
    · exact .nil

theorem ifdCand_placeable {limit : ℕ} (h : ifd.Ok w.lay limit) :
    Placeable limit (ifdCand w rules ifd) := by
  refine Placeable.node rfl h.nonempty h.stop_le (fun ch hch => ?_) ?_
  · obtain ⟨⟨e, ei⟩, hmem, rfl⟩ := List.mem_map.mp hch
    have he := h.entries e (List.fst_mem_of_mem_zipIdx hmem)
    have hplaceable := entryCand_placeable rules ifd he ei
    exact ⟨hplaceable.nested, hplaceable.full, he.start_le, he.stop_le⟩
  · refine List.pairwise_map.mpr ?_
    have hfst : (ifd.entries.zipIdx.map Prod.fst).Pairwise
        fun e f => e.pos + w.lay.entryLen ≤ f.pos := by
      rw [List.zipIdx_map_fst]
      exact h.apart
    exact (List.pairwise_map.mp hfst).imp fun hlt => Span.disjoint_of_stop_le hlt

end

/-! ### Values and extents -/

/-- The placement of values and extents of `w` has changed remarks, flags and counters
only, and its candidates can be accounted for.  A length of data is less than the value at
which sums saturate. -/
structure Placed (w : Walk) (st : Placing) : Prop where
  small : w.limit < 2 ^ 64 - 1
  same : w.Same st.w
  values : ∀ c ∈ st.values, Placeable w.limit c

section

variable {w : Walk} {st : Placing}

theorem Placed.limit_eq (h : Placed w st) : st.limit = w.limit := h.same.limit_eq

theorem Placed.note (h : Placed w st) (ei : ℕ) (text : String) : Placed w (st.note ei text) :=
  ⟨h.small, h.same, h.values⟩

theorem Placed.reach (h : Placed w st) (stop : ℕ) : Placed w (st.reach stop) :=
  ⟨h.small, h.same, h.values⟩

theorem Placed.reachAll (h : Placed w st) : Placed w st.reachAll :=
  ⟨h.small, h.same, h.values⟩

theorem Placed.spendBudget (h : Placed w st) : Placed w st.spendBudget :=
  ⟨h.small, h.same.trans (st.w.same_flags _ true _ _), h.values⟩

theorem Placed.add (h : Placed w st) {c : Cand} (hc : Placeable w.limit c) :
    Placed w (st.add c) := by
  refine ⟨h.small, h.same, fun d hd => ?_⟩
  rcases List.mem_append.mp hd with hd | hd
  · exact h.values d hd
  · exact List.mem_singleton.mp hd ▸ hc

theorem Placed.with_w (h : Placed w st) {w' : Walk} (hw : st.w.Same w') :
    Placed w { st with w := w' } :=
  ⟨h.small, h.same.trans hw, h.values⟩

/-- A sum that stays in the data did not saturate. -/
theorem satAdd_of_le (hsmall : w.limit < 2 ^ 64 - 1) {a b : ℕ} (h : satAdd a b ≤ w.limit) :
    satAdd a b = a + b := by
  rw [satAdd] at *
  omega

/-- A sum that starts in the data goes on. -/
theorem lt_satAdd (hsmall : w.limit < 2 ^ 64 - 1) {a b : ℕ} (ha : a < w.limit) (hb : 0 < b) :
    a < satAdd a b := by
  rw [satAdd]
  omega

/-- A part of the data, at most the tail of which is a part of its own. -/
theorem Placeable.tailed {limit : ℕ} {c : Cand} (hbody : c.body = none)
    (hne : c.range.Nonempty) (hle : c.range.stop ≤ limit)
    (hchildren : c.children = [] ∨ ∃ tail : Cand, c.children = [tail] ∧ tail.body = none ∧
      tail.children = [] ∧ tail.range.Nonempty ∧ tail.range.Within c.range) :
    Placeable limit c := by
  rcases hchildren with hnil | ⟨tail, htail, htbody, htchildren, htne, hwithin⟩
  · exact Placeable.node hbody hne hle (by simp [hnil]) (by simp [hnil])
  · have hleaf := Placeable.node htbody htne le_rfl (by simp [htchildren]) (by simp [htchildren])
    refine Placeable.node hbody hne hle ?_ ?_
    · rw [htail]
      exact List.forall_mem_singleton.mpr ⟨hleaf.nested, hleaf.full, hwithin⟩
    · rw [htail]
      exact List.pairwise_singleton _ _

/-- A value that lies outside its entry is not empty. -/
theorem loc_outOfLine {e : Entry} {off size : ℕ} (h : w.loc e = .outOfLine off size) :
    0 < size := by
  rw [Walk.loc] at h
  split at h
  · cases h
  · split at h
    · cases h
    · split at h
      · cases h
      · next hzero =>
        split at h
        · cases h
        · split at h
          · cases h
            exact Nat.pos_of_ne_zero hzero
          · cases h

theorem placeValue_placed (rules : Rules) (ifd : Ifd) (h : Placed w st) (p : Entry × ℕ) :
    Placed w (placeValue rules ifd st p) := by
  obtain ⟨e, ei⟩ := p
  rw [placeValue]
  dsimp only
  split
  · next off size hloc =>
    have hsize := loc_outOfLine hloc
    rw [h.limit_eq]
    split
    · exact (h.note _ _).reachAll
    · next hoff =>
      have hoff : off < w.limit := not_le.mp hoff
      have hlt := lt_satAdd h.small hoff hsize
      by_cases htrunc : w.limit < satAdd off size
      · -- A truncated value has no tail.
        simp only [htrunc, decide_true, if_true]
        refine ((h.reachAll).reach _).add (.tailed rfl (lt_min hlt hoff) (min_le_right _ _) ?_)
        exact Or.inl rfl
      · have hstop : min (satAdd off size) w.limit = satAdd off size :=
          min_eq_left (not_lt.mp htrunc)
        have hsum := satAdd_of_le h.small (not_lt.mp htrunc)
        simp only [htrunc, decide_false, Bool.false_eq_true, if_false, hstop]
        refine (h.reach _).add (.tailed rfl hlt (not_lt.mp htrunc) ?_)
        split
        · next keep fate htail =>
          have hkeep : keep < size := of_decide_eq_true (Option.filter_eq_some_iff.mp htail).2
          refine Or.inr ⟨_, rfl, rfl, rfl, ?_, Nat.le_add_right _ _, le_rfl⟩
          show off + keep < satAdd off size
          omega
        · exact Or.inl rfl
  · exact h

/-- The part of a run of chunks that starts in the data. -/
theorem cand_eq_ok {l : Listing} {limit : ℕ} {r : Span ℕ} {first last : ℕ} {c : Cand}
    (h : l.cand limit r first last = .ok c) : r.start < limit ∧
      ∃ kind tag disp detail, c = Cand.new ⟨r.start, min r.stop limit⟩ kind tag disp detail := by
  rw [Listing.cand] at h
  dsimp only at h
  split at h
  · cases h
  · next hlt => exact ⟨not_le.mp hlt, _, _, _, _, (Except.ok.inj h).symm⟩

theorem emit_placed (h : Placed w st) (l : Listing) {r : Span ℕ} {first last : ℕ}
    {amend : Cand → Cand} (hamend : ∀ kind tag disp detail, r.start < w.limit →
      Placeable w.limit (amend (Cand.new ⟨r.start, min r.stop w.limit⟩ kind tag disp detail))) :
    Placed w (st.emit l r first last amend) := by
  rw [Placing.emit, h.limit_eq]
  split
  · next c hc =>
    obtain ⟨hlt, kind, tag, disp, detail, rfl⟩ := cand_eq_ok hc
    exact h.add (hamend kind tag disp detail hlt)
  · exact h.note _ _

/-- A run of chunks that starts in the data covers bytes. -/
def RunOk (limit : ℕ) (run : Option Run) : Prop :=
  ∀ r ∈ run, r.1.start < limit → r.1.Nonempty

theorem emit_id_placed (h : Placed w st) (l : Listing) {r : Span ℕ} {first last : ℕ}
    (hr : r.start < w.limit → r.Nonempty) : Placed w (st.emit l r first last id) := by
  refine emit_placed h l fun kind tag disp detail hlt => ?_
  have hne : (⟨r.start, min r.stop w.limit⟩ : Span ℕ).Nonempty := lt_min (hr hlt) hlt
  exact .leaf hne (min_le_right _ _) kind tag disp detail

theorem flush_placed (h : Placed w st) (l : Listing) {run : Option Run}
    (hrun : RunOk w.limit run) : Placed w (st.flush l run) := by
  cases run with
  | none => exact h
  | some run =>
    obtain ⟨r, first, last⟩ := run
    exact emit_id_placed h l (hrun _ rfl)

/-- A chunk is read past its declared length or has a tail, not both. -/
theorem read_or_tail {u : Option ChunkUse} {n used : ℕ} {q : ℕ → Prop} [DecidablePred q]
    (h : ((u.bind ChunkUse.used).filter fun used => used < n ∧ q used) = some used) :
    used < n ∧ q used ∧
      ((u.filter ChunkUse.pastCount).bind ChunkUse.used).filter (n < ·) = none := by
  obtain ⟨hused, hq⟩ := Option.filter_eq_some_iff.mp h
  obtain ⟨hlt, hq⟩ := of_decide_eq_true hq
  refine ⟨hlt, hq, Option.filter_eq_none_iff.mpr fun m hm => ?_⟩
  obtain ⟨v, hv, hvused⟩ := Option.bind_eq_some_iff.mp hm
  obtain ⟨hv, -⟩ := Option.filter_eq_some_iff.mp hv
  rw [hv, Option.bind_some, hvused] at hused
  obtain rfl := Option.some.inj hused
  simpa using hlt.le

theorem placeChunks_placed (l : Listing) : ∀ (chunks : List (ℕ × ℕ × ℕ)) (run : Option Run)
    (st : Placing), Placed w st → RunOk w.limit run → Placed w (placeChunks l chunks run st) := by
  intro chunks
  induction chunks with
  | nil => exact fun run st h hrun => flush_placed h l hrun
  | cons chunk rest ih =>
    obtain ⟨k, off, n⟩ := chunk
    intro run st h hrun
    rw [placeChunks]
    split
    · exact ih _ _ (h.note _ _) hrun
    · next start _ =>
      dsimp only
      split
      · exact ih _ _ h hrun
      · next hskip =>
        have hn : 0 < n := Nat.pos_of_ne_zero fun h => hskip (Or.inl h)
        split
        · exact flush_placed h.spendBudget l hrun
        · have hst : Placed w { st with extentsLeft := st.extentsLeft - 1 } :=
            ⟨h.small, h.same, h.values⟩
          have hnone : RunOk w.limit none := fun r hr => by cases hr
          generalize { st with extentsLeft := st.extentsLeft - 1 } = st at hst ⊢
          split
          · -- A chunk of its own.
            refine ih _ _ (emit_placed ((flush_placed hst l hrun).reach _) l ?_) hnone
            intro kind tag disp detail hlt
            have hstop := lt_satAdd h.small hlt hn
            exact .tailed rfl (lt_min hstop hlt) (min_le_right _ _) (Or.inl rfl)
          · generalize hread : ((l.uses[k]?.filter ChunkUse.pastCount).bind
              ChunkUse.used).filter (n < ·) = read
            have hlen : 0 < read.getD n := by
              cases read with
              | none => exact hn
              | some m =>
                exact (Nat.zero_le n).trans_lt
                  (of_decide_eq_true (Option.filter_eq_some_iff.mp hread).2)
            have hstop : start < w.limit → start < satAdd start (read.getD n) := fun hlt =>
              lt_satAdd h.small hlt hlen
            have hreached : Placed w (if (st.reach (satAdd start (read.getD n))).limit <
                satAdd start (read.getD n) then (st.reach (satAdd start (read.getD n))).reachAll
                else st.reach (satAdd start (read.getD n))) := by
              split
              · exact (hst.reach _).reachAll
              · exact hst.reach _
            generalize (if (st.reach (satAdd start (read.getD n))).limit <
              satAdd start (read.getD n) then (st.reach (satAdd start (read.getD n))).reachAll
              else st.reach (satAdd start (read.getD n))) = st' at hreached ⊢
            generalize htail : ((l.uses[k]?.bind ChunkUse.used).filter fun used =>
              used < n ∧ satAdd start (read.getD n) ≤ st'.limit) = tail
            split
            · refine ih _ _ (emit_placed (flush_placed hreached l hrun) l ?_) hnone
              intro kind tag disp detail hlt
              refine .tailed rfl (lt_min (hstop hlt) hlt) (min_le_right _ _) ?_
              cases tail with
              | none => exact Or.inl rfl
              | some used =>
                obtain ⟨hused, hle, hnoread⟩ := read_or_tail htail
                obtain rfl : read = none := hread.symm.trans hnoread
                rw [hreached.limit_eq] at hle
                have hsum := satAdd_of_le h.small hle
                have hmin : min (satAdd start n) w.limit = satAdd start n := min_eq_left hle
                rw [Option.getD_none] at hsum
                refine Or.inr ⟨_, rfl, rfl, rfl, ?_, Nat.le_add_right _ _, hmin.ge⟩
                show start + used < satAdd start n
                omega
            · split
              · next r first last =>
                have hr := hrun _ rfl
                split
                · next heq =>
                  refine ih _ _ hreached fun r' hr' hlt => ?_
                  obtain rfl := Option.some.inj hr'
                  have hlt' : r.start < r.stop := hr hlt
                  have hsmall := h.small
                  show r.start < satAdd start (read.getD n)
                  rw [satAdd]
                  dsimp only at hlt
                  omega
                · refine ih _ _ (emit_id_placed hreached l hr) fun r' hr' hlt => ?_
                  obtain rfl := Option.some.inj hr'
                  exact hstop hlt
              · refine ih _ _ hreached fun r' hr' hlt => ?_
                obtain rfl := Option.some.inj hr'
                exact hstop hlt

theorem takeScan_same (w : Walk) (n : ℕ) : w.Same (w.takeScan n).2 := by
  rw [Walk.takeScan]
  split
  · exact .refl w
  · exact ⟨rfl, rfl, rfl, rfl, rfl, rfl, rfl, rfl, rfl, rfl⟩

theorem jpegTableCounts_same (huffman : Bool) (rules : Rules) (offs : List ℕ) :
    ∀ w : Walk, w.Same (jpegTableCounts huffman rules offs w).2.2.2 := by
  induction offs with
  | nil => exact fun w => .refl w
  | cons off rest ih =>
    intro w
    have hpoll : w.Same { w with polls := w.polls + 1 } := w.same_flags _ _ _ _
    rw [jpegTableCounts]
    cases hstop : rules.cancelled w.polls with
    | true => simpa [Walk.poll, hstop] using hpoll
    | false =>
      simp only [Walk.poll, hstop, Bool.false_eq_true, if_false]
      generalize hone : (if off = 0 then some (0, { w with polls := w.polls + 1 })
        else _ : Option (ℕ × Walk)) = one
      cases one with
      | none => exact hpoll
      | some out =>
        obtain ⟨n, w'⟩ := out
        refine Walk.Same.trans ?_ (ih w')
        split at hone
        · cases hone
          exact hpoll
        · split at hone
          · cases hone
            exact hpoll
          · split at hone
            · cases hone
            · cases hone
              exact hpoll.trans (takeScan_same _ _)

theorem extentCounts_same {rules : Rules} {ifd : Ifd} {rule : ExtentRule} {oe : Entry} {max : ℕ}
    {offs cnts : List ℕ} {w w' : Walk}
    (h : extentCounts rules ifd rule oe max offs w = some (cnts, w')) : w.Same w' := by
  have htable : ∀ huffman, w.Same { (jpegTableCounts huffman rules offs w).2.2.2 with
      budgetHit := (jpegTableCounts huffman rules offs w).2.2.2.budgetHit ||
        (jpegTableCounts huffman rules offs w).2.1 || decide (max < oe.count)
      cancelled := (jpegTableCounts huffman rules offs w).2.2.2.cancelled ||
        (jpegTableCounts huffman rules offs w).2.2.1 } := fun huffman =>
    (jpegTableCounts_same huffman rules offs w).trans (Walk.same_flags _ _ _ _ _)
  rw [extentCounts] at h
  split at h
  · obtain ⟨ce, -, hce⟩ := Option.map_eq_some_iff.mp h
    cases hce
    exact .refl w
  · cases h
    exact .refl w
  · cases h
    exact .refl w
  · cases h
    exact htable false
  · cases h
    exact htable true

theorem placeExtents_placed (rules : Rules) (ifd : Ifd) (h : Placed w st) (rule : ExtentRule) :
    Placed w (placeExtents rules ifd st rule) := by
  rw [placeExtents]
  split
  · exact h
  · split
    · exact h.spendBudget.note _ _
    · dsimp only
      split
      · exact h
      · next cnts w' hcounts =>
        have hnone : RunOk w.limit none := fun r hr => by cases hr
        refine placeChunks_placed _ _ none _ (h.with_w ((extentCounts_same hcounts).trans ?_))
          hnone
        exact ⟨rfl, rfl, rfl, rfl, rfl, rfl, rfl, rfl, rfl, rfl⟩

theorem placeIfd_placed (rules : Rules) (i : ℕ) (h : Placed w st) :
    Placed w (placeIfd rules i st) := by
  have hfold : ∀ {α : Type} (f : Placing → α → Placing),
      (∀ st a, Placed w st → Placed w (f st a)) →
      ∀ (l : List α) (st : Placing), Placed w st → Placed w (l.foldl f st) := by
    intro α f hf l
    induction l with
    | nil => exact fun st h => h
    | cons a l ih => exact fun st h => ih _ (hf st a h)
  have hnotes : ∀ (notes : List (ℕ × String)) (w' : Walk),
      w'.Same (notes.foldl (fun w p => w.modifyIfd i (·.noteEntry p.1 p.2)) w') := by
    intro notes
    induction notes with
    | nil => exact fun w' => .refl w'
    | cons p notes ih =>
      intro w'
      exact (w'.modifyIfd_same i fun ifd => bare_noteEntry ifd p.1 p.2).trans (ih _)
  rw [placeIfd]
  split
  · exact h
  · next ifd _ =>
    split
    · exact h
    · have hst : Placed w { st with notes := [] } := ⟨h.small, h.same, h.values⟩
      have hvalues := hfold (placeValue rules ifd) (fun st p h => placeValue_placed rules ifd h p)
        ifd.entries.zipIdx _ hst
      have hextents := fun extents => hfold (placeExtents rules ifd)
        (fun st rule h => placeExtents_placed rules ifd h rule) extents _ hvalues
      exact ⟨h.small, (hextents _).same.trans (hnotes _ _), (hextents _).values⟩

theorem placeIfds_placed (rules : Rules) : ∀ (is : List ℕ) (st : Placing), Placed w st →
    Placed w (placeIfds rules is st) := by
  intro is
  induction is with
  | nil => exact fun st h => h
  | cons i is ih =>
    intro st h
    rw [placeIfds]
    cases hstop : rules.cancelled st.w.polls with
    | true =>
      simp only [Walk.poll, hstop, if_true]
      exact h.with_w (st.w.same_flags true _ _ _)
    | false =>
      simp only [Walk.poll, hstop, Bool.false_eq_true, if_false]
      exact ih _ (placeIfd_placed rules i (h.with_w (st.w.same_flags _ _ _ _)))

/-- **Values and extents** become candidates inside the data. -/
theorem placeValues_placed (rules : Rules) (w : Walk) (hsmall : w.limit < 2 ^ 64 - 1)
    (logicalEnd : ℕ) : Placed w (placeValues rules w logicalEnd) :=
  placeIfds_placed rules _ _ ⟨hsmall, .refl w, by simp⟩

end

/-! ### The inventory -/

/-- Inserting keeps the candidates that are not empty, in order. -/
theorem foldl_insert_filter (cs : List Cand) : ∀ acc : List Cand,
    cs.foldl insert acc = acc ++ cs.filter fun c => c.range.start < c.range.stop := by
  induction cs with
  | nil => exact fun acc => (List.append_nil acc).symm
  | cons c cs ih =>
    intro acc
    rw [List.foldl_cons, ih, insert]
    by_cases h : c.range.start < c.range.stop <;> simp [h]

/-- The candidates of a walk that are not empty. -/
theorem candidates_placeable {w : Walk} (rules : Rules) {first : List Cand} {st : Placing}
    {len : ℕ} (hw : w.Ok) (hlen : w.limit ≤ len) (hst : Placed w st)
    (hfirst : ∀ c ∈ first, Placeable len c) :
    ∀ c ∈ candidates w rules first st, c.range.Nonempty → Placeable len c := by
  have hmono : ∀ {c : Cand}, Placeable w.limit c → Placeable len c := fun h =>
    ⟨h.nested, h.full, h.stop_le.trans hlen⟩
  have hok := hw.of_same hst.same
  intro c hc hne
  simp only [candidates, List.mem_append] at hc
  rcases hc with (((hc | hc) | hc) | hc) | hc
  · split at hc
    · next hheader =>
      obtain rfl := List.mem_singleton.mp hc
      have hle : w.header.stop ≤ w.limit := hw.header hheader
      rw [headerCand]
      split
      · have hleaf : Placeable w.limit (Cand.new _ .header .none .structure _) :=
          Placeable.leaf hheader hle .header .none .structure
          (if w.lay.big then "BigTIFF header" else "TIFF header")
        dsimp only
        split
        · exact hmono ⟨hleaf.nested.note _, hleaf.full.note _, hle⟩
        · exact hmono hleaf
      · exact hmono (.leaf hheader hle ..)
    · exact absurd hc List.not_mem_nil
  · obtain ⟨x, hx, rfl⟩ := List.mem_map.mp hc
    exact hmono (.leaf hne (hw.headerExt x (Option.mem_toList.mp hx)) ..)
  · exact hfirst c hc
  · obtain ⟨ifd, hifd, rfl⟩ := List.mem_map.mp hc
    refine hmono (ifdCand_placeable ?_)
    rw [← hst.same.limit_eq]
    exact hok.ifds ifd hifd
  · exact hmono (hst.values c hc)

/-- The inventory of a walk whose tables lie in the data is valid. -/
theorem validate_inventoryOf_of_ok {data : Bytes} {w : Walk} {rules : Rules}
    {first : List Cand} {cap : UInt32} {gap : Disposition × Option String} {rest : Disposition}
    {inv : Inventory} (hw : w.Ok) (hlimit : w.limit ≤ data.length)
    (hdata : data.length < 2 ^ 63) (hfirst : ∀ c ∈ first, Placeable data.length c)
    (h : inventoryOf data w rules first cap gap rest = .ok inv) :
    inv.validate = .ok () ∧ inv.Tiled := by
  have hsmall : w.limit < 2 ^ 64 - 1 := by omega
  simp only [inventoryOf, place, bind_eq_ok] at h
  obtain ⟨inv₁, hemit, hfill⟩ := h
  generalize hst : placeValues rules w _ = st at hemit
  have hplaced : Placed w st := hst ▸ placeValues_placed rules w hsmall _
  have hcands := candidates_placeable rules hw hlimit hplaced hfirst
  have hall : ∀ c ∈ (candidates w rules first st).filter fun c => c.range.start < c.range.stop,
      Placeable data.length c := by
    intro c hc
    obtain ⟨hc, hne⟩ := List.mem_filter.mp hc
    exact hcands c hc (of_decide_eq_true hne)
  rw [foldl_insert_filter, List.nil_append] at hemit
  have hresolved := intoSorted_nested fun c hc => (hall c hc).nested
  refine validate_of_emit (fun p hp => ⟨hresolved.nested p hp, ?_, ?_⟩) hresolved.separated hemit
    hfill
  · exact intoSorted_full (fun c hc => (hall c hc).nested) (fun c hc => (hall c hc).full) hp
  · -- The last byte of a part belongs to a candidate.
    have hne : p.range.start < p.range.stop := hresolved.nonempty p hp
    obtain ⟨c, hc, hx⟩ := (hresolved.cover (p.range.stop - 1)).mp
      ⟨p, hp, Nat.le_sub_one_of_lt hne, Nat.sub_one_lt_of_lt hne⟩
    have := hx.2
    have := (hall c hc).stop_le
    omega

/-- **Every byte of a TIFF is accounted for.**  The walk of any data, from a header or from a
directory, placed, emitted and with its gaps filled, makes a valid inventory, however its
tables, values and extents overlap or point outside the data; `first` are parts the caller
adds. -/
theorem validate_inventoryOf (data : Bytes) (hdata : data.length < 2 ^ 63) (base limit : ℕ)
    (rules : Rules) (first : List Cand) (hfirst : ∀ c ∈ first, Placeable data.length c)
    (cap : UInt32) (gap : Disposition × Option String) (rest : Disposition) (inv : Inventory) :
    (inventoryOf data (walk data base limit rules) rules first cap gap rest = .ok inv →
      inv.validate = .ok () ∧ inv.Tiled) ∧
    ∀ (lay : Layout) (pos : ℕ) (kind : Kind) (name : String) (depth : UInt8),
      inventoryOf data (walkIfd data base limit lay pos kind name depth rules) rules first cap
        gap rest = .ok inv → inv.validate = .ok () ∧ inv.Tiled := by
  have hvalid : ∀ w : Walk, w.Ok ∧ w.limit = min limit data.length →
      inventoryOf data w rules first cap gap rest = .ok inv →
      inv.validate = .ok () ∧ inv.Tiled := fun w hw =>
    validate_inventoryOf_of_ok hw.1 (hw.2.trans_le (min_le_right _ _)) hdata hfirst
  exact ⟨hvalid _ (walk_ok data base limit rules), fun lay pos kind name depth =>
    hvalid _ (walkIfd_ok data base limit lay pos kind name depth rules)⟩

/-- Metadata of the caller over the end of the header and the start of the first directory. -/
def strayMetadata : Cand := Cand.new ⟨4, 12⟩ .chunk .none (.metadata .exif) "page"

/-- The shared and cyclic pointers of `tripledSubIfd`, under metadata that overlaps two
tables. -/
theorem validate_inventoryOf_tripledSubIfd : ∃ inv,
    inventoryOf tripledSubIfd (walk tripledSubIfd 0 46 plainRules) plainRules [strayMetadata] 16
      (.unreferenced, none) .unknown = .ok inv ∧
    inv.parts.map (fun p => (p.parent, p.range)) =
      [(none, ⟨0, 4⟩), (none, ⟨4, 12⟩), (none, ⟨12, 26⟩), (some 2, ⟨12, 22⟩),
        (none, ⟨26, 38⟩), (none, ⟨38, 40⟩), (none, ⟨40, 46⟩)] ∧
    inv.validate = .ok () ∧ inv.Tiled := by
  have hparts : (inventoryOf tripledSubIfd (walk tripledSubIfd 0 46 plainRules) plainRules
      [strayMetadata] 16 (.unreferenced, none) .unknown).toOption.map
        (fun inv => inv.parts.map fun p => (p.parent, p.range)) =
      some [(none, ⟨0, 4⟩), (none, ⟨4, 12⟩), (none, ⟨12, 26⟩), (some 2, ⟨12, 22⟩),
        (none, ⟨26, 38⟩), (none, ⟨38, 40⟩), (none, ⟨40, 46⟩)] := by
    decide +kernel
  have hfirst : ∀ c ∈ [strayMetadata], Placeable tripledSubIfd.length c :=
    List.forall_mem_singleton.mpr (.leaf (by decide) (by decide) _ _ _ _)
  cases h : inventoryOf tripledSubIfd (walk tripledSubIfd 0 46 plainRules) plainRules
      [strayMetadata] 16 (.unreferenced, none) .unknown with
  | error e =>
    rw [h] at hparts
    cases hparts
  | ok inv =>
    rw [h] at hparts
    exact ⟨inv, rfl, Option.some.inj hparts,
      (validate_inventoryOf tripledSubIfd (by decide) 0 46 plainRules [strayMetadata] hfirst 16
        (.unreferenced, none) .unknown inv).1 h⟩

end Tiff

end Zencodec
