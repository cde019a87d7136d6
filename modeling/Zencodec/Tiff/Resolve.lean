/-
Overlap resolution keeps the strongest fate.

`Wins cands i x` says that candidate `i` gives byte `x` the strongest fate, the first
inserted one on a tie.

* `isRuns_won` — after the sweep each candidate has the maximal runs of the bytes it wins;
* `intoSorted_resolved` — the parts are sorted and disjoint, cover what the candidates
  cover, and give every byte the strongest fate, except in the runs past the cap on
  pieces, which become unknown gaps.
-/
import Zencodec.Tiff.Placed
import Zencodec.Tiff.Segments

open StableSort Tiling Sweep

namespace Zencodec

namespace Tiff

variable {cands : List Cand}

/-- Candidate `i` gives byte `x` the strongest fate, and is the first to. -/
def Wins (cands : List Cand) (i x : ℕ) : Prop :=
  ∃ c r, cands[i]? = some c ∧ c.rankAt x = some r ∧
    ∀ (j : ℕ) (d : Cand) (r' : ℕ), cands[j]? = some d → d.rankAt x = some r' →
      r' < r ∨ r' = r ∧ i ≤ j

theorem Wins.unique {i j x : ℕ} (hi : Wins cands i x) (hj : Wins cands j x) : i = j := by
  obtain ⟨c, r, hc, hr, hle⟩ := hi
  obtain ⟨d, r', hd, hr', hle'⟩ := hj
  rcases hle j d r' hd hr' with hlt | ⟨heq, hij⟩
  · rcases hle' i c r hc hr with hlt' | ⟨heq', -⟩
    · exact absurd hlt hlt'.not_gt
    · exact absurd heq' hlt.ne'
  · rcases hle' i c r hc hr with hlt' | ⟨-, hji⟩
    · exact absurd heq hlt'.ne'
    · exact le_antisymm hij hji

theorem Wins.mem {i x : ℕ} (h : Wins cands i x) : ∃ c, cands[i]? = some c ∧ x ∈ c.range := by
  obtain ⟨c, r, hc, hr, -⟩ := h
  refine ⟨c, hc, ?_⟩
  by_contra hx
  rw [rankAt_eq_none_iff.mpr hx] at hr
  cases hr

/-! ### The stretches of all candidates -/

theorem mem_allSegments {sg : Seg} : sg ∈ allSegments cands ↔
    ∃ (i : ℕ) (c : Cand), cands[i]? = some c ∧ sg ∈ segments c c.range i := by
  simp only [allSegments, List.mem_flatMap]
  constructor
  · rintro ⟨⟨c, i⟩, hmem, hsg⟩
    exact ⟨i, c, List.mk_mem_zipIdx_iff_getElem?.mp hmem, hsg⟩
  · rintro ⟨i, c, hc, hsg⟩
    exact ⟨(c, i), List.mk_mem_zipIdx_iff_getElem?.mpr hc, hsg⟩

theorem mem_keyed {segs : List Seg} {s : Span ℕ} {key : Key} : (s, key) ∈ keyed segs ↔
    ∃ (k : ℕ) (sg : Seg), segs[k]? = some sg ∧ sg.range = s ∧ sg.key k = key := by
  simp only [keyed, List.mem_map, Prod.mk.injEq]
  constructor
  · rintro ⟨⟨sg, k⟩, hmem, hs, hkey⟩
    exact ⟨k, sg, List.mk_mem_zipIdx_iff_getElem?.mp hmem, hs, hkey⟩
  · rintro ⟨k, sg, hk, hs, hkey⟩
    exact ⟨(sg, k), List.mk_mem_zipIdx_iff_getElem?.mpr hk, hs, hkey⟩

/-- The index in a key tells the stretches apart. -/
theorem keyed_nodup (segs : List Seg) : ((keyed segs).map Prod.snd).Nodup := by
  have hidx : (((keyed segs).map Prod.snd).map fun key => (ofLex (ofLex key).2).2) =
      List.range segs.length := by
    rw [keyed, List.map_map, List.map_map]
    exact (List.zipIdx_map_snd 0 segs).trans List.range_eq_range'.symm
  exact List.Nodup.of_map _ (hidx ▸ List.nodup_range)

/-- Every byte of a candidate lies in a stretch of it. -/
theorem exists_mem_keyed {i : ℕ} {c : Cand} (hc : cands[i]? = some c) {x : ℕ}
    (hx : x ∈ c.range) : ∃ sg k, (sg.range, Seg.key sg k) ∈ keyed (allSegments cands) ∧
      sg ∈ segments c c.range i ∧ x ∈ sg.range := by
  obtain ⟨sg, hsg, hxsg⟩ := exists_mem_segments i (Span.mem_inter.mpr ⟨hx, hx⟩)
  obtain ⟨k, hk, hget⟩ := List.getElem_of_mem (mem_allSegments.mpr ⟨i, c, hc, hsg⟩)
  refine ⟨sg, k, mem_keyed.mpr ⟨k, sg, ?_, rfl, rfl⟩, hsg, hxsg⟩
  rw [List.getElem?_eq_getElem hk, hget]

section

variable (hnested : ∀ c ∈ cands, Nested c)
include hnested

theorem keyed_nonempty : ∀ p ∈ keyed (allSegments cands), p.1.Nonempty := by
  rintro ⟨s, key⟩ hp
  obtain ⟨k, sg, hk, rfl, -⟩ := mem_keyed.mp hp
  obtain ⟨i, c, hc, hsg⟩ := mem_allSegments.mp (List.mem_of_getElem? hk)
  exact (segments_of (hnested c (List.mem_of_getElem? hc)) hsg).nonempty

/-- A stretch gives its bytes the rank its candidate gives them. -/
theorem rankAt_of_keyed {s : Span ℕ} {key : Key} (h : (s, key) ∈ keyed (allSegments cands))
    {x : ℕ} (hx : x ∈ s) : ∃ c, cands[Key.cand key]? = some c ∧
      c.rankAt x = some (OrderDual.ofDual (ofLex key).1) := by
  obtain ⟨k, sg, hk, rfl, rfl⟩ := mem_keyed.mp h
  obtain ⟨i, c, hc, hsg⟩ := mem_allSegments.mp (List.mem_of_getElem? hk)
  have hof := segments_of (hnested c (List.mem_of_getElem? hc)) hsg
  refine ⟨c, ?_, hof.rank_eq x hx⟩
  rw [key_cand, hof.cand_eq, hc]

/-- The best stretch at a byte belongs to the candidate that wins it. -/
theorem wins_of_isBest {x : ℕ} {key : Key} (h : IsBest (keyed (allSegments cands)) x key) :
    Wins cands (Key.cand key) x := by
  obtain ⟨⟨s, hs, hx⟩, hle⟩ := h
  obtain ⟨c, hc, hr⟩ := rankAt_of_keyed hnested hs hx
  refine ⟨c, _, hc, hr, fun j d r' hd hr' => ?_⟩
  have hxd : x ∈ d.range := by
    by_contra hno
    rw [rankAt_eq_none_iff.mpr hno] at hr'
    cases hr'
  obtain ⟨sg, k, hkeyed, hsg, hxsg⟩ := exists_mem_keyed hd hxd
  have hof := segments_of (hnested d (List.mem_of_getElem? hd)) hsg
  have hrank : r' = sg.rank := Option.some.inj (hr'.symm.trans (hof.rank_eq x hxsg))
  -- Compare the two keys rank first, then candidate.
  rcases Prod.Lex.le_iff.mp (hle _ _ hkeyed hxsg) with hlt | ⟨heq, hrest⟩
  · exact Or.inl (hrank ▸ OrderDual.toDual_lt_toDual.mp hlt)
  · refine Or.inr ⟨?_, ?_⟩
    · rw [hrank]
      exact congrArg OrderDual.ofDual heq.symm
    · rcases Prod.Lex.le_iff.mp hrest with hlt | ⟨heq', -⟩
      · exact hof.cand_eq ▸ hlt.le
      · exact hof.cand_eq ▸ heq'.le

end

/-! ### The sweep -/

@[simp] theorem event_won (st : Sweeping) (e : Event ℕ Key) : (st.event e).won = st.won := by
  cases h : e.start <;> simp [Sweeping.event, h]

@[simp] theorem event_active (st : Sweeping) (e : Event ℕ Key) :
    (st.event e).active = e.apply st.active := by
  cases h : e.start <;> simp [Sweeping.event, h]

@[simp] theorem settle_active (st : Sweeping) (x : ℕ) (next : Option ℕ) :
    (st.settle x next).active = st.active := by
  rw [Sweeping.settle]
  split <;> rfl

/-- Settling extends the runs of the strongest active candidate. -/
theorem settle_won_of_some {st : Sweeping} {wc : ℕ}
    (h : st.active.head?.map Key.cand = some wc) (x next : ℕ) :
    (st.settle x (some next)).won =
      Function.update st.won wc (extend (st.won wc) x next) := by
  simp only [Sweeping.settle, h]

theorem settle_won_of_none {st : Sweeping} (h : st.active.head?.map Key.cand = none)
    (x next : ℕ) : (st.settle x (some next)).won = st.won := by
  simp only [Sweeping.settle, h]

theorem settle_won_none (st : Sweeping) (x : ℕ) : (st.settle x none).won = st.won := by
  rw [Sweeping.settle]
  split <;> rfl

/-- After the events `done` every candidate has the runs of what it wins before `rest`. -/
structure SweepInv (cands : List Cand) (done rest : List (Event ℕ Key)) (st : Sweeping) :
    Prop where
  active : Active (keyed (allSegments cands)) done rest st.active
  won : ∀ i, IsRuns (fun x => Wins cands i x ∧ ∀ e ∈ rest, x < e.pos) (st.won i)

theorem sweepInv_start (cands : List Cand) :
    SweepInv cands [] (events (keyed (allSegments cands))) .start where
  active := active_nil _
  won := fun i => isRuns_nil fun x ⟨hw, hlt⟩ => by
    obtain ⟨c, hc, hx⟩ := hw.mem
    obtain ⟨sg, k, hkeyed, -, hxsg⟩ := exists_mem_keyed hc hx
    exact absurd (hlt _ (start_mem_events hkeyed)) (not_lt.mpr hxsg.1)

section

variable (hnested : ∀ c ∈ cands, Nested c)
include hnested

/-- Between two events the strongest active stretch names the winner. -/
theorem wins_iff_of_head {done rest : List (Event ℕ Key)} {active : List Key}
    (h : Active (keyed (allSegments cands)) done rest active) {x next z : ℕ}
    (hdone : ∀ e ∈ done, e.pos ≤ x) (hrest : ∀ e ∈ rest, next ≤ e.pos) (hxz : x ≤ z)
    (hz : z < next) (i : ℕ) :
    Wins cands i z ↔ active.head?.map Key.cand = some i := by
  have hmem := h.mem_iff_covers hdone hrest hxz hz
  cases hhead : active.head? with
  | none =>
    have hnil : active = [] := List.head?_eq_none_iff.mp hhead
    simp only [Option.map_none, reduceCtorEq, iff_false]
    intro hw
    obtain ⟨c, hc, hzc⟩ := hw.mem
    obtain ⟨sg, k, hkeyed, -, hzsg⟩ := exists_mem_keyed hc hzc
    have hin := (hmem _).mpr ⟨_, hkeyed, hzsg⟩
    rw [hnil] at hin
    exact List.not_mem_nil hin
  | some key =>
    have hbest := (head?_eq_some_iff h.sorted hmem).mp hhead
    have hwins := wins_of_isBest hnested hbest
    rw [Option.map_some, Option.some.injEq]
    exact ⟨fun hw => hwins.unique hw, fun heq => heq ▸ hwins⟩

/-- One event: the bytes up to the next event are given to their winner. -/
theorem sweepInv_step {done rest : List (Event ℕ Key)} {e f : Event ℕ Key} {st : Sweeping}
    (h : SweepInv cands done (e :: f :: rest) st) :
    SweepInv cands (done ++ [e]) (f :: rest)
      (if f.pos = e.pos then st.event e else (st.event e).settle e.pos (some f.pos)) := by
  have hactive := h.active.step (keyed_nodup _) (keyed_nonempty hnested)
  have hsorted := events_sorted (keyed (allSegments cands))
  rw [← h.active.split] at hsorted
  obtain ⟨-, hsorted', hdone⟩ := List.pairwise_append.mp hsorted
  obtain ⟨he, hf⟩ := List.pairwise_cons.mp hsorted'
  have hef : e.pos ≤ f.pos := he f List.mem_cons_self
  -- What is settled before the head of a sorted list of events.
  have hbefore : ∀ x, (∀ g ∈ e :: f :: rest, x < g.pos) ↔ x < e.pos := fun x =>
    ⟨fun hx => hx e List.mem_cons_self, fun hx g hg => by
      rcases List.mem_cons.mp hg with rfl | hg
      · exact hx
      · exact hx.trans_le (he g hg)⟩
  have hbefore' : ∀ x, (∀ g ∈ f :: rest, x < g.pos) ↔ x < f.pos := fun x =>
    ⟨fun hx => hx f List.mem_cons_self, fun hx g hg => by
      rcases List.mem_cons.mp hg with rfl | hg
      · exact hx
      · exact hx.trans_le ((List.pairwise_cons.mp hf).1 g hg)⟩
  have hwon : ∀ i, IsRuns (fun x => Wins cands i x ∧ x < e.pos) (st.won i) := fun i =>
    (h.won i).congr fun x => and_congr_right fun _ => hbefore x
  by_cases hpos : f.pos = e.pos
  · rw [if_pos hpos]
    refine ⟨by simpa using hactive, fun i => ?_⟩
    rw [event_won]
    exact (hwon i).congr fun x => and_congr_right fun _ => by rw [hbefore', hpos]
  · rw [if_neg hpos]
    have hlt : e.pos < f.pos := lt_of_le_of_ne hef (Ne.symm hpos)
    have hdone' : ∀ g ∈ done ++ [e], g.pos ≤ e.pos := by
      intro g hg
      rcases List.mem_append.mp hg with hg | hg
      · exact hdone g hg e List.mem_cons_self
      · obtain rfl := List.mem_singleton.mp hg
        exact le_rfl
    have hrest : ∀ g ∈ f :: rest, f.pos ≤ g.pos := by
      intro g hg
      rcases List.mem_cons.mp hg with rfl | hg
      · exact le_rfl
      · exact (List.pairwise_cons.mp hf).1 g hg
    have hwins : ∀ i x, e.pos ≤ x → x < f.pos →
        (Wins cands i x ↔ (st.event e).active.head?.map Key.cand = some i) :=
      fun i x hex hxf => wins_iff_of_head hnested (by simpa using hactive) hdone' hrest hex hxf i
    have hsplit : ∀ x, x < f.pos ↔ x < e.pos ∨ e.pos ≤ x ∧ x < f.pos := fun x => by omega
    refine ⟨by simpa using hactive, fun i => ?_⟩
    cases hhead : (st.event e).active.head?.map Key.cand with
    | none =>
      rw [settle_won_of_none hhead, event_won]
      refine (hwon i).congr fun x => ⟨fun hx => ?_, fun hx => ?_⟩
      · exact ⟨hx.1, (hbefore' x).mpr (hx.2.trans_le hef)⟩
      · refine ⟨hx.1, ?_⟩
        rcases (hsplit x).mp ((hbefore' x).mp hx.2) with hxe | ⟨h1, h2⟩
        · exact hxe
        · have := (hwins i x h1 h2).mp hx.1
          rw [hhead] at this
          cases this
    | some wc =>
      rw [settle_won_of_some hhead, event_won]
      by_cases hi : i = wc
      · subst hi
        rw [Function.update_self]
        refine ((hwon i).extend (fun x hx => hx.2) hlt).congr fun x => ?_
        rw [hbefore']
        constructor
        · rintro (⟨hw, hx⟩ | ⟨h1, h2⟩)
          · exact ⟨hw, hx.trans_le hef⟩
          · exact ⟨(hwins i x h1 h2).mpr hhead, h2⟩
        · rintro ⟨hw, hx⟩
          exact ((hsplit x).mp hx).imp (fun hxe => ⟨hw, hxe⟩) fun hxe => hxe
      · rw [Function.update_of_ne hi]
        refine (hwon i).congr fun x => ?_
        rw [hbefore']
        refine and_congr_right fun hw => ⟨fun hx => hx.trans_le hef, fun hx => ?_⟩
        rcases (hsplit x).mp hx with hxe | ⟨h1, h2⟩
        · exact hxe
        · have hhead' := (hwins i x h1 h2).mp hw
          rw [hhead] at hhead'
          exact absurd (Option.some.inj hhead').symm hi

/-- The sweep as a whole, by induction on the events to come. -/
theorem isRuns_sweep {done rest : List (Event ℕ Key)} {st : Sweeping}
    (h : SweepInv cands done rest st) (i : ℕ) :
    IsRuns (Wins cands i) ((sweep st rest).won i) := by
  induction rest generalizing done st with
  | nil => exact (h.won i).congr fun x => by simp
  | cons e rest ih =>
    cases rest with
    | nil =>
      -- Nothing is covered after the last event.
      have hlast : ∀ x, Wins cands i x → x < e.pos := by
        intro x hw
        obtain ⟨c, hc, hx⟩ := hw.mem
        obtain ⟨sg, k, hkeyed, -, hxsg⟩ := exists_mem_keyed hc hx
        have hmem := stop_mem_events hkeyed
        rw [← h.active.split] at hmem
        rcases List.mem_append.mp hmem with hd | hd
        · exact hxsg.2.trans_le (h.active.pos_le _ hd e List.mem_cons_self)
        · obtain rfl := List.mem_singleton.mp hd
          exact hxsg.2
      show IsRuns (Wins cands i) (((st.event e).settle e.pos none).won i)
      rw [settle_won_none, event_won]
      refine (h.won i).congr fun x => ⟨fun hx => hx.1, fun hw => ⟨hw, fun g hg => ?_⟩⟩
      obtain rfl := List.mem_singleton.mp hg
      exact hlast x hw
    | cons f rest =>
      have hstep := ih (sweepInv_step hnested h)
      show IsRuns (Wins cands i) ((if f.pos = e.pos then sweep (st.event e) (f :: rest)
        else sweep ((st.event e).settle e.pos (some f.pos)) (f :: rest)).won i)
      by_cases hpos : f.pos = e.pos
      · simpa only [hpos, if_true] using hstep
      · simpa only [hpos, if_false] using hstep

/-- **The sweep gives every byte to its winner**: each candidate ends up with the maximal
runs of the bytes it wins. -/
theorem isRuns_won (i : ℕ) : IsRuns (Wins cands i)
    ((sweepAll cands).won i) :=
  isRuns_sweep hnested (sweepInv_start cands) i

end

/-! ### Notes change details only -/

/-- `c'` is `c` with other remarks. -/
def Noted (c c' : Cand) : Prop :=
  ∃ detail notes, c' = { c with detail := detail, notes := notes }

theorem Noted.refl (c : Cand) : Noted c c := by
  refine ⟨c.detail, c.notes, ?_⟩
  cases c
  rfl

theorem Noted.note {c c' : Cand} (h : Noted c c') (text : String) :
    Noted c (c'.note text) := by
  obtain ⟨detail, notes, rfl⟩ := h
  exact ⟨_, _, rfl⟩

theorem Noted.range_eq {c c' : Cand} (h : Noted c c') : c'.range = c.range := by
  obtain ⟨_, _, rfl⟩ := h
  rfl

theorem Noted.rankAt_eq {c c' : Cand} (h : Noted c c') (x : ℕ) :
    c'.rankAt x = c.rankAt x := by
  obtain ⟨_, _, rfl⟩ := h
  rw [Tiff.rankAt_eq, Tiff.rankAt_eq]
  rfl

theorem Noted.nested {c c' : Cand} (h : Noted c c') (hc : Nested c) : Nested c' := by
  obtain ⟨_, _, rfl⟩ := h
  exact ⟨hc.bodyIn, hc.disjoint, hc.childIn, hc.child⟩

/-- The lists agree up to remarks. -/
def NotedAll (cs cs' : List Cand) : Prop :=
  ∀ k : ℕ, Option.Rel Noted cs[k]? cs'[k]?

theorem NotedAll.refl (cs : List Cand) : NotedAll cs cs := by
  intro k
  cases cs[k]? with
  | none => exact .none
  | some c => exact .some (.refl c)

theorem NotedAll.modify {cs cs' : List Cand} (h : NotedAll cs cs') (i : ℕ) (text : String) :
    NotedAll cs (cs'.modify i fun c => c.note text) := by
  intro k
  rw [List.getElem?_modify]
  by_cases hik : i = k
  · have hk := h k
    revert hk
    cases cs[k]? <;> cases cs'[k]? <;> intro hk
    · exact .none
    · cases hk
    · cases hk
    · cases hk with
      | some hc => simpa [hik] using Option.Rel.some (hc.note text)
  · simpa [hik] using h k

theorem NotedAll.noteLoser {cs cs' : List Cand} (h : NotedAll cs cs') (st : Sweeping)
    (descs : ℕ → Option String) (loser : ℕ) :
    NotedAll cs (Tiff.noteLoser st descs cs' loser) := by
  have hfold : ∀ (winners : List ℕ) (text : String) (ds : List Cand), NotedAll cs ds →
      NotedAll cs (winners.foldl (fun cs wc => cs.modify wc fun c => c.note text) ds) := by
    intro winners text
    induction winners with
    | nil => exact fun _ hds => hds
    | cons w winners ih => exact fun ds hds => ih _ (hds.modify w text)
  rw [Tiff.noteLoser]
  cases descs loser with
  | none => exact h
  | some desc =>
    dsimp only
    split
    · exact (hfold _ _ _ h).modify _ _
    · exact hfold _ _ _ h

theorem NotedAll.foldl {cs cs' : List Cand} (h : NotedAll cs cs') (st : Sweeping)
    (descs : ℕ → Option String) (losers : List ℕ) :
    NotedAll cs (losers.foldl (Tiff.noteLoser st descs) cs') := by
  induction losers generalizing cs' with
  | nil => exact h
  | cons l losers ih => exact ih (h.noteLoser st descs l)

theorem NotedAll.exists_left {cs cs' : List Cand} (h : NotedAll cs cs') {k : ℕ} {c' : Cand}
    (hc : cs'[k]? = some c') : ∃ c, cs[k]? = some c ∧ Noted c c' := by
  have hk := h k
  rw [hc] at hk
  cases hcs : cs[k]? with
  | none => rw [hcs] at hk; cases hk
  | some c =>
    rw [hcs] at hk
    cases hk with
    | some hn => exact ⟨c, rfl, hn⟩

theorem NotedAll.exists_right {cs cs' : List Cand} (h : NotedAll cs cs') {k : ℕ} {c : Cand}
    (hc : cs[k]? = some c) : ∃ c', cs'[k]? = some c' ∧ Noted c c' := by
  have hk := h k
  rw [hc] at hk
  cases hcs : cs'[k]? with
  | none => rw [hcs] at hk; cases hk
  | some c' =>
    rw [hcs] at hk
    cases hk with
    | some hn => exact ⟨c', rfl, hn⟩

/-! ### Pieces -/

/-- A part that stands for the bytes of a piece past the cap. -/
structure IsUnknownGap (p : Cand) : Prop where
  kind : p.kind = .gap
  disp : p.disp = .unknown
  children : p.children = []
  body : p.body = none

theorem IsUnknownGap.nested {p : Cand} (h : IsUnknownGap p) : Nested p := by
  refine ⟨fun b hb => ?_, ?_, fun ch hch => ?_, fun ch hch => ?_⟩
  · rw [h.body] at hb
    cases hb
  · rw [h.children]
    exact List.Pairwise.nil
  · rw [h.children] at hch
    exact absurd hch List.not_mem_nil
  · rw [h.children] at hch
    exact absurd hch List.not_mem_nil

/-- `p` is the part of `c` for run `j`: `c` cut to it, or past the cap an unknown gap. -/
structure IsPiece (c p : Cand) (j : ℕ) : Prop where
  nested : Nested p
  rankAt_eq : j < maxPieces → ∀ x ∈ p.range, p.rankAt x = c.rankAt x
  gap : maxPieces ≤ j → IsUnknownGap p

section

variable {won : List (Span ℕ)} {others : ℕ} {desc : String} {c : Cand}
  (hin : ∀ r ∈ won, r.Nonempty ∧ r.Within c.range)
include hin

theorem pieces_map_range : (pieces won others desc c).map Cand.range = won := by
  rw [pieces]
  split
  · next heq => exact heq.symm
  · have hmap : ∀ (l : List (Span ℕ × ℕ)) (g : Span ℕ × ℕ → Option Cand),
        (∀ a ∈ l, ∃ p, g a = some p ∧ p.range = a.1) →
          (l.filterMap g).map Cand.range = l.map Prod.fst := by
      intro l g hg
      induction l with
      | nil => rfl
      | cons a l ih =>
        obtain ⟨⟨p, hp, hr⟩, hl⟩ := List.forall_mem_cons.mp hg
        rw [List.filterMap_cons_some hp, List.map_cons, List.map_cons, hr, ih hl]
    refine (hmap _ _ fun a ha => ?_).trans (List.zipIdx_map_fst 0 won)
    obtain ⟨hne, hwithin⟩ := hin a.1 (List.fst_mem_of_mem_zipIdx ha)
    rw [piece]
    by_cases hj : maxPieces ≤ a.2
    · exact ⟨_, if_pos hj, rfl⟩
    · have hinter : c.range.inter a.1 = a.1 := Span.inter_eq_right hwithin
      have hclip := clip_eq c a.1 false
      rw [hinter, if_pos hne] at hclip
      rw [if_neg hj, hclip]
      exact ⟨_, rfl, (clip_range hclip).trans hinter⟩

theorem exists_isPiece (hc : Nested c) {p : Cand} (hp : p ∈ pieces won others desc c) :
    ∃ j, won[j]? = some p.range ∧ IsPiece c p j := by
  rw [pieces] at hp
  split at hp
  · next heq =>
    obtain rfl := List.mem_singleton.mp hp
    exact ⟨0, by rw [heq]; rfl, hc, fun _ _ _ => rfl, fun h => absurd h (by decide)⟩
  · obtain ⟨⟨r, j⟩, hmem, hsome⟩ := List.mem_filterMap.mp hp
    have hget : won[j]? = some r := List.mk_mem_zipIdx_iff_getElem?.mp hmem
    rw [piece] at hsome
    by_cases hj : maxPieces ≤ j
    · rw [if_pos hj] at hsome
      obtain rfl := Option.some.inj hsome
      have hgap : IsUnknownGap (Cand.new r .gap .none .unknown
          s!"part of {desc}; not listed past {maxPieces} overlaps; the decoder may read it") :=
        ⟨rfl, rfl, rfl, rfl⟩
      exact ⟨j, hget, hgap.nested, fun h => absurd hj (not_le.mpr h), fun _ => hgap⟩
    · rw [if_neg hj] at hsome
      obtain ⟨q, hclip, rfl⟩ := Option.map_eq_some_iff.mp hsome
      have hrange : q.range = r :=
        (clip_range hclip).trans (Span.inter_eq_right (hin r (List.mem_of_getElem? hget)).2)
      refine ⟨j, by rw [Cand.note_range, hrange, hget], (hc.clip hclip).note _, ?_, ?_⟩
      · intro _ x hx
        rw [rankAt_note]
        exact rankAt_clip hc hclip hx
      · exact fun h => absurd h hj

end

/-! ### The resolved parts -/

/-- The parts are in order and disjoint and cover what the candidates cover; each part
lies in bytes one candidate wins, is a maximal run of them, and gives them the fate that
candidate gives them, or is an unknown gap when the candidate has `maxPieces` runs before
it. -/
structure Resolved (cands parts : List Cand) : Prop where
  separated : parts.Pairwise fun p q => p.range.stop ≤ q.range.start
  nonempty : ∀ p ∈ parts, p.range.Nonempty
  nested : ∀ p ∈ parts, Nested p
  cover : ∀ x, (∃ p ∈ parts, x ∈ p.range) ↔ ∃ c ∈ cands, x ∈ c.range
  fate : ∀ p ∈ parts, ∃ (i : ℕ) (c : Cand) (runs : List (Span ℕ)) (j : ℕ),
    cands[i]? = some c ∧ IsRuns (Wins cands i) runs ∧ runs[j]? = some p.range ∧
      (j < maxPieces → ∀ x ∈ p.range, p.rankAt x = c.rankAt x) ∧
      (maxPieces ≤ j → IsUnknownGap p)

/-- The runs of a candidate lie in its range. -/
theorem runs_within {i : ℕ} {c : Cand} (hc : cands[i]? = some c) {runs : List (Span ℕ)}
    (hruns : IsRuns (Wins cands i) runs) :
    ∀ r ∈ runs, r.Nonempty ∧ r.Within c.range := by
  intro r hr
  refine ⟨hruns.nonempty r hr, Span.within_of_subset (hruns.nonempty r hr) fun x hx => ?_⟩
  obtain ⟨d, hd, hxd⟩ := ((hruns.mem_iff x).mp ⟨r, hr, hx⟩).mem
  rw [hc] at hd
  exact (Option.some.inj hd) ▸ hxd

theorem notedAll_noted (cands : List Cand) : NotedAll cands (noted cands) :=
  (NotedAll.refl cands).foldl _ _ _

section

variable (hnested : ∀ c ∈ cands, Nested c)
include hnested

theorem exists_wins {c : Cand} (hc : c ∈ cands) {x : ℕ} (hx : x ∈ c.range) :
    ∃ i, Wins cands i x := by
  obtain ⟨i, hi⟩ := List.mem_iff_getElem?.mp hc
  obtain ⟨sg, k, hkeyed, -, hxsg⟩ := exists_mem_keyed hi hx
  obtain ⟨key, hbest⟩ := exists_isBest hkeyed hxsg
  exact ⟨_, wins_of_isBest hnested hbest⟩

/-- The runs a candidate won lie in it, also when it carries remarks. -/
theorem won_within {k : ℕ} {c c' : Cand} (hc : cands[k]? = some c) (hn : Noted c c') :
    ∀ r ∈ (sweepAll cands).won k, r.Nonempty ∧ r.Within c'.range := by
  rw [hn.range_eq]
  exact runs_within hc (isRuns_won hnested k)

theorem piecesOf_isPiece {k : ℕ} {c c' p : Cand} (hc : cands[k]? = some c)
    (hn : Noted c c') (hp : p ∈ piecesOf cands c' k) :
    ∃ j, ((sweepAll cands).won k)[j]? = some p.range ∧ IsPiece c' p j :=
  exists_isPiece (won_within hnested hc hn) (hn.nested (hnested c (List.mem_of_getElem? hc)))
    hp

/-- Where a part comes from. -/
theorem cutAll_isPiece {p : Cand} (h : p ∈ cutAll cands) : ∃ (k : ℕ) (c c' : Cand) (j : ℕ),
    cands[k]? = some c ∧ Noted c c' ∧ ((sweepAll cands).won k)[j]? = some p.range ∧
      IsPiece c' p j := by
  obtain ⟨⟨c', k⟩, hmem, hp⟩ := List.mem_flatMap.mp h
  obtain ⟨c, hc, hn⟩ := (notedAll_noted cands).exists_left
    (List.mk_mem_zipIdx_iff_getElem?.mp hmem)
  obtain ⟨j, hj, hpiece⟩ := piecesOf_isPiece hnested hc hn hp
  exact ⟨k, c, c', j, hc, hn, hj, hpiece⟩

/-- The bytes of a part are won by the candidate it comes from. -/
theorem wins_of_run {k j : ℕ} {r : Span ℕ} (h : ((sweepAll cands).won k)[j]? = some r)
    {x : ℕ} (hx : x ∈ r) : Wins cands k x :=
  ((isRuns_won hnested k).mem_iff x).mp ⟨r, List.mem_of_getElem? h, hx⟩

theorem cutAll_nonempty : ∀ p ∈ cutAll cands, p.range.Nonempty := by
  intro p hp
  obtain ⟨k, c, c', j, -, -, hj, -⟩ := cutAll_isPiece hnested hp
  exact (isRuns_won hnested k).nonempty _ (List.mem_of_getElem? hj)

theorem cutAll_disjoint :
    (cutAll cands).Pairwise fun p q => p.range.Disjoint q.range := by
  have hget : ∀ {d : Cand × ℕ}, d ∈ (noted cands).zipIdx →
      ∃ c, cands[d.2]? = some c ∧ Noted c d.1 := fun hd =>
    (notedAll_noted cands).exists_left (List.mk_mem_zipIdx_iff_getElem?.mp hd)
  refine List.pairwise_flatMap.mpr ⟨fun d hd => ?_, ?_⟩
  · -- Runs of one candidate are apart.
    obtain ⟨c, hc, hn⟩ := hget hd
    have happart := (isRuns_won hnested d.2).apart
    have hmap : (piecesOf cands d.1 d.2).map Cand.range = (sweepAll cands).won d.2 :=
      pieces_map_range (won_within hnested hc hn)
    rw [← hmap, List.pairwise_map] at happart
    exact happart.imp fun hlt => Span.disjoint_of_stop_le hlt.le
  · -- A byte in runs of two candidates would have two winners.
    have hidx : ((noted cands).zipIdx.map Prod.snd).Nodup := by
      rw [List.zipIdx_map_snd]
      exact List.nodup_range'
    rw [List.Nodup, List.pairwise_map] at hidx
    refine hidx.imp_of_mem fun {a b} ha hb hab p hp q hq x hxp hxq => hab ?_
    obtain ⟨c, hc, hn⟩ := hget ha
    obtain ⟨d, hd, hn'⟩ := hget hb
    obtain ⟨i, hi, -⟩ := piecesOf_isPiece hnested hc hn hp
    obtain ⟨j, hj, -⟩ := piecesOf_isPiece hnested hd hn' hq
    exact (wins_of_run hnested hi hxp).unique (wins_of_run hnested hj hxq)

theorem mem_cutAll_iff (x : ℕ) :
    (∃ p ∈ cutAll cands, x ∈ p.range) ↔ ∃ c ∈ cands, x ∈ c.range := by
  constructor
  · rintro ⟨p, hp, hx⟩
    obtain ⟨k, c, c', j, -, -, hj, -⟩ := cutAll_isPiece hnested hp
    obtain ⟨d, hd, hxd⟩ := (wins_of_run hnested hj hx).mem
    exact ⟨d, List.mem_of_getElem? hd, hxd⟩
  · rintro ⟨c, hc, hx⟩
    obtain ⟨k, hw⟩ := exists_wins hnested hc hx
    obtain ⟨d, hd, -⟩ := hw.mem
    obtain ⟨r, hr, hxr⟩ := ((isRuns_won hnested k).mem_iff x).mpr hw
    obtain ⟨d', hd', hn⟩ := (notedAll_noted cands).exists_right hd
    have hmap : (piecesOf cands d' k).map Cand.range = (sweepAll cands).won k :=
      pieces_map_range (won_within hnested hd hn)
    rw [← hmap] at hr
    obtain ⟨p, hp, rfl⟩ := List.mem_map.mp hr
    exact ⟨p, List.mem_flatMap.mpr ⟨(d', k), List.mk_mem_zipIdx_iff_getElem?.mpr hd', hp⟩, hxr⟩

/-- **Overlap resolution keeps the strongest fate.** -/
theorem intoSorted_nested : Resolved cands (intoSorted cands) where
  separated := by
    have hperm : (intoSorted cands).Perm (cutAll cands) := sortBy_perm _ _
    have hsymm : Std.Symm fun p q : Cand => p.range.Disjoint q.range :=
      ⟨fun _ _ h => h.symm⟩
    have hdisj : ((intoSorted cands).map Cand.range).Pairwise Span.Disjoint :=
      List.pairwise_map.mpr ((hperm.pairwise_iff fun h => h.symm).mpr
        (cutAll_disjoint hnested))
    have hsort : ((intoSorted cands).map Cand.range).Pairwise fun s t => s.start ≤ t.start :=
      List.pairwise_map.mpr (sortBy_sorted (fun c : Cand => c.range.start) _)
    have hne : ∀ s ∈ (intoSorted cands).map Cand.range, s.Nonempty := by
      intro s hs
      obtain ⟨p, hp, rfl⟩ := List.mem_map.mp hs
      exact cutAll_nonempty hnested p (hperm.mem_iff.mp hp)
    exact List.pairwise_map.mp ((separated_iff hne hsort).mpr hdisj)
  nonempty := fun p hp => cutAll_nonempty hnested p (mem_sortBy.mp hp)
  nested := fun p hp => by
    obtain ⟨_, _, _, _, -, -, -, hpiece⟩ := cutAll_isPiece hnested (mem_sortBy.mp hp)
    exact hpiece.nested
  cover := fun x => by
    rw [← mem_cutAll_iff hnested x]
    simp only [intoSorted, mem_sortBy]
  fate := fun p hp => by
    obtain ⟨k, c, c', j, hc, hn, hj, hpiece⟩ := cutAll_isPiece hnested (mem_sortBy.mp hp)
    refine ⟨k, c, _, j, hc, isRuns_won hnested k, hj, fun hlt x hx => ?_, hpiece.gap⟩
    rw [hpiece.rankAt_eq hlt x hx, hn.rankAt_eq]

end

/-- Inserting non-empty candidates keeps them all, in order. -/
theorem foldl_insert {cs acc : List Cand} (h : ∀ c ∈ cs, c.range.Nonempty) :
    cs.foldl insert acc = acc ++ cs := by
  induction cs generalizing acc with
  | nil => rw [List.foldl_nil, List.append_nil]
  | cons c cs ih =>
    obtain ⟨hc, hcs⟩ := List.forall_mem_cons.mp h
    have hins : insert acc c = acc ++ [c] := if_pos hc
    rw [List.foldl_cons, hins, ih hcs, List.append_assoc, List.singleton_append]

/-- The parts of the candidates handed to the resolution. -/
theorem intoSorted_resolved (cs : List Cand) (hne : ∀ c ∈ cs, c.range.Nonempty)
    (hnested : ∀ c ∈ cs, Nested c) : Resolved cs (intoSorted (cs.foldl insert [])) := by
  rw [foldl_insert hne, List.nil_append]
  exact intoSorted_nested hnested

/-- A table with an unread child, and metadata over both. -/
def overlapping : List Cand :=
  [{ Cand.new ⟨0, 10⟩ .ifd .none .structure "table" with
      children := [Cand.new ⟨2, 4⟩ .field .none .skipped "entry"] },
    Cand.new ⟨3, 6⟩ .field .none (.metadata .exif) "value"]

theorem Nested.leaf (range : Span ℕ) (kind : PartKind) (tag : PartTag) (disp : Disposition)
    (detail : String) : Nested (Cand.new range kind tag disp detail) := by
  refine ⟨fun b hb => ?_, List.Pairwise.nil, fun ch hch => ?_, fun ch hch => ?_⟩
  · cases hb
  · exact absurd hch List.not_mem_nil
  · exact absurd hch List.not_mem_nil

theorem overlapping_nested : ∀ c ∈ overlapping, Nested c := by
  have hentry := Nested.leaf ⟨2, 4⟩ .field .none .skipped "entry"
  have hvalue := Nested.leaf ⟨3, 6⟩ .field .none (.metadata .exif) "value"
  refine List.forall_mem_cons.mpr ⟨⟨fun b hb => ?_, List.pairwise_singleton _ _, ?_, ?_⟩, ?_⟩
  · cases hb
  · exact List.forall_mem_singleton.mpr (by decide)
  · exact List.forall_mem_singleton.mpr hentry
  · exact List.forall_mem_singleton.mpr hvalue

theorem intoSorted_resolved_overlapping :
    (intoSorted (overlapping.foldl insert [])).map Cand.range = [⟨0, 3⟩, ⟨3, 6⟩, ⟨6, 10⟩] ∧
      Resolved overlapping (intoSorted (overlapping.foldl insert [])) :=
  ⟨by decide, intoSorted_resolved overlapping (by decide) overlapping_nested⟩

/-- Image data that declares a body past its end, under metadata and a malformed byte. -/
def strayBody : List Cand :=
  [{ Cand.new ⟨0, 4⟩ .extent .none .imageData "strip" with body := some ⟨2, 8⟩ },
    Cand.new ⟨0, 1⟩ .field .none (.metadata .exif) "value",
    Cand.new ⟨2, 3⟩ .field .none .malformed "value"]

/-- A body that does not lie in its part is ignored by the sweep, and becomes one when the
part is cut: byte 2 ends up with the rank of a gap, below every rank it was given. -/
theorem intoSorted_strayBody :
    (∀ c ∈ strayBody, c.range.Nonempty ∧ c.children.length = 0) ∧
      strayBody.map (fun c => c.rankAt 2) = [some 5, none, some 4] ∧
      (intoSorted (strayBody.foldl insert [])).map (fun p => (p.range, p.rankAt 2)) =
        [(⟨0, 1⟩, none), (⟨1, 4⟩, some 1)] := by
  refine ⟨by decide, by decide, by decide⟩

end Tiff

end Zencodec
