/-
Runs in order, and the store as a set of positions.

* `Segments.Ordered` — runs are not empty, and each ends before the next begins;
* `Segments.Holds` — the positions that are held; a lookup finds nothing exactly where nothing is
  held, and a gap is a stretch of such positions;
* `InputStore.WellFormed` — what every operation of the store keeps.
-/
import Zencodec.Coroutine.Store

namespace Zencodec.Coroutine

namespace Segments

/-- Some run holds a position. -/
def Holds (segments : List Segment) (pos : ℕ) : Prop :=
  ∃ s ∈ segments, s.start ≤ pos ∧ pos < s.stop

structure Ordered (segments : List Segment) : Prop where
  apart : segments.Pairwise fun s t => s.stop ≤ t.start
  nonempty : ∀ s ∈ segments, s.data ≠ []

variable {segments : List Segment} {pos : ℕ}

theorem Ordered.start_lt (h : Ordered segments) {s : Segment} (hs : s ∈ segments) :
    s.start < s.stop := by
  have hlen := List.length_pos_of_ne_nil (h.nonempty s hs)
  unfold Segment.stop
  omega

theorem Ordered.tail {s : Segment} (h : Ordered (s :: segments)) : Ordered segments :=
  ⟨h.apart.of_cons, fun t ht => h.nonempty t (List.mem_cons_of_mem s ht)⟩

/-- The first run ends before the others begin. -/
theorem Ordered.head {s : Segment} (h : Ordered (s :: segments)) :
    ∀ t ∈ segments, s.stop ≤ t.start :=
  (List.pairwise_cons.mp h.apart).1

theorem Ordered.cons {s : Segment} (h : Ordered segments) (hs : s.data ≠ [])
    (hstop : ∀ t ∈ segments, s.stop ≤ t.start) : Ordered (s :: segments) := by
  refine ⟨List.pairwise_cons.mpr ⟨hstop, h.apart⟩, fun t ht => ?_⟩
  rcases List.mem_cons.mp ht with rfl | ht
  · exact hs
  · exact h.nonempty t ht

/-! ### Lookups -/

theorem covering_none : covering segments pos = none ↔ ¬ Holds segments pos := by
  simp only [covering, List.find?_eq_none, Holds, Bool.and_eq_true, decide_eq_true_eq, not_exists,
    not_and]

theorem segmentAt_none (h : Ordered segments) :
    segmentAt segments pos = none ↔ ¬ Holds segments pos := by
  rw [segmentAt, Option.filter_eq_none_iff]
  refine ⟨fun hlast hholds => ?_, fun hno s hs => ?_⟩
  · obtain ⟨s, hs, hstart, hstop⟩ := hholds
    have hmem : s ∈ segments.filter fun t => t.start ≤ pos :=
      List.mem_filter.mpr ⟨hs, decide_eq_true hstart⟩
    obtain ⟨l, hl⟩ := Option.isSome_iff_exists.mp
      (List.getLast?_isSome.mpr (List.ne_nil_of_mem hmem))
    have hlow := hlast l hl
    obtain ⟨before, hbefore⟩ := List.getLast?_eq_some_iff.mp hl
    have hpair := h.apart.filter fun t => decide (t.start ≤ pos)
    rw [hbefore] at hpair hmem
    have hlstart : l.start ≤ pos := by
      have hl' : l ∈ segments.filter fun t => t.start ≤ pos := by rw [hbefore]; simp
      exact of_decide_eq_true (List.mem_filter.mp hl').2
    -- the last run is this one, or begins after it
    rcases List.mem_append.mp hmem with hmem | hmem
    · have hstop' := (List.pairwise_append.mp hpair).2.2 s hmem l (List.mem_singleton_self l)
      omega
    · rw [List.mem_singleton.mp hmem] at hstop
      exact hlow (decide_eq_true hstop)
  · obtain ⟨hs', hstart⟩ := List.mem_filter.mp (List.mem_of_getLast? hs)
    rw [decide_eq_true_eq] at hstart
    exact fun hstop => hno ⟨s, hs', hstart, of_decide_eq_true hstop⟩

/-- The next run begins first of those from a position on. -/
theorem next_le (h : Ordered segments) {s t : Segment} (hnext : next segments pos = some t)
    (hs : s ∈ segments) (hpos : pos ≤ s.start) : t.start ≤ s.start := by
  induction segments with
  | nil => cases hs
  | cons u rest ih =>
    rw [next, List.find?_cons] at hnext
    by_cases hu : pos ≤ u.start
    · rw [decide_eq_true hu] at hnext
      obtain rfl := Option.some.inj hnext
      rcases List.mem_cons.mp hs with rfl | hs
      · exact Nat.le_refl _
      · have hlt := h.start_lt List.mem_cons_self
        have hle := h.head s hs
        omega
    · rw [decide_eq_false hu] at hnext
      rcases List.mem_cons.mp hs with rfl | hs
      · exact absurd hpos hu
      · exact ih h.tail hnext hs

theorem next_mem {t : Segment} (hnext : next segments pos = some t) :
    t ∈ segments ∧ pos ≤ t.start := by
  refine ⟨List.mem_of_find?_eq_some hnext, ?_⟩
  simpa using List.find?_some hnext

/-- The run after a position that is not held begins beyond it. -/
theorem lt_next (h : Ordered segments) (hno : ¬ Holds segments pos) {t : Segment}
    (hnext : next segments pos = some t) : pos < t.start := by
  obtain ⟨ht, hle⟩ := next_mem hnext
  refine Nat.lt_of_le_of_ne hle fun heq => hno ⟨t, ht, Nat.le_of_eq heq.symm, ?_⟩
  rw [heq]
  exact h.start_lt ht

/-! ### Gaps -/

variable {lookup : ℕ → Option Segment}

/-- A lookup that finds a run exactly where there is one. -/
structure Finds (segments : List Segment) (lookup : ℕ → Option Segment) : Prop where
  none_iff : ∀ p, lookup p = none ↔ ¬ Holds segments p
  sound : ∀ p s, lookup p = some s → s ∈ segments ∧ s.start ≤ p ∧ p < s.stop

theorem finds_covering (segments : List Segment) : Finds segments (covering segments) := by
  refine ⟨fun p => covering_none, fun p s hs => ⟨List.mem_of_find?_eq_some hs, ?_⟩⟩
  simpa using List.find?_some hs

theorem finds_segmentAt (h : Ordered segments) : Finds segments (segmentAt segments) := by
  refine ⟨fun p => segmentAt_none h, fun p s hs => ?_⟩
  obtain ⟨hlast, hstop⟩ := Option.filter_eq_some_iff.mp hs
  obtain ⟨hmem, hstart⟩ := List.mem_filter.mp (List.mem_of_getLast? hlast)
  exact ⟨hmem, of_decide_eq_true hstart, of_decide_eq_true hstop⟩

theorem gap_not_held (h : Ordered segments) (hno : ¬ Holds segments pos) {p : ℕ} (hp : pos ≤ p)
    (hnext : ∀ t, next segments pos = some t → p < t.start) : ¬ Holds segments p := by
  rintro ⟨s, hs, hstart, hstop⟩
  by_cases hbefore : s.start ≤ pos
  · exact hno ⟨s, hs, hbefore, by omega⟩
  · cases hn : next segments pos with
    | none =>
      have hall := List.find?_eq_none.mp hn s hs
      exact hall (decide_eq_true (by omega))
    | some t =>
      have hlt := hnext t hn
      have hle := next_le h hn hs (by omega)
      omega

/-- Every gap is a stretch of positions that are not held. -/
theorem missing_not_held (h : Ordered segments) (hfinds : Finds segments lookup) {stop fuel : ℕ}
    {gap : ℕ × ℕ} (hgap : gap ∈ missing segments lookup stop fuel pos) :
    0 < gap.2 ∧ gap.1 + gap.2 ≤ stop ∧
      ∀ p, gap.1 ≤ p → p < gap.1 + gap.2 → ¬ Holds segments p := by
  induction fuel generalizing pos with
  | zero => cases hgap
  | succ fuel ih =>
    rw [missing] at hgap
    split at hgap
    · cases hgap
    · next hlt =>
      split at hgap
      · exact ih hgap
      · next hnone =>
        have hno := (hfinds.none_iff pos).mp hnone
        rcases List.mem_cons.mp hgap with rfl | hgap
        · -- the gap goes to the next run, or to the end
          dsimp only
          cases hn : next segments pos with
          | none =>
            simp only [Option.elim_none]
            refine ⟨by omega, by omega, fun p hp _ => ?_⟩
            exact gap_not_held h hno hp fun t ht => by rw [hn] at ht; cases ht
          | some t =>
            have hbeyond := lt_next h hno hn
            simp only [Option.elim_some]
            refine ⟨by omega, by omega, fun p hp hend => ?_⟩
            refine gap_not_held h hno hp fun t' ht' => ?_
            rw [hn] at ht'
            obtain rfl := Option.some.inj ht'
            omega
        · exact ih hgap

/-- Where a read is not possible there is a gap. -/
theorem missing_ne_nil {stop fuel : ℕ} (hread : read lookup stop fuel pos = none) :
    missing segments lookup stop fuel pos ≠ [] := by
  induction fuel generalizing pos with
  | zero => cases hread
  | succ fuel ih =>
    rw [read] at hread
    rw [missing]
    split at hread
    · cases hread
    · next hlt =>
      rw [if_neg hlt]
      cases hlookup : lookup pos with
      | none => exact List.cons_ne_nil _ _
      | some s =>
        rw [hlookup] at hread
        exact ih (Option.map_eq_none_iff.mp hread)

/-- From a position that is not held, nothing is skipped. -/
theorem skipHeld_eq (hno : lookup pos = none) (stop fuel : ℕ) :
    skipHeld lookup stop fuel pos = pos := by
  cases fuel with
  | zero => rfl
  | succ fuel =>
    rw [skipHeld, hno]
    split <;> rfl

/-- What is skipped ends at a position that is not held, or at the end. -/
theorem skipHeld_not_held (hfinds : Finds segments lookup) (pos stop : ℕ) {fuel : ℕ}
    (hfuel : segments.countP (fun s => pos < s.stop) ≤ fuel) :
    stop ≤ skipHeld lookup stop fuel pos ∨ ¬ Holds segments (skipHeld lookup stop fuel pos) := by
  induction fuel generalizing pos with
  | zero =>
    refine .inr fun hholds => ?_
    obtain ⟨s, hs, -, hstop⟩ := hholds
    have hnone := List.countP_eq_zero.mp (Nat.le_zero.mp hfuel) s hs
    exact hnone (decide_eq_true hstop)
  | succ fuel ih =>
    rw [skipHeld]
    split
    · next hle => exact .inl hle
    · cases hlookup : lookup pos with
      | none => exact .inr ((hfinds.none_iff pos).mp hlookup)
      | some s =>
        obtain ⟨hs, hstart, hstop⟩ := hfinds.sound pos s hlookup
        refine ih s.stop (Nat.le_of_lt_succ (Nat.lt_of_lt_of_le ?_ hfuel))
        -- the run itself is behind
        obtain ⟨before, after, rfl⟩ := List.append_of_mem hs
        rw [List.countP_append, List.countP_append,
          List.countP_cons_of_neg (by simp), List.countP_cons_of_pos (by simpa using hstop)]
        have hmono : ∀ l : List Segment,
            l.countP (fun t => s.stop < t.stop) ≤ l.countP fun t => pos < t.stop := by
          intro l
          refine List.countP_mono_left fun t _ ht => ?_
          rw [decide_eq_true_eq] at ht ⊢
          omega
        have hbefore := hmono before
        have hafter := hmono after
        omega

/-! ### Inserting and removing -/

/-- The positions from `pos` on that `n` new bytes take up are free. -/
def Fits (segments : List Segment) (pos n : ℕ) : Prop :=
  ∀ s ∈ segments, s.stop ≤ pos ∨ pos + n ≤ s.start

/-- New bytes at a position that is not held fit up to the next run. -/
theorem fits_of_next (h : Ordered segments) (hno : ¬ Holds segments pos) {n : ℕ}
    (hn : ∀ t, next segments pos = some t → pos + n ≤ t.start) : Fits segments pos n := by
  intro s hs
  by_cases hbefore : s.start ≤ pos
  · refine .inl (Nat.le_of_not_lt fun hstop => hno ⟨s, hs, hbefore, hstop⟩)
  · cases hnext : next segments pos with
    | none => exact absurd (decide_eq_true (by omega)) (List.find?_eq_none.mp hnext s hs)
    | some t =>
      have hle := next_le h hnext hs (by omega)
      have hroom := hn t hnext
      omega

theorem fits_take (h : Ordered segments) (hno : ¬ Holds segments pos) {bytes : List UInt8} {n : ℕ}
    (hn : n ≤ upToNext segments pos bytes.length) : Fits segments pos (bytes.take n).length := by
  rw [List.length_take]
  refine fits_of_next h hno fun t ht => ?_
  have hlt := lt_next h hno ht
  rw [upToNext, ht, Option.elim_some] at hn
  omega

/-- Before the next run there is room for a byte. -/
theorem upToNext_pos (h : Ordered segments) (hno : ¬ Holds segments pos) {len : ℕ} (hlen : 0 < len) :
    0 < upToNext segments pos len := by
  unfold upToNext
  cases ht : next segments pos with
  | none =>
    rw [Option.elim_none]
    omega
  | some t =>
    have hlt := lt_next h hno ht
    rw [Option.elim_some]
    omega

theorem Fits.tail {s : Segment} {n : ℕ} (h : Fits (s :: segments) pos n) : Fits segments pos n :=
  fun t ht => h t (List.mem_cons_of_mem s ht)

variable {bytes : List UInt8}

/-- A run that ends at the position takes the bytes. -/
theorem Ordered.extend {s : Segment} (h : Ordered (s :: segments)) (hstop : s.stop = pos)
    (hbytes : bytes ≠ []) (hfits : Fits segments pos bytes.length) :
    Ordered (⟨s.start, s.data ++ bytes⟩ :: segments) := by
  refine h.tail.cons (by simp [hbytes]) fun t ht => ?_
  have hlt := h.tail.start_lt ht
  have hle := h.head t ht
  have hroom := hfits t ht
  unfold Segment.stop at *
  rw [List.length_append]
  show s.start + (s.data.length + bytes.length) ≤ t.start
  omega

/-- Bytes before all runs. -/
theorem Ordered.before {s : Segment} (h : Ordered (s :: segments)) (hbytes : bytes ≠ [])
    (hpos : pos ≤ s.start) (hfits : Fits (s :: segments) pos bytes.length) :
    Ordered (⟨pos, bytes⟩ :: s :: segments) := by
  refine h.cons hbytes fun t ht => ?_
  have hlt := h.start_lt ht
  have hle : s.start ≤ t.start := by
    rcases List.mem_cons.mp ht with rfl | ht
    · exact Nat.le_refl _
    · have hs := h.start_lt List.mem_cons_self
      have hbefore := h.head t ht
      omega
  have hroom := hfits t ht
  show pos + bytes.length ≤ t.start
  omega

theorem start_place {t : Segment} (ht : t ∈ place pos bytes segments) :
    t.start = pos ∨ ∃ u ∈ segments, t.start = u.start := by
  induction segments with
  | nil => exact .inl (by rw [List.mem_singleton.mp ht])
  | cons s rest ih =>
    rw [place] at ht
    split at ht
    · rcases List.mem_cons.mp ht with rfl | ht
      · exact .inr ⟨s, List.mem_cons_self, rfl⟩
      · exact .inr ⟨t, List.mem_cons_of_mem s ht, rfl⟩
    · split at ht
      · rcases List.mem_cons.mp ht with rfl | ht
        · exact .inr ⟨t, List.mem_cons_self, rfl⟩
        · exact (ih ht).imp id fun hu => hu.imp fun u hu => ⟨List.mem_cons_of_mem s hu.1, hu.2⟩
      · rcases List.mem_cons.mp ht with rfl | ht
        · exact .inl rfl
        · exact .inr ⟨t, ht, rfl⟩

theorem ordered_place (h : Ordered segments) (hbytes : bytes ≠ [])
    (hfits : Fits segments pos bytes.length) : Ordered (place pos bytes segments) := by
  induction segments with
  | nil => exact h.cons hbytes fun t ht => by cases ht
  | cons s rest ih =>
    rw [place]
    split
    · next hstop => exact h.extend hstop hbytes hfits.tail
    · split
      · next hstart =>
        refine (ih h.tail hfits.tail).cons (h.nonempty s List.mem_cons_self) fun t ht => ?_
        have hroom := hfits s List.mem_cons_self
        rcases start_place ht with heq | ⟨u, hu, heq⟩
        · omega
        · have hle := h.head u hu
          omega
      · next hstart => exact h.before hbytes (by omega) hfits

theorem ordered_join {s : Segment} (h : Ordered (s :: segments)) : Ordered (join s segments) := by
  cases segments with
  | nil => exact h
  | cons t rest =>
    rw [join]
    split
    · next hstop =>
      refine h.tail.tail.cons (by simp [h.nonempty s List.mem_cons_self]) fun u hu => ?_
      have hle := h.tail.head u hu
      unfold Segment.stop at *
      rw [List.length_append]
      dsimp only at *
      omega
    · exact h

theorem start_join {s t : Segment} (ht : t ∈ join s segments) :
    t.start = s.start ∨ ∃ u ∈ segments, t.start = u.start := by
  cases segments with
  | nil => exact .inl (by rw [List.mem_singleton.mp ht])
  | cons u rest =>
    rw [join] at ht
    split at ht
    · rcases List.mem_cons.mp ht with rfl | ht
      · exact .inl rfl
      · exact .inr ⟨t, List.mem_cons_of_mem u ht, rfl⟩
    · rcases List.mem_cons.mp ht with rfl | ht
      · exact .inl rfl
      · exact .inr ⟨t, ht, rfl⟩

theorem start_placeJoined {t : Segment} (ht : t ∈ placeJoined pos bytes segments) :
    t.start = pos ∨ ∃ u ∈ segments, t.start = u.start := by
  induction segments with
  | nil => exact .inl (by rw [List.mem_singleton.mp ht])
  | cons s rest ih =>
    rw [placeJoined] at ht
    split at ht
    · rcases start_join ht with heq | ⟨u, hu, heq⟩
      · exact .inr ⟨s, List.mem_cons_self, heq⟩
      · exact .inr ⟨u, List.mem_cons_of_mem s hu, heq⟩
    · split at ht
      · rcases List.mem_cons.mp ht with rfl | ht
        · exact .inr ⟨t, List.mem_cons_self, rfl⟩
        · exact (ih ht).imp id fun hu => hu.imp fun u hu => ⟨List.mem_cons_of_mem s hu.1, hu.2⟩
      · exact start_join ht

theorem ordered_placeJoined (h : Ordered segments) (hbytes : bytes ≠ [])
    (hfits : Fits segments pos bytes.length) : Ordered (placeJoined pos bytes segments) := by
  induction segments with
  | nil => exact h.cons hbytes fun t ht => by cases ht
  | cons s rest ih =>
    rw [placeJoined]
    split
    · next hstop => exact ordered_join (h.extend hstop hbytes hfits.tail)
    · split
      · next hstart =>
        refine (ih h.tail hfits.tail).cons (h.nonempty s List.mem_cons_self) fun t ht => ?_
        have hroom := hfits s List.mem_cons_self
        rcases start_placeJoined ht with heq | ⟨u, hu, heq⟩
        · omega
        · have hle := h.head u hu
          omega
      · next hstart => exact ordered_join (h.before hbytes (by omega) hfits)

/-- What is left of a run lies inside it. -/
theorem mem_cut {lo hi : ℕ} {s t : Segment} (hs : s.data ≠ []) (ht : t ∈ cut lo hi s) :
    t.data ≠ [] ∧ s.start ≤ t.start ∧ t.stop ≤ s.stop := by
  have hlen := List.length_pos_of_ne_nil hs
  unfold cut at ht
  dsimp only at ht
  split at ht
  · rw [List.mem_singleton.mp ht]
    exact ⟨hs, Nat.le_refl _, Nat.le_refl _⟩
  · next hcut =>
    unfold Segment.stop at *
    rcases List.mem_append.mp ht with ht | ht
    · split at ht
      · cases ht
      · rw [List.mem_singleton.mp ht]
        refine ⟨List.ne_nil_of_length_pos ?_, Nat.le_refl _, ?_⟩
        · rw [List.length_take]
          omega
        · rw [List.length_take]
          dsimp only
          omega
    · split at ht
      · cases ht
      · rw [List.mem_singleton.mp ht]
        refine ⟨List.ne_nil_of_length_pos ?_, ?_, ?_⟩
        · rw [List.length_drop]
          omega
        · dsimp only
          omega
        · rw [List.length_drop]
          dsimp only
          omega

theorem apart_cut (lo hi : ℕ) (s : Segment) :
    (cut lo hi s).Pairwise fun t u => t.stop ≤ u.start := by
  unfold cut
  dsimp only
  split
  · exact List.pairwise_singleton _ _
  · next hcut =>
    refine List.pairwise_append.mpr ⟨?_, ?_, fun t ht u hu => ?_⟩
    · split
      · exact .nil
      · exact List.pairwise_singleton _ _
    · split
      · exact .nil
      · exact List.pairwise_singleton _ _
    · split at ht
      · cases ht
      · split at hu
        · cases hu
        · rw [List.mem_singleton.mp ht, List.mem_singleton.mp hu]
          unfold Segment.stop at *
          rw [List.length_take]
          dsimp only
          omega

theorem ordered_cut (h : Ordered segments) (lo hi : ℕ) :
    Ordered (segments.flatMap (cut lo hi)) := by
  refine ⟨List.pairwise_flatMap.mpr ⟨fun s _ => apart_cut lo hi s, ?_⟩, fun t ht => ?_⟩
  · refine (List.Pairwise.and_mem.mp h.apart).imp ?_
    intro s u hsu t ht v hv
    have hbelow := (mem_cut (h.nonempty s hsu.1) ht).2.2
    have habove := (mem_cut (h.nonempty u hsu.2.1) hv).2.1
    have hbetween := hsu.2.2
    omega
  · obtain ⟨s, hs, ht⟩ := List.mem_flatMap.mp ht
    exact (mem_cut (h.nonempty s hs) ht).1

end Segments

/-! ### The admitted store -/

theorem checkedEnd_eq {offset len stop : ℕ} (h : checkedEnd offset len = .ok stop) :
    stop = offset + len := by
  unfold checkedEnd at h
  split at h
  · exact (Except.ok.inj h).symm
  · cases h

namespace AdmittedInput

open Segments

variable {a a' : AdmittedInput}

theorem ordered_release (h : Ordered a.spans) {lo hi : ℕ} (hr : a.release lo hi = .ok a') :
    Ordered a'.spans ∧ a'.size = a.size := by
  unfold release at hr
  split at hr
  · cases hr
    exact ⟨h, rfl⟩
  · split at hr
    · cases hr
    · cases hr
      exact ⟨ordered_cut h lo hi, rfl⟩

/-- A prefix splits no run. -/
theorem release_zero (a : AdmittedInput) (hi : ℕ) : ∃ a', a.release 0 hi = .ok a' := by
  unfold release
  split
  · exact ⟨a, rfl⟩
  · rw [if_neg (by simp)]
    exact ⟨_, rfl⟩

theorem ordered_feed (h : Ordered a.spans) {offset n : ℕ} {bytes : List UInt8}
    (hf : a.feed offset bytes = .ok (n, a')) : Ordered a'.spans ∧ a'.size = a.size := by
  unfold feed at hf
  cases hend : checkedEnd offset bytes.length with
  | error e =>
    rw [hend] at hf
    cases hf
  | ok stop =>
    simp only [hend, bind, Except.bind] at hf
    split at hf
    · cases hf
      exact ⟨h, rfl⟩
    · next hskip =>
      split at hf
      · cases hf
        exact ⟨h, rfl⟩
      · next htake =>
        split at hf
        · cases hf
        · cases hf
          refine ⟨?_, rfl⟩
          have hstop : stop = offset + bytes.length := checkedEnd_eq hend
          have hskipped := skipHeld_not_held (finds_covering a.spans) offset stop
            List.countP_le_length
          generalize hstart : min stop (skipHeld (covering a.spans) stop a.spans.length offset) =
            start at *
          have hno : ¬ Segments.Holds a.spans start := by
            rw [show skipHeld (covering a.spans) stop a.spans.length offset = start by omega]
              at hskipped
            exact hskipped.resolve_left (by omega)
          refine ordered_placeJoined h (List.ne_nil_of_length_pos ?_) (fits_take h hno ?_)
          · rw [List.length_take, List.length_drop]
            have hle : upToNext a.spans start (bytes.length - (start - offset)) ≤ _ :=
              Nat.min_le_right _ _
            omega
          · rw [List.length_drop]
            exact Nat.min_le_left _ _

end AdmittedInput

/-! ### The store -/

namespace InputStore

open Segments

/-- What every operation of the store keeps. -/
structure WellFormed (s : InputStore) : Prop where
  segments : Ordered s.segments
  admitted : ∀ a, s.admitted = some a → Ordered a.spans ∧ a.size = s.cap

/-- A position is held by the store in use. -/
def Holds (s : InputStore) (pos : ℕ) : Prop := Segments.Holds s.runs pos

variable {s : InputStore}

theorem WellFormed.runs (h : s.WellFormed) : Ordered s.runs := by
  unfold InputStore.runs
  cases hadmitted : s.admitted with
  | none => exact h.segments
  | some a => exact (h.admitted a hadmitted).1

theorem WellFormed.finds (h : s.WellFormed) : Finds s.runs s.lookup := by
  unfold InputStore.runs InputStore.lookup
  cases s.admitted with
  | none => exact finds_segmentAt h.segments
  | some a => exact finds_covering a.spans

theorem ordered_nil : Ordered [] := ⟨.nil, fun s hs => by cases hs⟩

theorem wellFormed_new (cap : ℕ) : (new cap).WellFormed :=
  ⟨ordered_nil, fun a ha => by cases ha⟩

theorem wellFormed_withStorage (cap : ℕ) : (withStorage cap).WellFormed := by
  refine ⟨ordered_nil, fun a ha => ?_⟩
  obtain rfl := Option.some.inj ha
  exact ⟨ordered_nil, rfl⟩

theorem WellFormed.clear (s : InputStore) : s.clear.WellFormed :=
  ⟨ordered_nil, fun a ha => by cases ha⟩

theorem WellFormed.learnTotal (h : s.WellFormed) (total : Option ℕ) :
    (s.learnTotal total).WellFormed := ⟨h.segments, h.admitted⟩

theorem WellFormed.release {s' : InputStore} (h : s.WellFormed) {offset len : ℕ}
    (hs' : s.release offset len = .ok s') : s'.WellFormed := by
  unfold InputStore.release at hs'
  cases hend : checkedEnd offset len with
  | error e =>
    rw [hend] at hs'
    cases hs'
  | ok stop =>
    rw [hend] at hs'
    cases hadmitted : s.admitted with
    | none =>
      simp only [hadmitted] at hs'
      cases hs'
      exact ⟨ordered_cut h.segments offset stop, fun a ha => h.admitted a ha⟩
    | some a =>
      simp only [hadmitted] at hs'
      cases hrelease : a.release offset stop with
      | error e =>
        simp only [hrelease, bind, Except.bind] at hs'
        cases hs'
      | ok a' =>
        simp only [hrelease, bind, Except.bind] at hs'
        cases hs'
        obtain ⟨hordered, hsize⟩ := h.admitted a hadmitted
        obtain ⟨hordered', hsize'⟩ := AdmittedInput.ordered_release hordered hrelease
        refine ⟨h.segments, fun b hb => ?_⟩
        obtain rfl := Option.some.inj hb
        exact ⟨hordered', hsize'.trans hsize⟩

theorem WellFormed.releaseBefore (h : s.WellFormed) (offset : ℕ) :
    (s.releaseBefore offset).WellFormed := by
  unfold InputStore.releaseBefore
  cases hadmitted : s.admitted with
  | some a =>
    obtain ⟨a', ha'⟩ := AdmittedInput.release_zero a offset
    obtain ⟨hordered, hsize⟩ := h.admitted a hadmitted
    obtain ⟨hordered', hsize'⟩ := AdmittedInput.ordered_release hordered ha'
    dsimp only
    rw [ha']
    refine ⟨h.segments, fun b hb => ?_⟩
    obtain rfl := Option.some.inj hb
    exact ⟨hordered', hsize'.trans hsize⟩
  | none =>
    dsimp only
    split
    · split
      · exact ⟨ordered_cut h.segments _ _, fun a ha => h.admitted a ha⟩
      · exact h
    · exact h

theorem WellFormed.feedSegments (h : s.WellFormed) (offset : ℕ) (bytes : List UInt8) :
    (s.feedSegments offset bytes).2.WellFormed := by
  unfold InputStore.feedSegments
  split
  · exact h
  · dsimp only
    have hskipped := skipHeld_not_held (finds_segmentAt h.segments) offset
      (offset + bytes.length) List.countP_le_length
    generalize skipHeld (segmentAt s.segments) (offset + bytes.length) s.segments.length offset =
      front at *
    split
    · exact h
    · next hfront =>
      split
      · exact h
      · next htake =>
        have hno := hskipped.resolve_left hfront
        refine ⟨ordered_place h.segments (List.ne_nil_of_length_pos ?_)
          (fits_take h.segments hno (Nat.min_le_left _ _)), fun a ha => h.admitted a ha⟩
        rw [List.length_take]
        have hle : upToNext s.segments front (bytes.drop (front - offset)).length ≤ _ :=
          Nat.min_le_right _ _
        omega

theorem WellFormed.feed {s' : InputStore} (h : s.WellFormed) {offset n : ℕ} {bytes : List UInt8}
    (hs' : s.feed offset bytes = .ok (n, s')) : s'.WellFormed := by
  unfold InputStore.feed at hs'
  cases hend : checkedEnd offset bytes.length with
  | error e =>
    rw [hend] at hs'
    cases hs'
  | ok stop =>
    simp only [hend, bind, Except.bind] at hs'
    cases hadmitted : s.admitted with
    | none =>
      simp only [hadmitted] at hs'
      have hw := h.feedSegments offset bytes
      rw [Except.ok.inj hs'] at hw
      exact hw
    | some a =>
      simp only [hadmitted] at hs'
      cases hfeed : a.feed offset bytes with
      | error e =>
        rw [hfeed] at hs'
        cases hs'
      | ok fed =>
        obtain ⟨k, a'⟩ := fed
        rw [hfeed] at hs'
        cases hs'
        obtain ⟨hordered, hsize⟩ := h.admitted a hadmitted
        obtain ⟨hordered', hsize'⟩ := AdmittedInput.ordered_feed hordered hfeed
        refine ⟨h.segments, fun b hb => ?_⟩
        obtain rfl := Option.some.inj hb
        exact ⟨hordered', hsize'.trans hsize⟩

/-- A feed drops nothing. -/
theorem held_feed {s' : InputStore} {offset n : ℕ} {bytes : List UInt8}
    (hs' : s.feed offset bytes = .ok (n, s')) : s.held ≤ s'.held := by
  unfold InputStore.feed at hs'
  cases hend : checkedEnd offset bytes.length with
  | error e =>
    rw [hend] at hs'
    cases hs'
  | ok stop =>
    simp only [hend, bind, Except.bind] at hs'
    unfold InputStore.held
    cases hadmitted : s.admitted with
    | none =>
      simp only [hadmitted] at hs'
      have hfed : s' = (s.feedSegments offset bytes).2 := by rw [Except.ok.inj hs']
      rw [hfed, Option.elim_none]
      unfold feedSegments
      dsimp only
      split
      · rw [hadmitted]
        exact Nat.le_refl _
      · split
        · rw [hadmitted]
          exact Nat.le_refl _
        · split
          · rw [hadmitted]
            exact Nat.le_refl _
          · dsimp only
            rw [hadmitted]
            exact Nat.le_add_right _ _
    | some a =>
      simp only [hadmitted] at hs'
      cases hfeed : a.feed offset bytes with
      | error e =>
        rw [hfeed] at hs'
        cases hs'
      | ok fed =>
        obtain ⟨k, a'⟩ := fed
        rw [hfeed] at hs'
        cases hs'
        show a.retained ≤ a'.retained
        unfold AdmittedInput.feed at hfeed
        simp only [hend, bind, Except.bind] at hfeed
        split at hfeed
        · cases hfeed
          exact Nat.le_refl _
        · split at hfeed
          · cases hfeed
            exact Nat.le_refl _
          · split at hfeed
            · cases hfeed
            · cases hfeed
              exact Nat.le_add_right _ _

/-! ### What a feed at a gap takes -/

variable {lo : ℕ} {slice : List UInt8}

theorem feedSegments_gap (h : s.WellFormed) (hno : ¬ Segments.Holds s.segments lo)
    (hslice : slice ≠ []) {n : ℕ}
    (hn : n = min (upToNext s.segments lo slice.length) (s.cap - s.retained)) :
    s.feedSegments lo slice =
      if n = 0 then (0, s)
      else (n, { s with
        segments := place lo (slice.take n) s.segments, retained := s.retained + n }) := by
  have hlen := List.length_pos_of_ne_nil hslice
  have hskip := skipHeld_eq ((segmentAt_none h.segments).mpr hno) (lo + slice.length)
    s.segments.length
  unfold InputStore.feedSegments
  rw [if_neg hslice, hskip]
  dsimp only
  rw [if_neg (by omega), Nat.sub_self, List.drop_zero, ← hn]
  simp only [Nat.zero_add]

theorem admitted_gap {a : AdmittedInput} (hno : ¬ Segments.Holds a.spans lo)
    (hend : lo + slice.length < u64End) (hslice : slice ≠ []) {n : ℕ}
    (hn : n = min (upToNext a.spans lo slice.length) (a.size - a.retained)) :
    (n = 0 → a.feed lo slice = .ok (0, a)) ∧
    (0 < n → (∃ e, a.feed lo slice = .error e) ∨
      a.feed lo slice = .ok (n,
        { a with spans := placeJoined lo (slice.take n) a.spans, retained := a.retained + n })) := by
  have hlen := List.length_pos_of_ne_nil hslice
  have hskip := skipHeld_eq (covering_none.mpr hno) (lo + slice.length) a.spans.length
  have hstop : checkedEnd lo slice.length = .ok (lo + slice.length) := if_pos hend
  have hmin : min (lo + slice.length) lo = lo := by omega
  unfold AdmittedInput.feed
  simp only [hstop, bind, Except.bind, hskip, hmin, Nat.sub_self, Nat.sub_zero, List.drop_zero,
    Nat.zero_add, ← hn]
  rw [if_neg (by omega)]
  refine ⟨fun hzero => ?_, fun hpos => ?_⟩
  · rw [if_pos hzero]
    rfl
  · rw [if_neg (by omega)]
    split
    · exact .inl ⟨_, rfl⟩
    · exact .inr rfl

/-- A full store takes nothing at a position that it does not hold. -/
theorem feed_full (h : s.WellFormed) (hno : ¬ s.Holds lo) (hend : lo + slice.length < u64End)
    (hslice : slice ≠ []) (hfull : s.cap ≤ s.held) : s.feed lo slice = .ok (0, s) := by
  have hstop : checkedEnd lo slice.length = .ok (lo + slice.length) := if_pos hend
  unfold InputStore.feed
  simp only [hstop, bind, Except.bind]
  unfold InputStore.Holds InputStore.runs at hno
  unfold InputStore.held at hfull
  cases hadmitted : s.admitted with
  | none =>
    rw [hadmitted] at hno hfull
    simp only [Option.elim_none] at hno hfull
    dsimp only
    rw [feedSegments_gap h hno hslice rfl, if_pos (by omega)]
    rfl
  | some a =>
    rw [hadmitted] at hno hfull
    simp only [Option.elim_some] at hno hfull
    have hsize := (h.admitted a hadmitted).2
    dsimp only
    rw [(admitted_gap hno hend hslice rfl).1 (by omega)]
    show Except.ok (0, { s with admitted := some a }) = _
    rw [← hadmitted]

/-- A store with room takes a byte there, if its index does not refuse. -/
theorem feed_room (h : s.WellFormed) (hno : ¬ s.Holds lo) (hend : lo + slice.length < u64End)
    (hslice : slice ≠ []) (hroom : s.held < s.cap) :
    (∃ e, s.feed lo slice = .error e) ∨
    ∃ n s', s.feed lo slice = .ok (n, s') ∧ 0 < n ∧ s'.held = s.held + n := by
  have hstop : checkedEnd lo slice.length = .ok (lo + slice.length) := if_pos hend
  have hlen := List.length_pos_of_ne_nil hslice
  have hroom' := upToNext_pos h.runs hno hlen
  unfold InputStore.feed
  simp only [hstop, bind, Except.bind]
  unfold InputStore.Holds at hno
  unfold InputStore.runs at hno hroom'
  unfold InputStore.held at hroom ⊢
  cases hadmitted : s.admitted with
  | none =>
    rw [hadmitted] at hno hroom hroom'
    simp only [Option.elim_none] at hno hroom hroom'
    dsimp only
    rw [feedSegments_gap h hno hslice rfl, if_neg (by omega)]
    refine .inr ⟨_, _, rfl, by omega, ?_⟩
    dsimp only
    rw [hadmitted]
    rfl
  | some a =>
    rw [hadmitted] at hno hroom hroom'
    simp only [Option.elim_some] at hno hroom hroom'
    have hsize := (h.admitted a hadmitted).2
    dsimp only
    rcases (admitted_gap hno hend hslice rfl).2 (by omega) with ⟨e, he⟩ | hok
    · rw [he]
      exact .inl ⟨e, rfl⟩
    · rw [hok]
      exact .inr ⟨_, _, rfl, by omega, rfl⟩

end InputStore

end Zencodec.Coroutine
