/-
The buffers with a dead front against their runs.

* `insert_between`, `lastBefore_split` — the map of segments, by the keys before and behind a
  position;
* `append_runs` — new bytes are placed among the runs;
* `releaseLoop_spec` — the loop from the last overlapping segment on leaves what is left of each
  run.
-/
import Zencodec.Coroutine.Bytes
import Zencodec.Coroutine.Layout

namespace Zencodec.Coroutine

/-! ### Placing between runs -/

namespace Segments

variable {pos : ℕ} {bytes : List UInt8} {A B : List Segment}

theorem place_append (hA : ∀ s ∈ A, s.start < pos ∧ s.stop ≠ pos) :
    place pos bytes (A ++ B) = A ++ place pos bytes B := by
  induction A with
  | nil => rfl
  | cons s A ih =>
    obtain ⟨hstart, hstop⟩ := hA s List.mem_cons_self
    rw [List.cons_append, place, if_neg hstop, if_pos hstart,
      ih fun t ht => hA t (List.mem_cons_of_mem s ht), List.cons_append]

theorem place_before (hB : ∀ s ∈ B, pos < s.start) : place pos bytes B = ⟨pos, bytes⟩ :: B := by
  cases B with
  | nil => rfl
  | cons s B =>
    have hlt := hB s List.mem_cons_self
    rw [place, if_neg (by unfold Segment.stop; omega), if_neg (by omega)]

end Segments

namespace Layout

open Segments

namespace Segment

@[simp] theorem run_start (s : Segment) : s.run.start = s.start := rfl

@[simp] theorem run_stop (s : Segment) : s.run.stop = s.stop := by
  unfold run live Coroutine.Segment.stop stop len
  rw [List.length_drop]

/-- Dropping the front for good changes nothing that is live. -/
@[simp] theorem run_compact (s : Segment) : s.compact.run = s.run := by
  unfold compact run live
  split <;> rfl

theorem run_extend {s : Segment} (h : s.run.data ≠ []) (bytes : List UInt8) :
    ({ s with data := s.data ++ bytes } : Segment).run = ⟨s.start, s.run.data ++ bytes⟩ := by
  have hhead : s.head ≤ s.data.length := by
    by_contra hlt
    exact h (List.drop_eq_nil_of_le (by omega))
  unfold run live
  dsimp only
  rw [List.drop_append_of_le_length hhead]

end Segment

/-! ### Keys -/

variable {segments A B : List Segment} {pos : ℕ}

/-- The segments parted at a position. -/
theorem exists_split (h : Ordered (segments.map Segment.run)) (pos : ℕ) :
    ∃ A B, segments = A ++ B ∧ (∀ s ∈ A, s.start < pos) ∧ ∀ s ∈ B, pos ≤ s.start := by
  induction segments with
  | nil => exact ⟨[], [], rfl, by simp, by simp⟩
  | cons s rest ih =>
    by_cases hs : s.start < pos
    · obtain ⟨A, B, rfl, hA, hB⟩ := ih h.tail
      exact ⟨s :: A, B, rfl, List.forall_mem_cons.mpr ⟨hs, hA⟩, hB⟩
    · refine ⟨[], s :: rest, rfl, by simp, List.forall_mem_cons.mpr ⟨by omega, fun t ht => ?_⟩⟩
      have hle := h.head _ (List.mem_map_of_mem ht)
      have hlt := h.start_lt List.mem_cons_self
      simp only [Segment.run_start] at hle hlt
      omega

theorem insert_between {seg : Segment} (hA : ∀ s ∈ A, s.start < seg.start)
    (hB : ∀ s ∈ B, seg.start < s.start) : insert seg (A ++ B) = A ++ seg :: B := by
  induction A with
  | nil =>
    cases B with
    | nil => rfl
    | cons s B =>
      have hlt := hB s List.mem_cons_self
      rw [List.nil_append, insert, if_neg (by omega), if_neg (by omega)]
      rfl
  | cons s A ih =>
    rw [List.cons_append, insert, if_pos (hA s List.mem_cons_self),
      ih fun t ht => hA t (List.mem_cons_of_mem s ht), List.cons_append]

theorem lastBefore_split (hA : ∀ s ∈ A, s.start < pos) (hB : ∀ s ∈ B, pos ≤ s.start) :
    lastBefore pos (A ++ B) = A.getLast? := by
  unfold lastBefore
  rw [List.filter_append, List.filter_eq_self.mpr fun s hs => decide_eq_true (hA s hs),
    List.filter_eq_nil_iff.mpr fun s hs => by simpa using hB s hs, List.append_nil]

/-- The starts of ordered segments differ. -/
theorem start_lt_of_mem {s : Segment} (h : Ordered ((A ++ s :: B).map Segment.run)) :
    (∀ t ∈ A, t.start < s.start ∧ t.stop ≤ s.start) ∧
      ∀ t ∈ B, s.start < t.start ∧ s.stop ≤ t.start := by
  have hapart := h.apart
  rw [List.map_append, List.map_cons] at hapart h
  have hcross := (List.pairwise_append.mp hapart).2.2
  have hhead := (List.pairwise_cons.mp (List.pairwise_append.mp hapart).2.1).1
  have hlt := h.start_lt (List.mem_append_right _ List.mem_cons_self)
  simp only [Segment.run_start, Segment.run_stop] at hlt
  refine ⟨fun t ht => ?_, fun t ht => ?_⟩
  · have hle := hcross _ (List.mem_map_of_mem ht) s.run List.mem_cons_self
    have htlt := h.start_lt (List.mem_append_left _ (List.mem_map_of_mem ht))
    simp only [Segment.run_start, Segment.run_stop] at hle htlt
    omega
  · have hle := hhead _ (List.mem_map_of_mem ht)
    simp only [Segment.run_start, Segment.run_stop] at hle
    omega

theorem remove_between {s : Segment} (hA : ∀ t ∈ A, t.start < s.start)
    (hB : ∀ t ∈ B, s.start < t.start) : remove s.start (A ++ s :: B) = A ++ B := by
  unfold remove
  rw [List.filter_append, List.filter_cons_of_neg (by simp)]
  congr 1
  · exact List.filter_eq_self.mpr fun t ht => decide_eq_true (Nat.ne_of_lt (hA t ht))
  · exact List.filter_eq_self.mpr fun t ht => decide_eq_true (Nat.ne_of_gt (hB t ht))

/-- Only the segment under the key is changed. -/
theorem extend_between {s : Segment} (h : Ordered ((A ++ s :: B).map Segment.run))
    (f : Segment → Segment) :
    (A ++ s :: B).map (fun t => if t.start = s.start then f t else t) = A ++ f s :: B := by
  obtain ⟨hA, hB⟩ := start_lt_of_mem h
  rw [List.map_append, List.map_cons, if_pos rfl]
  have hsame : ∀ l : List Segment, (∀ t ∈ l, t.start ≠ s.start) →
      l.map (fun t => if t.start = s.start then f t else t) = l := by
    intro l hl
    rw [List.map_congr_left fun t ht => if_neg (hl t ht), List.map_id']
  rw [hsame A fun t ht => Nat.ne_of_lt (hA t ht).1,
    hsame B fun t ht => Nat.ne_of_gt (hB t ht).1]

/-! ### Feeding -/

/-- New bytes are placed among the runs. -/
theorem append_runs (h : Ordered (segments.map Segment.run)) {bytes : List UInt8}
    (hfits : Fits (segments.map Segment.run) pos bytes.length) (hbytes : bytes ≠ []) :
    (append pos bytes segments).map Segment.run = place pos bytes (segments.map Segment.run) := by
  have hlen := List.length_pos_of_ne_nil hbytes
  obtain ⟨A, B, rfl, hA, hB⟩ := exists_split h pos
  have hB' : ∀ s ∈ B, pos < s.start := by
    intro s hs
    have hmem : s.run ∈ (A ++ B).map Segment.run :=
      List.mem_map_of_mem (List.mem_append_right _ hs)
    have hroom := hfits _ hmem
    have hlt := h.start_lt hmem
    have hle := hB s hs
    simp only [Segment.run_start, Segment.run_stop] at hroom hlt
    omega
  have hbehind : ∀ s ∈ B.map Segment.run, pos < s.start := by
    intro s hs
    obtain ⟨t, ht, rfl⟩ := List.mem_map.mp hs
    exact hB' t ht
  unfold append
  rw [lastBefore_split hA hB, List.map_append]
  by_cases hlast : ∃ A₀ p, A = A₀ ++ [p] ∧ p.stop = pos
  · obtain ⟨A₀, p, rfl, hstop⟩ := hlast
    rw [List.append_assoc, List.singleton_append] at h ⊢
    obtain ⟨hbefore, -⟩ := start_lt_of_mem h
    have hne : p.run.data ≠ [] := h.nonempty _ (List.mem_map_of_mem (by simp))
    have hp : p.start < pos := hA p (by simp)
    have hfound : ((A₀ ++ [p]).getLast?.filter fun s => decide (s.stop = pos)) = some p := by
      rw [List.getLast?_concat]
      simp [hstop]
    rw [hfound]
    dsimp only
    rw [extend_between h, List.map_append, List.map_append, List.map_cons,
      Segment.run_extend hne, List.append_assoc, List.map_singleton, List.singleton_append,
      place_append, place, if_pos (by rw [Segment.run_stop, hstop])]
    · rfl
    · intro r hr
      obtain ⟨t, ht, rfl⟩ := List.mem_map.mp hr
      have hle := hbefore t ht
      rw [Segment.run_start, Segment.run_stop]
      omega
  · have hne : ∀ s ∈ A, s.stop ≠ pos := by
      intro s hs hstop
      obtain ⟨A₀, A₁, rfl⟩ := List.append_of_mem hs
      cases A₁ with
      | nil => exact hlast ⟨A₀, s, rfl, hstop⟩
      | cons t A₁ =>
        rw [List.append_assoc, List.cons_append] at h
        have hle := ((start_lt_of_mem h).2 t (by simp)).2
        have hlt := hA t (by simp)
        omega
    have hnone : (A.getLast?.filter fun s => decide (s.stop = pos)) = none := by
      rw [Option.filter_eq_none_iff]
      intro s hs
      simpa using hne s (List.mem_of_getLast? hs)
    rw [hnone]
    dsimp only
    rw [insert_between hA hB', List.map_append, List.map_cons, place_append, place_before hbehind]
    · rfl
    · intro r hr
      obtain ⟨t, ht, rfl⟩ := List.mem_map.mp hr
      exact ⟨hA t ht, by rw [Segment.run_stop]; exact hne t ht⟩

/-! ### Releasing -/

/-- The front of a segment up to `cutLo`. -/
def Segment.front (seg : Segment) (cutLo : ℕ) : Segment :=
  { seg with data := seg.data.take (seg.head + (cutLo - seg.start)) }

/-- The rest of a segment from `cutHi` on, in a buffer of its own. -/
def Segment.tail (seg : Segment) (cutHi : ℕ) : Segment :=
  ⟨cutHi, seg.data.drop (seg.head + (cutHi - seg.start)), 0⟩

/-- The rest of a segment from `cutHi` on, behind its dead front. -/
def Segment.advance (seg : Segment) (cutHi : ℕ) : Segment :=
  Segment.compact ⟨cutHi, seg.data, seg.head + (cutHi - seg.start)⟩

/-- The pieces of a segment without the bytes from `lo` to `hi`. -/
def pieces (lo hi : ℕ) (seg : Segment) : List Segment :=
  let cutLo := max lo seg.start
  let cutHi := min hi seg.stop
  if cutLo = seg.start ∧ cutHi = seg.stop then []
  else if cutLo = seg.start then [seg.advance cutHi]
  else if cutHi = seg.stop then [seg.front cutLo]
  else [seg.front cutLo, seg.tail cutHi]

variable {lo hi : ℕ} {seg : Segment}

@[simp] theorem Segment.start_advance (seg : Segment) (cutHi : ℕ) :
    (seg.advance cutHi).start = cutHi := by
  unfold advance compact
  split <;> rfl

/-- The pieces go where the segment was. -/
theorem leave_between (hlt : max lo seg.start < min hi seg.stop)
    (hA : ∀ s ∈ A, s.start < seg.start) (hB : ∀ s ∈ B, seg.stop ≤ s.start) :
    leave seg (max lo seg.start) (min hi seg.stop) (A ++ B) = A ++ (pieces lo hi seg ++ B) := by
  have hAhi : ∀ s ∈ A, s.start < min hi seg.stop := by
    intro s hs
    have hstart := hA s hs
    omega
  have hBlo : ∀ s ∈ B, seg.start < s.start := by
    intro s hs
    have hstop := hB s hs
    omega
  unfold pieces leave
  dsimp only
  split
  · rfl
  next hwhole =>
  have hBhi : min hi seg.stop ≠ seg.stop → ∀ s ∈ B, min hi seg.stop < s.start := by
    intro hback s hs
    have hstop := hB s hs
    omega
  split
  · next hfront =>
    have hback : min hi seg.stop ≠ seg.stop := fun h => hwhole ⟨hfront, h⟩
    have hput : insert (seg.advance (min hi seg.stop)) (A ++ B) = _ :=
      insert_between (by rwa [Segment.start_advance])
        (by rw [Segment.start_advance]; exact hBhi hback)
    exact hput
  · have hput : insert (seg.front (max lo seg.start)) (A ++ B) = _ := insert_between hA hBlo
    split
    · exact hput
    · next hback =>
      show insert (seg.tail (min hi seg.stop)) (insert (seg.front (max lo seg.start)) (A ++ B)) = _
      rw [hput, List.append_cons, insert_between]
      · rw [List.append_assoc]
        rfl
      · intro s hs
        rcases List.mem_append.mp hs with hs | hs
        · exact hAhi s hs
        · rw [List.mem_singleton.mp hs]
          show seg.start < min hi seg.stop
          omega
      · exact hBhi hback

/-- The pieces are what is left of the run. -/
theorem pieces_run (hlt : max lo seg.start < min hi seg.stop) :
    (pieces lo hi seg).map Segment.run = cut lo hi seg.run := by
  have hfront : (seg.front (max lo seg.start)).run =
      ⟨seg.start, seg.run.data.take (max lo seg.start - seg.start)⟩ := by
    unfold Segment.front Segment.run Segment.live
    dsimp only
    rw [List.drop_take, Nat.add_sub_cancel_left]
  have htail : (seg.tail (min hi seg.stop)).run =
      ⟨min hi seg.stop, seg.run.data.drop (min hi seg.stop - seg.start)⟩ := by
    unfold Segment.tail Segment.run Segment.live
    dsimp only
    rw [List.drop_zero, List.drop_drop]
  have hadvance : (seg.advance (min hi seg.stop)).run = (seg.tail (min hi seg.stop)).run := by
    rw [Segment.advance, Segment.run_compact]
    rfl
  unfold pieces cut
  rw [Segment.run_start, Segment.run_stop]
  dsimp only
  rw [if_neg (not_le.mpr hlt)]
  by_cases hlo : max lo seg.start = seg.start
  · by_cases hhi : min hi seg.stop = seg.stop
    · rw [if_pos ⟨hlo, hhi⟩, if_pos hlo, if_pos hhi]
      rfl
    · rw [if_neg (fun h => hhi h.2), if_pos hlo, if_pos hlo, if_neg hhi, List.map_singleton,
        hadvance, htail]
      rfl
  · rw [if_neg (fun h => hlo h.1), if_neg hlo, if_neg hlo]
    by_cases hhi : min hi seg.stop = seg.stop
    · rw [if_pos hhi, if_pos hhi, List.map_singleton, hfront]
      rfl
    · rw [if_neg hhi, if_neg hhi, List.map_cons, List.map_singleton, hfront, htail]
      rfl

theorem le_start_pieces (hlt : max lo seg.start < min hi seg.stop) {s : Segment}
    (hs : s ∈ pieces lo hi seg) : seg.start ≤ s.start := by
  unfold pieces at hs
  dsimp only at hs
  split at hs
  · cases hs
  · split at hs
    · rw [List.mem_singleton.mp hs, Segment.start_advance]
      omega
    · split at hs
      · rw [List.mem_singleton.mp hs]
        exact Nat.le_refl _
      · rcases List.mem_cons.mp hs with rfl | hs
        · exact Nat.le_refl _
        · rw [List.mem_singleton.mp hs]
          show seg.start ≤ min hi seg.stop
          omega

/-- A run that a release does not reach. -/
theorem cut_of_apart {r : Coroutine.Segment} (h : r.stop ≤ lo ∨ hi ≤ r.start) :
    cut lo hi r = [r] ∧ overlap lo hi r = 0 := by
  unfold cut overlap
  exact ⟨if_pos (by omega), by omega⟩

/-- Runs that a release does not reach stay. -/
theorem flatMap_cut_of_apart
    (h : ∀ t ∈ A, cut lo hi t.run = [t.run] ∧ overlap lo hi t.run = 0) :
    (A.map Segment.run).flatMap (cut lo hi) = A.map Segment.run ∧
      ((A.map Segment.run).map (overlap lo hi)).sum = 0 := by
  induction A with
  | nil => exact ⟨rfl, rfl⟩
  | cons s A ih =>
    obtain ⟨hcut, hoverlap⟩ := h s List.mem_cons_self
    obtain ⟨hrest, hsum⟩ := ih fun t ht => h t (List.mem_cons_of_mem s ht)
    rw [List.map_cons, List.flatMap_cons, hcut, hrest, List.map_cons, List.sum_cons, hoverlap,
      hsum]
    exact ⟨rfl, rfl⟩

/-- **The loop leaves what is left of each run before the bound**, from the last on. -/
theorem releaseLoop_spec (hlt : lo < hi) (fuel : ℕ) {scanEnd : ℕ} {s : InputStore}
    (hsplit : s.segments = A ++ B) (hfuel : A.length ≤ fuel) (hscan : scanEnd ≤ hi)
    (hordered : Ordered (A.map Segment.run)) (hA : ∀ t ∈ A, t.start < scanEnd)
    (hB : ∀ t ∈ B, scanEnd ≤ t.start) (hAB : ∀ t ∈ A, ∀ u ∈ B, t.stop ≤ u.start) :
    let out := s.releaseLoop lo hi fuel scanEnd
    out.segmentRuns = (A.map Segment.run).flatMap (cut lo hi) ++ B.map Segment.run ∧
      out.retained = s.retained - ((A.map Segment.run).map (overlap lo hi)).sum ∧
      out = { s with segments := out.segments, retained := out.retained } := by
  induction fuel generalizing A B scanEnd s with
  | zero =>
    obtain rfl := List.length_eq_zero_iff.mp (Nat.le_zero.mp hfuel)
    exact ⟨by simp [InputStore.releaseLoop, InputStore.segmentRuns, hsplit], rfl, rfl⟩
  | succ fuel ih =>
    intro out
    have hout : out = s.releaseLoop lo hi (fuel + 1) scanEnd := rfl
    rw [InputStore.releaseLoop, hsplit, lastBefore_split hA hB] at hout
    cases A using List.reverseRecOn with
    | nil =>
      simp only [List.getLast?_nil, Option.filter_none] at hout
      rw [hout]
      exact ⟨by simp [InputStore.segmentRuns, hsplit], by simp, rfl⟩
    | append_singleton A₀ seg =>
      rw [List.getLast?_concat, Option.filter_some] at hout
      have hordered' := hordered
      rw [List.map_append, List.map_singleton] at hordered'
      have hbefore : ∀ t ∈ A₀, t.start < seg.start ∧ t.stop ≤ seg.start :=
        (start_lt_of_mem (B := []) hordered).1
      have hseg : seg.start < seg.stop := by
        simpa using hordered.start_lt (List.mem_map_of_mem (List.mem_concat_self))
      have hend := hA seg List.mem_concat_self
      by_cases hreach : lo < seg.stop
      · rw [if_pos (decide_eq_true hreach)] at hout
        have hcut : max lo seg.start < min hi seg.stop := by omega
        have hbehind : ∀ t ∈ B, seg.stop ≤ t.start := hAB seg List.mem_concat_self
        have hleft : leave seg (max lo seg.start) (min hi seg.stop)
            (remove seg.start (A₀ ++ [seg] ++ B)) = A₀ ++ (pieces lo hi seg ++ B) := by
          rw [List.append_assoc, List.singleton_append,
            remove_between (fun t ht => (hbefore t ht).1) fun t ht => by
              have hle := hbehind t ht
              omega]
          exact leave_between hcut (fun t ht => (hbefore t ht).1) hbehind
        dsimp only at hout
        rw [hleft] at hout
        have hordered₀ : Ordered (A₀.map Segment.run) :=
          ⟨(List.pairwise_append.mp hordered'.apart).1,
            fun r hr => hordered'.nonempty r (List.mem_append_left _ hr)⟩
        have hstart : ∀ t ∈ pieces lo hi seg ++ B, seg.start ≤ t.start := by
          intro t ht
          rcases List.mem_append.mp ht with ht | ht
          · exact le_start_pieces hcut ht
          · have hle := hbehind t ht
            omega
        obtain ⟨hruns, hretained, hsame⟩ := ih (s := { s with
            segments := A₀ ++ (pieces lo hi seg ++ B)
            retained := s.retained - (min hi seg.stop - max lo seg.start) }) rfl
          (by simpa using hfuel) (by omega) hordered₀ (fun t ht => (hbefore t ht).1) hstart
          fun t ht u hu => (hbefore t ht).2.trans (hstart u hu)
        rw [← hout] at hruns hretained hsame
        refine ⟨?_, ?_, hsame⟩
        · rw [hruns, List.map_append, List.map_append, List.map_singleton, List.flatMap_append,
            List.flatMap_singleton, pieces_run hcut, List.append_assoc]
        · have hover : overlap lo hi seg.run = min hi seg.stop - max lo seg.start := by
            unfold overlap
            rw [Segment.run_stop, Segment.run_start]
          rw [hretained, List.map_append, List.map_append, List.sum_append, List.map_singleton,
            List.map_singleton, List.sum_singleton, hover]
          dsimp only
          omega
      · -- no run before this one is reached either
        rw [if_neg (by simpa using hreach)] at hout
        have hall : ∀ t ∈ A₀ ++ [seg], cut lo hi t.run = [t.run] ∧ overlap lo hi t.run = 0 := by
          intro t ht
          refine cut_of_apart (.inl ?_)
          rw [Segment.run_stop]
          rcases List.mem_append.mp ht with ht | ht
          · have hle := (hbefore t ht).2
            omega
          · rw [List.mem_singleton.mp ht]
            omega
        obtain ⟨hkept, hnothing⟩ := flatMap_cut_of_apart hall
        rw [hout]
        exact ⟨by rw [InputStore.segmentRuns, hsplit, hkept, List.map_append],
          by rw [hnothing, Nat.sub_zero], rfl⟩

/-- A release leaves what is left of each run. -/
theorem releaseLoop_runs {s : InputStore} (h : Ordered s.segmentRuns) (hlt : lo < hi) :
    let out := s.releaseLoop lo hi s.segments.length hi
    out.segmentRuns = s.segmentRuns.flatMap (cut lo hi) ∧
      out.retained = s.retained - (s.segmentRuns.map (overlap lo hi)).sum ∧
      out = { s with segments := out.segments, retained := out.retained } := by
  intro out
  obtain ⟨A, B, hsplit, hA, hB⟩ := exists_split h hi
  have hruns : s.segmentRuns = A.map Segment.run ++ B.map Segment.run := by
    rw [InputStore.segmentRuns, hsplit, List.map_append]
  rw [hruns] at h
  have hAB : ∀ t ∈ A, ∀ u ∈ B, t.stop ≤ u.start := by
    intro t ht u hu
    have hle := (List.pairwise_append.mp h.apart).2.2 _ (List.mem_map_of_mem ht) _
      (List.mem_map_of_mem hu)
    simpa using hle
  have hordered : Ordered (A.map Segment.run) :=
    ⟨(List.pairwise_append.mp h.apart).1,
      fun r hr => h.nonempty r (List.mem_append_left _ hr)⟩
  have hbehind : ∀ t ∈ B, cut lo hi t.run = [t.run] ∧ overlap lo hi t.run = 0 :=
    fun t ht => cut_of_apart (.inr (hB t ht))
  obtain ⟨hkept, hnothing⟩ := flatMap_cut_of_apart hbehind
  obtain ⟨hout, hretained, hsame⟩ := releaseLoop_spec hlt s.segments.length hsplit
    (by rw [hsplit, List.length_append]; omega) (Nat.le_refl hi) hordered hA hB hAB
  refine ⟨?_, ?_, hsame⟩
  · rw [hruns, List.flatMap_append, hkept]
    exact hout
  · rw [hruns, List.map_append, List.sum_append, hnothing, Nat.add_zero]
    exact hretained

end Layout

end Zencodec.Coroutine
