/-
A release from the packed buffer.

The spans are cut one after the other, from the last index down, and what is left of them is
moved together.  The moves go down and in order, so none overwrites bytes that are still to move.

* `cutFrom_eq` — the loop over the indices replaces each span by what is left of it;
* `pack_spec` — after the moves the spans are packed, with the same bytes;
* `Valid.release` — a release is the release from the runs.
-/
import Zencodec.Coroutine.Packed

namespace Zencodec.Coroutine

namespace Layout

open Segments

/-! ### Releasing -/

/-- What is left of a span without the bytes from `lo` to `hi`. -/
def cutSpan (lo hi : ℕ) (s : Span) : List Span :=
  let cutLo := max s.start lo
  let cutHi := min s.stop hi
  if cutHi ≤ cutLo then [s]
  else
    (if cutLo = s.start then [] else [{ s with len := cutLo - s.start }]) ++
      (if cutHi = s.stop then []
        else [⟨cutHi, s.dataAt + (cutHi - s.start), s.stop - cutHi⟩])

theorem cutAt_between (lo hi : ℕ) (A B : List Span) (s : Span) :
    AdmittedInput.cutAt lo hi A.length (A ++ s :: B) = A ++ (cutSpan lo hi s ++ B) := by
  have hget : (A ++ s :: B)[A.length]? = some s := by simp
  have herase : (A ++ s :: B).eraseIdx A.length = A ++ B := by
    rw [List.eraseIdx_append_of_length_le (Nat.le_refl _), Nat.sub_self]
    rfl
  unfold AdmittedInput.cutAt cutSpan
  rw [hget]
  dsimp only
  split
  · rfl
  · by_cases hlo : max s.start lo = s.start
    · by_cases hhi : min s.stop hi = s.stop
      · rw [if_pos ⟨hlo, hhi⟩, if_pos hlo, if_pos hhi, herase]
        rfl
      · rw [if_neg (fun h => hhi h.2), if_pos hlo, if_pos hlo, if_neg hhi, set_between]
        have hlen : s.len - (min s.stop hi - s.start) = s.stop - min s.stop hi := by
          unfold Span.stop
          omega
        rw [hlen]
        rfl
    · rw [if_neg (fun h => hlo h.1), if_neg hlo, if_neg hlo, set_between]
      split
      · rfl
      · have hbehind := insertIdx_between (A ++ [{ s with len := max s.start lo - s.start }]) B
          ⟨min s.stop hi, s.dataAt + (min s.stop hi - s.start), s.stop - min s.stop hi⟩
        rw [List.length_append, List.length_singleton] at hbehind
        simpa only [List.append_assoc, List.singleton_append, List.cons_append,
          List.nil_append] using hbehind

/-- From the last span down, each is replaced by what is left of it. -/
theorem cutFrom_eq (lo hi : ℕ) (A B : List Span) :
    AdmittedInput.cutFrom lo hi A.length (A ++ B) = A.flatMap (cutSpan lo hi) ++ B := by
  induction A using List.reverseRecOn generalizing B with
  | nil => rfl
  | append_singleton A s ih =>
    rw [List.length_append, List.length_singleton, AdmittedInput.cutFrom, List.append_assoc,
      List.singleton_append, cutAt_between, ih, List.flatMap_append, List.flatMap_singleton,
      List.append_assoc]

/-- What is left of a span is what is left of its run. -/
theorem cutSpan_run {data : List UInt8} (lo hi : ℕ) {s : Span}
    (hle : s.dataAt + s.len ≤ data.length) :
    (cutSpan lo hi s).map (Span.run data) = cut lo hi (s.run data) := by
  have hstop : (s.run data).stop = s.stop := by
    unfold Span.run Coroutine.Segment.stop Span.stop
    rw [List.length_take, List.length_drop]
    dsimp only
    omega
  have hstart : (s.run data).start = s.start := rfl
  unfold cutSpan cut
  rw [hstop, hstart, Nat.max_comm lo, Nat.min_comm hi]
  dsimp only
  split
  · rfl
  · rw [List.map_append]
    congr 1
    · split
      · rfl
      · have htake : min (max s.start lo - s.start) s.len = max s.start lo - s.start := by
          unfold Span.stop at *
          omega
        rw [List.map_singleton, Span.run, Span.run, List.take_take, htake]
    · split
      · rfl
      · have hlen : s.stop - min s.stop hi = s.len - (min s.stop hi - s.start) := by
          unfold Span.stop
          omega
        rw [List.map_singleton, Span.run, Span.run, List.drop_take, List.drop_drop, hlen]

/-- The spans lie in order in the buffer, from position `d` on, perhaps with room between. -/
def Apart : ℕ → List Span → Prop
  | _, [] => True
  | d, s :: rest => d ≤ s.dataAt ∧ Apart (s.dataAt + s.len) rest

theorem Apart.mono {d d' : ℕ} {spans : List Span} (h : Apart d spans) (hle : d' ≤ d) :
    Apart d' spans := by
  cases spans with
  | nil => trivial
  | cons s rest => exact ⟨hle.trans h.1, h.2⟩

/-- Spans in order lie behind the position. -/
theorem Apart.le {d : ℕ} {spans : List Span} (h : Apart d spans) {s : Span} (hs : s ∈ spans) :
    d ≤ s.dataAt := by
  induction spans generalizing d with
  | nil => cases hs
  | cons t rest ih =>
    rcases List.mem_cons.mp hs with rfl | hs
    · exact h.1
    · have hle := ih h.2 hs
      have hd := h.1
      omega

theorem apart_append {d d' : ℕ} {A B : List Span} (hA : Apart d A)
    (hd : d ≤ d') (hend : ∀ s ∈ A, s.dataAt + s.len ≤ d') (hB : Apart d' B) : Apart d (A ++ B) := by
  induction A generalizing d with
  | nil => exact hB.mono hd
  | cons s A ih =>
    refine ⟨hA.1, ih hA.2 (hend s List.mem_cons_self) fun t ht => ?_⟩
    exact hend t (List.mem_cons_of_mem s ht)

theorem mem_cutSpan {lo hi : ℕ} {s t : Span} (ht : t ∈ cutSpan lo hi s) :
    t.dataAt + t.len ≤ s.dataAt + s.len := by
  unfold cutSpan Span.stop at ht
  dsimp only at ht
  split at ht
  · rw [List.mem_singleton.mp ht]
  · rcases List.mem_append.mp ht with ht | ht
    · split at ht
      · cases ht
      · rw [List.mem_singleton.mp ht]
        dsimp only
        omega
    · split at ht
      · cases ht
      · rw [List.mem_singleton.mp ht]
        dsimp only
        omega

theorem apart_cutSpan (lo hi : ℕ) (s : Span) : Apart s.dataAt (cutSpan lo hi s) := by
  unfold cutSpan
  dsimp only
  split
  · exact ⟨Nat.le_refl _, trivial⟩
  · split
    · split
      · trivial
      · exact ⟨Nat.le_add_right _ _, trivial⟩
    · split
      · exact ⟨Nat.le_refl _, trivial⟩
      · refine ⟨Nat.le_refl _, ?_, trivial⟩
        dsimp only
        unfold Span.stop at *
        omega

/-- The pieces of packed spans lie in order. -/
theorem Packed.apart_cut {d : ℕ} {spans : List Span} (h : Packed d spans) (lo hi : ℕ) :
    Apart d (spans.flatMap (cutSpan lo hi)) := by
  induction spans generalizing d with
  | nil => trivial
  | cons s rest ih =>
    obtain ⟨rfl, hrest⟩ := h
    rw [List.flatMap_cons]
    exact apart_append (apart_cutSpan lo hi s) (Nat.le_add_right _ _)
      (fun t ht => mem_cutSpan ht) (ih hrest)

/-! ### Moving spans together -/

variable {data : List UInt8} {lo hi dest : ℕ}

theorem length_copyWithin (hlo : lo ≤ hi) (hhi : hi ≤ data.length) (hdest : dest ≤ lo) :
    (copyWithin data lo hi dest).length = data.length := by
  unfold copyWithin
  simp only [List.length_append, List.length_take, List.length_drop]
  omega

theorem take_copyWithin (hlo : lo ≤ hi) (hhi : hi ≤ data.length) (hdest : dest ≤ lo) :
    (copyWithin data lo hi dest).take dest = data.take dest := by
  unfold copyWithin
  rw [List.append_assoc, List.take_append_of_le_length (by rw [List.length_take]; omega),
    List.take_take, Nat.min_self]

theorem moved_copyWithin (hlo : lo ≤ hi) (hhi : hi ≤ data.length) (hdest : dest ≤ lo) :
    ((copyWithin data lo hi dest).drop dest).take (hi - lo) = (data.drop lo).take (hi - lo) := by
  have hfront : (data.take dest).length = dest := by
    rw [List.length_take]
    omega
  have hmoved : ((data.take hi).drop lo).length = hi - lo := by
    rw [List.length_drop, List.length_take]
    omega
  unfold copyWithin
  rw [List.append_assoc, List.drop_append_of_le_length (by omega),
    List.drop_eq_nil_of_le (by omega), List.nil_append,
    List.take_append_of_le_length (by omega), List.take_of_length_le (by omega), List.drop_take]

/-- Bytes behind the target are not touched. -/
theorem drop_copyWithin (hlo : lo ≤ hi) (hhi : hi ≤ data.length) (hdest : dest ≤ lo) {k : ℕ}
    (hk : dest + (hi - lo) ≤ k) : (copyWithin data lo hi dest).drop k = data.drop k := by
  have hfront : (data.take dest ++ (data.take hi).drop lo).length = dest + (hi - lo) := by
    simp only [List.length_append, List.length_take, List.length_drop]
    omega
  unfold copyWithin
  rw [List.drop_append, List.drop_eq_nil_of_le (by omega), List.nil_append, hfront,
    List.drop_drop]
  congr 1
  omega

/-- What moving the spans together leaves. -/
structure Repacked (dest : ℕ) (spans : List Span) (data : List UInt8)
    (packed : ℕ × List Span × List UInt8) : Prop where
  top : packed.1 = dest + extent spans
  inOrder : Packed dest packed.2.1
  extent : extent packed.2.1 = extent spans
  count : packed.2.1.length = spans.length
  size : packed.2.2.length = data.length
  front : packed.2.2.take dest = data.take dest
  slices : slices packed.2.1 (packed.2.2.drop dest) = spans.map (Span.run data)

/-- The spans are moved down in order, so none is overwritten before it is moved. -/
theorem pack_spec {d : ℕ} {spans : List Span} (hapart : Apart d spans) (hdest : dest ≤ d)
    (hin : ∀ s ∈ spans, s.dataAt + s.len ≤ data.length) :
    Repacked dest spans data (AdmittedInput.pack dest spans data) := by
  induction spans generalizing dest d data with
  | nil => exact ⟨rfl, trivial, rfl, rfl, rfl, rfl, rfl⟩
  | cons s rest ih =>
    obtain ⟨hd, hrest⟩ := hapart
    have hend := hin s List.mem_cons_self
    have hlo : s.dataAt ≤ s.dataAt + s.len := Nat.le_add_right _ _
    have hlen := length_copyWithin hlo hend (hdest.trans hd)
    have htake := take_copyWithin hlo hend (hdest.trans hd)
    have hmoved := moved_copyWithin hlo hend (hdest.trans hd)
    have hdrop : ∀ k, dest + s.len ≤ k →
        (copyWithin data s.dataAt (s.dataAt + s.len) dest).drop k = data.drop k := by
      intro k hk
      exact drop_copyWithin hlo hend (hdest.trans hd) (by omega)
    rw [Nat.add_sub_cancel_left] at hmoved
    set data' := copyWithin data s.dataAt (s.dataAt + s.len) dest with hdata'
    obtain ⟨htop, hpacked, hextent, hcount, hsize, hfront, hslices⟩ :=
      @ih data' (dest + s.len) _ hrest (by omega) fun t ht => by
        rw [hlen]
        exact hin t (List.mem_cons_of_mem s ht)
    have hruns : rest.map (Span.run data') = rest.map (Span.run data) := by
      refine List.map_congr_left fun t ht => ?_
      have hbehind : s.dataAt + s.len ≤ t.dataAt := hrest.le ht
      rw [Span.run, Span.run, hdrop t.dataAt (by omega)]
    rw [AdmittedInput.pack, ← hdata']
    set packed := AdmittedInput.pack (dest + s.len) rest data'
    refine ⟨?_, ⟨rfl, hpacked⟩, ?_, ?_, hsize.trans hlen, ?_, ?_⟩
    · rw [htop, extent_cons, Nat.add_assoc]
    · rw [extent_cons, extent_cons, hextent]
    · rw [List.length_cons, List.length_cons, hcount]
    · have hcut := congrArg (·.take dest) hfront
      simp only [List.take_take, Nat.min_eq_left (Nat.le_add_right dest s.len)] at hcut
      rw [hcut, htake]
    · have hfirst : (packed.2.2.drop dest).take s.len = (data'.drop dest).take s.len := by
        rw [List.take_drop, List.take_drop, hfront]
      rw [Layout.slices, List.map_cons, List.drop_drop, hslices, hruns]
      dsimp only
      rw [hfirst, hmoved, Span.run]

/-! ### The release -/

theorem size_runs {spans : List Span} (hin : ∀ s ∈ spans, s.dataAt + s.len ≤ data.length) :
    size (spans.map (Span.run data)) = extent spans := by
  induction spans with
  | nil => rfl
  | cons s rest ih =>
    have hs := hin s List.mem_cons_self
    rw [List.map_cons, size_cons, extent_cons, ih fun t ht => hin t (List.mem_cons_of_mem s ht),
      Span.run, List.length_take, List.length_drop]
    omega

theorem length_cutSpan (lo hi : ℕ) (s : Span) :
    (cutSpan lo hi s).length ≤ 2 ∧
      (¬ (s.start < lo ∧ hi < s.stop) → (cutSpan lo hi s).length ≤ 1) := by
  unfold cutSpan
  dsimp only
  split
  · simp
  · split
    · split <;> simp
    · next hlo =>
      split
      · simp
      · next hhi =>
        refine ⟨by simp, fun h => absurd ⟨?_, ?_⟩ h⟩
        · omega
        · omega

theorem length_cut_le (lo hi : ℕ) {spans : List Span}
    (h : ∀ s ∈ spans, ¬ (s.start < lo ∧ hi < s.stop)) :
    (spans.flatMap (cutSpan lo hi)).length ≤ spans.length := by
  induction spans with
  | nil => exact Nat.le_refl _
  | cons s rest ih =>
    have hs := (length_cutSpan lo hi s).2 (h s List.mem_cons_self)
    have hrest := ih fun t ht => h t (List.mem_cons_of_mem s ht)
    rw [List.flatMap_cons, List.length_append, List.length_cons]
    omega

/-- One span at most is cut in two. -/
theorem length_cut (hlt : lo < hi) {spans : List Span}
    (hsorted : spans.Pairwise fun s t => s.stop ≤ t.start) :
    (spans.flatMap (cutSpan lo hi)).length ≤ spans.length + 1 := by
  induction spans with
  | nil => exact Nat.zero_le _
  | cons s rest ih =>
    obtain ⟨hbefore, hrest⟩ := List.pairwise_cons.mp hsorted
    rw [List.flatMap_cons, List.length_append, List.length_cons]
    by_cases hsplit : s.start < lo ∧ hi < s.stop
    · have htwo := (length_cutSpan lo hi s).1
      have hkept : (rest.flatMap (cutSpan lo hi)).length ≤ rest.length := by
        refine length_cut_le lo hi fun t ht hin => ?_
        have hle := hbefore t ht
        unfold Span.stop at *
        omega
      omega
    · have hone := (length_cutSpan lo hi s).2 hsplit
      have hle := ih hrest
      omega

namespace AdmittedInput

variable {a : AdmittedInput}

/-- **Releasing from the packed buffer is releasing from its runs**; a refusal leaves it as it
was. -/
theorem Valid.release (h : a.Valid) (lo hi : ℕ) :
    match Coroutine.AdmittedInput.release a.store lo hi with
    | .error e => a.release lo hi = (.error e, a)
    | .ok b => ∃ a', a.release lo hi = (.ok (), a') ∧ a'.store = b ∧ a'.Valid := by
  have hguard : (a.store.spans.any fun s => s.start < lo && hi < s.stop) =
      a.spans.any fun s => s.start < lo && hi < s.stop := by
    rw [show a.store.spans = a.spans.map (Span.run a.data) from rfl, List.any_map, Bool.eq_iff_iff,
      List.any_eq_true, List.any_eq_true]
    refine exists_congr fun s => and_congr_right fun hs => ?_
    simp only [Function.comp_apply, h.run_stop hs]
    rfl
  have hlength : a.store.spans.length = a.spans.length := List.length_map _
  unfold Coroutine.AdmittedInput.release AdmittedInput.release
  rw [hguard, hlength]
  by_cases hle : hi ≤ lo
  · rw [if_pos hle, if_pos hle]
    exact ⟨a, rfl, rfl, h⟩
  rw [if_neg hle, if_neg hle]
  cases hfull : (a.spans.any fun s => decide (s.start < lo) && decide (hi < s.stop)) &&
      decide (a.spans.length = Coroutine.AdmittedInput.maxSpans) with
  | true => rfl
  | false =>
    have hret := h.retained
    have hfits := h.fits
    have hin : ∀ s ∈ a.spans, s.dataAt + s.len ≤ a.data.length := by
      intro s hs
      have hend := h.packed.le hs
      omega
    have hcutin : ∀ s ∈ a.spans.flatMap (cutSpan lo hi), s.dataAt + s.len ≤ a.data.length := by
      intro t ht
      obtain ⟨s, hs, ht⟩ := List.mem_flatMap.mp ht
      exact (mem_cutSpan ht).trans (hin s hs)
    have hcut : cutFrom lo hi a.spans.length a.spans = a.spans.flatMap (cutSpan lo hi) := by
      simpa using cutFrom_eq lo hi a.spans []
    have hpieces : (a.spans.flatMap (cutSpan lo hi)).map (Span.run a.data) =
        a.runs.flatMap (cut lo hi) := by
      rw [List.map_flatMap, runs, List.flatMap_map]
      exact List.flatMap_congr fun s hs => cutSpan_run lo hi (hin s hs)
    obtain ⟨htop, hpacked, hextent, hcount, hsize, -, hslices⟩ :=
      pack_spec (h.packed.apart_cut lo hi) (Nat.le_refl 0) hcutin
    rw [hcut]
    set packed := pack 0 (a.spans.flatMap (cutSpan lo hi)) a.data
    rw [Nat.zero_add] at htop
    have hruns : packed.2.1.map (Span.run packed.2.2) = a.runs.flatMap (cut lo hi) := by
      rw [runs_eq_slices hpacked, hslices, hpieces]
    have hsum : packed.1 = size (a.runs.flatMap (cut lo hi)) := by
      rw [htop, ← hpieces, size_runs hcutin]
    refine ⟨_, rfl, ?_, hpacked, htop.trans hextent.symm, ?_, ?_, ?_⟩
    · show (⟨packed.2.1.map (Span.run packed.2.2), packed.1, packed.2.2.length⟩ :
        Coroutine.AdmittedInput) = _
      rw [hruns, hsum, hsize]
      rfl
    · show packed.1 ≤ packed.2.2.length
      have hsizes := size_cut lo hi a.runs
      have hall : size a.runs = extent a.spans := size_runs hin
      rw [hsum, hsize]
      omega
    · show Ordered (packed.2.1.map (Span.run packed.2.2))
      rw [hruns]
      exact ordered_cut h.ordered lo hi
    · show packed.2.1.length ≤ _
      rw [hcount]
      have hfew := h.few
      by_cases hsplit : ∃ s ∈ a.spans, s.start < lo ∧ hi < s.stop
      · -- the index has room for one more
        have hsorted : a.spans.Pairwise fun s t => s.stop ≤ t.start := by
          refine (List.Pairwise.and_mem.mp (List.pairwise_map.mp h.ordered.apart)).imp ?_
          rintro s t ⟨hs, -, hst⟩
          rwa [h.run_stop hs] at hst
        have hone := length_cut (not_le.mp hle) hsorted
        have hany : (a.spans.any fun s => decide (s.start < lo) && decide (hi < s.stop)) =
            true := by
          obtain ⟨s, hs, hin⟩ := hsplit
          exact List.any_eq_true.mpr ⟨s, hs, by simpa using hin⟩
        rw [hany, Bool.true_and, decide_eq_false_iff_not] at hfull
        omega
      · exact (length_cut_le lo hi fun s hs hin => hsplit ⟨s, hs, hin⟩).trans hfew

end AdmittedInput

end Layout

end Zencodec.Coroutine
