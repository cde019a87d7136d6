/-
The operations of either layout on the map of held bytes.

* `Fills` — what a feed accepts and fills; `feedSegments_fills`, `feed_fills`;
* `InputStore.Valid` — what every operation keeps, in either layout; as many bytes are held as
  are counted (`Valid.encard`);
* `copyOut_eq`, `Valid.missing` — a read and a list of gaps, on the runs.
-/
import Zencodec.Coroutine.Repacked
import Zencodec.Coroutine.Buffers

namespace Zencodec.Coroutine

open Segments SparseMap

/-! ### Feeding the runs -/

/-- What a feed does to the runs: `n` bytes are accepted, into `room` more. -/
structure Fills (runs runs' : List Segment) (room offset : ℕ) (bytes : List UInt8) (n : ℕ) :
    Prop where
  count : n = accepted (bytesAt runs) room offset bytes.length
  bytes : bytesAt runs' = fill (bytesAt runs) offset (bytes.take n)
  grows : size runs ≤ size runs'
  fits : size runs' ≤ size runs + room

section

variable {runs : List Segment} {lookup : ℕ → Option Segment} {offset room : ℕ}
  {bytes : List UInt8}

/-- All of the bytes are held already. -/
theorem fills_held (hfinds : Finds runs lookup)
    (hfront : offset + bytes.length ≤
      skipHeld lookup (offset + bytes.length) runs.length offset) :
    Fills runs runs room offset bytes bytes.length := by
  have hrun := (heldRun_skipHeld hfinds offset bytes.length).1 hfront
  refine ⟨?_, ?_, Nat.le_refl _, Nat.le_add_right _ _⟩
  · rw [accepted, hrun, Nat.sub_self, freeRun, Nat.zero_min, Nat.add_zero]
  · have hheld : ∀ p, offset ≤ p → p < offset + bytes.length → Held (bytesAt runs) p :=
      fun p hp hlt => held_bytesAt.mpr (skipHeld_held hfinds hp (hlt.trans_le hfront))
    rw [List.take_length, fill_skip hheld, List.drop_length, fill_nil]

/-- What is placed at the front is accepted. -/
theorem fills_front (h : Ordered runs) (hfinds : Finds runs lookup) {front take : ℕ}
    {runs' : List Segment}
    (hfront : skipHeld lookup (offset + bytes.length) runs.length offset = front)
    (hlt : front < offset + bytes.length)
    (htake : take = min (upToNext runs front (bytes.length - (front - offset))) room)
    (hruns : (take = 0 ∧ runs' = runs) ∨
      (bytesAt runs' = fill (bytesAt runs) front ((bytes.drop (front - offset)).take take) ∧
        size runs' = size runs + take)) :
    Fills runs runs' room offset bytes (front - offset + take) := by
  have hle : offset ≤ front := hfront ▸ le_skipHeld hfinds _ _ _
  have hskip := (heldRun_skipHeld hfinds offset bytes.length).2 (by rw [hfront]; exact hlt)
  rw [hfront] at hskip
  obtain ⟨hheld, hno⟩ := hskip
  have hcount : front - offset + take = accepted (bytesAt runs) room offset bytes.length := by
    rw [accepted, hheld, show offset + (front - offset) = front by omega,
      freeRun_upToNext h hno, htake]
  have hskipped : ∀ q, offset ≤ q → q < front → Held (bytesAt runs) q := fun q hq hin =>
    held_bytesAt.mpr (skipHeld_held hfinds hq (by rw [hfront]; exact hin))
  have hfill : fill (bytesAt runs) offset (bytes.take (front - offset + take)) = _ :=
    fill_front hle hskipped
  refine ⟨hcount, ?_, ?_, ?_⟩
  · rw [hfill]
    rcases hruns with ⟨rfl, rfl⟩ | ⟨hbytes, -⟩
    · rw [List.take_zero, fill_nil]
    · exact hbytes
  · rcases hruns with ⟨-, rfl⟩ | ⟨-, hsize⟩ <;> omega
  · rcases hruns with ⟨-, rfl⟩ | ⟨-, hsize⟩ <;> omega

namespace InputStore

/-- A feed of the plain store. -/
theorem feedSegments_fills {s : InputStore} (h : Ordered s.segments) (offset : ℕ)
    (bytes : List UInt8) :
    let out := s.feedSegments offset bytes
    Fills s.segments out.2.segments (s.cap - s.retained) offset bytes out.1 ∧
      out.2.retained + size s.segments = s.retained + size out.2.segments := by
  have hfinds := finds_segmentAt h
  unfold InputStore.feedSegments
  by_cases hempty : bytes = []
  · subst hempty
    rw [if_pos rfl]
    refine ⟨⟨?_, ?_, Nat.le_refl _, Nat.le_add_right _ _⟩, rfl⟩
    · simp [accepted, heldRun, freeRun]
    · simp
  rw [if_neg hempty]
  generalize hfront : skipHeld (segmentAt s.segments) (offset + bytes.length)
    s.segments.length offset = front
  dsimp only
  split
  · next hheld => exact ⟨fills_held hfinds (by rw [hfront]; exact hheld), rfl⟩
  · next hlt =>
    have hno : ¬ Segments.Holds s.segments front := by
      have hskip := (heldRun_skipHeld hfinds offset bytes.length).2
      rw [hfront] at hskip
      exact (hskip (by omega)).2
    rw [List.length_drop]
    split
    · next hzero =>
      refine ⟨?_, rfl⟩
      have hfills := fills_front h hfinds hfront (not_le.mp hlt) rfl (.inl ⟨hzero, rfl⟩)
      rwa [hzero, Nat.add_zero] at hfills
    · next htake =>
      generalize htake' : min (upToNext s.segments front (bytes.length - (front - offset)))
        (s.cap - s.retained) = take at *
      have hlen : ((bytes.drop (front - offset)).take take).length = take := by
        rw [List.length_take, List.length_drop]
        have hle : upToNext s.segments front (bytes.length - (front - offset)) ≤ _ :=
          Nat.min_le_right _ _
        omega
      have hfits : Fits s.segments front ((bytes.drop (front - offset)).take take).length :=
        fits_take h hno (by rw [List.length_drop]; omega)
      have hsize := size_place front ((bytes.drop (front - offset)).take take) s.segments
      rw [hlen] at hsize
      exact ⟨fills_front h hfinds hfront (not_le.mp hlt) htake'.symm
        (.inr ⟨bytesAt_place hfits, hsize⟩), by dsimp only; omega⟩

end InputStore

namespace AdmittedInput

/-- A feed of the admitted store, or its refusal. -/
theorem feed_fills {a : AdmittedInput} (h : Ordered a.spans) (offset : ℕ) (bytes : List UInt8) :
    match a.feed offset bytes with
    | .ok (n, a') => offset + bytes.length < u64End ∧
        Fills a.spans a'.spans (a.size - a.retained) offset bytes n ∧
        a'.retained + Segments.size a.spans = a.retained + Segments.size a'.spans ∧ a'.size = a.size
    | .error e => (u64End ≤ offset + bytes.length ∧ e = .inputRangeOverflow) ∨
        (offset + bytes.length < u64End ∧ e = .inputSpanLimit maxSpans) := by
  have hfinds := finds_covering a.spans
  unfold AdmittedInput.feed
  by_cases hend : offset + bytes.length < u64End
  swap
  · have hover : checkedEnd offset bytes.length = .error .inputRangeOverflow := if_neg hend
    rw [hover]
    exact .inl ⟨not_lt.mp hend, rfl⟩
  have hstop : checkedEnd offset bytes.length = .ok (offset + bytes.length) := if_pos hend
  simp only [hstop, bind, Except.bind]
  generalize hfront : skipHeld (covering a.spans) (offset + bytes.length) a.spans.length offset =
    front
  have hle : offset ≤ front := hfront ▸ le_skipHeld hfinds _ _ _
  by_cases hheld : offset + bytes.length ≤ front
  · rw [Nat.min_eq_left hheld, Nat.add_sub_cancel_left, if_pos rfl]
    exact ⟨hend, fills_held hfinds (by rw [hfront]; exact hheld), rfl, rfl⟩
  rw [Nat.min_eq_right (by omega), if_neg (by omega)]
  have hno : ¬ Segments.Holds a.spans front := by
    have hskip := (heldRun_skipHeld hfinds offset bytes.length).2
    rw [hfront] at hskip
    exact (hskip (by omega)).2
  by_cases hzero : min (upToNext a.spans front (bytes.length - (front - offset)))
      (a.size - a.retained) = 0
  · rw [if_pos hzero]
    have hfills := fills_front h hfinds hfront (not_le.mp hheld) rfl (.inl ⟨hzero, rfl⟩)
    rw [hzero, Nat.add_zero] at hfills
    exact ⟨hend, hfills, rfl, rfl⟩
  rw [if_neg hzero]
  generalize htake : min (upToNext a.spans front (bytes.length - (front - offset)))
    (a.size - a.retained) = take at *
  generalize (!((previous a.spans front).any fun s => decide (s.stop = front)) &&
    !((next a.spans front).any fun s => decide (front + take = s.start)) &&
      decide (a.spans.length = maxSpans)) = guard
  cases guard with
  | true => exact .inr ⟨hend, rfl⟩
  | false =>
    have hlen : ((bytes.drop (front - offset)).take take).length = take := by
      rw [List.length_take, List.length_drop]
      have hle : upToNext a.spans front (bytes.length - (front - offset)) ≤ _ :=
        Nat.min_le_right _ _
      omega
    have hfits : Fits a.spans front ((bytes.drop (front - offset)).take take).length :=
      fits_take h hno (by rw [List.length_drop]; omega)
    have hsize := size_placeJoined front ((bytes.drop (front - offset)).take take) a.spans
    rw [hlen] at hsize
    refine ⟨hend, fills_front h hfinds hfront (not_le.mp hheld) htake.symm
      (.inr ⟨bytesAt_placeJoined hfits, hsize⟩), ?_, rfl⟩
    show a.retained + take + Segments.size a.spans = _
    rw [hsize]
    omega

/-- A release of the admitted store, or its refusal, which no prefix gets. -/
theorem release_erases (a : AdmittedInput) (lo hi : ℕ) :
    match a.release lo hi with
    | .ok a' => bytesAt a'.spans = erase (bytesAt a.spans) lo hi ∧ a'.size = a.size
    | .error e => e = .inputSpanLimit maxSpans ∧ lo ≠ 0 := by
  unfold AdmittedInput.release
  by_cases hle : hi ≤ lo
  · rw [if_pos hle]
    exact ⟨(erase_of_le _ hle).symm, rfl⟩
  rw [if_neg hle]
  cases hfull : (a.spans.any fun s => decide (s.start < lo) && decide (hi < s.stop)) &&
      decide (a.spans.length = maxSpans) with
  | true =>
    refine ⟨rfl, fun hzero => ?_⟩
    rw [hzero] at hfull
    simp at hfull
  | false => exact ⟨bytesAt_cut lo hi a.spans, rfl⟩

end AdmittedInput

end

namespace Layout

/-! ### Reading -/

theorem length_splice {out l : List UInt8} {filled : ℕ} (hle : filled + l.length ≤ out.length) :
    (splice out filled l).length = out.length := by
  unfold splice
  simp only [List.length_append, List.length_take, List.length_drop]
  omega

theorem take_splice {out l : List UInt8} {filled : ℕ} (hle : filled + l.length ≤ out.length) :
    (splice out filled l).take (filled + l.length) = out.take filled ++ l := by
  unfold splice
  rw [List.take_append_of_le_length (by rw [List.length_append, List.length_take]; omega),
    List.take_of_length_le (by rw [List.length_append, List.length_take]; omega)]

theorem drop_splice {out l : List UInt8} {filled : ℕ} (hle : filled + l.length ≤ out.length) :
    (splice out filled l).drop (filled + l.length) = out.drop (filled + l.length) := by
  unfold splice
  rw [List.drop_append, List.drop_eq_nil_of_le
    (by rw [List.length_append, List.length_take]; omega), List.nil_append, List.length_append,
    List.length_take, Nat.min_eq_left (by omega), Nat.sub_self, List.drop_zero]

/-- The copy loop reads the map: what is filled stays, and the rest is read from there on. -/
theorem copyOut_eq {runs : List Coroutine.Segment} (h : Ordered runs)
    {lookup look : ℕ → Option Coroutine.Segment} (hfinds : Finds runs look) {offset : ℕ}
    (fuel : ℕ) {filled : ℕ} {out : List UInt8}
    (hsame : ∀ p, p < offset + out.length → lookup p = look p)
    (hfuel : out.length - filled ≤ fuel) :
    InputStore.copyOut lookup offset fuel filled out =
      ((readInto (bytesAt runs) (offset + filled) (out.drop filled)).1,
        out.take filled ++ (readInto (bytesAt runs) (offset + filled) (out.drop filled)).2) := by
  have hdone : ∀ {filled : ℕ} {out : List UInt8}, out.length ≤ filled →
      (true, out) = ((readInto (bytesAt runs) (offset + filled) (out.drop filled)).1,
        out.take filled ++
          (readInto (bytesAt runs) (offset + filled) (out.drop filled)).2) := by
    intro filled out hle
    rw [List.drop_eq_nil_of_le hle, List.take_of_length_le hle, readInto, List.append_nil]
  induction fuel generalizing filled out with
  | zero => exact hdone (by omega)
  | succ fuel ih =>
    rw [InputStore.copyOut]
    split
    · next hle => exact hdone hle
    · next hlt =>
      rw [hsame _ (by omega)]
      cases hlook : look (offset + filled) with
      | none =>
        have hfree : bytesAt runs (offset + filled) = none :=
          bytesAt_eq_none.mpr ((hfinds.none_iff _).mp hlook)
        have hnext : out.drop filled = out[filled] :: out.drop (filled + 1) :=
          List.drop_eq_getElem_cons (by omega)
        rw [hnext, readInto, hfree]
        dsimp only
        rw [← hnext, List.take_append_drop]
      | some seg =>
        obtain ⟨hseg, hstart, hstop⟩ := hfinds.sound _ _ hlook
        dsimp only
        generalize hlive : seg.data.drop (offset + filled - seg.start) = live
        have hlivelen : live.length = seg.stop - (offset + filled) := by
          rw [← hlive, List.length_drop]
          unfold Coroutine.Segment.stop at *
          omega
        generalize hn : min live.length (out.length - filled) = n
        have hl : (live.take n).length = n := by
          rw [List.length_take]
          omega
        have hle : filled + (live.take n).length ≤ out.length := by omega
        have hheld : ∀ i (hi : i < (live.take n).length),
            bytesAt runs (offset + filled + i) = (live.take n)[i] := by
          intro i hi
          rw [bytesAt_of_mem h hseg (by omega) (by omega), List.getElem_take,
            ← List.getElem?_eq_getElem, ← hlive, List.getElem?_drop]
          congr 1
          omega
        have hfront : ((out.drop filled).take n).length = (live.take n).length := by
          rw [List.length_take, List.length_drop]
          omega
        have hrest := @ih (filled + n) (splice out filled (live.take n))
          (by rw [length_splice hle]; exact hsame) (by rw [length_splice hle]; omega)
        have htake := take_splice hle
        have hdrop := drop_splice hle
        have hread : readInto (bytesAt runs) (offset + filled)
            ((out.drop filled).take n ++ out.drop (filled + n)) = _ :=
          readInto_append hheld hfront
        rw [hl] at htake hdrop hread
        rw [hrest, htake, hdrop, ← List.take_append_drop n (out.drop filled), List.drop_drop, hread,
          List.append_assoc, Nat.add_assoc]

/-- Past the end of the range no gap is listed. -/
theorem missing_of_le {runs : List Coroutine.Segment} {lookup : ℕ → Option Coroutine.Segment}
    {stop pos : ℕ} (h : stop ≤ pos) (fuel : ℕ) :
    Segments.missing runs lookup stop fuel pos = [] := by
  cases fuel with
  | zero => rfl
  | succ fuel => rw [Segments.missing, if_pos h]

/-- The admitted store lists the gaps of its runs. -/
theorem AdmittedInput.Valid.missing {a : AdmittedInput} (h : a.Valid) (stop fuel pos : ℕ) :
    a.missing stop fuel pos = Segments.missing a.runs (Segments.covering a.runs) stop fuel pos := by
  induction fuel generalizing pos with
  | zero => rfl
  | succ fuel ih =>
    rw [AdmittedInput.missing, Segments.missing]
    split
    · rfl
    · next hlt =>
      rw [h.covering]
      cases hcover : a.covering pos with
      | some s =>
        have hrun := h.run_stop (List.mem_of_find?_eq_some hcover)
        simp only [Option.map_some]
        rw [hrun, ih]
        by_cases hle : stop ≤ s.stop
        · rw [Nat.min_eq_right hle, missing_of_le (Nat.le_refl _), missing_of_le hle]
        · rw [Nat.min_eq_left (by omega)]
      | none =>
        have hno : ¬ Holds a.runs pos := covering_none.mp (by rw [h.covering, hcover]; rfl)
        -- no span begins where nothing is held
        have hnext : next a.runs pos =
            (a.spans.find? fun s => pos < s.start).map (Span.run a.data) := by
          unfold next AdmittedInput.runs
          rw [List.find?_map]
          congr 1
          refine List.find?_congr fun s hs => ?_
          have hlt := h.start_lt hs
          have hne : s.start ≠ pos := by
            intro heq
            refine hno ⟨s.run a.data, List.mem_map_of_mem hs, Nat.le_of_eq heq, ?_⟩
            rw [h.run_stop hs]
            omega
          simp only [Function.comp_apply, decide_eq_decide]
          show pos ≤ s.start ↔ pos < s.start
          omega
        simp only [Option.map_none]
        rw [hnext, ih]
        cases a.spans.find? fun s => pos < s.start with
        | none => simp only [Option.map_none, Option.elim_none, Nat.min_self]
        | some s => rfl

namespace InputStore

variable {s : InputStore}

/-- As the store of runs sees it. -/
def store (s : InputStore) : Coroutine.InputStore where
  admitted := s.admitted.map AdmittedInput.store
  segments := s.segmentRuns
  retained := s.retained
  cap := s.cap
  total := s.total

/-- What every operation keeps, in either layout. -/
structure Valid (s : InputStore) : Prop where
  admitted : ∀ a, s.admitted = some a → a.Valid ∧ a.data.length = s.cap
  segments : Ordered s.segmentRuns
  counted : s.retained = size s.segmentRuns
  fits : s.retained ≤ s.cap

/-- The bytes held, by offset. -/
def bytes (s : InputStore) : ℕ → Option UInt8 := bytesAt s.runs

theorem Valid.runs (h : s.Valid) : Ordered s.runs := by
  unfold InputStore.runs
  cases hadmitted : s.admitted with
  | none => exact h.segments
  | some a => exact (h.admitted a hadmitted).1.ordered

/-- The retained count is the number of held bytes. -/
theorem Valid.held_eq (h : s.Valid) : s.held = size s.runs ∧ s.held ≤ s.cap := by
  unfold InputStore.runs InputStore.held
  cases hadmitted : s.admitted with
  | none => exact ⟨h.counted, h.fits⟩
  | some a =>
    obtain ⟨ha, hsize⟩ := h.admitted a hadmitted
    have hret := ha.retained
    have hfits := ha.fits
    refine ⟨?_, hsize ▸ hfits⟩
    show a.retained = size (a.spans.map (Span.run a.data))
    rw [hret, size_runs]
    intro t ht
    have hle := ha.packed.le ht
    omega

theorem Valid.encard (h : s.Valid) : {p | Held s.bytes p}.encard = s.held := by
  rw [h.held_eq.1]
  exact encard_bytesAt h.runs

/-- Feeding the buffers is feeding their runs. -/
theorem feedSegments_store (h : Ordered s.segmentRuns) (offset : ℕ) (bytes : List UInt8) :
    let out := s.feedSegments offset bytes
    s.store.feedSegments offset bytes = (out.1, out.2.store) ∧
      out.2 = { s with segments := out.2.segments, retained := out.2.retained } := by
  have hlength : s.segmentRuns.length = s.segments.length := List.length_map _
  have hfinds := finds_segmentAt h
  intro out
  have hout : out = s.feedSegments offset bytes := rfl
  unfold InputStore.feedSegments at hout
  unfold Coroutine.InputStore.feedSegments
  rw [show s.store.segments = s.segmentRuns from rfl, hlength]
  by_cases hempty : bytes = []
  · rw [if_pos hempty] at hout ⊢
    exact ⟨by rw [hout], by rw [hout]⟩
  rw [if_neg hempty] at hout ⊢
  generalize hfront : skipHeld (segmentAt s.segmentRuns) (offset + bytes.length)
    s.segments.length offset = front at *
  dsimp only at hout ⊢
  split at hout
  · next hheld =>
    rw [if_pos hheld]
    exact ⟨by rw [hout], by rw [hout]⟩
  · next hlt =>
    rw [if_neg hlt]
    rw [show s.store.cap - s.store.retained = s.cap - s.retained from rfl]
    split at hout
    · next hzero =>
      rw [if_pos hzero]
      exact ⟨by rw [hout], by rw [hout]⟩
    · next htake =>
      rw [if_neg htake]
      generalize htake' : min (upToNext s.segmentRuns front (bytes.drop (front - offset)).length)
        (s.cap - s.retained) = take at *
      have hno : ¬ Holds s.segmentRuns front := by
        have hskip := (heldRun_skipHeld hfinds offset bytes.length).2
        rw [hlength, hfront] at hskip
        exact (hskip (not_le.mp hlt)).2
      have hlen : ((bytes.drop (front - offset)).take take).length = take := by
        rw [List.length_take]
        have hle : upToNext s.segmentRuns front (bytes.drop (front - offset)).length ≤ _ :=
          Nat.min_le_right _ _
        omega
      have hfits : Fits s.segmentRuns front ((bytes.drop (front - offset)).take take).length :=
        fits_take h hno (by omega)
      have hruns := append_runs h hfits (List.ne_nil_of_length_pos (by omega))
      rw [hout]
      refine ⟨?_, rfl⟩
      unfold store segmentRuns at *
      rw [hruns]

end InputStore

end Layout

end Zencodec.Coroutine
