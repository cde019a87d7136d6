/-
The store refines a partial byte map.

* `Meets` — what an operation answers and leaves, on the map alone;
* `step_plain`, `step_admitted` — either layout meets it, but for an admitted refusal for the
  span limit, which leaves the bytes as they were;
* `store_refines_byte_map` — over any sequence of operations, with the agreement of the two
  layouts up to the first such refusal.
-/
import Zencodec.Coroutine.Mapped

namespace Zencodec.Coroutine.Layout

open Segments SparseMap

/-- What callers pass: offsets are `u64`, and the ends of reads are checked before. -/
def Op.Fits : Op → Prop
  | .feed .. => True
  | .release .. => True
  | .releaseBefore offset => offset < u64End
  | .tryRead offset out => offset + out.length < u64End
  | .missing offset len => offset + len < u64End

instance instDecidableFits : (op : Op) → Decidable op.Fits
  | .feed .. => isTrue trivial
  | .release .. => isTrue trivial
  | .releaseBefore offset => inferInstanceAs (Decidable (offset < u64End))
  | .tryRead offset out => inferInstanceAs (Decidable (offset + out.length < u64End))
  | .missing offset len => inferInstanceAs (Decidable (offset + len < u64End))

/-- The release of a prefix. -/
def Op.IsPrefix : Op → Prop
  | .release offset _ => offset = 0
  | .releaseBefore _ => True
  | _ => False

/-- The answer refuses for the span limit. -/
def SpanLimit (answer : Answer) : Prop :=
  answer = .fed (.error (.inputSpanLimit Coroutine.AdmittedInput.maxSpans)) ∨
    answer = .released (.error (.inputSpanLimit Coroutine.AdmittedInput.maxSpans))

instance instDecidableSpanLimit (answer : Answer) : Decidable (SpanLimit answer) :=
  inferInstanceAs (Decidable (_ ∨ _))

/-- What an operation answers and leaves, where `m` is held and there is room for `room` bytes
more. -/
def Meets (m : ℕ → Option UInt8) (room : ℕ) : Op → Answer → (ℕ → Option UInt8) → Prop
  | .feed offset bytes _, answer, m' =>
    if offset + bytes.length < u64End then
      let n := accepted m room offset bytes.length
      answer = .fed (.ok n) ∧ n ≤ bytes.length ∧ m' = fill m offset (bytes.take n) ∧
        ∀ p, offset ≤ p → p < offset + n → Held m' p
    else answer = .fed (.error .inputRangeOverflow) ∧ m' = m
  | .release offset len, answer, m' =>
    if offset + len < u64End then
      answer = .released (.ok ()) ∧ m' = erase m offset (offset + len)
    else answer = .released (.error .inputRangeOverflow) ∧ m' = m
  | .releaseBefore offset, answer, m' => answer = .done ∧ m' = erase m 0 offset
  | .tryRead offset out, answer, m' =>
    ∃ read, answer = .read read ∧ m' = m ∧ read = readInto m offset out ∧
      (read.1 = true ↔ ∀ p, offset ≤ p → p < offset + out.length → Held m p) ∧
      (read.1 = true → ∀ i, i < out.length → read.2[i]? = m (offset + i))
  | .missing offset len, answer, m' =>
    ∃ gaps, answer = .gaps gaps ∧ m' = m ∧ AreGaps m offset (offset + len) gaps

/-- The map alone decides the answer and what is left. -/
theorem Meets.unique {m m₁ m₂ : ℕ → Option UInt8} {room : ℕ} {op : Op} {a₁ a₂ : Answer}
    (h₁ : Meets m room op a₁ m₁) (h₂ : Meets m room op a₂ m₂) : a₁ = a₂ ∧ m₁ = m₂ := by
  cases op with
  | feed offset bytes eof =>
    simp only [Meets] at h₁ h₂
    by_cases hend : offset + bytes.length < u64End
    · rw [if_pos hend] at h₁ h₂
      exact ⟨h₁.1.trans h₂.1.symm, h₁.2.2.1.trans h₂.2.2.1.symm⟩
    · rw [if_neg hend] at h₁ h₂
      exact ⟨h₁.1.trans h₂.1.symm, h₁.2.trans h₂.2.symm⟩
  | release offset len =>
    simp only [Meets] at h₁ h₂
    by_cases hend : offset + len < u64End
    · rw [if_pos hend] at h₁ h₂
      exact ⟨h₁.1.trans h₂.1.symm, h₁.2.trans h₂.2.symm⟩
    · rw [if_neg hend] at h₁ h₂
      exact ⟨h₁.1.trans h₂.1.symm, h₁.2.trans h₂.2.symm⟩
  | releaseBefore offset => exact ⟨h₁.1.trans h₂.1.symm, h₁.2.trans h₂.2.symm⟩
  | tryRead offset out =>
    obtain ⟨r₁, ha₁, hm₁, hr₁, -⟩ := h₁
    obtain ⟨r₂, ha₂, hm₂, hr₂, -⟩ := h₂
    exact ⟨by rw [ha₁, ha₂, hr₁, hr₂], hm₁.trans hm₂.symm⟩
  | missing offset len =>
    obtain ⟨g₁, ha₁, hm₁, hg₁⟩ := h₁
    obtain ⟨g₂, ha₂, hm₂, hg₂⟩ := h₂
    exact ⟨by rw [ha₁, ha₂, gaps_unique hg₁ hg₂], hm₁.trans hm₂.symm⟩

/-! ### Feeds and reads -/

theorem meets_feed {runs runs' : List Coroutine.Segment} {room offset n : ℕ} {bytes : List UInt8}
    {eof : Bool} (hend : offset + bytes.length < u64End)
    (h : Fills runs runs' room offset bytes n) :
    Meets (bytesAt runs) room (.feed offset bytes eof) (.fed (.ok n)) (bytesAt runs') := by
  have hle := accepted_le (bytesAt runs) room offset bytes.length
  simp only [Meets]
  rw [if_pos hend, ← h.count]
  rw [← h.count] at hle
  refine ⟨rfl, hle, h.bytes, fun p hp hlt => ?_⟩
  rw [h.bytes]
  exact held_fill hp (by rw [List.length_take, Nat.min_eq_left hle]; exact hlt)

theorem meets_tryRead {m : ℕ → Option UInt8} {room offset : ℕ} {out : List UInt8} :
    Meets m room (.tryRead offset out) (.read (readInto m offset out)) m :=
  ⟨_, rfl, rfl, rfl, readInto_isHeld m offset out, fun h _ hi => getElem?_readInto h hi⟩

namespace InputStore

variable {s : InputStore}

/-- A read of the layout in use. -/
theorem Valid.tryRead (h : s.Valid) {offset : ℕ} {out : List UInt8}
    (hfits : offset + out.length < u64End) :
    s.tryRead offset out = readInto s.bytes offset out := by
  unfold InputStore.tryRead InputStore.lookup InputStore.bytes InputStore.runs
  cases hadmitted : s.admitted with
  | none =>
    have hread : copyOut (segmentAt s.segmentRuns) offset out.length 0 out = _ :=
      copyOut_eq h.segments (finds_segmentAt h.segments) out.length (fun _ _ => rfl)
        (Nat.sub_le _ _)
    simpa using hread
  | some a =>
    have ha := (h.admitted a hadmitted).1
    have hsame : ∀ p, p < offset + out.length →
        (if p < u64End then (a.covering p).map (Span.run a.data) else none) =
          Segments.covering a.runs p := by
      intro p hp
      rw [if_pos (by omega), ha.covering]
    have hread : copyOut (fun p => if p < u64End then (a.covering p).map (Span.run a.data) else
        none) offset out.length 0 out = _ :=
      copyOut_eq ha.ordered (finds_covering a.runs) out.length hsame (Nat.sub_le _ _)
    simpa using hread

/-- The gaps of the layout in use. -/
theorem Valid.missing (h : s.Valid) (offset len : ℕ) :
    AreGaps s.bytes offset (offset + len) (s.missing offset len) := by
  unfold InputStore.missing InputStore.bytes InputStore.runs
  cases hadmitted : s.admitted with
  | none => exact areGaps_missing h.segments (finds_segmentAt h.segments) (by omega)
  | some a =>
    have ha := (h.admitted a hadmitted).1
    dsimp only [Option.elim_some]
    rw [ha.missing]
    exact areGaps_missing ha.ordered (finds_covering a.runs) (by omega)

/-! ### The plain layout -/

theorem Valid.withTotal (h : s.Valid) (total : Option ℕ) : ({ s with total } : InputStore).Valid :=
  ⟨h.admitted, h.segments, h.counted, h.fits⟩

/-- A release of segments. -/
theorem Valid.releaseLoop (h : s.Valid) (hplain : s.admitted = none) {lo hi : ℕ} (hlt : lo < hi) :
    let out := s.releaseLoop lo hi s.segments.length hi
    out.bytes = erase s.bytes lo hi ∧ out.Valid ∧ out.admitted = none ∧ out.cap = s.cap := by
  intro out
  obtain ⟨hruns, hretained, hsame⟩ := releaseLoop_runs h.segments hlt
  have hadmitted : out.admitted = none := (congrArg InputStore.admitted hsame).trans hplain
  have hcap : out.cap = s.cap := (congrArg InputStore.cap hsame).trans rfl
  have hsizes := size_cut lo hi s.segmentRuns
  have hcounted := h.counted
  have hfits := h.fits
  have hruns' : out.segmentRuns = s.segmentRuns.flatMap (cut lo hi) := hruns
  have hretained' : out.retained = s.retained - (s.segmentRuns.map (overlap lo hi)).sum :=
    hretained
  refine ⟨?_, ⟨fun a ha => ?_, ?_, ?_, ?_⟩, hadmitted, hcap⟩
  · simp only [InputStore.bytes, InputStore.runs, hadmitted, hplain, Option.elim_none]
    rw [hruns', bytesAt_cut]
  · rw [hadmitted] at ha
    cases ha
  · rw [hruns']
    exact ordered_cut h.segments lo hi
  · rw [hruns', hretained']
    omega
  · rw [hretained', hcap]
    omega

/-- A feed of segments. -/
theorem Valid.feedSegments (h : s.Valid) (hplain : s.admitted = none) (offset : ℕ)
    (bytes : List UInt8) :
    let out := s.feedSegments offset bytes
    Fills s.segmentRuns out.2.segmentRuns (s.cap - s.retained) offset bytes out.1 ∧
      out.2.Valid ∧ out.2.admitted = none ∧ out.2.cap = s.cap := by
  intro out
  obtain ⟨hstore, hsame⟩ := feedSegments_store h.segments offset bytes
  have hstore' : s.store.feedSegments offset bytes = (out.1, out.2.store) := hstore
  obtain ⟨hfills, hretained⟩ :=
    Coroutine.InputStore.feedSegments_fills (s := s.store) h.segments offset bytes
  have hwell : s.store.WellFormed := by
    refine ⟨h.segments, fun a ha => ?_⟩
    simp [store, hplain] at ha
  have hordered := (hwell.feedSegments offset bytes).segments
  rw [hstore'] at hfills hretained hordered
  have hadmitted : out.2.admitted = none := (congrArg InputStore.admitted hsame).trans hplain
  have hcap : out.2.cap = s.cap := (congrArg InputStore.cap hsame).trans rfl
  have hcounted := h.counted
  have hfits := h.fits
  have hgrows : size s.segmentRuns ≤ size out.2.segmentRuns := hfills.grows
  have hroom : size out.2.segmentRuns ≤ size s.segmentRuns + (s.cap - s.retained) := hfills.fits
  have hsum : out.2.retained + size s.segmentRuns = s.retained + size out.2.segmentRuns :=
    hretained
  refine ⟨hfills, ⟨fun a ha => ?_, hordered, by omega, by omega⟩, hadmitted, hcap⟩
  rw [hadmitted] at ha
  cases ha

theorem Valid.release_plain (h : s.Valid) (hplain : s.admitted = none) (offset len : ℕ) :
    let out := s.release offset len
    (∀ room, Meets s.bytes room (.release offset len) (.released out.1) out.2.bytes) ∧
      out.2.Valid ∧ out.2.admitted = none ∧ out.2.cap = s.cap := by
  unfold InputStore.release
  by_cases hend : offset + len < u64End
  · have hstop : checkedEnd offset len = .ok (offset + len) := if_pos hend
    rw [hstop, hplain]
    dsimp only
    by_cases hzero : len = 0
    · rw [if_pos hzero]
      refine ⟨fun room => ?_, h, hplain, rfl⟩
      simp only [Meets]
      rw [if_pos hend]
      exact ⟨trivial, (erase_of_le _ (by omega)).symm⟩
    · rw [if_neg hzero]
      obtain ⟨hbytes, hvalid, hnone, hcap⟩ :=
        h.releaseLoop hplain (show offset < offset + len by omega)
      refine ⟨fun room => ?_, hvalid, hnone, hcap⟩
      simp only [Meets]
      rw [if_pos hend]
      exact ⟨trivial, hbytes⟩
  · have hstop : checkedEnd offset len = .error .inputRangeOverflow := if_neg hend
    rw [hstop]
    refine ⟨fun room => ?_, h, hplain, rfl⟩
    simp only [Meets]
    rw [if_neg hend]
    exact ⟨trivial, trivial⟩

/-- A prefix release of segments does not fail. -/
theorem Valid.releaseBefore_plain (h : s.Valid) (hplain : s.admitted = none) {offset : ℕ}
    (hfits : offset < u64End) :
    ∃ s', s.releaseBefore offset = some s' ∧ s'.bytes = erase s.bytes 0 offset ∧ s'.Valid ∧
      s'.admitted = none ∧ s'.cap = s.cap := by
  have hbytes : s.bytes = bytesAt s.segmentRuns := by
    simp only [InputStore.bytes, InputStore.runs, hplain, Option.elim_none]
  have hnothing : (∀ p, p < offset → ¬ Holds s.segmentRuns p) →
      s.bytes = erase s.bytes 0 offset := by
    intro hno
    have hsame : erase s.bytes 0 offset = erase s.bytes offset offset := by
      refine erase_congr fun p hp => ?_
      have hle : ¬ p < offset := fun hlt => hno p hlt (held_bytesAt.mp (hbytes ▸ hp))
      omega
    rw [hsame, erase_of_le _ (Nat.le_refl offset)]
  unfold InputStore.releaseBefore
  rw [hplain]
  dsimp only
  cases hsegments : s.segments with
  | nil =>
    refine ⟨s, rfl, hnothing fun p _ => ?_, h, hplain, rfl⟩
    rintro ⟨r, hr, -⟩
    simp [segmentRuns, hsegments] at hr
  | cons first rest =>
    have hfirst : ∀ p, p < first.start → ¬ Holds s.segmentRuns p := by
      have hordered := h.segments
      rw [segmentRuns, hsegments, List.map_cons] at hordered
      rintro p hp ⟨r, hr, hle, -⟩
      rw [segmentRuns, hsegments, List.map_cons] at hr
      rcases List.mem_cons.mp hr with rfl | hr
      · rw [Segment.run_start] at hle
        omega
      · have hlt := hordered.start_lt List.mem_cons_self
        have hbefore := hordered.head r hr
        rw [Segment.run_start] at hlt
        omega
    simp only [List.head?_cons]
    by_cases hlt : first.start < offset
    · rw [if_pos hlt]
      obtain ⟨hmeets, hvalid, hnone, hcap⟩ :=
        h.release_plain hplain first.start (offset - first.start)
      have hmeet := hmeets 0
      simp only [Meets] at hmeet
      rw [show first.start + (offset - first.start) = offset by omega, if_pos hfits,
        Answer.released.injEq] at hmeet
      obtain ⟨hok, hleft⟩ := hmeet
      generalize s.release first.start (offset - first.start) = out at *
      obtain ⟨result, s'⟩ := out
      dsimp only at hok hleft hvalid hnone hcap
      subst hok
      refine ⟨s', rfl, hleft.trans (erase_congr fun p hp => ?_), hvalid, hnone, hcap⟩
      have hle : ¬ p < first.start := fun hlt => hfirst p hlt (held_bytesAt.mp (hbytes ▸ hp))
      omega
    · rw [if_neg hlt]
      exact ⟨s, rfl, hnothing fun p hp => hfirst p (by omega), h, hplain, rfl⟩

/-- What a step does to a store of one layout. -/
structure Stepped (s : InputStore) (op : Op) (out : Answer × InputStore) : Prop where
  meets : Meets s.bytes (s.cap - s.held) op out.1 out.2.bytes
  valid : out.2.Valid
  cap : out.2.cap = s.cap

/-- **The plain layout meets the map.** -/
theorem step_plain (h : s.Valid) (hplain : s.admitted = none) {op : Op} (hfits : op.Fits) :
    Stepped s op (s.step op) ∧ (s.step op).2.admitted = none := by
  have hbytes : s.bytes = bytesAt s.segmentRuns := by
    simp only [InputStore.bytes, InputStore.runs, hplain, Option.elim_none]
  have hheld : s.held = s.retained := by
    simp only [InputStore.held, hplain, Option.elim_none]
  cases op with
  | feed offset bytes eof =>
    by_cases hend : offset + bytes.length < u64End
    · have hstop : checkedEnd offset bytes.length = .ok (offset + bytes.length) := if_pos hend
      simp only [step, feed, hstop]
      generalize htotal : (if eof then { s with total := some (offset + bytes.length) } else s) =
        s₁
      have hs₁ : s₁.Valid ∧ s₁.admitted = none ∧ s₁.segmentRuns = s.segmentRuns ∧
          s₁.cap = s.cap ∧ s₁.retained = s.retained := by
        rw [← htotal]
        split
        · exact ⟨h.withTotal _, hplain, rfl, rfl, rfl⟩
        · exact ⟨h, hplain, rfl, rfl, rfl⟩
      obtain ⟨hvalid, hnone, hruns, hcap, hretained⟩ := hs₁
      obtain ⟨hfills, hout, hnone', hcap'⟩ := hvalid.feedSegments hnone offset bytes
      rw [hnone]
      dsimp only
      refine ⟨⟨?_, hout, hcap'.trans hcap⟩, hnone'⟩
      rw [hruns, hcap, hretained] at hfills
      rw [hbytes, hheld]
      simp only [InputStore.bytes, InputStore.runs, hnone', Option.elim_none]
      exact meets_feed hend hfills
    · have hstop : checkedEnd offset bytes.length = .error .inputRangeOverflow := if_neg hend
      simp only [step, feed, hstop]
      refine ⟨⟨?_, h, rfl⟩, hplain⟩
      simp only [Meets]
      rw [if_neg hend]
      exact ⟨trivial, trivial⟩
  | release offset len =>
    obtain ⟨hmeets, hvalid, hnone, hcap⟩ := h.release_plain hplain offset len
    exact ⟨⟨hmeets _, hvalid, hcap⟩, hnone⟩
  | releaseBefore offset =>
    obtain ⟨s', hs', hmeets, hvalid, hnone, hcap⟩ := h.releaseBefore_plain hplain hfits
    simp only [step, hs']
    exact ⟨⟨⟨rfl, hmeets⟩, hvalid, hcap⟩, hnone⟩
  | tryRead offset out =>
    refine ⟨⟨?_, h, rfl⟩, hplain⟩
    show Meets _ _ _ (.read (s.tryRead offset out)) _
    rw [h.tryRead hfits]
    exact meets_tryRead
  | missing offset len =>
    exact ⟨⟨⟨_, rfl, rfl, h.missing offset len⟩, h, rfl⟩, hplain⟩

/-! ### The admitted layout -/

theorem Valid.withAdmitted (h : s.Valid) {a : AdmittedInput} (ha : a.Valid)
    (hsize : a.data.length = s.cap) : ({ s with admitted := some a } : InputStore).Valid := by
  refine ⟨fun b hb => ?_, h.segments, h.counted, h.fits⟩
  obtain rfl := Option.some.inj hb
  exact ⟨ha, hsize⟩

/-- A refusal for the span limit, which leaves the bytes as they were. -/
structure Declined (s : InputStore) (op : Op) (out : Answer × InputStore) : Prop where
  limit : SpanLimit out.1
  notPrefix : ¬ op.IsPrefix
  bytes : out.2.bytes = s.bytes
  held : out.2.held = s.held
  valid : out.2.Valid
  cap : out.2.cap = s.cap

theorem Valid.feed_admitted (h : s.Valid) {a : AdmittedInput} (ha : s.admitted = some a)
    (offset : ℕ) (bytes : List UInt8) (eof : Bool) :
    let out := s.step (.feed offset bytes eof)
    (Stepped s (.feed offset bytes eof) out ∨ Declined s (.feed offset bytes eof) out) ∧
      out.2.admitted.isSome := by
  obtain ⟨hvalid, hsize⟩ := h.admitted a ha
  have hbytes : s.bytes = bytesAt a.runs := by
    simp only [InputStore.bytes, InputStore.runs, ha, Option.elim_some]
  have hheld : s.held = a.retained := by
    simp only [InputStore.held, ha, Option.elim_some]
  by_cases hend : offset + bytes.length < u64End
  · have hstop : checkedEnd offset bytes.length = .ok (offset + bytes.length) := if_pos hend
    simp only [step, feed, hstop]
    generalize htotal : (if eof then { s with total := some (offset + bytes.length) } else s) = s₁
    have hs₁ : s₁.Valid ∧ s₁.admitted = some a ∧ s₁.cap = s.cap := by
      rw [← htotal]
      split
      · exact ⟨h.withTotal _, ha, rfl⟩
      · exact ⟨h, ha, rfl⟩
    obtain ⟨hvalid₁, ha₁, hcap₁⟩ := hs₁
    have hfed := hvalid.feed offset bytes
    have hfills := Coroutine.AdmittedInput.feed_fills (a := a.store) hvalid.ordered offset bytes
    rw [ha₁]
    dsimp only
    refine ⟨?_, rfl⟩
    cases hresult : Coroutine.AdmittedInput.feed a.store offset bytes with
    | error e =>
      rw [hresult] at hfed hfills
      dsimp only at hfed hfills
      rcases hfills with ⟨hover, -⟩ | ⟨-, rfl⟩
      · omega
      rw [hfed]
      exact .inr ⟨.inl rfl, id, hbytes.symm, hheld.symm,
        hvalid₁.withAdmitted hvalid (by rw [hcap₁]; exact hsize), hcap₁⟩
    | ok fed =>
      obtain ⟨n, b⟩ := fed
      rw [hresult] at hfed hfills
      obtain ⟨a', hout, rfl, hvalid'⟩ := hfed
      obtain ⟨-, hfills, -, hsize'⟩ := hfills
      have hcap' : a'.data.length = s₁.cap := by
        rw [hcap₁, ← hsize]
        exact hsize'
      rw [hout]
      refine .inl ⟨?_, hvalid₁.withAdmitted hvalid' hcap', hcap₁⟩
      rw [hbytes, hheld, ← hsize]
      exact meets_feed hend hfills
  · have hstop : checkedEnd offset bytes.length = .error .inputRangeOverflow := if_neg hend
    simp only [step, feed, hstop]
    refine ⟨.inl ⟨?_, h, rfl⟩, by rw [ha]; rfl⟩
    simp only [Meets]
    rw [if_neg hend]
    exact ⟨trivial, trivial⟩

/-- A release of the packed buffer, or its refusal. -/
theorem Valid.release_packed (h : s.Valid) {a : AdmittedInput} (ha : s.admitted = some a)
    (lo hi : ℕ) :
    (∃ a', a.release lo hi = (.ok (), a') ∧
        ({ s with admitted := some a' } : InputStore).bytes = erase s.bytes lo hi ∧
        ({ s with admitted := some a' } : InputStore).Valid) ∨
      (a.release lo hi = (.error (.inputSpanLimit Coroutine.AdmittedInput.maxSpans), a) ∧
        lo ≠ 0) := by
  obtain ⟨hvalid, hsize⟩ := h.admitted a ha
  have hbytes : s.bytes = bytesAt a.runs := by
    simp only [InputStore.bytes, InputStore.runs, ha, Option.elim_some]
  have hreleased := hvalid.release lo hi
  have herases := a.store.release_erases lo hi
  cases hresult : Coroutine.AdmittedInput.release a.store lo hi with
  | error e =>
    rw [hresult] at hreleased herases
    obtain ⟨rfl, hne⟩ := herases
    exact .inr ⟨hreleased, hne⟩
  | ok b =>
    rw [hresult] at hreleased herases
    obtain ⟨a', hout, rfl, hvalid'⟩ := hreleased
    obtain ⟨hbytes', hsize'⟩ := herases
    refine .inl ⟨a', hout, ?_, h.withAdmitted hvalid' ?_⟩
    · rw [hbytes]
      exact hbytes'
    · rw [← hsize]
      exact hsize'

/-- **The admitted layout meets the map, or declines for the span limit.** -/
theorem step_admitted (h : s.Valid) {a : AdmittedInput} (ha : s.admitted = some a) {op : Op}
    (hfits : op.Fits) :
    (Stepped s op (s.step op) ∨ Declined s op (s.step op)) ∧ (s.step op).2.admitted.isSome := by
  have hsame : ({ s with admitted := some a } : InputStore) = s := by rw [← ha]
  cases op with
  | feed offset bytes eof => exact h.feed_admitted ha offset bytes eof
  | release offset len =>
    by_cases hend : offset + len < u64End
    · have hstop : checkedEnd offset len = .ok (offset + len) := if_pos hend
      simp only [step, release, hstop, ha]
      rcases h.release_packed ha offset (offset + len) with ⟨a', hout, hbytes, hvalid⟩ | ⟨hout, hne⟩
      · rw [hout]
        refine ⟨.inl ⟨?_, hvalid, rfl⟩, rfl⟩
        simp only [Meets]
        rw [if_pos hend]
        exact ⟨trivial, hbytes⟩
      · rw [hout]
        dsimp only
        rw [hsame]
        exact ⟨.inr ⟨.inr rfl, hne, rfl, rfl, h, rfl⟩, rfl⟩
    · have hstop : checkedEnd offset len = .error .inputRangeOverflow := if_neg hend
      simp only [step, release, hstop]
      refine ⟨.inl ⟨?_, h, rfl⟩, by rw [ha]; rfl⟩
      simp only [Meets]
      rw [if_neg hend]
      exact ⟨trivial, trivial⟩
  | releaseBefore offset =>
    rcases h.release_packed ha 0 offset with ⟨a', hout, hbytes, hvalid⟩ | ⟨-, hne⟩
    · simp only [step, releaseBefore, ha, hout]
      exact ⟨.inl ⟨⟨rfl, hbytes⟩, hvalid, rfl⟩, rfl⟩
    · exact absurd rfl hne
  | tryRead offset out =>
    refine ⟨.inl ⟨?_, h, rfl⟩, by rw [step, ha]; rfl⟩
    show Meets _ _ _ (.read (s.tryRead offset out)) _
    rw [h.tryRead hfits]
    exact meets_tryRead
  | missing offset len =>
    exact ⟨.inl ⟨⟨_, rfl, rfl, h.missing offset len⟩, h, rfl⟩, by rw [step, ha]; rfl⟩

/-! ### Runs -/

theorem valid_new (cap : ℕ) : (new cap).Valid := by
  refine ⟨fun a ha => (by cases ha), ?_, rfl, Nat.zero_le _⟩
  exact Coroutine.InputStore.ordered_nil

theorem valid_withStorage (cap : ℕ) : (withStorage cap).Valid := by
  refine (valid_new cap).withAdmitted ⟨trivial, rfl, Nat.zero_le _, ?_, Nat.zero_le _⟩ ?_
  · exact Coroutine.InputStore.ordered_nil
  · exact List.length_replicate

/-- Every step of a valid store is met or declined, and leaves the layout as it is. -/
theorem Valid.step (h : s.Valid) {op : Op} (hfits : op.Fits) :
    (Stepped s op (s.step op) ∨ s.admitted.isSome ∧ Declined s op (s.step op)) ∧
      (s.step op).2.admitted.isSome = s.admitted.isSome := by
  cases ha : s.admitted with
  | none =>
    obtain ⟨hstepped, hnone⟩ := step_plain h ha hfits
    exact ⟨.inl hstepped, by rw [hnone]⟩
  | some a =>
    obtain ⟨hstepped, hsome⟩ := step_admitted h ha hfits
    exact ⟨hstepped.imp id fun hdeclined => ⟨rfl, hdeclined⟩, by rw [hsome]; rfl⟩

theorem Valid.next (h : s.Valid) {op : Op} (hfits : op.Fits) :
    (s.step op).2.Valid ∧ (s.step op).2.cap = s.cap := by
  rcases (h.step hfits).1 with hstepped | ⟨-, hdeclined⟩
  · exact ⟨hstepped.valid, hstepped.cap⟩
  · exact ⟨hdeclined.valid, hdeclined.cap⟩

/-- What every run keeps. -/
theorem Valid.run (h : s.Valid) {ops : List Op} (hfits : ∀ op ∈ ops, op.Fits) :
    (s.run ops).2.Valid ∧ (s.run ops).2.cap = s.cap ∧
      (s.run ops).2.admitted.isSome = s.admitted.isSome := by
  induction ops generalizing s with
  | nil => exact ⟨h, rfl, rfl⟩
  | cons op ops ih =>
    have hop := hfits op List.mem_cons_self
    obtain ⟨hvalid, hcap⟩ := h.next hop
    obtain ⟨hrun, hruncap, hlayout⟩ := ih hvalid fun o ho => hfits o (List.mem_cons_of_mem op ho)
    exact ⟨hrun, hruncap.trans hcap, hlayout.trans (h.step hop).2⟩

/-- Stores of the two layouts that hold the same bytes answer alike, as long as the admitted one
does not decline. -/
theorem run_agree {t : InputStore} (hs : s.Valid) (ht : t.Valid) (hplain : s.admitted = none)
    (hbytes : s.bytes = t.bytes) (hcap : s.cap = t.cap) {ops : List Op}
    (hfits : ∀ op ∈ ops, op.Fits) (n : ℕ)
    (hlimit : ∀ answer ∈ (t.run ops).1.take n, ¬ SpanLimit answer.1) :
    (s.run ops).1.take n = (t.run ops).1.take n := by
  have hheld : ∀ {s t : InputStore}, s.Valid → t.Valid → s.bytes = t.bytes → s.held = t.held := by
    intro s t hs ht hbytes
    have hcard := hs.encard
    rw [hbytes, ht.encard] at hcard
    exact (Nat.cast_injective hcard).symm
  induction ops generalizing s t n with
  | nil => rfl
  | cons op ops ih =>
    cases n with
    | zero => rfl
    | succ n =>
      have hop := hfits op List.mem_cons_self
      simp only [InputStore.run, List.take_succ_cons] at hlimit ⊢
      obtain ⟨hmeets, hnone⟩ := step_plain hs hplain hop
      have hfirst := hlimit _ List.mem_cons_self
      have hmeets' : Stepped t op (t.step op) := by
        rcases (ht.step hop).1 with hstepped | ⟨-, hdeclined⟩
        · exact hstepped
        · exact absurd hdeclined.limit hfirst
      have hspec := hmeets.meets
      rw [hbytes, hcap, hheld hs ht hbytes] at hspec
      obtain ⟨hanswer, hleft⟩ := hspec.unique hmeets'.meets
      rw [hanswer, hheld hmeets.valid hmeets'.valid hleft,
        ih hmeets.valid hmeets'.valid hnone hleft
          (hmeets.cap.trans (hcap.trans hmeets'.cap.symm))
          (fun o ho => hfits o (List.mem_cons_of_mem op ho)) n
          fun answer h => hlimit answer (List.mem_cons_of_mem _ h)]

end InputStore

/-- **The store refines a partial byte map**, in either layout and over any sequence of
operations; the layouts agree up to the first refusal for the span limit. -/
theorem store_refines_byte_map (cap : ℕ) (ops : List Op) (hfits : ∀ op ∈ ops, op.Fits) :
    (∀ s₀, s₀ = InputStore.new cap ∨ s₀ = InputStore.withStorage cap →
      let s := (s₀.run ops).2
      (∀ p, s₀.bytes p = none) ∧
      {p | Held s.bytes p}.encard = s.held ∧ s.held ≤ max cap 1 ∧
      ∀ op : Op, op.Fits → Meets s.bytes (max cap 1 - s.held) op (s.step op).1 (s.step op).2.bytes ∨
        s₀ = InputStore.withStorage cap ∧ SpanLimit (s.step op).1 ∧ ¬ op.IsPrefix ∧
          (s.step op).2.bytes = s.bytes) ∧
    ∀ n, (∀ answer ∈ ((InputStore.withStorage cap).run ops).1.take n, ¬ SpanLimit answer.1) →
      ((InputStore.new cap).run ops).1.take n =
        ((InputStore.withStorage cap).run ops).1.take n := by
  refine ⟨fun s₀ hs₀ => ?_, fun n => ?_⟩
  · have hinit : s₀.Valid ∧ s₀.cap = max cap 1 ∧ (∀ p, s₀.bytes p = none) ∧
        (s₀.admitted.isSome → s₀ = InputStore.withStorage cap) := by
      rcases hs₀ with rfl | rfl
      · exact ⟨InputStore.valid_new cap, rfl, fun _ => rfl, fun h => by cases h⟩
      · exact ⟨InputStore.valid_withStorage cap, rfl, fun _ => rfl, fun _ => rfl⟩
    obtain ⟨hvalid, hcap, hempty, hlayout⟩ := hinit
    obtain ⟨hrun, hruncap, hsome⟩ := hvalid.run hfits
    rw [hcap] at hruncap
    refine ⟨hempty, hrun.encard, hruncap ▸ hrun.held_eq.2, fun op hop => ?_⟩
    rcases (hrun.step hop).1 with hstepped | ⟨hadmitted, hdeclined⟩
    · exact .inl (hruncap ▸ hstepped.meets)
    · rw [hsome] at hadmitted
      exact .inr ⟨hlayout hadmitted, hdeclined.limit, hdeclined.notPrefix, hdeclined.bytes⟩
  · exact InputStore.run_agree (InputStore.valid_new cap) (InputStore.valid_withStorage cap) rfl
      rfl rfl hfits n

/-- A gap is filled from both sides, over bytes that are held, up to the cap. -/
def refills : List Op :=
  [.feed 0 [1, 2, 3] false, .feed 6 [9, 9] true, .missing 0 9, .release 1 1,
    .feed 0 [7, 7, 7, 7] false, .tryRead 0 [0, 0, 0], .feed 3 [4, 5, 6] false, .releaseBefore 7,
    .feed 3 [4, 5, 6] false, .missing 0 9]

theorem store_refines_refills : ((InputStore.new 5).run refills).1.take 10 =
    ((InputStore.withStorage 5).run refills).1.take 10 :=
  (store_refines_byte_map 5 refills (by decide)).2 10 (by decide +kernel)

end Zencodec.Coroutine.Layout
