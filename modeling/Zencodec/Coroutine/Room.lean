/-
What reads ask for, and what the decoder takes of it.

* `Asked` — the requests of reads name bytes that the store does not hold;
* `absorb_full`, `absorb_room` — of an input that starts at a request, a full store takes nothing,
  and a store with room takes a byte.
-/
import Zencodec.Coroutine.Ordered
import Zencodec.Coroutine.Rules

namespace Zencodec.Coroutine

open Segments

variable {δ χ ρ : Type} {s : InputStore}

/-! ### What reads ask for -/

/-- A stretch of bytes that the store does not hold. -/
structure Gap (s : InputStore) (offset length : ℕ) : Prop where
  pos : 0 < length
  stop : offset + length < u64End
  missing : ∀ p, offset ≤ p → p < offset + length → ¬ s.Holds p

/-- The requests of reads: gaps, or one request to read ahead from a gap. -/
inductive Asked (s : InputStore) : List InputRequest → Prop
  | ahead (offset minLen : ℕ) (h : ¬ s.Holds offset) : Asked s [.atLeast offset minLen]
  | gaps {needs : List InputRequest}
      (h : ∀ r ∈ needs, ∃ offset length, r = .range offset length ∧ Gap s offset length) :
      Asked s needs

theorem missing_gap (h : s.WellFormed) {offset len : ℕ} (hend : offset + len < u64End)
    {gap : ℕ × ℕ} (hgap : gap ∈ s.missing offset len) : Gap s gap.1 gap.2 := by
  obtain ⟨hpos, hstop, hmissing⟩ := missing_not_held h.runs h.finds hgap
  exact ⟨hpos, by omega, hmissing⟩

/-- What a read that waits asks for. -/
theorem checkRead_some {sequential : Bool} {offset len : ℕ} {requests : List InputRequest}
    (h : checkRead s sequential offset len = .ok (some requests)) :
    offset + len < u64End ∧ s.tryRead offset len = none ∧
      requests = if sequential then
          [.atLeast ((s.missing offset len).head?.elim offset Prod.fst)
            (offset + len - (s.missing offset len).head?.elim offset Prod.fst)]
        else (s.missing offset len).map fun g => .range g.1 g.2 := by
  unfold checkRead at h
  cases hend : checkedEnd offset len with
  | error e =>
    rw [hend] at h
    cases h
  | ok stop =>
    have hstop : offset + len < u64End := by
      unfold checkedEnd at hend
      split at hend
      · assumption
      · cases hend
    simp only [hend, bind, Except.bind, throw, throwThe, MonadExceptOf.throw] at h
    split at h
    · cases h
    · split at h
      · cases h
      · next hread =>
        have hnone : s.tryRead offset len = none := Option.not_isSome_iff_eq_none.mp hread
        split at h
        · cases h
        · split at h
          · next hsequential =>
            rw [if_pos hsequential]
            exact ⟨hstop, hnone, (Option.some.inj (Except.ok.inj h)).symm⟩
          · next hsequential =>
            rw [if_neg hsequential]
            exact ⟨hstop, hnone, (Option.some.inj (Except.ok.inj h)).symm⟩

theorem asked_checkReads (h : s.WellFormed) (spans : List (ℕ × ℕ)) :
    ∀ r ∈ (checkReads s false spans).1, ∃ offset length, r = .range offset length ∧
      Gap s offset length := by
  induction spans with
  | nil => exact fun r hr => by cases hr
  | cons span rest ih =>
    obtain ⟨offset, len⟩ := span
    rw [checkReads]
    cases hcheck : checkRead s false offset len with
    | error e => exact fun r hr => by cases hr
    | ok requests =>
      cases requests with
      | none => exact ih
      | some requests =>
        intro r hr
        rcases List.mem_append.mp hr with hr | hr
        · obtain ⟨hend, -, hrequests⟩ := checkRead_some hcheck
          rw [if_neg Bool.false_ne_true] at hrequests
          rw [hrequests] at hr
          obtain ⟨gap, hgap, rfl⟩ := List.mem_map.mp hr
          exact ⟨gap.1, gap.2, rfl, missing_gap h hend hgap⟩
        · exact ih r hr

/-- Reads ask for what is missing. -/
theorem asked_reads (h : s.WellFormed) (reads : Reads) :
    Asked s (checkReads s reads.isSequential reads.spans).1 := by
  cases reads with
  | one offset len => exact .gaps (asked_checkReads h _)
  | many reqs => exact .gaps (asked_checkReads h _)
  | sequential offset len =>
    show Asked s (checkReads s true [(offset, len)]).1
    rw [checkReads]
    cases hcheck : checkRead s true offset len with
    | error e => exact .gaps fun r hr => by cases hr
    | ok requests =>
      cases requests with
      | none => exact .gaps fun r hr => by cases hr
      | some requests =>
        obtain ⟨hend, hread, hrequests⟩ := checkRead_some hcheck
        rw [if_pos rfl] at hrequests
        subst hrequests
        -- a read that is not possible leaves a gap
        have hne : s.missing offset len ≠ [] := missing_ne_nil hread
        obtain ⟨gap, gaps, hmissing⟩ := List.exists_cons_of_ne_nil hne
        have hfirst : gap ∈ s.missing offset len := by rw [hmissing]; exact List.mem_cons_self
        have hgap := missing_gap h hend hfirst
        rw [hmissing]
        have hno := hgap.missing gap.1 (Nat.le_refl _) (by have := hgap.pos; omega)
        exact .ahead gap.1 _ hno

/-! ### What is taken of an input -/

variable {input : Input}

/-- An input that the address space holds, which starts where a request does. -/
structure Named (needs : List InputRequest) (input : Input) : Prop where
  bytes : input.bytes ≠ []
  stop : input.offset + input.bytes.length < u64End
  named : ∃ r ∈ needs, (∃ minLen, r = .atLeast input.offset minLen) ∨
    ∃ length, r = .range input.offset length

theorem Named.stop_eq {needs : List InputRequest} (h : Named needs input) :
    input.stop = input.offset + input.bytes.length := by
  have hstop := h.stop
  unfold Input.stop
  omega

/-- The bytes of an input from `lo` to `hi`. -/
def Input.slice (input : Input) (lo hi : ℕ) : List UInt8 :=
  (input.bytes.drop (lo - input.offset)).take (hi - lo)

theorem length_slice (lo hi : ℕ) (hlo : input.offset ≤ lo) (hhi : hi ≤ input.stop) :
    (input.slice lo hi).length = hi - lo := by
  unfold Input.slice Input.stop at *
  rw [List.length_take, List.length_drop]
  omega

/-! Of a range, the needs take the part from `max offset front` on. -/

section range

variable {front offset length takenTo : ℕ} {rest : List InputRequest}

theorem feedNeeds_skip (hstop : offset + length < u64End)
    (hskip : min (offset + length) input.stop ≤ max offset front) :
    feedNeeds input front (.range offset length :: rest) takenTo s =
      feedNeeds input front rest takenTo s := by
  have hend : min (offset + length) (u64End - 1) = offset + length := by omega
  rw [feedNeeds]
  simp only [InputRequest.span, hend]
  rw [if_pos hskip]

theorem feedNeeds_error (hstop : offset + length < u64End)
    (htake : ¬ min (offset + length) input.stop ≤ max offset front) {e : InputError}
    (hfeed : s.feed (max offset front)
      (input.slice (max offset front) (min (offset + length) input.stop)) = .error e) :
    feedNeeds input front (.range offset length :: rest) takenTo s = (.error e, s) := by
  have hend : min (offset + length) (u64End - 1) = offset + length := by omega
  unfold Input.slice at hfeed
  rw [feedNeeds]
  simp only [InputRequest.span, hend]
  rw [if_neg htake]
  simp only [hfeed]

theorem feedNeeds_ok (hstop : offset + length < u64End)
    (htake : ¬ min (offset + length) input.stop ≤ max offset front) {stored : ℕ}
    {s' : InputStore} (hfeed : s.feed (max offset front)
      (input.slice (max offset front) (min (offset + length) input.stop)) = .ok (stored, s')) :
    feedNeeds input front (.range offset length :: rest) takenTo s =
      if stored = (input.slice (max offset front) (min (offset + length) input.stop)).length then
        feedNeeds input front rest (max takenTo (max offset front + stored)) s'
      else (.ok (max takenTo (max offset front + stored)), s') := by
  have hend : min (offset + length) (u64End - 1) = offset + length := by omega
  unfold Input.slice at hfeed ⊢
  rw [feedNeeds]
  simp only [InputRequest.span, hend]
  rw [if_neg htake]
  simp only [hfeed, Bool.or_false, decide_eq_true_eq]

end range

variable {needs : List InputRequest}

/-- What is fed never shrinks what is held, nor what was taken. -/
theorem feedNeeds_mono {front takenTo t : ℕ} {s s' : InputStore}
    (h : feedNeeds input front needs takenTo s = (.ok t, s')) : takenTo ≤ t ∧ s.held ≤ s'.held := by
  induction needs generalizing takenTo s with
  | nil =>
    cases h
    exact ⟨Nat.le_refl _, Nat.le_refl _⟩
  | cons r rest ih =>
    rw [feedNeeds] at h
    cases hspan : r.span input with
    | none =>
      rw [hspan] at h
      exact ih h
    | some span =>
      obtain ⟨offset, stop, sequential⟩ := span
      simp only [hspan] at h
      split at h
      · exact ih h
      · split at h
        · cases h
        · next stored store hfeed =>
          have hheld := InputStore.held_feed hfeed
          split at h
          · obtain ⟨htaken, hrest⟩ := ih h
            exact ⟨by omega, by omega⟩
          · cases h
            exact ⟨by omega, hheld⟩

theorem Gap.fresh {offset length front : ℕ} (h : Gap s offset length)
    (htake : ¬ min (offset + length) input.stop ≤ max offset front) :
    ¬ s.Holds (max offset front) :=
  h.missing _ (by omega) (by omega)

/-- A full store takes nothing of gaps, and passes over what comes before the first. -/
theorem feedNeeds_full (h : s.WellFormed) (hfull : s.cap ≤ s.held) {front : ℕ}
    (hfront : input.offset ≤ front)
    (hneeds : ∀ r ∈ needs, ∃ offset length, r = .range offset length ∧ Gap s offset length) :
    ∃ t, front ≤ t ∧ feedNeeds input front needs front s = (.ok t, s) ∧
      feedNeeds input t needs t s = (.ok t, s) := by
  induction needs with
  | nil => exact ⟨front, Nat.le_refl _, rfl, rfl⟩
  | cons r rest ih =>
    obtain ⟨offset, length, rfl, hgap⟩ := hneeds r List.mem_cons_self
    by_cases hskip : min (offset + length) input.stop ≤ max offset front
    · obtain ⟨t, ht, hfirst, hsecond⟩ := ih fun r hr => hneeds r (List.mem_cons_of_mem _ hr)
      refine ⟨t, ht, ?_, ?_⟩
      · rw [feedNeeds_skip hgap.stop hskip]
        exact hfirst
      · rw [feedNeeds_skip hgap.stop (by omega)]
        exact hsecond
    · -- the store stops here, and would stop here again
      have hstop : input.stop < u64End := by
        unfold Input.stop
        unfold u64End
        omega
      have hlen := length_slice (max offset front) _ (by omega)
        (Nat.min_le_right (offset + length) input.stop)
      have hfeed : s.feed (max offset front)
          (input.slice (max offset front) (min (offset + length) input.stop)) = .ok (0, s) :=
        InputStore.feed_full h (hgap.fresh hskip) (by omega)
          (List.ne_nil_of_length_pos (by omega)) hfull
      have hsame : max offset (max offset front) = max offset front := by omega
      refine ⟨max offset front, by omega, ?_, ?_⟩
      · rw [feedNeeds_ok hgap.stop hskip hfeed, if_neg (by omega)]
        congr 2
        omega
      · rw [feedNeeds_ok hgap.stop (by rw [hsame]; exact hskip) (by rw [hsame]; exact hfeed),
          hsame, if_neg (by omega)]
        congr 2
        omega

/-- A store with room takes a byte of the first gap that the input reaches. -/
theorem feedNeeds_room (h : s.WellFormed) (hroom : s.held < s.cap) {front takenTo : ℕ}
    (hfront : input.offset ≤ front)
    (hneeds : ∀ r ∈ needs, ∃ offset length, r = .range offset length ∧ Gap s offset length)
    (hreached : ∃ offset length, .range offset length ∈ needs ∧
      ¬ min (offset + length) input.stop ≤ max offset front) :
    (∃ e s', feedNeeds input front needs takenTo s = (.error e, s')) ∨
    ∃ t s', feedNeeds input front needs takenTo s = (.ok t, s') ∧ front < t ∧ s.held < s'.held := by
  induction needs with
  | nil =>
    obtain ⟨_, _, hmem, -⟩ := hreached
    cases hmem
  | cons r rest ih =>
    obtain ⟨offset, length, rfl, hgap⟩ := hneeds r List.mem_cons_self
    by_cases hskip : min (offset + length) input.stop ≤ max offset front
    · rw [feedNeeds_skip hgap.stop hskip]
      refine ih (fun r hr => hneeds r (List.mem_cons_of_mem _ hr)) ?_
      obtain ⟨o, l, hmem, htake⟩ := hreached
      rcases List.mem_cons.mp hmem with heq | hmem
      · obtain ⟨rfl, rfl⟩ := InputRequest.range.inj heq
        exact absurd hskip htake
      · exact ⟨o, l, hmem, htake⟩
    · have hstop : input.stop < u64End := by
        unfold Input.stop
        unfold u64End
        omega
      have hlen := length_slice (max offset front) _ (by omega)
        (Nat.min_le_right (offset + length) input.stop)
      have hslice : input.slice (max offset front) (min (offset + length) input.stop) ≠ [] :=
        List.ne_nil_of_length_pos (by omega)
      rcases InputStore.feed_room h (hgap.fresh hskip) (by omega) hslice hroom with
        ⟨e, he⟩ | ⟨n, s', hfeed, hpos, hheld⟩
      · exact .inl ⟨e, s, feedNeeds_error hgap.stop hskip he⟩
      · rw [feedNeeds_ok hgap.stop hskip hfeed]
        split
        · -- the others may take more, or refuse
          cases hrest : feedNeeds input front rest (max takenTo (max offset front + n)) s' with
          | mk r s'' =>
            cases r with
            | error e => exact .inl ⟨e, s'', rfl⟩
            | ok t =>
              obtain ⟨htaken, hmore⟩ := feedNeeds_mono hrest
              exact .inr ⟨t, s'', rfl, by omega, by omega⟩
        · exact .inr ⟨_, s', rfl, by omega, by omega⟩

/-- Reading ahead, of an input that starts at the request. -/
theorem feedNeeds_ahead (minLen : ℕ) {stored : ℕ} {s' : InputStore} (hnamed : Named needs input)
    (hfeed : s.feed input.offset input.bytes = .ok (stored, s')) :
    feedNeeds input input.offset [.atLeast input.offset minLen] input.offset s =
      (.ok (input.offset + stored), s') := by
  have hstop := hnamed.stop_eq
  have hpos := List.length_pos_of_ne_nil hnamed.bytes
  have hslice : (input.bytes.drop (input.offset - input.offset)).take
      (input.offset + input.bytes.length - input.offset) = input.bytes := by
    rw [Nat.sub_self, List.drop_zero, Nat.add_sub_cancel_left, List.take_length]
  rw [feedNeeds]
  simp only [InputRequest.span, hstop, Nat.max_self, Nat.min_self]
  rw [if_neg (by omega), hslice]
  simp only [hfeed, Bool.or_true, if_true, feedNeeds]
  congr 2
  omega

theorem feedNeeds_ahead_error {minLen : ℕ} {e : InputError} (hnamed : Named needs input)
    (hfeed : s.feed input.offset input.bytes = .error e) :
    feedNeeds input input.offset [.atLeast input.offset minLen] input.offset s = (.error e, s) := by
  have hstop := hnamed.stop_eq
  have hpos := List.length_pos_of_ne_nil hnamed.bytes
  have hslice : (input.bytes.drop (input.offset - input.offset)).take
      (input.offset + input.bytes.length - input.offset) = input.bytes := by
    rw [Nat.sub_self, List.drop_zero, Nat.add_sub_cancel_left, List.take_length]
  rw [feedNeeds]
  simp only [InputRequest.span, hstop, Nat.max_self, Nat.min_self]
  rw [if_neg (by omega), hslice]
  simp only [hfeed]

/-- What a full store leaves of an input that starts at a request. -/
theorem needs_full (h : s.WellFormed) (hfull : s.cap ≤ s.held) (hasked : Asked s needs)
    (hnamed : Named needs input) :
    ∃ n, feedNeeds input input.offset needs input.offset s = (.ok (input.offset + n), s) ∧
      feedNeeds input (input.offset + n) needs (input.offset + n) s =
        (.ok (input.offset + n), s) := by
  cases hasked with
  | ahead offset minLen hno =>
    obtain ⟨r, hr, hstart⟩ := hnamed.named
    obtain rfl := List.mem_singleton.mp hr
    rcases hstart with ⟨_, heq⟩ | ⟨_, heq⟩
    · obtain ⟨rfl, -⟩ := InputRequest.atLeast.inj heq
      have hfeed := feedNeeds_ahead minLen hnamed
        (InputStore.feed_full h hno hnamed.stop hnamed.bytes hfull)
      exact ⟨0, hfeed, hfeed⟩
    · cases heq
  | gaps hgaps =>
    obtain ⟨t, ht, hfirst, hsecond⟩ := feedNeeds_full h hfull (Nat.le_refl input.offset) hgaps
    obtain ⟨n, rfl⟩ := Nat.exists_eq_add_of_le ht
    exact ⟨n, hfirst, hsecond⟩

/-- What a store with room takes of it. -/
theorem needs_room (h : s.WellFormed) (hroom : s.held < s.cap) (hasked : Asked s needs)
    (hnamed : Named needs input) :
    (∃ e s', feedNeeds input input.offset needs input.offset s = (.error e, s')) ∨
    ∃ t s', feedNeeds input input.offset needs input.offset s = (.ok t, s') ∧ input.offset < t ∧
      s.held < s'.held := by
  obtain ⟨r, hr, hstart⟩ := hnamed.named
  cases hasked with
  | ahead offset minLen hno =>
    obtain rfl := List.mem_singleton.mp hr
    rcases hstart with ⟨_, heq⟩ | ⟨_, heq⟩
    · obtain ⟨rfl, -⟩ := InputRequest.atLeast.inj heq
      rcases InputStore.feed_room h hno hnamed.stop hnamed.bytes hroom with
        ⟨e, he⟩ | ⟨n, s', hfeed, hpos, hheld⟩
      · exact .inl ⟨e, s, feedNeeds_ahead_error hnamed he⟩
      · exact .inr ⟨_, s', feedNeeds_ahead minLen hnamed hfeed, by omega, by omega⟩
    · cases heq
  | gaps hgaps =>
    refine feedNeeds_room h hroom (Nat.le_refl _) hgaps ?_
    obtain ⟨offset, length, heq, hgap⟩ := hgaps r hr
    rcases hstart with ⟨_, hstart⟩ | ⟨_, hstart⟩
    · rw [hstart] at heq
      cases heq
    · rw [hstart] at heq hr
      obtain ⟨rfl, rfl⟩ := InputRequest.range.inj heq
      have hpos := hgap.pos
      have hbytes := List.length_pos_of_ne_nil hnamed.bytes
      have hstop := hnamed.stop_eq
      exact ⟨_, _, hr, by omega⟩

/-! ### What the decoder takes -/

variable {shared : Shared δ χ ρ}

/-- An input whose bytes are all taken teaches its total length. -/
theorem absorb_behind (hnamed : Named needs input) {start : ℕ}
    (hstart : start ≤ input.bytes.length) (hle : input.stop ≤ input.offset + start) :
    absorb shared input start =
      (.ok start, { shared with input := shared.input.learnTotal input.totalLen }) := by
  have hstop := hnamed.stop
  have hfront : checkedEnd input.offset start = .ok (input.offset + start) := if_pos (by omega)
  have hend : checkedEnd input.offset input.bytes.length =
      .ok (input.offset + input.bytes.length) := if_pos hstop
  unfold absorb
  simp only [hfront, hend]
  exact if_pos hle

/-- What the store takes of the rest of an input. -/
theorem absorb_ok (hnamed : Named needs input) {start takenTo : ℕ} {store : InputStore}
    (hstart : start ≤ input.bytes.length) (hlt : ¬ input.stop ≤ input.offset + start)
    (hfeed : feedNeeds input (input.offset + start) shared.need (input.offset + start)
      (shared.input.learnTotal input.totalLen) = (.ok takenTo, store)) :
    absorb shared input start = (.ok (takenTo - input.offset), { shared with input := store }) := by
  have hstop := hnamed.stop
  have hfront : checkedEnd input.offset start = .ok (input.offset + start) := if_pos (by omega)
  have hend : checkedEnd input.offset input.bytes.length =
      .ok (input.offset + input.bytes.length) := if_pos hstop
  unfold absorb
  simp only [hfront, hend]
  rw [if_neg hlt]
  simp only [hfeed]

theorem absorb_error (hnamed : Named needs input) {start : ℕ} {e : InputError}
    {store : InputStore} (hstart : start ≤ input.bytes.length)
    (hlt : ¬ input.stop ≤ input.offset + start)
    (hfeed : feedNeeds input (input.offset + start) shared.need (input.offset + start)
      (shared.input.learnTotal input.totalLen) = (.error e, store)) :
    absorb shared input start = (.error e, { shared with input := store, need := [] }) := by
  have hstop := hnamed.stop
  have hfront : checkedEnd input.offset start = .ok (input.offset + start) := if_pos (by omega)
  have hend : checkedEnd input.offset input.bytes.length =
      .ok (input.offset + input.bytes.length) := if_pos hstop
  unfold absorb
  simp only [hfront, hend]
  rw [if_neg hlt]
  simp only [hfeed]

end Zencodec.Coroutine
