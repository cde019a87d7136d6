/-
The bytes of the store, by position.

* `Segments.bytesAt` — the partial byte map of a list of runs;
* `bytesAt_place`, `bytesAt_placeJoined`, `bytesAt_cut` — new bytes fill it, a release erases it;
* `encard_bytesAt` — as many positions are held as the runs have bytes;
* `accepted_of_front`, `areGaps_missing` — what a feed accepts and which gaps are listed, read
  off the map.
-/
import Zencodec.Lib.SparseMap
import Zencodec.Coroutine.Ordered

namespace Zencodec.Coroutine

namespace Segments

open SparseMap

/-- The held bytes, by position. -/
def bytesAt : List Segment → ℕ → Option UInt8
  | [], _ => none
  | s :: rest, p => (stretch s.start s.data p).or (bytesAt rest p)

variable {segments : List Segment} {pos : ℕ} {bytes : List UInt8}

@[simp] theorem bytesAt_nil (p : ℕ) : bytesAt [] p = none := rfl

theorem bytesAt_cons (s : Segment) (segments : List Segment) (p : ℕ) :
    bytesAt (s :: segments) p = (stretch s.start s.data p).or (bytesAt segments p) := rfl

theorem bytesAt_append (l l' : List Segment) (p : ℕ) :
    bytesAt (l ++ l') p = (bytesAt l p).or (bytesAt l' p) := by
  induction l with
  | nil => rfl
  | cons s l ih => rw [List.cons_append, bytesAt_cons, bytesAt_cons, ih, Option.or_assoc]

theorem held_segment {s : Segment} {p : ℕ} :
    Held (stretch s.start s.data) p ↔ s.start ≤ p ∧ p < s.stop :=
  held_stretch

theorem held_or {m m' : ℕ → Option UInt8} {p : ℕ} :
    (m p).or (m' p) ≠ none ↔ Held m p ∨ Held m' p := by
  unfold Held
  cases m p <;> simp

/-- The map holds where a run does. -/
theorem held_bytesAt {p : ℕ} : Held (bytesAt segments) p ↔ Holds segments p := by
  induction segments with
  | nil => simp [Held, Holds]
  | cons s rest ih =>
    show (stretch s.start s.data p).or (bytesAt rest p) ≠ none ↔ _
    rw [held_or, held_segment, ih]
    simp [Holds]

theorem bytesAt_eq_none {p : ℕ} : bytesAt segments p = none ↔ ¬ Holds segments p := by
  rw [← held_bytesAt, Held, not_not]

/-- Where two maps hold nothing in common, their order is all one. -/
theorem or_comm_of {m m' : ℕ → Option UInt8} {p : ℕ} (h : Held m p → ¬ Held m' p) :
    (m p).or (m' p) = (m' p).or (m p) := by
  unfold Held at h
  cases hm : m p with
  | none => simp
  | some c =>
    have hm' := not_not.mp (h (by simp [hm]))
    simp [hm']

/-- The bytes of a run, read off the map. -/
theorem bytesAt_of_mem (h : Ordered segments) {s : Segment} (hs : s ∈ segments) {p : ℕ}
    (hstart : s.start ≤ p) (hstop : p < s.stop) :
    bytesAt segments p = s.data[p - s.start]? := by
  induction segments with
  | nil => cases hs
  | cons t rest ih =>
    rw [bytesAt_cons]
    rcases List.mem_cons.mp hs with rfl | hs
    · have hrest : bytesAt rest p = none := by
        rw [bytesAt_eq_none]
        rintro ⟨u, hu, hle, -⟩
        have hbefore := h.head u hu
        omega
      rw [hrest, Option.or_none, stretch, if_pos hstart]
    · have hbefore := h.head s hs
      have hnone : stretch t.start t.data p = none := by
        by_contra hheld
        have hin := held_segment.mp hheld
        omega
      rw [hnone, Option.none_or, ih h.tail hs]

/-! ### New bytes -/

/-- New bytes are apart from what is held. -/
theorem Fits.apart (hfits : Fits segments pos bytes.length) {p : ℕ} :
    Held (stretch pos bytes) p → ¬ Held (bytesAt segments) p := by
  intro hheld hholds
  obtain ⟨s, hs, hstart, hstop⟩ := held_bytesAt.mp hholds
  have hin := held_stretch.mp hheld
  have hroom := hfits s hs
  omega

theorem bytesAt_extend (s : Segment) (hstop : s.stop = pos)
    (hfits : Fits segments pos bytes.length) (p : ℕ) :
    bytesAt (⟨s.start, s.data ++ bytes⟩ :: segments) p =
      fill (bytesAt (s :: segments)) pos bytes p := by
  rw [bytesAt_cons, fill, bytesAt_cons, stretch_append, Option.or_assoc, Option.or_assoc,
    show s.start + s.data.length = pos from hstop, or_comm_of hfits.apart]

theorem bytesAt_before (hfits : Fits segments pos bytes.length) (p : ℕ) :
    bytesAt (⟨pos, bytes⟩ :: segments) p = fill (bytesAt segments) pos bytes p := by
  rw [bytesAt_cons, fill, or_comm_of hfits.apart]

theorem bytesAt_place (hfits : Fits segments pos bytes.length) :
    bytesAt (place pos bytes segments) = fill (bytesAt segments) pos bytes := by
  funext p
  induction segments with
  | nil => exact bytesAt_before hfits p
  | cons s rest ih =>
    rw [place]
    split
    · next hstop => exact bytesAt_extend s hstop hfits.tail p
    · split
      · rw [bytesAt_cons, ih hfits.tail, fill, fill, bytesAt_cons, Option.or_assoc]
      · exact bytesAt_before hfits p

theorem bytesAt_join (s : Segment) (p : ℕ) :
    bytesAt (join s segments) p = bytesAt (s :: segments) p := by
  cases segments with
  | nil => rfl
  | cons t rest =>
    rw [join]
    split
    · next hstop =>
      rw [bytesAt_cons, bytesAt_cons, bytesAt_cons, stretch_append, Option.or_assoc,
        show s.start + s.data.length = t.start from hstop]
    · rfl

theorem bytesAt_placeJoined (hfits : Fits segments pos bytes.length) :
    bytesAt (placeJoined pos bytes segments) = fill (bytesAt segments) pos bytes := by
  funext p
  induction segments with
  | nil => exact bytesAt_before hfits p
  | cons s rest ih =>
    rw [placeJoined]
    split
    · next hstop => rw [bytesAt_join, bytesAt_extend s hstop hfits.tail]
    · split
      · rw [bytesAt_cons, ih hfits.tail, fill, fill, bytesAt_cons, Option.or_assoc]
      · rw [bytesAt_join, bytesAt_before hfits]

/-! ### Releases -/

theorem bytesAt_front (lo : ℕ) (s : Segment) (p : ℕ) :
    bytesAt (if max lo s.start = s.start then []
      else [⟨s.start, s.data.take (max lo s.start - s.start)⟩]) p =
      if p < lo then stretch s.start s.data p else none := by
  split
  · next hstart =>
    rw [bytesAt_nil]
    split
    · next hlt =>
      by_contra hne
      have hin := held_segment.mp (Ne.symm hne)
      omega
    · rfl
  · next hstart =>
    rw [bytesAt_cons, bytesAt_nil, Option.or_none, stretch_take,
      show s.start + (max lo s.start - s.start) = lo by omega]

theorem bytesAt_tail {hi : ℕ} {s : Segment} (hle : s.start ≤ min hi s.stop) (p : ℕ) :
    bytesAt (if min hi s.stop = s.stop then []
      else [⟨min hi s.stop, s.data.drop (min hi s.stop - s.start)⟩]) p =
      if hi ≤ p then stretch s.start s.data p else none := by
  split
  · next hstop =>
    rw [bytesAt_nil]
    split
    · next hlt =>
      by_contra hne
      have hin := held_segment.mp (Ne.symm hne)
      omega
    · rfl
  · next hstop =>
    have hhi : min hi s.stop = s.start + (hi - s.start) := by omega
    rw [bytesAt_cons, bytesAt_nil, Option.or_none, hhi, Nat.add_sub_cancel_left, stretch_drop,
      show s.start + (hi - s.start) = hi by omega]

theorem bytesAt_cut_run (lo hi : ℕ) (s : Segment) :
    bytesAt (cut lo hi s) = erase (stretch s.start s.data) lo hi := by
  funext p
  unfold cut
  dsimp only
  split
  · next hle =>
    rw [bytesAt_cons, bytesAt_nil, Option.or_none, erase]
    split
    · next hin =>
      by_contra hne
      have hheld := held_segment.mp hne
      omega
    · rfl
  · next hlt =>
    have hfront := bytesAt_front lo s p
    have htail := bytesAt_tail (show s.start ≤ min hi s.stop by omega) p
    rw [bytesAt_append, hfront, htail, erase]
    by_cases hin : lo ≤ p ∧ p < hi
    · rw [if_pos hin, if_neg (by omega), if_neg (by omega)]
      rfl
    · rw [if_neg hin]
      by_cases hlo : p < lo
      · rw [if_pos hlo, if_neg (by omega), Option.or_none]
      · rw [if_neg hlo, if_pos (by omega), Option.none_or]

theorem erase_or (m m' : ℕ → Option UInt8) (lo hi p : ℕ) :
    erase (fun q => (m q).or (m' q)) lo hi p = (erase m lo hi p).or (erase m' lo hi p) := by
  unfold erase
  split <;> rfl

theorem bytesAt_cut (lo hi : ℕ) (segments : List Segment) :
    bytesAt (segments.flatMap (cut lo hi)) = erase (bytesAt segments) lo hi := by
  funext p
  induction segments with
  | nil => simp [erase]
  | cons s rest ih =>
    rw [List.flatMap_cons, bytesAt_append, ih, bytesAt_cut_run]
    exact (erase_or (stretch s.start s.data) (bytesAt rest) lo hi p).symm

/-! ### Sizes -/

@[simp] theorem size_nil : size [] = 0 := rfl

theorem size_cons (s : Segment) (segments : List Segment) :
    size (s :: segments) = s.data.length + size segments := by
  simp [size]

theorem size_append (l l' : List Segment) : size (l ++ l') = size l + size l' := by
  simp [size]

theorem size_place (pos : ℕ) (bytes : List UInt8) (segments : List Segment) :
    size (place pos bytes segments) = size segments + bytes.length := by
  induction segments with
  | nil => simp [place, size]
  | cons s rest ih =>
    rw [place]
    split
    · simp only [size_cons, List.length_append]
      omega
    · split
      · rw [size_cons, ih, size_cons]
        omega
      · simp only [size_cons]
        omega

theorem size_join (s : Segment) (segments : List Segment) :
    size (join s segments) = s.data.length + size segments := by
  cases segments with
  | nil => rfl
  | cons t rest =>
    rw [join]
    split
    · simp only [size_cons, List.length_append]
      omega
    · rw [size_cons]

theorem size_placeJoined (pos : ℕ) (bytes : List UInt8) (segments : List Segment) :
    size (placeJoined pos bytes segments) = size segments + bytes.length := by
  induction segments with
  | nil => simp [placeJoined, size]
  | cons s rest ih =>
    rw [placeJoined]
    split
    · rw [size_join, size_cons, List.length_append]
      omega
    · split
      · rw [size_cons, ih, size_cons]
        omega
      · rw [size_join]
        dsimp only
        omega

/-- What a release takes out of a run, and what it leaves, are the run. -/
theorem size_cut_run (lo hi : ℕ) (s : Segment) :
    size (cut lo hi s) + overlap lo hi s = s.data.length := by
  unfold cut overlap Segment.stop
  dsimp only
  split
  · rw [size_cons, size_nil]
    omega
  · rw [size_append]
    split
    · split
      · simp only [size_nil]
        omega
      · rw [size_nil, size_cons, size_nil, List.length_drop]
        omega
    · split
      · rw [size_nil, size_cons, size_nil, List.length_take]
        omega
      · rw [size_cons, size_cons, size_nil, List.length_drop, List.length_take]
        omega

theorem size_cut (lo hi : ℕ) (segments : List Segment) :
    size (segments.flatMap (cut lo hi)) + (segments.map (overlap lo hi)).sum = size segments := by
  induction segments with
  | nil => rfl
  | cons s rest ih =>
    have hrun := size_cut_run lo hi s
    rw [List.flatMap_cons, size_append, List.map_cons, List.sum_cons, size_cons]
    omega

/-- As many positions are held as the runs have bytes. -/
theorem encard_bytesAt (h : Ordered segments) :
    {p | Held (bytesAt segments) p}.encard = size segments := by
  induction segments with
  | nil => simp [Held, size]
  | cons s rest ih =>
    have hunion : {p | Held (bytesAt (s :: rest)) p} =
        Set.Ico s.start s.stop ∪ {p | Held (bytesAt rest) p} := by
      ext p
      exact held_or.trans (or_congr_left held_segment)
    have hapart : Disjoint (Set.Ico s.start s.stop) {p | Held (bytesAt rest) p} := by
      refine Set.disjoint_left.mpr fun p hp hheld => ?_
      obtain ⟨t, ht, hle, -⟩ := held_bytesAt.mp hheld
      have hbefore := h.head t ht
      have hlt := hp.2
      omega
    have hico : (Set.Ico s.start s.stop).encard = s.data.length := by
      rw [← Finset.coe_Ico, Set.encard_coe_eq_coe_finsetCard, Nat.card_Ico]
      unfold Segment.stop
      rw [Nat.add_sub_cancel_left]
    rw [hunion, Set.encard_union_eq hapart, hico, ih h.tail, size_cons]
    push_cast
    rfl

/-! ### What a feed accepts -/

variable {lookup : ℕ → Option Segment}

theorem le_skipHeld (hfinds : Finds segments lookup) (stop fuel pos : ℕ) :
    pos ≤ skipHeld lookup stop fuel pos := by
  induction fuel generalizing pos with
  | zero => exact Nat.le_refl _
  | succ fuel ih =>
    rw [skipHeld]
    split
    · exact Nat.le_refl _
    · cases hlookup : lookup pos with
      | none => exact Nat.le_refl _
      | some s =>
        have hstop := (hfinds.sound pos s hlookup).2.2
        exact (Nat.le_of_lt hstop).trans (ih s.stop)

/-- All that is skipped is held. -/
theorem skipHeld_held (hfinds : Finds segments lookup) {stop fuel p : ℕ} (hp : pos ≤ p)
    (hlt : p < skipHeld lookup stop fuel pos) : Holds segments p := by
  induction fuel generalizing pos with
  | zero =>
    rw [skipHeld] at hlt
    omega
  | succ fuel ih =>
    rw [skipHeld] at hlt
    split at hlt
    · omega
    · cases hlookup : lookup pos with
      | none =>
        simp only [hlookup] at hlt
        omega
      | some s =>
        simp only [hlookup] at hlt
        obtain ⟨hs, hstart, -⟩ := hfinds.sound pos s hlookup
        by_cases hin : p < s.stop
        · exact ⟨s, hs, by omega, hin⟩
        · exact ih (by omega) hlt

/-- The skip goes over the held run. -/
theorem heldRun_skipHeld (hfinds : Finds segments lookup) (offset len : ℕ) :
    let front := skipHeld lookup (offset + len) segments.length offset
    (offset + len ≤ front → heldRun (bytesAt segments) offset len = len) ∧
      (front < offset + len → heldRun (bytesAt segments) offset len = front - offset ∧
        ¬ Holds segments front) := by
  intro front
  have hle : offset ≤ front := le_skipHeld hfinds _ _ _
  have hheld : ∀ q, offset ≤ q → q < front → Held (bytesAt segments) q := fun q hq hlt =>
    held_bytesAt.mpr (skipHeld_held hfinds hq hlt)
  refine ⟨fun hstop => ?_, fun hlt => ?_⟩
  · exact heldRun_eq (Nat.le_refl _) (fun q hq hlt => hheld q hq (by omega)) (.inl rfl)
  · have hno : ¬ Holds segments front :=
      (skipHeld_not_held hfinds offset (offset + len) List.countP_le_length).resolve_left
        (by simpa [front] using hlt)
    refine ⟨heldRun_eq (by omega) (fun q hq hlt => hheld q hq (by omega)) (.inr ?_), hno⟩
    rw [held_bytesAt, show offset + (front - offset) = front by omega]
    exact hno

/-- Before the next run everything is free. -/
theorem freeRun_upToNext (h : Ordered segments) (hno : ¬ Holds segments pos) (n : ℕ) :
    freeRun (bytesAt segments) pos n = upToNext segments pos n := by
  have hle : upToNext segments pos n ≤ n := Nat.min_le_right _ _
  refine freeRun_eq hle (fun q hq hlt => ?_) ?_
  · rw [held_bytesAt]
    refine gap_not_held h hno hq fun t ht => ?_
    have hbeyond := lt_next h hno ht
    rw [upToNext, ht, Option.elim_some] at hlt
    omega
  · cases hn : next segments pos with
    | none =>
      refine .inl ?_
      rw [upToNext, hn, Option.elim_none, Nat.min_self]
    | some t =>
      obtain ⟨ht, -⟩ := next_mem hn
      have hbeyond := lt_next h hno hn
      rw [upToNext, hn, Option.elim_some]
      by_cases hlt : t.start - pos < n
      · refine .inr (held_bytesAt.mpr ⟨t, ht, by omega, ?_⟩)
        have hstop := h.start_lt ht
        omega
      · exact .inl (by omega)

/-- The new bytes at the front are the accepted ones. -/
theorem fill_front {front offset take : ℕ} (hle : offset ≤ front)
    (hheld : ∀ q, offset ≤ q → q < front → Held (bytesAt segments) q) :
    fill (bytesAt segments) offset (bytes.take (front - offset + take)) =
      fill (bytesAt segments) front ((bytes.drop (front - offset)).take take) := by
  rw [fill_skip (k := front - offset) fun p hp hlt => hheld p hp (by omega),
    show offset + (front - offset) = front by omega, List.drop_take, Nat.add_sub_cancel_left]

/-! ### Gaps -/

/-- The loop lists the maximal gaps, in order. -/
theorem areGaps_missing (h : Ordered segments) (hfinds : Finds segments lookup) {stop fuel : ℕ}
    (hfuel : stop - pos ≤ fuel) :
    AreGaps (bytesAt segments) pos stop (missing segments lookup stop fuel pos) := by
  induction fuel generalizing pos with
  | zero => exact areGaps_nil (by omega)
  | succ fuel ih =>
    rw [missing]
    split
    · next hle => exact areGaps_nil hle
    · next hlt =>
      cases hlookup : lookup pos with
      | some s =>
        obtain ⟨hs, hstart, hstop⟩ := hfinds.sound pos s hlookup
        refine (ih (by omega)).skip (Nat.le_of_lt hstop) fun p hp hin => ?_
        exact held_bytesAt.mpr ⟨s, hs, by omega, hin⟩
      | none =>
        have hno := (hfinds.none_iff pos).mp hlookup
        dsimp only
        cases hn : next segments pos with
        | none =>
          rw [Option.elim_none, Nat.min_self]
          refine (ih (by omega)).cons (by omega) (Nat.le_refl _) (fun p hp _ => ?_) (.inl rfl)
          rw [held_bytesAt]
          exact gap_not_held h hno hp fun t ht => by rw [hn] at ht; cases ht
        | some t =>
          obtain ⟨ht, -⟩ := next_mem hn
          have hbeyond := lt_next h hno hn
          have hrun := h.start_lt ht
          rw [Option.elim_some]
          refine (ih (by omega)).cons (by omega) (Nat.min_le_right _ _) (fun p hp hin => ?_) ?_
          · rw [held_bytesAt]
            refine gap_not_held h hno hp fun t' ht' => ?_
            rw [hn] at ht'
            obtain rfl := Option.some.inj ht'
            omega
          · rcases Nat.le_total t.start stop with hle | hle
            · rw [Nat.min_eq_left hle]
              exact .inr (held_bytesAt.mpr ⟨t, ht, Nat.le_refl _, hrun⟩)
            · exact .inl (Nat.min_eq_right hle)

end Segments

end Zencodec.Coroutine
