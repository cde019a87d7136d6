/-
The packed buffer against its runs.

`slices` cuts a flat list of bytes into the runs of an index.  While the spans are packed, the
runs are the slices of the buffer (`runs_eq_slices`), so an insertion is a list between two
others and a release is a list with pieces left out.

* `AdmittedInput.Valid` — packed, counted, in order, and at most 64 spans;
* `Valid.insertBytes`, `Valid.feed` — an insertion is the insertion into the runs.
-/
import Zencodec.Coroutine.Bytes
import Zencodec.Coroutine.Layout

namespace Zencodec.Coroutine

/-! ### Insertion between runs -/

namespace Segments

variable {pos : ℕ} {bytes : List UInt8} {A B : List Segment}

theorem placeJoined_append (hA : ∀ s ∈ A, s.start < pos ∧ s.stop ≠ pos) :
    placeJoined pos bytes (A ++ B) = A ++ placeJoined pos bytes B := by
  induction A with
  | nil => rfl
  | cons s A ih =>
    obtain ⟨hstart, hstop⟩ := hA s List.mem_cons_self
    rw [List.cons_append, placeJoined, if_neg hstop, if_pos hstart,
      ih fun t ht => hA t (List.mem_cons_of_mem s ht), List.cons_append]

theorem placeJoined_before (hB : ∀ s ∈ B, pos < s.start) :
    placeJoined pos bytes B = join ⟨pos, bytes⟩ B := by
  cases B with
  | nil => rfl
  | cons s B =>
    have hlt := hB s List.mem_cons_self
    rw [placeJoined, if_neg (by unfold Segment.stop; omega), if_neg (by omega)]

/-- A run that ends at the position takes the bytes, wherever it stands. -/
theorem placeJoined_behind {s : Segment} (hA : ∀ t ∈ A, t.stop ≤ s.start)
    (hne : ∀ t ∈ A, t.start < t.stop) (hs : s.start < s.stop) (hstop : s.stop = pos) :
    placeJoined pos bytes (A ++ s :: B) = A ++ join ⟨s.start, s.data ++ bytes⟩ B := by
  rw [placeJoined_append fun t ht => ?_, placeJoined, if_pos hstop]
  have hle := hA t ht
  have hlt := hne t ht
  omega

end Segments

namespace Layout

open Segments

/-! ### Slices of a flat list -/

theorem insertIdx_between {α : Type} (A B : List α) (x : α) :
    (A ++ B).insertIdx A.length x = A ++ x :: B := by
  induction A with
  | nil => rfl
  | cons a A ih => rw [List.cons_append, List.length_cons, List.insertIdx_succ_cons, ih]; rfl

theorem set_between {α : Type} (A B : List α) (x y : α) :
    (A ++ x :: B).set A.length y = A ++ y :: B := by
  rw [List.set_append_right _ _ (Nat.le_refl _), Nat.sub_self, List.set_cons_zero]

/-- The number of bytes of the spans. -/
def extent (spans : List Span) : ℕ := (spans.map Span.len).sum

/-- The runs of the spans over consecutive bytes. -/
def slices : List Span → List UInt8 → List Coroutine.Segment
  | [], _ => []
  | s :: rest, flat => ⟨s.start, flat.take s.len⟩ :: slices rest (flat.drop s.len)

/-- The spans lie one behind the other, from position `dest` on. -/
def Packed : ℕ → List Span → Prop
  | _, [] => True
  | dest, s :: rest => s.dataAt = dest ∧ Packed (dest + s.len) rest

@[simp] theorem extent_nil : extent [] = 0 := rfl

@[simp] theorem extent_cons (s : Span) (rest : List Span) :
    extent (s :: rest) = s.len + extent rest := by
  simp [extent]

@[simp] theorem extent_append (A B : List Span) : extent (A ++ B) = extent A + extent B := by
  simp [extent]

theorem packed_append {dest : ℕ} {A B : List Span} :
    Packed dest (A ++ B) ↔ Packed dest A ∧ Packed (dest + extent A) B := by
  induction A generalizing dest with
  | nil => simp [Packed]
  | cons s A ih =>
    rw [List.cons_append, Packed, Packed, ih, extent_cons, and_assoc, Nat.add_assoc]

theorem Packed.le {dest : ℕ} {spans : List Span} (h : Packed dest spans) {s : Span}
    (hs : s ∈ spans) : s.dataAt + s.len ≤ dest + extent spans := by
  induction spans generalizing dest with
  | nil => cases hs
  | cons t rest ih =>
    obtain ⟨ht, hrest⟩ := h
    rw [extent_cons]
    rcases List.mem_cons.mp hs with rfl | hs
    · omega
    · have hle := ih hrest hs
      omega

theorem runs_eq_slices {data : List UInt8} {dest : ℕ} {spans : List Span}
    (h : Packed dest spans) : spans.map (Span.run data) = slices spans (data.drop dest) := by
  induction spans generalizing dest with
  | nil => rfl
  | cons s rest ih =>
    obtain ⟨hs, hrest⟩ := h
    rw [List.map_cons, slices, ih hrest, Span.run, hs, List.drop_drop]

/-- Slices of a list that is put together at the end of the first spans. -/
theorem slices_append {A B : List Span} {x y : List UInt8} (hx : x.length = extent A) :
    slices (A ++ B) (x ++ y) = slices A x ++ slices B y := by
  induction A generalizing x with
  | nil =>
    rw [List.length_eq_zero_iff.mp hx]
    rfl
  | cons s A ih =>
    rw [extent_cons] at hx
    rw [List.cons_append, slices, slices, List.take_append_of_le_length (by omega),
      List.drop_append_of_le_length (by omega), ih (by rw [List.length_drop]; omega),
      List.cons_append]

theorem slices_cons {s : Span} {B : List Span} {x y : List UInt8} (hx : x.length = s.len) :
    slices (s :: B) (x ++ y) = ⟨s.start, x⟩ :: slices B y := by
  rw [slices, List.take_append_of_le_length (by omega), List.drop_append_of_le_length (by omega),
    ← hx, List.take_length, List.drop_length, List.nil_append]

/-- Bytes behind the spans do not matter. -/
theorem slices_left {A : List Span} {x : List UInt8} (hx : extent A ≤ x.length) :
    slices A x = slices A (x.take (extent A)) := by
  have happ := slices_append (B := []) (x := x.take (extent A)) (y := x.drop (extent A)) (A := A)
    (by rw [List.length_take]; omega)
  rwa [List.append_nil, List.take_append_drop, slices, List.append_nil] at happ

/-- `count` spans moved on in the buffer. -/
def shift (k : ℕ) (spans : List Span) : List Span :=
  spans.map fun s => { s with dataAt := s.dataAt + k }

theorem packed_shift {dest k : ℕ} {spans : List Span} (h : Packed dest spans) :
    Packed (dest + k) (shift k spans) := by
  induction spans generalizing dest with
  | nil => trivial
  | cons s rest ih =>
    obtain ⟨hs, hrest⟩ := h
    refine ⟨by dsimp only; omega, ?_⟩
    have hmoved := ih hrest
    dsimp only
    rwa [show dest + k + s.len = dest + s.len + k by omega]

theorem slices_shift (k : ℕ) (spans : List Span) (flat : List UInt8) :
    slices (shift k spans) flat = slices spans flat := by
  induction spans generalizing flat with
  | nil => rfl
  | cons s rest ih =>
    have hrest := ih (flat.drop s.len)
    unfold shift at hrest ⊢
    rw [List.map_cons, slices, slices, hrest]

@[simp] theorem extent_shift (k : ℕ) (spans : List Span) :
    extent (shift k spans) = extent spans := by
  simp [extent, shift, Function.comp_def]

/-- A span before spans, joined to the first of them if it reaches it. -/
def joinSpan (s : Span) : List Span → List Span
  | [] => [s]
  | n :: rest =>
    if s.stop = n.start then { s with len := s.len + n.len } :: rest else s :: n :: rest

theorem packed_joinSpan {dest : ℕ} {s : Span} {B : List Span} (h : Packed dest (s :: B)) :
    Packed dest (joinSpan s B) := by
  cases B with
  | nil => exact h
  | cons n B =>
    rw [joinSpan]
    split
    · obtain ⟨hs, -, hB⟩ := h
      refine ⟨hs, ?_⟩
      dsimp only
      rwa [← Nat.add_assoc]
    · exact h

@[simp] theorem extent_joinSpan (s : Span) (B : List Span) :
    extent (joinSpan s B) = s.len + extent B := by
  cases B with
  | nil => simp [joinSpan]
  | cons n B =>
    rw [joinSpan]
    split
    · simp only [extent_cons]
      omega
    · simp only [extent_cons]

/-- Joining spans is joining their runs. -/
theorem slices_joinSpan {s : Span} {B : List Span} {x y : List UInt8} (hx : x.length = s.len) :
    slices (joinSpan s B) (x ++ y) = join ⟨s.start, x⟩ (slices B y) := by
  have hstop : (⟨s.start, x⟩ : Coroutine.Segment).stop = s.stop := by
    unfold Coroutine.Segment.stop Span.stop
    dsimp only
    omega
  cases B with
  | nil => rw [joinSpan, slices_cons hx, slices, join]
  | cons n B =>
    rw [slices, join, hstop, joinSpan]
    dsimp only
    split
    · rw [slices]
      dsimp only
      rw [← hx, List.take_append, List.take_of_length_le (by omega), Nat.add_sub_cancel_left,
        List.drop_append, List.drop_eq_nil_of_le (by omega), List.nil_append,
        Nat.add_sub_cancel_left]
    · rw [slices_cons hx, slices]

/-! ### Insertion -/

/-- Bytes moved in at `dest` lie between what was before and what was behind. -/
theorem splice_copyWithin {data bytes : List UInt8} {dest top : ℕ} (hdest : dest ≤ top)
    (htop : top + bytes.length ≤ data.length) :
    splice (copyWithin data dest top (dest + bytes.length)) dest bytes =
      data.take dest ++ (bytes ++ ((data.take top).drop dest ++
        data.drop (top + bytes.length))) := by
  have hfront : (data.take (dest + bytes.length)).length = dest + bytes.length := by
    rw [List.length_take]
    omega
  have hback : dest + bytes.length + (top - dest) = top + bytes.length := by omega
  have htake : ∀ l, (data.take (dest + bytes.length) ++ l).take dest = data.take dest := by
    intro l
    rw [List.take_append_of_le_length (by omega), List.take_take, Nat.min_eq_left (by omega)]
  have hdrop : ∀ l, (data.take (dest + bytes.length) ++ l).drop (dest + bytes.length) = l := by
    intro l
    rw [List.drop_append_of_le_length (by omega), List.drop_eq_nil_of_le (by omega),
      List.nil_append]
  unfold splice copyWithin
  rw [hback, List.append_assoc (data.take (dest + bytes.length)), htake, hdrop,
    List.append_assoc]

namespace AdmittedInput

/-- As the store of runs sees it. -/
def store (a : AdmittedInput) : Coroutine.AdmittedInput := ⟨a.runs, a.retained, a.data.length⟩

/-- What every operation keeps. -/
structure Valid (a : AdmittedInput) : Prop where
  packed : Packed 0 a.spans
  retained : a.retained = extent a.spans
  fits : a.retained ≤ a.data.length
  ordered : Ordered a.runs
  few : a.spans.length ≤ Coroutine.AdmittedInput.maxSpans

variable {a : AdmittedInput} {A B : List Span} {start : ℕ} {bytes : List UInt8}

/-- The runs of two parts of the index, over the two parts of the live bytes. -/
theorem Valid.runs_append (h : a.Valid) (hsplit : a.spans = A ++ B) :
    A.map (Span.run a.data) = slices A (a.data.take (extent A)) ∧
      B.map (Span.run a.data) = slices B ((a.data.take a.retained).drop (extent A)) := by
  have hpacked := h.packed
  rw [hsplit, packed_append, Nat.zero_add] at hpacked
  have hret := h.retained
  have hfits := h.fits
  rw [hsplit, extent_append] at hret
  constructor
  · rw [runs_eq_slices hpacked.1, List.drop_zero, slices_left (by omega)]
  · rw [runs_eq_slices hpacked.2, slices_left (by rw [List.length_drop]; omega), List.take_drop,
      ← hret]

/-- The next span begins where the bytes before it end. -/
theorem Valid.next_dataAt (h : a.Valid) (hsplit : a.spans = A ++ B) :
    (a.spans[A.length]?).elim a.retained Span.dataAt = extent A := by
  have hpacked := h.packed
  have hret := h.retained
  rw [hsplit, packed_append, Nat.zero_add] at hpacked
  rw [hsplit, extent_append] at hret
  rw [hsplit, List.getElem?_append_right (Nat.le_refl _), Nat.sub_self]
  cases B with
  | nil =>
    rw [extent_nil, Nat.add_zero] at hret
    exact hret
  | cons n B => exact hpacked.2.1

/-- The buffer after an insertion. -/
theorem Valid.insertBytes_data (h : a.Valid) (hsplit : a.spans = A ++ B)
    (hroom : a.retained + bytes.length ≤ a.data.length) :
    (a.insertBytes A.length start bytes).data = a.data.take (extent A) ++
      (bytes ++ ((a.data.take a.retained).drop (extent A) ++
        a.data.drop (a.retained + bytes.length))) := by
  have hret := h.retained
  rw [hsplit, extent_append] at hret
  unfold insertBytes
  dsimp only
  rw [h.next_dataAt hsplit]
  exact splice_copyWithin (by omega) hroom

/-- The span that takes the new bytes is the one before, or a new one. -/
theorem insertBytes_spans (start : ℕ) (bytes : List UInt8) (hsplit : a.spans = A ++ B) :
    let dataAt := (a.spans[A.length]?).elim a.retained Span.dataAt
    let spans := (a.insertBytes A.length start bytes).spans
    (∀ A₀ p, A = A₀ ++ [p] → p.stop = start →
      spans = A₀ ++ joinSpan { p with len := p.len + bytes.length } (shift bytes.length B)) ∧
    ((∀ p ∈ A.getLast?, p.stop ≠ start) →
      spans = A ++ joinSpan ⟨start, dataAt, bytes.length⟩ (shift bytes.length B)) := by
  intro dataAt spans
  have hnext : a.spans[A.length]? = B.head? := by
    rw [hsplit, List.getElem?_append_right (Nat.le_refl _), Nat.sub_self, List.head?_eq_getElem?]
  have hprevious : (if A.length = 0 then none else a.spans[A.length - 1]?) = A.getLast? := by
    rw [hsplit, List.getLast?_eq_getElem?]
    split
    · next hzero => rw [List.length_eq_zero_iff.mp hzero]; rfl
    · next hpos => rw [List.getElem?_append_left (by omega)]
  have hmoved : a.spans.take A.length ++
      (a.spans.drop A.length).map (fun s => { s with dataAt := s.dataAt + bytes.length }) =
      A ++ shift bytes.length B := by
    rw [hsplit, List.take_left, List.drop_left]
    rfl
  have hspans : spans = (a.insertBytes A.length start bytes).spans := rfl
  simp only [insertBytes, hprevious, hmoved] at hspans
  constructor
  · rintro A₀ p rfl hstop
    have hlast : ((A₀ ++ [p]).getLast?.filter fun s => decide (s.stop = start)) = some p := by
      rw [List.getLast?_concat]
      simp [hstop]
    simp only [hlast, hnext] at hspans
    rw [hspans]
    have hset : ∀ q, (A₀ ++ [p] ++ shift bytes.length B).set ((A₀ ++ [p]).length - 1) q =
        A₀ ++ q :: shift bytes.length B := by
      intro q
      simp
    have herase : ∀ q n rest, (A₀ ++ q :: n :: rest).eraseIdx (A₀ ++ [p]).length =
        A₀ ++ q :: rest := by
      intro q n rest
      rw [List.length_append, List.length_singleton,
        List.eraseIdx_append_of_length_le (Nat.le_add_right _ _), Nat.add_sub_cancel_left]
      rfl
    cases B with
    | nil =>
      simp only [List.head?_nil, Option.filter_none]
      rw [hset]
      rfl
    | cons n B =>
      have hreach : ({ p with len := p.len + bytes.length } : Span).stop = n.start ↔
          start + bytes.length = n.start := by
        rw [← hstop]
        unfold Span.stop
        dsimp only
        omega
      by_cases hmeet : start + bytes.length = n.start
      · simp only [List.head?_cons, Option.filter_some, hmeet, decide_true, if_true]
        rw [hset, shift, List.map_cons, herase, joinSpan, if_pos (hreach.mpr hmeet)]
      · simp only [List.head?_cons, Option.filter_some, hmeet, decide_false, Bool.false_eq_true,
          if_false]
        rw [hset, shift, List.map_cons, joinSpan, if_neg (hreach.not.mpr hmeet)]
  · intro hne
    have hlast : (A.getLast?.filter fun s => decide (s.stop = start)) = none := by
      rw [Option.filter_eq_none_iff]
      intro p hp
      simpa using hne p hp
    have hdataAt : B.head?.elim a.retained Span.dataAt = dataAt := by rw [← hnext]
    simp only [hlast, hnext, hdataAt] at hspans
    rw [hspans]
    cases B with
    | nil =>
      simp only [List.head?_nil, Option.filter_none]
      rw [insertIdx_between]
      rfl
    | cons n B =>
      have hreach : (⟨start, dataAt, bytes.length⟩ : Span).stop = n.start ↔
          start + bytes.length = n.start := Iff.rfl
      by_cases hmeet : start + bytes.length = n.start
      · simp only [List.head?_cons, Option.filter_some, hmeet, decide_true, if_true]
        rw [shift, List.map_cons, joinSpan, if_pos (hreach.mpr hmeet), set_between,
          Nat.add_comm n.len]
      · simp only [List.head?_cons, Option.filter_some, hmeet, decide_false, Bool.false_eq_true,
          if_false]
        rw [shift, List.map_cons, joinSpan, if_neg (hreach.not.mpr hmeet), insertIdx_between]

theorem length_joinSpan (s : Span) (B : List Span) :
    (joinSpan s B).length ≤ B.length + 1 ∧
      ((∃ n ∈ B.head?, s.stop = n.start) → (joinSpan s B).length = B.length) := by
  cases B with
  | nil => exact ⟨Nat.le_refl _, fun ⟨n, hn, _⟩ => by simp at hn⟩
  | cons n B =>
    rw [joinSpan]
    split
    · exact ⟨by simp, fun _ => rfl⟩
    · next hne =>
      refine ⟨Nat.le_refl _, fun ⟨m, hm, hstop⟩ => absurd ?_ hne⟩
      obtain rfl := Option.some.inj hm
      exact hstop

/-- A span is added only where none takes the bytes. -/
theorem length_insertBytes (start : ℕ) (bytes : List UInt8) (hsplit : a.spans = A ++ B) :
    let a' := a.insertBytes A.length start bytes
    a'.spans.length ≤ a.spans.length + 1 ∧
      ((∃ p ∈ A.getLast?, p.stop = start) ∨ (∃ n ∈ B.head?, start + bytes.length = n.start) →
        a'.spans.length ≤ a.spans.length) := by
  intro a'
  obtain ⟨hbehind, hfresh⟩ := insertBytes_spans start bytes hsplit
  have hshift : (shift bytes.length B).length = B.length := List.length_map _
  by_cases hlast : ∃ p ∈ A.getLast?, p.stop = start
  · obtain ⟨p, hp, hstop⟩ := hlast
    obtain ⟨A₀, rfl⟩ := List.getLast?_eq_some_iff.mp hp
    have hspans : a'.spans = _ := hbehind A₀ p rfl hstop
    have hjoin := (length_joinSpan { p with len := p.len + bytes.length }
      (shift bytes.length B)).1
    have hle : a'.spans.length ≤ a.spans.length := by
      rw [hspans, hsplit]
      simp only [List.length_append, List.length_singleton]
      omega
    exact ⟨Nat.le_succ_of_le hle, fun _ => hle⟩
  · have hspans : a'.spans = _ := hfresh fun p hp hstop => hlast ⟨p, hp, hstop⟩
    obtain ⟨hone, hmeets⟩ := length_joinSpan
      ⟨start, (a.spans[A.length]?).elim a.retained Span.dataAt, bytes.length⟩
      (shift bytes.length B)
    refine ⟨?_, fun h => ?_⟩
    · rw [hspans, hsplit, List.length_append, List.length_append]
      rw [hsplit] at hone
      omega
    · obtain ⟨n, hn, hstop⟩ := h.resolve_left hlast
      have hmeet := hmeets ⟨{ n with dataAt := n.dataAt + bytes.length }, ?_, hstop⟩
      · rw [hspans, List.length_append, hmeet, hsplit, List.length_append]
        omega
      · rw [shift, List.head?_map, hn]
        rfl

theorem Valid.run_stop (h : a.Valid) {s : Span} (hs : s ∈ a.spans) :
    (s.run a.data).stop = s.stop := by
  have hle := h.packed.le hs
  have hret := h.retained
  have hfits := h.fits
  unfold Span.run Coroutine.Segment.stop Span.stop
  rw [List.length_take, List.length_drop]
  dsimp only
  omega

theorem Valid.start_lt (h : a.Valid) {s : Span} (hs : s ∈ a.spans) : s.start < s.stop := by
  rw [← h.run_stop hs]
  exact h.ordered.start_lt (List.mem_map_of_mem hs)

/-- If the last of the spans does not end at a position, none of them does. -/
theorem Valid.stop_ne (h : a.Valid) (hsplit : a.spans = A ++ B) (hA : ∀ s ∈ A, s.stop ≤ start)
    (hne : ∀ p ∈ A.getLast?, p.stop ≠ start) : ∀ s ∈ A, s.stop ≠ start := by
  intro s hs hstop
  obtain ⟨l, hl⟩ := Option.isSome_iff_exists.mp (List.getLast?_isSome.mpr (List.ne_nil_of_mem hs))
  obtain ⟨A₀, rfl⟩ := List.getLast?_eq_some_iff.mp hl
  have hlstop := hne l hl
  rcases List.mem_append.mp hs with hs | hs
  · have hmem : s ∈ a.spans := by rw [hsplit]; simp [hs]
    have hlmem : l ∈ a.spans := by rw [hsplit]; simp
    have hapart := h.ordered.apart
    rw [runs, hsplit, List.map_append, List.map_append, List.append_assoc] at hapart
    have hle := (List.pairwise_append.mp hapart).2.2 _ (List.mem_map_of_mem hs) (l.run a.data)
      (by simp)
    rw [h.run_stop hmem] at hle
    have hstart : s.stop ≤ l.start := hle
    have hlt := h.start_lt hlmem
    have hlle := hA l (by simp)
    omega
  · rw [List.mem_singleton.mp hs] at hstop
    exact hlstop hstop

/-- An insertion is the insertion into the runs. -/
theorem Valid.insertBytes (h : a.Valid) (bytes : List UInt8) (hsplit : a.spans = A ++ B)
    (hA : ∀ s ∈ A, s.stop ≤ start) (hB : ∀ s ∈ B, start < s.start)
    (hroom : a.retained + bytes.length ≤ a.data.length) :
    let a' := a.insertBytes A.length start bytes
    a'.data.length = a.data.length ∧ Packed 0 a'.spans ∧ a'.retained = extent a'.spans ∧
      a'.runs = placeJoined start bytes a.runs := by
  intro a'
  have hret := h.retained
  have hpacked := h.packed
  rw [hsplit, extent_append] at hret
  rw [hsplit, packed_append, Nat.zero_add] at hpacked
  obtain ⟨hrunsA, hrunsB⟩ := h.runs_append hsplit
  have hdata : a'.data = _ := h.insertBytes_data hsplit hroom
  set DA := a.data.take (extent A) with hDA
  set DB := (a.data.take a.retained).drop (extent A) with hDB
  have hlenA : DA.length = extent A := by
    rw [hDA, List.length_take]
    omega
  have hlenB : DB.length = extent B := by
    rw [hDB, List.length_drop, List.length_take]
    omega
  have hruns : a.runs = slices A DA ++ slices B DB := by
    rw [runs, hsplit, List.map_append, hrunsA, hrunsB]
  have hback : ∀ tail, slices (shift bytes.length B) (DB ++ tail) = slices B DB := by
    intro tail
    have happ := slices_append (A := B) (B := []) (y := tail) hlenB
    rw [List.append_nil, slices, List.append_nil] at happ
    rw [slices_shift, happ]
  have hbefore : ∀ s ∈ slices B DB, start < s.start := by
    rw [← hrunsB]
    intro s hs
    obtain ⟨t, ht, rfl⟩ := List.mem_map.mp hs
    exact hB t ht
  have hlen : a'.data.length = a.data.length := by
    rw [hdata]
    simp only [List.length_append, List.length_drop, hlenA, hlenB]
    omega
  have hretained : a'.retained = a.retained + bytes.length := rfl
  have hpackedB : Packed (extent A + bytes.length) (shift bytes.length B) :=
    packed_shift hpacked.2
  obtain ⟨hbehind, hfresh⟩ := insertBytes_spans start bytes hsplit
  by_cases hlast : ∃ A₀ p, A = A₀ ++ [p] ∧ p.stop = start
  · obtain ⟨A₀, p, rfl, hstop⟩ := hlast
    have hspans : a'.spans = _ := hbehind A₀ p rfl hstop
    rw [packed_append, Nat.zero_add] at hpacked
    rw [extent_append, extent_cons, extent_nil, Nat.add_zero] at hlenA hret hpackedB
    set D₀ := DA.take (extent A₀) with hD₀
    set dp := DA.drop (extent A₀) with hdp
    have hcut : DA = D₀ ++ dp := (List.take_append_drop _ _).symm
    have hlen₀ : D₀.length = extent A₀ := by
      rw [hD₀, List.length_take]
      omega
    have hlenp : dp.length = p.len := by
      rw [hdp, List.length_drop]
      omega
    have hpacked' : Packed 0 a'.spans := by
      rw [hspans, packed_append, Nat.zero_add]
      refine ⟨hpacked.1.1, packed_joinSpan ⟨hpacked.1.2.1, ?_⟩⟩
      dsimp only
      rwa [← Nat.add_assoc]
    refine ⟨hlen, hpacked', ?_, ?_⟩
    · rw [hretained, hret, hspans, extent_append, extent_joinSpan, extent_shift]
      dsimp only
      omega
    · have hslicesA : slices (A₀ ++ [p]) DA = slices A₀ D₀ ++ [⟨p.start, dp⟩] := by
        have hp := slices_cons (s := p) (B := []) (y := []) hlenp
        rw [List.append_nil] at hp
        rw [hcut, slices_append hlen₀, hp, slices]
      have hflat : ∀ tail, DA ++ (bytes ++ tail) = D₀ ++ ((dp ++ bytes) ++ tail) := by
        intro tail
        rw [hcut]
        simp only [List.append_assoc]
      rw [hruns, hslicesA, runs, runs_eq_slices hpacked', List.drop_zero, hdata, hspans, hflat,
        slices_append hlen₀, slices_joinSpan (by rw [List.length_append, hlenp]), hback,
        List.append_assoc, List.singleton_append]
      have hord := h.ordered
      rw [hruns, hslicesA, List.append_assoc, List.singleton_append] at hord
      have hrunp : (⟨p.start, dp⟩ : Coroutine.Segment).stop = start := by
        rw [← hstop]
        unfold Coroutine.Segment.stop Span.stop
        dsimp only
        omega
      refine (placeJoined_behind (fun t ht => ?_) (fun t ht => ?_) ?_ hrunp).symm
      · exact (List.pairwise_append.mp hord.apart).2.2 t ht _ List.mem_cons_self
      · exact hord.start_lt (List.mem_append_left _ ht)
      · exact hord.start_lt (List.mem_append_right _ List.mem_cons_self)
  · have hne : ∀ p ∈ A.getLast?, p.stop ≠ start := by
      intro p hp hstop
      obtain ⟨A₀, rfl⟩ := List.getLast?_eq_some_iff.mp hp
      exact hlast ⟨A₀, p, rfl, hstop⟩
    have hspans : a'.spans = _ := hfresh hne
    rw [h.next_dataAt hsplit] at hspans
    have hpacked' : Packed 0 a'.spans := by
      rw [hspans, packed_append, Nat.zero_add]
      exact ⟨hpacked.1, packed_joinSpan ⟨rfl, hpackedB⟩⟩
    refine ⟨hlen, hpacked', ?_, ?_⟩
    · rw [hretained, hret, hspans, extent_append, extent_joinSpan, extent_shift]
      dsimp only
      omega
    · rw [hruns, runs, runs_eq_slices hpacked', List.drop_zero, hdata, hspans,
        slices_append hlenA, slices_joinSpan rfl, hback, placeJoined_append,
        placeJoined_before hbefore]
      rw [← hrunsA]
      intro s hs
      obtain ⟨t, ht, rfl⟩ := List.mem_map.mp hs
      have hmem : t ∈ a.spans := hsplit ▸ List.mem_append_left _ ht
      have hlt := h.start_lt hmem
      have hle := hA t ht
      refine ⟨show t.start < start by omega, ?_⟩
      rw [h.run_stop hmem]
      exact h.stop_ne hsplit hA hne t ht

/-! ### Feeding -/

theorem Valid.covering (h : a.Valid) (pos : ℕ) :
    Segments.covering a.runs pos = (a.covering pos).map (Span.run a.data) := by
  unfold Segments.covering AdmittedInput.covering AdmittedInput.runs
  rw [List.find?_map]
  congr 1
  refine List.find?_congr fun s hs => ?_
  simp only [Function.comp_apply, h.run_stop hs]
  rfl

theorem Valid.skipCovered (h : a.Valid) {stop : ℕ} (fuel : ℕ) {offset : ℕ}
    (hle : offset ≤ stop) : a.skipCovered stop fuel offset =
      min stop (skipHeld (Segments.covering a.runs) stop fuel offset) := by
  induction fuel generalizing offset with
  | zero => exact (Nat.min_eq_right hle).symm
  | succ fuel ih =>
    rw [AdmittedInput.skipCovered, skipHeld, h.covering]
    cases hcover : a.covering offset with
    | none =>
      simp only [Option.map_none]
      split <;> exact (Nat.min_eq_right hle).symm
    | some s =>
      have hin : s.start ≤ offset ∧ offset < s.stop := by simpa using List.find?_some hcover
      have hrun := h.run_stop (List.mem_of_find?_eq_some hcover)
      simp only [Option.map_some, hrun]
      by_cases hstop : stop ≤ s.stop
      · have hbeyond := le_skipHeld (finds_covering a.runs) stop fuel s.stop
        rw [Nat.min_eq_right hstop, if_pos rfl]
        split <;> omega
      · rw [Nat.min_eq_left (by omega), if_neg (by omega), if_neg (by omega), ih (by omega)]

/-- The index of a position parts the spans that begin before it from the others. -/
theorem Valid.index (h : a.Valid) (start : ℕ) :
    let index := a.spans.findIdx fun s => start ≤ s.start
    (∀ s ∈ a.spans.take index, s.start < start) ∧ ∀ s ∈ a.spans.drop index, start ≤ s.start := by
  intro index
  refine ⟨fun s hs => ?_, fun s hs => ?_⟩
  · simpa using List.false_of_mem_take_findIdx hs
  · have hsorted : a.spans.Pairwise fun s t => s.start ≤ t.start := by
      refine (List.Pairwise.and_mem.mp (List.pairwise_map.mp h.ordered.apart)).imp ?_
      rintro s t ⟨hs, -, hle⟩
      rw [h.run_stop hs] at hle
      exact (Nat.le_of_lt (h.start_lt hs)).trans hle
    cases hdrop : a.spans.drop index with
    | nil =>
      rw [hdrop] at hs
      cases hs
    | cons n rest =>
      have hget : a.spans[index]? = some n := by
        have hzero := congrArg (·[0]?) hdrop
        simpa using hzero
      have hn : start ≤ n.start := by
        simpa using List.findIdx_of_getElem?_eq_some (p := fun s : Span => decide (start ≤ s.start))
          hget
      have hpair := hsorted.drop (i := index)
      rw [hdrop] at hs hpair
      rcases List.mem_cons.mp hs with rfl | hs
      · exact hn
      · exact hn.trans ((List.pairwise_cons.mp hpair).1 s hs)

theorem next_runs (a : AdmittedInput) (start : ℕ) :
    next a.runs start =
      (a.spans[a.spans.findIdx fun s => start ≤ s.start]?).map (Span.run a.data) := by
  unfold next runs
  rw [List.find?_map, ← List.find?_eq_getElem?_findIdx]
  rfl

theorem previous_runs (hsplit : a.spans = A ++ B) (hA : ∀ s ∈ A, s.start < start)
    (hB : ∀ s ∈ B, start ≤ s.start) :
    previous a.runs start = A.getLast?.map (Span.run a.data) := by
  have hfilter : a.spans.filter (fun s => s.start < start) = A := by
    rw [hsplit, List.filter_append, List.filter_eq_self.mpr fun s hs => decide_eq_true (hA s hs),
      List.filter_eq_nil_iff.mpr fun s hs => by simpa using hB s hs, List.append_nil]
  unfold previous runs
  rw [List.filter_map, List.getLast?_map]
  congr 2

/-- The span before an index is the run before the position. -/
theorem Valid.any_previous (h : a.Valid) {index : ℕ} (hindex : index ≤ a.spans.length)
    (hA : ∀ s ∈ a.spans.take index, s.start < start)
    (hB : ∀ s ∈ a.spans.drop index, start ≤ s.start) :
    ((previous a.runs start).any fun s => s.stop = start) =
        (decide (index ≠ 0) && (a.spans[index - 1]?).any fun s => s.stop = start) ∧
      ((a.spans.take index).getLast?.any fun s => s.stop = start) =
        (decide (index ≠ 0) && (a.spans[index - 1]?).any fun s => s.stop = start) := by
  have hlast : (a.spans.take index).getLast? =
      if index = 0 then none else a.spans[index - 1]? := by
    rw [List.getLast?_eq_getElem?, List.length_take, Nat.min_eq_left hindex]
    split
    · next hzero => rw [hzero]; rfl
    · rw [List.getElem?_take_of_lt (by omega)]
  have hany : ((a.spans.take index).getLast?.any fun s => s.stop = start) =
      (decide (index ≠ 0) && (a.spans[index - 1]?).any fun s => s.stop = start) := by
    rw [hlast]
    split
    · next hzero => simp [hzero]
    · next hpos => simp [hpos]
  refine ⟨?_, hany⟩
  rw [← hany, previous_runs (List.take_append_drop index a.spans).symm hA hB, Option.any_map]
  cases hl : (a.spans.take index).getLast? with
  | none => rfl
  | some s =>
    have hmem := List.mem_of_mem_take (List.mem_of_getLast? hl)
    simp only [Option.any_some, h.run_stop hmem]

/-- **Feeding the packed buffer is feeding its runs**; a refusal leaves it as it was. -/
theorem Valid.feed (h : a.Valid) (offset : ℕ) (bytes : List UInt8) :
    match Coroutine.AdmittedInput.feed a.store offset bytes with
    | .error e => a.feed offset bytes = (.error e, a)
    | .ok fed => ∃ a', a.feed offset bytes = (.ok fed.1, a') ∧ a'.store = fed.2 ∧ a'.Valid := by
  unfold Coroutine.AdmittedInput.feed AdmittedInput.feed
  cases hend : checkedEnd offset bytes.length with
  | error e => rfl
  | ok stop =>
    have hstop := checkedEnd_eq hend
    have hlength : a.store.spans.length = a.spans.length := List.length_map _
    have hskipped := h.skipCovered a.spans.length (show offset ≤ stop by omega)
    have hfuel : a.runs.countP (fun s => offset < s.stop) ≤ a.spans.length := by
      rw [← hlength]
      exact List.countP_le_length
    have hfront := skipHeld_not_held (finds_covering a.runs) offset stop hfuel
    simp only [bind, Except.bind, hlength]
    rw [show a.store.spans = a.runs from rfl, ← hskipped]
    generalize hstart : a.skipCovered stop a.spans.length offset = start at *
    by_cases hskip : start - offset = bytes.length
    · rw [if_pos hskip, if_pos hskip]
      exact ⟨a, rfl, rfl, h⟩
    rw [if_neg hskip, if_neg hskip]
    -- the first position that is not held is in front of the end
    have hno : ¬ Holds a.runs start := by
      rw [show skipHeld (Segments.covering a.runs) stop a.spans.length offset = start by omega]
        at hfront
      exact hfront.resolve_left (by omega)
    obtain ⟨hbefore, hbehind⟩ := h.index start
    generalize hindex : (a.spans.findIdx fun s => decide (start ≤ s.start)) = index at *
    have hgap : upToNext a.runs start (bytes.length - (start - offset)) =
        a.spans[index]?.elim (bytes.length - (start - offset)) fun s =>
          min (s.start - start) (bytes.length - (start - offset)) := by
      rw [upToNext, next_runs, hindex]
      cases a.spans[index]? with
      | none => exact Nat.min_self _
      | some s => rfl
    have hsize : a.store.size - a.store.retained = a.data.length - a.retained := rfl
    rw [hgap, hsize]
    generalize htake : min (a.spans[index]?.elim (bytes.length - (start - offset)) fun s =>
      min (s.start - start) (bytes.length - (start - offset))) (a.data.length - a.retained) =
        take at *
    by_cases hzero : take = 0
    · rw [if_pos hzero, if_pos hzero]
      exact ⟨a, rfl, rfl, h⟩
    rw [if_neg hzero, if_neg hzero]
    have hsplit : a.spans = a.spans.take index ++ a.spans.drop index :=
      (List.take_append_drop index a.spans).symm
    have hindexle : index ≤ a.spans.length := by
      rw [← hindex]
      exact List.findIdx_le_length
    have hlen : (a.spans.take index).length = index := by
      rw [List.length_take, Nat.min_eq_left hindexle]
    obtain ⟨hprevious, hlast⟩ := h.any_previous hindexle hbefore hbehind
    have hnext : ((next a.runs start).any fun s => start + take = s.start) =
        (a.spans[index]?).any fun s => start + take = s.start := by
      rw [next_runs, hindex, Option.any_map]
      rfl
    rw [hprevious, hnext]
    -- the new bytes are apart from all runs
    set new := (bytes.drop (start - offset)).take take with hnew
    have hnewlen : new.length = take := by
      rw [hnew, List.length_take, List.length_drop]
      have hle : upToNext a.runs start (bytes.length - (start - offset)) ≤ _ :=
        Nat.min_le_right _ _
      omega
    have hfits : Fits a.runs start take := by
      have hle : take ≤ upToNext a.runs start (bytes.drop (start - offset)).length := by
        rw [List.length_drop]
        omega
      have htaken := fits_take h.ordered hno hle
      rwa [← hnew, hnewlen] at htaken
    have hA : ∀ s ∈ a.spans.take index, s.stop ≤ start := by
      intro s hs
      have hroom := hfits _ (List.mem_map_of_mem (List.mem_of_mem_take hs))
      rw [h.run_stop (List.mem_of_mem_take hs)] at hroom
      have hlt : (s.run a.data).start < start := hbefore s hs
      exact hroom.resolve_right (by omega)
    have hB : ∀ s ∈ a.spans.drop index, start < s.start := by
      intro s hs
      have hmem := List.mem_of_mem_drop hs
      have hroom := hfits _ (List.mem_map_of_mem hmem)
      rw [h.run_stop hmem] at hroom
      have hlt := h.start_lt hmem
      have hle := hbehind s hs
      have habove : start + take ≤ s.start := hroom.resolve_left (by omega)
      omega
    obtain ⟨hdata, hpacked, hretained, hruns⟩ :=
      h.insertBytes new hsplit hA hB (by rw [hnewlen]; omega)
    obtain ⟨hone, hmerged⟩ := length_insertBytes start new hsplit
    rw [hlen] at hdata hpacked hretained hruns hone hmerged
    have hfull : Ordered (a.insertBytes index start new).runs := by
      rw [hruns]
      refine ordered_placeJoined h.ordered ?_ (by rwa [hnewlen])
      exact List.ne_nil_of_length_pos (by omega)
    generalize hguard : (!(decide (index ≠ 0) &&
      (a.spans[index - 1]?).any fun s => decide (s.stop = start)) &&
        !((a.spans[index]?).any fun s => decide (start + take = s.start)) &&
          decide (a.spans.length = Coroutine.AdmittedInput.maxSpans)) = guard
    cases guard with
    | true => rfl
    | false =>
      refine ⟨_, rfl, ?_, hpacked, hretained, ?_, hfull, ?_⟩
      · show (⟨(a.insertBytes index start new).runs, a.retained + new.length,
          (a.insertBytes index start new).data.length⟩ : Coroutine.AdmittedInput) = _
        rw [hruns, hnewlen, hdata]
        rfl
      · show a.retained + new.length ≤ (a.insertBytes index start new).data.length
        rw [hdata, hnewlen]
        omega
      · -- a full index takes the bytes only where a span does
        by_cases hfew : a.spans.length = Coroutine.AdmittedInput.maxSpans
        · rw [← hfew]
          refine hmerged ?_
          rw [decide_eq_true hfew, Bool.and_true, ← hlast, Bool.and_eq_false_iff] at hguard
          rcases hguard with hguard | hguard
          · rw [Bool.not_eq_false', Option.any_eq_true] at hguard
            obtain ⟨p, hp, hmeet⟩ := hguard
            exact .inl ⟨p, hp, of_decide_eq_true hmeet⟩
          · rw [Bool.not_eq_false', Option.any_eq_true] at hguard
            obtain ⟨n, hn, hmeet⟩ := hguard
            rw [List.head?_drop, hnewlen]
            exact .inr ⟨n, hn, of_decide_eq_true hmeet⟩
        · have hle := h.few
          omega

end AdmittedInput

end Layout

end Zencodec.Coroutine
