/-
Partial maps on positions.

A map `ℕ → Option α` holds values at some positions.  It is filled from a list, where what is
held stays, and erased over an interval; it is read into a buffer up to the first position that
is free.

* `heldRun`, `freeRun` — how far the map is held, or free, from a position on;
* `readInto_isHeld` — a read succeeds exactly when the whole range is held;
* `IsGap`, `gaps_unique` — the maximal free stretches of a range; in order, there is one list
  of them.
-/
import Mathlib

namespace SparseMap

variable {α : Type*}

/-- The position holds a value. -/
def Held (m : ℕ → Option α) (p : ℕ) : Prop := m p ≠ none

instance instDecidableHeld (m : ℕ → Option α) (p : ℕ) : Decidable (Held m p) :=
  decidable_of_iff ((m p).isSome = true) Option.isSome_iff_ne_none

/-- The values of `l` from position `start` on. -/
def stretch (start : ℕ) (l : List α) : ℕ → Option α := fun p =>
  if start ≤ p then l[p - start]? else none

/-- The values of `l` from position `start` on, where nothing is held yet. -/
def fill (m : ℕ → Option α) (start : ℕ) (l : List α) : ℕ → Option α := fun p =>
  (m p).or (stretch start l p)

/-- Nothing is held from `lo` up to `hi`. -/
def erase (m : ℕ → Option α) (lo hi : ℕ) : ℕ → Option α := fun p =>
  if lo ≤ p ∧ p < hi then none else m p

/-- How many of the `n` positions from `p` on are held before the first that is free. -/
def heldRun (m : ℕ → Option α) : ℕ → ℕ → ℕ
  | _, 0 => 0
  | p, n + 1 => if Held m p then heldRun m (p + 1) n + 1 else 0

/-- How many of the `n` positions from `p` on are free before the first that is held. -/
def freeRun (m : ℕ → Option α) : ℕ → ℕ → ℕ
  | _, 0 => 0
  | p, n + 1 => if Held m p then 0 else freeRun m (p + 1) n + 1

/-- How many of `n` values at `p` are taken where `room` more can be held: the positions that are
held already cost nothing, and the first held position behind free ones ends it. -/
def accepted (m : ℕ → Option α) (room p n : ℕ) : ℕ :=
  heldRun m p n + min (freeRun m (p + heldRun m p n) (n - heldRun m p n)) room

/-- Reads into `out` from position `p` on, up to the first position that is free; the rest of
`out` stays. -/
def readInto (m : ℕ → Option α) : ℕ → List α → Bool × List α
  | _, [] => (true, [])
  | p, b :: out =>
    match m p with
    | none => (false, b :: out)
    | some c => ((readInto m (p + 1) out).1, c :: (readInto m (p + 1) out).2)

/-- A free stretch `(start, length)` of the range from `lo` to `hi` that cannot be extended. -/
structure IsGap (m : ℕ → Option α) (lo hi : ℕ) (gap : ℕ × ℕ) : Prop where
  pos : 0 < gap.2
  lo_le : lo ≤ gap.1
  le_hi : gap.1 + gap.2 ≤ hi
  free : ∀ p, gap.1 ≤ p → p < gap.1 + gap.2 → ¬ Held m p
  left : gap.1 = lo ∨ Held m (gap.1 - 1)
  right : gap.1 + gap.2 = hi ∨ Held m (gap.1 + gap.2)

variable {m : ℕ → Option α}

/-! ### Filling and erasing -/

theorem held_stretch {start p : ℕ} {l : List α} :
    Held (stretch start l) p ↔ start ≤ p ∧ p < start + l.length := by
  unfold Held stretch
  split
  · rw [Ne, List.getElem?_eq_none_iff]
    omega
  · simp only [ne_eq, not_true_eq_false, false_iff]
    omega

theorem stretch_append (start : ℕ) (l l' : List α) (p : ℕ) :
    stretch start (l ++ l') p = (stretch start l p).or (stretch (start + l.length) l' p) := by
  unfold stretch
  by_cases hp : start ≤ p
  · rw [if_pos hp, if_pos hp]
    by_cases hlt : p - start < l.length
    · rw [List.getElem?_append_left hlt, List.getElem?_eq_getElem hlt]
      rfl
    · have hnone : l[p - start]? = none := List.getElem?_eq_none (by omega)
      rw [List.getElem?_append_right (by omega), hnone, Option.none_or, if_pos (by omega)]
      congr 1
      omega
  · rw [if_neg hp, if_neg hp, if_neg (by omega)]
    rfl

theorem fill_of_held {start p : ℕ} {l : List α} {c : α} (h : m p = some c) :
    fill m start l p = some c := by
  simp [fill, h]

@[simp] theorem fill_nil (m : ℕ → Option α) (start : ℕ) : fill m start [] = m := by
  funext p
  simp [fill, stretch]

theorem stretch_take (start k : ℕ) (l : List α) (p : ℕ) :
    stretch start (l.take k) p = if p < start + k then stretch start l p else none := by
  unfold stretch
  by_cases hp : start ≤ p
  · rw [if_pos hp, if_pos hp, List.getElem?_take]
    by_cases hlt : p < start + k
    · rw [if_pos hlt, if_pos (by omega)]
    · rw [if_neg hlt, if_neg (by omega)]
  · rw [if_neg hp, if_neg hp, ite_self]

theorem stretch_drop (start k : ℕ) (l : List α) (p : ℕ) :
    stretch (start + k) (l.drop k) p = if start + k ≤ p then stretch start l p else none := by
  unfold stretch
  by_cases hp : start + k ≤ p
  · rw [if_pos hp, if_pos hp, if_pos (by omega), List.getElem?_drop]
    congr 1
    omega
  · rw [if_neg hp, if_neg hp]

/-- After a fill the whole range is held. -/
theorem held_fill {start p : ℕ} {l : List α} (hp : start ≤ p) (hlt : p < start + l.length) :
    Held (fill m start l) p := by
  have hl : Held (stretch start l) p := held_stretch.mpr ⟨hp, hlt⟩
  unfold Held fill
  cases hm : m p with
  | none => exact hl
  | some c => simp

/-- A prefix that is held already fills nothing. -/
theorem fill_skip {start k : ℕ} {l : List α}
    (h : ∀ p, start ≤ p → p < start + k → Held m p) :
    fill m start l = fill m (start + k) (l.drop k) := by
  funext p
  by_cases hheld : Held m p
  · obtain ⟨c, hc⟩ := Option.ne_none_iff_exists'.mp hheld
    rw [fill_of_held hc, fill_of_held hc]
  · have hnone := not_not.mp hheld
    simp only [fill, stretch, hnone, Option.none_or, List.getElem?_drop]
    by_cases hp : start ≤ p
    · have hk : start + k ≤ p := by
        by_contra hlt
        exact hheld (h p hp (by omega))
      rw [if_pos hp, if_pos hk]
      congr 1
      omega
    · rw [if_neg hp, if_neg (by omega)]

@[simp] theorem erase_of_le (m : ℕ → Option α) {lo hi : ℕ} (h : hi ≤ lo) :
    erase m lo hi = m := by
  funext p
  unfold erase
  rw [if_neg (by omega)]

/-- Where nothing is held an interval may grow or shrink. -/
theorem erase_congr {lo hi lo' hi' : ℕ}
    (h : ∀ p, Held m p → (lo ≤ p ∧ p < hi ↔ lo' ≤ p ∧ p < hi')) :
    erase m lo hi = erase m lo' hi' := by
  funext p
  unfold erase
  by_cases hp : Held m p
  · rw [if_congr (h p hp) rfl rfl]
  · rw [not_not.mp hp, ite_self, ite_self]

/-! ### Runs -/

theorem heldRun_le (m : ℕ → Option α) (p n : ℕ) : heldRun m p n ≤ n := by
  induction n generalizing p with
  | zero => exact Nat.le_refl _
  | succ n ih =>
    have hle := ih (p + 1)
    rw [heldRun]
    split <;> omega

theorem freeRun_le (m : ℕ → Option α) (p n : ℕ) : freeRun m p n ≤ n := by
  induction n generalizing p with
  | zero => exact Nat.le_refl _
  | succ n ih =>
    have hle := ih (p + 1)
    rw [freeRun]
    split <;> omega

theorem accepted_le (m : ℕ → Option α) (room p n : ℕ) : accepted m room p n ≤ n := by
  have hheld := heldRun_le m p n
  have hfree := freeRun_le m (p + heldRun m p n) (n - heldRun m p n)
  unfold accepted
  omega

/-- A run of held positions that ends at a free one, or at the end. -/
theorem heldRun_eq {p n k : ℕ} (hk : k ≤ n) (hheld : ∀ q, p ≤ q → q < p + k → Held m q)
    (hend : k = n ∨ ¬ Held m (p + k)) : heldRun m p n = k := by
  induction n generalizing p k with
  | zero => exact (Nat.le_zero.mp hk).symm
  | succ n ih =>
    rw [heldRun]
    cases k with
    | zero => exact if_neg (by simpa using hend)
    | succ k =>
      have hrest : heldRun m (p + 1) n = k := by
        refine ih (by omega) (fun q hq hlt => hheld q (by omega) (by omega)) ?_
        rw [show p + 1 + k = p + (k + 1) by omega]
        exact hend.imp (by omega) id
      rw [if_pos (hheld p (by omega) (by omega)), hrest]

theorem freeRun_eq {p n k : ℕ} (hk : k ≤ n) (hfree : ∀ q, p ≤ q → q < p + k → ¬ Held m q)
    (hend : k = n ∨ Held m (p + k)) : freeRun m p n = k := by
  induction n generalizing p k with
  | zero => exact (Nat.le_zero.mp hk).symm
  | succ n ih =>
    rw [freeRun]
    cases k with
    | zero => exact if_pos (by simpa using hend)
    | succ k =>
      have hrest : freeRun m (p + 1) n = k := by
        refine ih (by omega) (fun q hq hlt => hfree q (by omega) (by omega)) ?_
        rw [show p + 1 + k = p + (k + 1) by omega]
        exact hend.imp (by omega) id
      rw [if_neg (hfree p (by omega) (by omega)), hrest]

/-! ### Reading -/

theorem length_readInto (m : ℕ → Option α) (p : ℕ) (out : List α) :
    (readInto m p out).2.length = out.length := by
  induction out generalizing p with
  | nil => rfl
  | cons b out ih =>
    rw [readInto]
    cases m p with
    | none => rfl
    | some c =>
      dsimp only
      rw [List.length_cons, ih, List.length_cons]

/-- A read succeeds exactly when all of the range is held. -/
theorem readInto_isHeld (m : ℕ → Option α) (p : ℕ) (out : List α) :
    (readInto m p out).1 = true ↔ ∀ q, p ≤ q → q < p + out.length → Held m q := by
  induction out generalizing p with
  | nil => simpa [readInto] using fun q hq hlt => by omega
  | cons b out ih =>
    rw [readInto]
    cases hp : m p with
    | none =>
      refine ⟨fun h => by simp at h, fun h => absurd hp (h p (Nat.le_refl _) ?_)⟩
      rw [List.length_cons]
      omega
    | some c =>
      dsimp only
      rw [ih (p + 1), List.length_cons]
      refine ⟨fun h q hq hlt => ?_, fun h q hq hlt => h q (by omega) (by omega)⟩
      rcases Nat.eq_or_lt_of_le hq with rfl | hq
      · simp [Held, hp]
      · exact h q hq (by omega)

/-- What a successful read leaves in the buffer is what is held. -/
theorem getElem?_readInto {p : ℕ} {out : List α} (h : (readInto m p out).1 = true) {i : ℕ}
    (hi : i < out.length) : (readInto m p out).2[i]? = m (p + i) := by
  induction out generalizing p i with
  | nil => simp at hi
  | cons b out ih =>
    rw [readInto] at h ⊢
    cases hp : m p with
    | none => simp [hp] at h
    | some c =>
      simp only [hp] at h
      cases i with
      | zero => simp [hp]
      | succ i =>
        dsimp only
        rw [List.getElem?_cons_succ, ih h (by simpa using hi)]
        congr 1
        omega

/-- A read over a held stretch goes on behind it. -/
theorem readInto_append {p : ℕ} {l out : List α} (h : ∀ i (hi : i < l.length), m (p + i) = l[i])
    {front : List α} (hlen : front.length = l.length) :
    readInto m p (front ++ out) =
      ((readInto m (p + l.length) out).1, l ++ (readInto m (p + l.length) out).2) := by
  induction l generalizing p front with
  | nil =>
    rw [List.length_eq_zero_iff.mp hlen]
    rfl
  | cons c l ih =>
    cases front with
    | nil => simp at hlen
    | cons b front =>
      have hp : m p = some c := h 0 (by simp)
      have hnext : ∀ i (hi : i < l.length), m (p + 1 + i) = l[i] := by
        intro i hi
        have hget := h (i + 1) (by simpa using hi)
        rw [List.getElem_cons_succ] at hget
        rw [← hget]
        congr 1
        omega
      have hfront : front.length = l.length := by simpa using hlen
      have hrest := ih hnext hfront
      rw [List.cons_append, readInto, hp]
      dsimp only
      rw [hrest, List.length_cons, show p + 1 + l.length = p + (l.length + 1) by omega]
      rfl

/-! ### Gaps -/

/-- Before means with a held position in between. -/
theorem IsGap.lt_of_lt {lo hi : ℕ} {g h : ℕ × ℕ} (hg : IsGap m lo hi g) (hh : IsGap m lo hi h)
    (hlt : g.1 < h.1) : g.1 + g.2 < h.1 := by
  by_contra hle
  have hleft := hh.left.resolve_left (by have := hg.lo_le; omega)
  exact hg.free (h.1 - 1) (by omega) (by omega) hleft

/-- A gap is known by its start. -/
theorem IsGap.ext_start {lo hi : ℕ} {g h : ℕ × ℕ} (hg : IsGap m lo hi g) (hh : IsGap m lo hi h)
    (heq : g.1 = h.1) : g = h := by
  have hgp := hg.pos
  have hhp := hh.pos
  refine Prod.ext heq (Nat.le_antisymm ?_ ?_)
  · by_contra hlt
    have hright := hh.right.resolve_left (by have := hg.le_hi; omega)
    exact hg.free _ (by omega) (by omega) hright
  · by_contra hlt
    have hright := hg.right.resolve_left (by have := hh.le_hi; omega)
    exact hh.free _ (by omega) (by omega) hright

/-- The list of all gaps, in order. -/
structure AreGaps (m : ℕ → Option α) (lo hi : ℕ) (gaps : List (ℕ × ℕ)) : Prop where
  mem_iff : ∀ gap, gap ∈ gaps ↔ IsGap m lo hi gap
  sorted : gaps.Pairwise fun g h => g.1 < h.1

theorem gaps_unique {lo hi : ℕ} {gaps gaps' : List (ℕ × ℕ)} (h : AreGaps m lo hi gaps)
    (h' : AreGaps m lo hi gaps') : gaps = gaps' := by
  have hnodup : ∀ {l : List (ℕ × ℕ)}, l.Pairwise (fun g h => g.1 < h.1) → l.Nodup :=
    fun hl => hl.imp fun hlt heq => by simp [heq] at hlt
  refine ((List.perm_ext_iff_of_nodup (hnodup h.sorted) (hnodup h'.sorted)).mpr fun gap => ?_
    ).eq_of_pairwise (fun a b _ _ hab hba => by omega) h.sorted h'.sorted
  rw [h.mem_iff, h'.mem_iff]

theorem areGaps_nil {lo hi : ℕ} (h : hi ≤ lo) : AreGaps m lo hi [] := by
  refine ⟨fun gap => ⟨fun hmem => absurd hmem List.not_mem_nil, fun hgap => ?_⟩, .nil⟩
  have hpos := hgap.pos
  have hlo := hgap.lo_le
  have hhi := hgap.le_hi
  omega

/-- Over a held stretch there is no gap. -/
theorem AreGaps.skip {lo q hi : ℕ} {gaps : List (ℕ × ℕ)} (h : AreGaps m q hi gaps)
    (hq : lo ≤ q) (hheld : ∀ p, lo ≤ p → p < q → Held m p) : AreGaps m lo hi gaps := by
  refine ⟨fun gap => (h.mem_iff gap).trans ⟨fun hg => ?_, fun hg => ?_⟩, h.sorted⟩
  · refine ⟨hg.pos, hq.trans hg.lo_le, hg.le_hi, hg.free, ?_, hg.right⟩
    rcases hg.left with heq | hleft
    · rcases Nat.eq_or_lt_of_le hq with rfl | hlt
      · exact .inl heq
      · exact .inr (hheld _ (by omega) (by omega))
    · exact .inr hleft
  · have hqle : q ≤ gap.1 := by
      by_contra hlt
      exact hg.free gap.1 (Nat.le_refl _) (by have := hg.pos; omega)
        (hheld _ hg.lo_le (by omega))
    refine ⟨hg.pos, hqle, hg.le_hi, hg.free, ?_, hg.right⟩
    rcases hg.left with heq | hleft
    · exact .inl (by omega)
    · exact .inr hleft

/-- A free stretch up to a held position, or to the end, is the first gap. -/
theorem AreGaps.cons {lo q hi : ℕ} {gaps : List (ℕ × ℕ)} (h : AreGaps m q hi gaps)
    (hlo : lo < q) (hhi : q ≤ hi) (hfree : ∀ p, lo ≤ p → p < q → ¬ Held m p)
    (hend : q = hi ∨ Held m q) : AreGaps m lo hi ((lo, q - lo) :: gaps) := by
  have hbeyond : ∀ gap, IsGap m q hi gap → q < gap.1 := by
    intro gap hg
    have hpos := hg.pos
    have hle := hg.le_hi
    refine Nat.lt_of_le_of_ne hg.lo_le fun heq => ?_
    rcases hend with rfl | hheld
    · omega
    · exact hg.free q (by omega) (by omega) hheld
  have hfirst : IsGap m lo hi (lo, q - lo) := by
    have heq : lo + (q - lo) = q := by omega
    refine ⟨by dsimp only; omega, Nat.le_refl _, by dsimp only; omega, ?_, .inl rfl, ?_⟩
    · intro p hp hlt
      exact hfree p hp (by dsimp only at hlt; omega)
    · dsimp only
      rw [heq]
      exact hend
  refine ⟨fun gap => ?_, List.pairwise_cons.mpr ⟨fun gap hg => ?_, h.sorted⟩⟩
  · rw [List.mem_cons, h.mem_iff]
    refine ⟨?_, fun hg => ?_⟩
    · rintro (rfl | hg)
      · exact hfirst
      · have hlt := hbeyond gap hg
        exact ⟨hg.pos, by omega, hg.le_hi, hg.free,
          .inr (hg.left.resolve_left (by omega)), hg.right⟩
    · by_cases hq : gap.1 < q
      · -- it starts in the free stretch, so at its start
        refine .inl (hg.ext_start hfirst ?_)
        have hle := hg.lo_le
        by_contra hne
        dsimp only at hne
        exact hfree (gap.1 - 1) (by omega) (by omega) (hg.left.resolve_left (by omega))
      · refine .inr ⟨hg.pos, by omega, hg.le_hi, hg.free, ?_, hg.right⟩
        exact hg.left.imp (by omega) id
  · have hlt := hbeyond gap ((h.mem_iff gap).mp hg)
    dsimp only
    omega

end SparseMap
