/-
Sets of indices as bit masks.

`indices` lists a mask's set bits as machine code does: the lowest bit is found by counting
trailing zeros and cleared with `m & (m - 1)`. It is the ordered filter of the indices
(`indices_eq`), so a mask that was built bit by bit lists exactly the bits it was given.
-/
import Mathlib.Data.List.Basic
import Mathlib.Data.List.Nodup
import Mathlib.Algebra.Ring.Nat
import Mathlib.Data.Nat.Bitwise

namespace Mask

/-- The lowest set bit, or `width` when there is none. -/
def trailingZeros (width m : ℕ) : ℕ := ((List.range width).find? m.testBit).getD width

/-- The set bits, lowest first; `fuel` bounds their number. -/
def indicesFrom (width : ℕ) : ℕ → ℕ → List ℕ
  | 0, _ => []
  | fuel + 1, m =>
    if m = 0 then [] else trailingZeros width m :: indicesFrom width fuel (m &&& (m - 1))

def indices (width m : ℕ) : List ℕ := indicesFrom width width m

def countOnes (width m : ℕ) : ℕ := (indices width m).length

/-! ### One bit -/

/-- Taking one from a number with trailing zeros sets them and clears its lowest bit. -/
theorem testBit_and_sub_one {m i : ℕ} (hi : m.testBit i = true)
    (hlow : ∀ j < i, m.testBit j = false) (j : ℕ) :
    (m &&& (m - 1)).testBit j = (m.testBit j && decide (j ≠ i)) := by
  have hdvd : m % 2 ^ i = 0 := by
    refine Nat.eq_of_testBit_eq fun j => ?_
    rw [Nat.testBit_mod_two_pow, Nat.zero_testBit]
    by_cases hj : j < i
    · rw [hlow j hj, Bool.and_false]
    · simp [hj]
  obtain ⟨a, rfl⟩ := Nat.dvd_of_mod_eq_zero hdvd
  have hodd : a % 2 = 1 := by
    have h := Nat.testBit_two_pow_mul_add a (Nat.two_pow_pos i) i
    rw [Nat.add_zero, hi, if_neg (Nat.lt_irrefl i), Nat.sub_self] at h
    simpa [Nat.testBit_zero] using h.symm
  have hpos := Nat.two_pow_pos i
  have hsub : 2 ^ i * a - 1 = 2 ^ i * (a - 1) + (2 ^ i - 1) := by
    obtain ⟨b, rfl⟩ : ∃ b, a = b + 1 := ⟨a - 1, by omega⟩
    rw [Nat.add_sub_cancel, Nat.mul_add, Nat.mul_one]
    omega
  have hmul := Nat.testBit_two_pow_mul_add a hpos j
  have hless := Nat.testBit_two_pow_mul_add (a - 1) (show 2 ^ i - 1 < 2 ^ i by omega) j
  rw [Nat.add_zero] at hmul
  rw [Nat.testBit_and, hsub, hmul, hless]
  by_cases hj : j < i
  · simp [hj]
  · obtain ⟨k, rfl⟩ : ∃ k, j = i + k := ⟨j - i, by omega⟩
    simp only [hj, if_false, Nat.add_sub_cancel_left]
    cases k with
    | zero =>
      have : (a - 1).testBit 0 = false := by
        simp only [Nat.testBit_zero, decide_eq_false_iff_not]
        omega
      simp [this]
    | succ k =>
      have hhalf : (a - 1) / 2 = a / 2 := by omega
      simp [Nat.testBit_succ, hhalf]

theorem testBit_shiftLeft_one (i j : ℕ) : (1 <<< i).testBit j = decide (i = j) := by
  rw [Nat.one_shiftLeft, Nat.testBit_two_pow]

/-- Setting a bit. -/
theorem testBit_set (m i j : ℕ) :
    (m ||| (1 <<< i)).testBit j = (m.testBit j || decide (i = j)) := by
  rw [Nat.testBit_or, testBit_shiftLeft_one]

/-- Testing a bit by masking. -/
theorem and_shiftLeft_ne_zero {m i : ℕ} : m &&& (1 <<< i) ≠ 0 ↔ m.testBit i = true := by
  rw [Nat.one_shiftLeft, Nat.and_two_pow]
  cases m.testBit i with
  | false => simp
  | true => simp

/-! ### All bits -/

theorem filter_eq_cons_of_find? {p : ℕ → Bool} {l : List ℕ} (hl : l.Nodup) {i : ℕ}
    (hi : l.find? p = some i) : l.filter p = i :: l.filter fun j => p j && decide (j ≠ i) := by
  induction l with
  | nil => cases hi
  | cons a l ih =>
    obtain ⟨ha, hl⟩ := List.nodup_cons.mp hl
    cases hp : p a with
    | true =>
      obtain rfl : a = i := by simpa [List.find?_cons, hp] using hi
      have hrest : l.filter p = l.filter fun j => p j && decide (j ≠ a) := by
        refine List.filter_congr fun j hj => ?_
        have hne : j ≠ a := fun h => ha (h ▸ hj)
        simp [hne]
      simp [hp, hrest]
    | false =>
      rw [List.find?_cons, hp] at hi
      simpa [List.filter_cons, hp] using ih hl hi

/-- The set bits of a mask that fits in `width` bits, in increasing order. -/
theorem indicesFrom_eq {width fuel m : ℕ} (hm : m < 2 ^ width)
    (hfuel : ((List.range width).filter m.testBit).length ≤ fuel) :
    indicesFrom width fuel m = (List.range width).filter m.testBit := by
  induction fuel generalizing m with
  | zero => exact (List.length_eq_zero_iff.mp (Nat.le_zero.mp hfuel)).symm
  | succ fuel ih =>
    rw [indicesFrom]
    split
    · next h0 => simp [h0]
    · next h0 =>
      obtain ⟨i, hi⟩ : ∃ i, (List.range width).find? m.testBit = some i := by
        refine Option.ne_none_iff_exists'.mp fun hnone => h0 (Nat.eq_of_testBit_eq fun j => ?_)
        rw [Nat.zero_testBit]
        by_cases hj : j < width
        · simpa using List.find?_eq_none.mp hnone j (List.mem_range.mpr hj)
        · exact Nat.testBit_lt_two_pow (Nat.lt_of_lt_of_le hm
            (Nat.pow_le_pow_right (by omega) (by omega)))
      have hbit : m.testBit i = true := List.find?_some hi
      have hlow : ∀ j < i, m.testBit j = false := by
        intro j hj
        have := (List.find?_range_eq_some.mp hi).2.2 j hj
        simpa using this
      have hcons := filter_eq_cons_of_find? List.nodup_range hi
      have hclear : (List.range width).filter (m &&& (m - 1)).testBit
          = (List.range width).filter fun j => m.testBit j && decide (j ≠ i) :=
        List.filter_congr fun j _ => testBit_and_sub_one hbit hlow j
      rw [ih (Nat.lt_of_le_of_lt Nat.and_le_left hm) ?_, hclear, hcons, trailingZeros, hi]
      · rfl
      · rw [hclear]
        rw [hcons, List.length_cons] at hfuel
        omega

theorem indices_eq {width m : ℕ} (hm : m < 2 ^ width) :
    indices width m = (List.range width).filter m.testBit := by
  refine indicesFrom_eq hm ?_
  calc ((List.range width).filter m.testBit).length
      ≤ (List.range width).length := List.length_filter_le _ _
    _ = width := List.length_range

theorem mem_indices {width m i : ℕ} (hm : m < 2 ^ width) :
    i ∈ indices width m ↔ m.testBit i = true := by
  rw [indices_eq hm, List.mem_filter, List.mem_range]
  refine ⟨fun h => h.2, fun h => ⟨?_, h⟩⟩
  by_contra hi
  rw [Nat.testBit_lt_two_pow (Nat.lt_of_lt_of_le hm
    (Nat.pow_le_pow_right (by omega) (by omega)))] at h
  cases h

/-- The mask of the first `n` indices. -/
theorem testBit_ones (n j : ℕ) : (2 ^ n - 1).testBit j = decide (j < n) :=
  Nat.testBit_two_pow_sub_one n j

end Mask
