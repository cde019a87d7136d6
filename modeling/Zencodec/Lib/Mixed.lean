/-
Mixed numbers: a whole part, and a fraction below one in lowest terms.

* `isMixed_div` — a fraction as a mixed number, by division and reduction;
* `IsMixed.add` — the sum of two, over their least common denominator;
* `IsMixed.floor_add_half` — rounded to the nearest number, halves up;
* `IsMixed.den_eq` — the denominator is that of the number.
-/
import Mathlib

/-- Dividing by the common factor leaves a fraction as it is. -/
theorem Nat.cast_div_gcd (num : ℕ) {den : ℕ} (hden : 0 < den) :
    ((num / Nat.gcd num den : ℕ) : ℚ) / (den / Nat.gcd num den : ℕ) = num / den := by
  have hg : (Nat.gcd num den : ℚ) ≠ 0 :=
    Nat.cast_ne_zero.mpr (Nat.gcd_pos_of_pos_right num hden).ne'
  rw [Nat.cast_div (Nat.gcd_dvd_left num den) hg, Nat.cast_div (Nat.gcd_dvd_right num den) hg,
    div_div_div_cancel_right₀ hg]

/-- A fraction is at least a half, reduced or not. -/
theorem Nat.half_div_gcd_iff (num : ℕ) {den : ℕ} (hden : 0 < den) :
    den / Nat.gcd num den ≤ num / Nat.gcd num den * 2 ↔ den ≤ num * 2 := by
  have hg := Nat.gcd_pos_of_pos_right num hden
  calc den / Nat.gcd num den ≤ num / Nat.gcd num den * 2
      ↔ den / Nat.gcd num den * Nat.gcd num den ≤
          num / Nat.gcd num den * 2 * Nat.gcd num den :=
        (Nat.mul_le_mul_right_iff hg).symm
    _ ↔ den ≤ num * 2 := by
        rw [Nat.mul_right_comm, Nat.div_mul_cancel (Nat.gcd_dvd_left num den),
          Nat.div_mul_cancel (Nat.gcd_dvd_right num den)]

/-- A fraction is its quotient and a part of one. -/
theorem Int.cast_div_eq_quotient_add (num : ℤ) {den : ℕ} (hden : 0 < den) :
    (num : ℚ) / den = (num / den : ℤ) + ((num % den : ℤ) : ℚ) / den := by
  have hposq : (0 : ℚ) < den := Nat.cast_pos.mpr hden
  have hdivmod : ((num / den : ℤ) : ℚ) * den + (num % den : ℤ) = num := by
    exact_mod_cast Int.ediv_mul_add_emod num den
  rw [div_eq_iff hposq.ne', add_mul, div_mul_cancel₀ _ hposq.ne', hdivmod]

theorem Nat.cast_div_eq_quotient_add (num : ℕ) {den : ℕ} (hden : 0 < den) :
    (num : ℚ) / den = (num / den : ℕ) + ((num % den : ℕ) : ℚ) / den := by
  have h := Int.cast_div_eq_quotient_add num hden
  rwa [Int.cast_natCast, ← Int.natCast_div, ← Int.natCast_mod, Int.cast_natCast,
    Int.cast_natCast] at h

/-- A fraction to the nearest number: one up from half on. -/
theorem Int.floor_div_add_half (num : ℤ) {den : ℕ} (hden : 0 < den) :
    ⌊(num : ℚ) / den + 1 / 2⌋ = num / den + if (den : ℤ) ≤ num % den * 2 then 1 else 0 := by
  have hposq : (0 : ℚ) < den := Nat.cast_pos.mpr hden
  have hpos : (0 : ℤ) < den := Int.natCast_pos.mpr hden
  rw [Int.cast_div_eq_quotient_add num hden, add_assoc, Int.floor_intCast_add]
  congr 1
  split
  · next hhalf =>
    rw [Int.floor_eq_iff]
    have hge : (den : ℚ) ≤ (num % den : ℤ) * 2 := by exact_mod_cast hhalf
    have hlt : ((num % den : ℤ) : ℚ) < den := by exact_mod_cast Int.emod_lt_of_pos num hpos
    have hhalf' : (1 : ℚ) / 2 ≤ ((num % den : ℤ) : ℚ) / den := by
      rw [div_le_div_iff₀ (by norm_num) hposq]
      linarith
    have hone : ((num % den : ℤ) : ℚ) / den < 1 := (div_lt_one hposq).mpr hlt
    constructor <;> push_cast <;> linarith
  · next hhalf =>
    rw [Int.floor_eq_iff]
    have hlt : ((num % den : ℤ) : ℚ) * 2 < den := by exact_mod_cast not_le.mp hhalf
    have hnum : (0 : ℚ) ≤ (num % den : ℤ) := by exact_mod_cast Int.emod_nonneg num hpos.ne'
    have hzero : (0 : ℚ) ≤ ((num % den : ℤ) : ℚ) / den := div_nonneg hnum hposq.le
    have hhalf' : ((num % den : ℤ) : ℚ) / den < 1 / 2 := by
      rw [div_lt_div_iff₀ hposq (by norm_num)]
      linarith
    constructor <;> push_cast <;> linarith

/-- `x` is `whole` and `num / den`. -/
structure IsMixed (x : ℚ) (whole num den : ℕ) : Prop where
  eq : x = whole + num / den
  lt : num < den
  coprime : Nat.Coprime num den

variable {x y : ℚ} {w n d w' n' d' : ℕ}

theorem isMixed_zero : IsMixed 0 0 0 1 :=
  ⟨by norm_num, Nat.one_pos, Nat.coprime_one_right 0⟩

theorem IsMixed.den_pos (h : IsMixed x w n d) : 0 < d := Nat.zero_lt_of_lt h.lt

theorem IsMixed.nonneg (h : IsMixed x w n d) : 0 ≤ x := by
  rw [h.eq]
  positivity

/-- As one fraction. -/
theorem IsMixed.eq_div (h : IsMixed x w n d) : x = ((w * d + n : ℕ) : ℚ) / d := by
  have hd : (d : ℚ) ≠ 0 := Nat.cast_ne_zero.mpr h.den_pos.ne'
  rw [h.eq]
  push_cast
  field_simp

theorem IsMixed.den_eq (h : IsMixed x w n d) : x.den = d := by
  have hcoprime : Nat.Coprime (w * d + n) d :=
    (Nat.coprime_mul_right_add_left n d w).mpr h.coprime
  have hden := Rat.den_div_eq_of_coprime (a := ((w * d + n : ℕ) : ℤ)) (b := d)
    (Int.natCast_pos.mpr h.den_pos) hcoprime
  rw [Int.cast_natCast, Int.cast_natCast] at hden
  rw [h.eq_div]
  exact Int.natCast_inj.mp hden

theorem IsMixed.floor_add_half (h : IsMixed x w n d) :
    ⌊x + 1 / 2⌋ = (w + (decide (d ≤ n * 2)).toNat : ℕ) := by
  have hround := Int.floor_div_add_half ((w * d + n : ℕ) : ℤ) h.den_pos
  rw [Int.cast_natCast, ← h.eq_div] at hround
  have hquot : (w * d + n) / d = w := by
    rw [Nat.mul_comm, Nat.mul_add_div h.den_pos, Nat.div_eq_of_lt h.lt, Nat.add_zero]
  have hrem : (w * d + n) % d = n := by
    rw [Nat.mul_comm, Nat.mul_add_mod, Nat.mod_eq_of_lt h.lt]
  rw [hround, ← Int.natCast_div, ← Int.natCast_mod, hquot, hrem, Int.natCast_add]
  congr 1
  by_cases hhalf : d ≤ n * 2
  · rw [if_pos (by exact_mod_cast hhalf), decide_eq_true hhalf]
    rfl
  · rw [if_neg (by exact_mod_cast hhalf), decide_eq_false hhalf]
    rfl

theorem isMixed_reduce (hx : x = w + n / d) (hlt : n < d) :
    IsMixed x w (n / Nat.gcd n d) (d / Nat.gcd n d) := by
  have hd : 0 < d := Nat.zero_lt_of_lt hlt
  have hg := Nat.gcd_pos_of_pos_right n hd
  refine ⟨by rw [Nat.cast_div_gcd n hd, hx], ?_, Nat.coprime_div_gcd_div_gcd hg⟩
  exact Nat.div_lt_div_of_lt_of_dvd (Nat.gcd_dvd_right n d) hlt

/-- A fraction as a mixed number. -/
theorem isMixed_div (num : ℕ) {den : ℕ} (hden : 0 < den) :
    IsMixed (num / den) (num / den) (num % den / Nat.gcd (num % den) den)
      (den / Nat.gcd (num % den) den) :=
  isMixed_reduce (Nat.cast_div_eq_quotient_add num hden) (Nat.mod_lt num hden)

section Sum

/-- The common denominator, and the two fractions over it. -/
theorem IsMixed.scaled_lt (h : IsMixed x w n d) (h' : IsMixed y w' n' d') :
    n * (d' / Nat.gcd d d') < d * (d' / Nat.gcd d d') ∧
      n' * (d / Nat.gcd d d') < d * (d' / Nat.gcd d d') := by
  have hg := Nat.gcd_pos_of_pos_left d' h.den_pos
  have hscale : 0 < d' / Nat.gcd d d' := Nat.div_pos (Nat.gcd_le_right d h'.den_pos) hg
  have hscale' : 0 < d / Nat.gcd d d' := Nat.div_pos (Nat.gcd_le_left d' h.den_pos) hg
  have hcross : d * (d' / Nat.gcd d d') = d' * (d / Nat.gcd d d') := by
    rw [← Nat.mul_div_assoc d (Nat.gcd_dvd_right d d'),
      ← Nat.mul_div_assoc d' (Nat.gcd_dvd_left d d'), Nat.mul_comm]
  refine ⟨Nat.mul_lt_mul_of_pos_right h.lt hscale, ?_⟩
  rw [hcross]
  exact Nat.mul_lt_mul_of_pos_right h'.lt hscale'

/-- The sum over the common denominator, with a carry when the fractions make up one. -/
theorem IsMixed.add (h : IsMixed x w n d) (h' : IsMixed y w' n' d') {total sum : ℕ}
    (hsum : sum = d * (d' / Nat.gcd d d'))
    (htotal : total = n * (d' / Nat.gcd d d') + n' * (d / Nat.gcd d d')) :
    IsMixed (x + y) (w + w' + total / sum) (total % sum / Nat.gcd (total % sum) sum)
      (sum / Nat.gcd (total % sum) sum) := by
  have hpos : 0 < sum := by
    rw [hsum]
    exact Nat.zero_lt_of_lt (h.scaled_lt h').1
  refine isMixed_reduce ?_ (Nat.mod_lt total hpos)
  have hg : (Nat.gcd d d' : ℚ) ≠ 0 :=
    Nat.cast_ne_zero.mpr (Nat.gcd_pos_of_pos_left d' h.den_pos).ne'
  have hd : (d : ℚ) ≠ 0 := Nat.cast_ne_zero.mpr h.den_pos.ne'
  have hd' : (d' : ℚ) ≠ 0 := Nat.cast_ne_zero.mpr h'.den_pos.ne'
  have hfraction : (n : ℚ) / d + n' / d' = (total : ℚ) / sum := by
    rw [htotal, hsum]
    push_cast
    rw [Nat.cast_div (Nat.gcd_dvd_right d d') hg, Nat.cast_div (Nat.gcd_dvd_left d d') hg]
    field_simp
  calc x + y = w + w' + (n / d + n' / d') := by
        rw [h.eq, h'.eq]
        ring
    _ = ((w + w' + total / sum : ℕ) : ℚ) + (total % sum : ℕ) / sum := by
        rw [hfraction, Nat.cast_div_eq_quotient_add total hpos]
        push_cast
        ring

end Sum
