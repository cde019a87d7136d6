/-
Binary numbers with 64 bits.

A positive binary number is an odd number and a power of two, in one way (`reduce_eq_iff`), and
a positive finite encoding is determined by its value (`F64.value_inj`). Small natural numbers
have an encoding (`F64.value_ofNat`), and conversion to an integer gives them back. Arithmetic is
a parameter, which may be exact where it can be.
-/
import Mathlib
import Zencodec.Lib.Mixed

namespace Binary

/-- `m` times a power of two. -/
def value (m : ℕ) (e : ℤ) : ℚ := m * 2 ^ e

/-- The odd part of `m`, with the power of two that makes up for the rest. -/
def reduce (m : ℕ) (e : ℤ) : ℕ × ℤ := (m / 2 ^ padicValNat 2 m, e + padicValNat 2 m)

variable {m n : ℕ} {e f : ℤ}

theorem value_pos (hm : 0 < m) : 0 < value m e :=
  mul_pos (Nat.cast_pos.mpr hm) (zpow_pos two_pos e)

theorem value_mul_natCast : value m e * n = value (m * n) e := by
  rw [value, value, Nat.cast_mul]
  ring

theorem value_mul : value m e * value n f = value (m * n) (e + f) := by
  rw [value, value, value, zpow_add₀ two_ne_zero, Nat.cast_mul]
  ring

theorem value_add_natCast (k : ℕ) : value m (e + k) = value (m * 2 ^ k) e := by
  rw [value, value, zpow_add₀ two_ne_zero, zpow_natCast]
  push_cast
  ring

/-- Numbers over one power of two are compared without it. -/
theorem value_eq_add_iff {k : ℕ} : value m e = value n (e + k) ↔ m = n * 2 ^ k := by
  rw [value_add_natCast, value, value, mul_left_inj' (zpow_ne_zero e two_ne_zero), Nat.cast_inj]

theorem reduce_value (m : ℕ) (e : ℤ) : value (reduce m e).1 (reduce m e).2 = value m e := by
  rw [reduce, value_add_natCast, Nat.div_mul_cancel pow_padicValNat_dvd]

theorem reduce_odd (hm : 0 < m) : Odd (reduce m e).1 := by
  rw [reduce, Nat.odd_iff, ← Nat.two_dvd_ne_zero]
  intro h
  refine pow_succ_padicValNat_not_dvd (p := 2) hm.ne' ?_
  rw [pow_succ]
  exact Nat.mul_dvd_of_dvd_div pow_padicValNat_dvd h

theorem eq_of_odd_of_le (hm : Odd m) (hle : e ≤ f) (h : value m e = value n f) :
    m = n ∧ e = f := by
  obtain ⟨k, rfl⟩ := Int.le.dest hle
  have hpow := value_eq_add_iff.mp h
  cases k with
  | zero => exact ⟨by simpa using hpow, by simp⟩
  | succ k =>
    have heven : Even m := by
      rw [hpow, pow_succ, ← mul_assoc]
      exact even_two.mul_left _
    exact absurd hm (Nat.not_odd_iff_even.mpr heven)

/-- The odd part and the power of two are unique. -/
theorem eq_of_odd (hm : Odd m) (hn : Odd n) (h : value m e = value n f) : m = n ∧ e = f := by
  rcases le_total e f with hle | hle
  · exact eq_of_odd_of_le hm hle h
  · obtain ⟨hmn, hef⟩ := eq_of_odd_of_le hn hle h.symm
    exact ⟨hmn.symm, hef.symm⟩

theorem reduce_eq_iff (hm : 0 < m) (hn : 0 < n) :
    reduce m e = reduce n f ↔ value m e = value n f := by
  constructor
  · intro h
    rw [← reduce_value m e, ← reduce_value n f, h]
  · intro h
    rw [← reduce_value m e, ← reduce_value n f] at h
    exact Prod.ext_iff.mpr (eq_of_odd (reduce_odd hm) (reduce_odd hn) h)

theorem two_zpow_eq (k : ℤ) : (2 : ℚ) ^ k = 2 ^ k.toNat / 2 ^ (-k).toNat := by
  rw [← zpow_natCast, ← zpow_natCast, ← zpow_sub₀ two_ne_zero]
  congr 1
  omega

/-- The ratio of two binary numbers, in lowest terms when their significands are odd. -/
def lowestTerms (l r : ℕ × ℤ) : ℕ × ℕ :=
  (l.1 / Nat.gcd l.1 r.1 * 2 ^ (l.2 - r.2).toNat, r.1 / Nat.gcd l.1 r.1 * 2 ^ (r.2 - l.2).toNat)

variable {l r : ℕ × ℤ}

theorem lowestTerms_pos (hr : 0 < r.1) : 0 < (lowestTerms l r).2 :=
  Nat.mul_pos (Nat.div_pos (Nat.le_of_dvd hr (Nat.gcd_dvd_right _ _))
    (Nat.gcd_pos_of_pos_right _ hr)) (Nat.two_pow_pos _)

theorem lowestTerms_ratio (hr : 0 < r.1) :
    value l.1 l.2 / value r.1 r.2 = (lowestTerms l r).1 / (lowestTerms l r).2 := by
  have hpow : (2 : ℚ) ^ l.2 / 2 ^ r.2 = 2 ^ (l.2 - r.2).toNat / 2 ^ (r.2 - l.2).toNat := by
    rw [← zpow_sub₀ two_ne_zero, two_zpow_eq, neg_sub]
  rw [value, value, mul_div_mul_comm, hpow, lowestTerms, Nat.cast_mul, Nat.cast_mul, Nat.cast_pow,
    Nat.cast_pow, Nat.cast_two, mul_div_mul_comm, Nat.cast_div_gcd _ hr]

theorem lowestTerms_coprime (hl : Odd l.1) (hr : Odd r.1) :
    Nat.Coprime (lowestTerms l r).1 (lowestTerms l r).2 := by
  have hcop : Nat.Coprime (l.1 / Nat.gcd l.1 r.1) (r.1 / Nat.gcd l.1 r.1) :=
    Nat.coprime_div_gcd_div_gcd (Nat.gcd_pos_of_pos_right _ hr.pos)
  have hodd {a b : ℕ} (ha : Odd a) (hdvd : b ∣ a) (k : ℕ) : Nat.Coprime b (2 ^ k) :=
    Nat.Coprime.pow_right k (Nat.coprime_two_right.mpr (ha.of_dvd_nat hdvd))
  have hleft := hodd hl (Nat.div_dvd_of_dvd (Nat.gcd_dvd_left l.1 r.1)) (r.2 - l.2).toNat
  have hright := hodd hr (Nat.div_dvd_of_dvd (Nat.gcd_dvd_right l.1 r.1)) (l.2 - r.2).toNat
  refine Nat.Coprime.mul_left (Nat.Coprime.mul_right hcop hleft)
    (Nat.Coprime.mul_right hright.symm ?_)
  -- one of the two powers is one
  rcases le_total l.2 r.2 with hle | hle
  · rw [Int.toNat_of_nonpos (by omega)]
    exact Nat.coprime_one_left _
  · rw [Int.toNat_of_nonpos (by omega : r.2 - l.2 ≤ 0)]
    exact Nat.coprime_one_right _

/-- The power of two in a number below `2 ^ k` is below `k`. -/
theorem padicValNat_lt {k : ℕ} (hm : 0 < m) (hlt : m < 2 ^ k) : padicValNat 2 m < k :=
  (Nat.pow_lt_pow_iff_right one_lt_two).mp
    ((Nat.le_of_dvd hm pow_padicValNat_dvd).trans_lt hlt)

end Binary

/-- A number in the encoding of 64 bits. -/
structure F64 where
  bits : UInt64
  deriving DecidableEq, Inhabited, Repr

namespace F64

open Binary

/-- The biased exponent. -/
def field (x : F64) : ℕ := x.bits.toNat / 2 ^ 52 % 2 ^ 11

def fraction (x : F64) : ℕ := x.bits.toNat % 2 ^ 52

/-- The sign bit is set. -/
def Negative (x : F64) : Prop := 2 ^ 63 ≤ x.bits.toNat

instance (x : F64) : Decidable x.Negative := inferInstanceAs (Decidable (_ ≤ _))

/-- Neither infinite nor a NaN. -/
def Finite (x : F64) : Prop := x.field ≠ 2047

instance (x : F64) : Decidable x.Finite := inferInstanceAs (Decidable (_ ≠ _))

def NaN (x : F64) : Prop := x.field = 2047 ∧ x.fraction ≠ 0

instance (x : F64) : Decidable x.NaN := inferInstanceAs (Decidable (_ ∧ _))

/-- Greater than zero. -/
def Positive (x : F64) : Prop := ¬ x.NaN ∧ ¬ x.Negative ∧ x.bits ≠ 0

instance (x : F64) : Decidable x.Positive := inferInstanceAs (Decidable (_ ∧ _))

def significand (x : F64) : ℕ := if x.field = 0 then x.fraction else x.fraction + 2 ^ 52

def exponent (x : F64) : ℤ := if x.field = 0 then -1074 else x.field - 1023 - 52

/-- The value of a finite nonnegative number. -/
def value (x : F64) : ℚ := Binary.value x.significand x.exponent

/-- Numbers of the positive range. -/
def Valid (x : F64) : Prop := x.Finite ∧ x.Positive

/-- Towards zero, to the nearest number of `w` bits; a NaN gives zero. -/
def truncate (w : ℕ) (x : F64) : ℕ :=
  if x.NaN ∨ x.Negative then 0
  else if x.Finite then
    min (x.significand * 2 ^ x.exponent.toNat / 2 ^ (-x.exponent).toNat) (2 ^ w - 1)
  else 2 ^ w - 1

/-- The encoding of a natural number below `2 ^ 53`. -/
def ofNat (n : ℕ) : F64 :=
  if n = 0 then ⟨0⟩
  else ⟨.ofNat ((1022 + n.log2) * 2 ^ 52 + n * 2 ^ (52 - n.log2))⟩

variable {x y : F64}

theorem significand_lt (x : F64) : x.significand < 2 ^ 53 := by
  have := Nat.mod_lt x.bits.toNat (show 0 < 2 ^ 52 by decide)
  unfold significand fraction
  split <;> omega

theorem exponent_ge (x : F64) : -1074 ≤ x.exponent := by
  unfold exponent
  split <;> omega

theorem exponent_le (x : F64) : x.exponent ≤ 972 := by
  have := Nat.mod_lt (x.bits.toNat / 2 ^ 52) (show 0 < 2 ^ 11 by decide)
  unfold exponent field
  split <;> omega

theorem Valid.bits_eq (h : x.Valid) : x.bits.toNat = x.field * 2 ^ 52 + x.fraction := by
  have hneg := h.2.2.1
  unfold Negative at hneg
  unfold field fraction
  omega

theorem Valid.significand_pos (h : x.Valid) : 0 < x.significand := by
  have hbits : x.bits.toNat ≠ 0 := fun hzero => h.2.2.2 (UInt64.toNat_inj.mp hzero)
  have := h.bits_eq
  unfold significand
  split <;> omega

theorem Valid.value_pos (h : x.Valid) : 0 < x.value := Binary.value_pos h.significand_pos

/-- The encoding of a value has the greatest significand. -/
theorem exponent_le_of_value_eq (h : x.value = y.value) : y.exponent ≤ x.exponent := by
  by_contra hlt
  obtain ⟨k, hk⟩ := Int.le.dest (not_le.mp hlt)
  rw [value, value, ← hk, add_assoc, ← Nat.cast_one, ← Nat.cast_add, value_eq_add_iff,
    pow_add, pow_one] at h
  -- `y` is normal, since its exponent is not the least
  have hnormal : 2 ^ 52 ≤ y.significand := by
    have := exponent_ge x
    unfold significand
    split
    · next hfield =>
      have hexp : y.exponent = -1074 := if_pos hfield
      omega
    · exact Nat.le_add_left _ _
  have hlarge : 2 ^ 52 * (2 * 2 ^ k) ≤ x.significand := by
    rw [h]
    exact Nat.mul_le_mul_right _ hnormal
  have hpow : 1 ≤ 2 ^ k := Nat.one_le_two_pow
  have := significand_lt x
  omega

theorem value_inj (hx : x.Valid) (hy : y.Valid) (h : x.value = y.value) : x = y := by
  have hexp : x.exponent = y.exponent :=
    le_antisymm (exponent_le_of_value_eq h.symm) (exponent_le_of_value_eq h)
  have hsig : x.significand = y.significand := by
    rw [value, value, hexp, Binary.value, Binary.value,
      mul_left_inj' (zpow_ne_zero _ two_ne_zero), Nat.cast_inj] at h
    exact h
  have hxlt : x.fraction < 2 ^ 52 := Nat.mod_lt _ (by decide)
  have hylt : y.fraction < 2 ^ 52 := Nat.mod_lt _ (by decide)
  have hbits : x.bits.toNat = y.bits.toNat := by
    rw [hx.bits_eq, hy.bits_eq]
    unfold exponent at hexp
    unfold significand at hsig
    split at hexp <;> split at hexp <;> simp_all
    omega
  cases x
  cases y
  exact congrArg F64.mk (UInt64.toNat_inj.mp hbits)

/-! ### Natural numbers -/

theorem ofNat_bits {n : ℕ} (hn : 0 < n) (hlt : n < 2 ^ 53) :
    (ofNat n).bits.toNat = (1022 + n.log2) * 2 ^ 52 + n * 2 ^ (52 - n.log2) ∧
      n.log2 ≤ 52 ∧ 2 ^ 52 ≤ n * 2 ^ (52 - n.log2) ∧ n * 2 ^ (52 - n.log2) < 2 ^ 53 := by
  have hlog : n.log2 ≤ 52 := Nat.lt_succ_iff.mp ((Nat.log2_lt hn.ne').mpr hlt)
  have hge : 2 ^ 52 ≤ n * 2 ^ (52 - n.log2) := by
    calc 2 ^ 52 = 2 ^ n.log2 * 2 ^ (52 - n.log2) := by rw [← pow_add]; congr 1; omega
      _ ≤ n * 2 ^ (52 - n.log2) := Nat.mul_le_mul_right _ (Nat.log2_self_le hn.ne')
  have hlt' : n * 2 ^ (52 - n.log2) < 2 ^ 53 := by
    calc n * 2 ^ (52 - n.log2) < 2 ^ (n.log2 + 1) * 2 ^ (52 - n.log2) :=
          Nat.mul_lt_mul_of_pos_right Nat.lt_log2_self (Nat.two_pow_pos _)
      _ = 2 ^ 53 := by rw [← pow_add]; congr 1; omega
  refine ⟨?_, hlog, hge, hlt'⟩
  rw [ofNat, if_neg hn.ne']
  exact UInt64.toNat_ofNat_of_lt (by simp only [UInt64.size]; omega)

theorem ofNat_field {n : ℕ} (hn : 0 < n) (hlt : n < 2 ^ 53) :
    (ofNat n).field = 1023 + n.log2 ∧
      (ofNat n).fraction + 2 ^ 52 = n * 2 ^ (52 - n.log2) := by
  obtain ⟨hbits, hlog, hge, hlt'⟩ := ofNat_bits hn hlt
  rw [field, fraction, hbits]
  constructor <;> omega

theorem ofNat_valid {n : ℕ} (hn : 0 < n) (hlt : n < 2 ^ 53) : (ofNat n).Valid := by
  obtain ⟨hbits, hlog, hge, hlt'⟩ := ofNat_bits hn hlt
  have hfield := (ofNat_field hn hlt).1
  refine ⟨?_, ?_, ?_, fun hzero => ?_⟩
  · unfold Finite
    omega
  · rintro ⟨hnan, -⟩
    omega
  · unfold Negative
    omega
  · rw [hzero] at hbits
    simp only [UInt64.toNat_zero] at hbits
    omega

theorem value_ofNat {n : ℕ} (hn : 0 < n) (hlt : n < 2 ^ 53) : (ofNat n).value = n := by
  obtain ⟨hfield, hfraction⟩ := ofNat_field hn hlt
  have hlog := (ofNat_bits hn hlt).2.1
  have hexp : (ofNat n).exponent + (52 - n.log2 : ℕ) = 0 := by
    rw [exponent, if_neg (by omega), hfield]
    omega
  rw [value, significand, if_neg (by omega), hfraction, ← value_add_natCast, hexp, Binary.value,
    zpow_zero, mul_one]

theorem ofNat_inj {n k : ℕ} (hn : 0 < n) (hlt : n < 2 ^ 53) (hk : 0 < k) (hlt' : k < 2 ^ 53)
    (h : ofNat n = ofNat k) : n = k := by
  have hcast : (n : ℚ) = k := by rw [← value_ofNat hn hlt, h, value_ofNat hk hlt']
  exact Nat.cast_inj.mp hcast

/-- The whole part of a number, from its significand. -/
theorem floor_value (x : F64) :
    x.significand * 2 ^ x.exponent.toNat / 2 ^ (-x.exponent).toNat = ⌊x.value⌋₊ := by
  have hval : x.value =
      ((x.significand * 2 ^ x.exponent.toNat : ℕ) : ℚ) / ((2 ^ (-x.exponent).toNat : ℕ) : ℚ) := by
    rw [value, Binary.value, two_zpow_eq]
    push_cast
    rw [mul_div_assoc]
  rw [hval, Nat.floor_div_eq_div]

theorem truncate_lt (w : ℕ) (x : F64) : x.truncate w < 2 ^ w := by
  have hpos := Nat.two_pow_pos w
  unfold truncate
  split
  · exact hpos
  · split <;> omega

/-- Conversion gives a natural number back. -/
theorem truncate_ofNat {w n : ℕ} (hw : w ≤ 53) (hn : 0 < n) (hlt : n < 2 ^ w) :
    truncate w (ofNat n) = n := by
  have hlt' : n < 2 ^ 53 := hlt.trans_le (Nat.pow_le_pow_right two_pos hw)
  have hvalid := ofNat_valid hn hlt'
  rw [truncate, if_neg (not_or.mpr ⟨hvalid.2.1, hvalid.2.2.1⟩), if_pos hvalid.1, floor_value,
    value_ofNat hn hlt', Nat.floor_natCast]
  omega

end F64

/-- Multiplication and division of numbers. -/
structure FloatArith where
  mul : F64 → F64 → F64
  div : F64 → F64 → F64

/-- Arithmetic is exact where the exact result has an encoding. -/
structure FloatArith.Exact (t : FloatArith) : Prop where
  mul : ∀ x y z : F64, x.Valid → y.Valid → z.Valid → x.value * y.value = z.value → t.mul x y = z
  div : ∀ x y z : F64, x.Valid → y.Valid → z.Valid → x.value / y.value = z.value → t.div x y = z

/-- The encoding of a value, if it has one. -/
noncomputable def F64.ofValue (q : ℚ) : F64 := Classical.epsilon fun z => z.Valid ∧ z.value = q

theorem F64.ofValue_eq {z : F64} {q : ℚ} (hz : z.Valid) (h : z.value = q) : ofValue q = z := by
  have hspec := Classical.epsilon_spec (p := fun z : F64 => z.Valid ∧ z.value = q) ⟨z, hz, h⟩
  exact value_inj hspec.1 hz (hspec.2.trans h.symm)

/-- Arithmetic that gives the exact results. -/
noncomputable def FloatArith.ideal : FloatArith where
  mul x y := .ofValue (x.value * y.value)
  div x y := .ofValue (x.value / y.value)

theorem FloatArith.ideal_exact : ideal.Exact where
  mul _ _ _ _ _ hz h := F64.ofValue_eq hz h.symm
  div _ _ _ _ _ hz h := F64.ofValue_eq hz h.symm
