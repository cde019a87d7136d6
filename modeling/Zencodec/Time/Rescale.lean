/-
Comparing instants and moving them to another clock.

* `compare_eq`: the comparison is that of the exact instants;
* `rescale_eq`: an instant on another clock is the exact number of its ticks, rounded;
* `ticksToDuration_eq`, `durationToTicks_eq`: conversions between ticks and durations.

None of the 128-bit computations overflows, so the results are those of every build.
-/
import Mathlib.Data.Nat.Cast.Field
import Mathlib.Data.Rat.Floor
import Mathlib.Tactic.Linarith
import Mathlib.Tactic.FieldSimp
import Mathlib.Tactic.Ring
import Zencodec.Lib.Mixed
import Zencodec.Time.Clock

namespace Zencodec.Time

/-! ### What the values mean -/

def TimeBase.seconds (b : TimeBase) : ℚ := b.num / b.den

/-- The exact instant, in seconds. -/
def Timestamp.instant (t : Timestamp) : ℚ := t.ticks * t.base.seconds

def FrameDuration.seconds (d : FrameDuration) : ℚ := d.numerator / d.denominator

/-- The exact rounding. -/
def Rounding.round : Rounding → ℚ → ℤ
  | .floor, x => ⌊x⌋
  | .ceil, x => ⌈x⌉
  | .nearest, x => ⌊x + 1 / 2⌋

theorem TimeBase.seconds_pos (b : TimeBase) : 0 < b.seconds :=
  div_pos (Nat.cast_pos.mpr b.num_pos) (Nat.cast_pos.mpr b.den_pos)

theorem Rounding.round_mono (r : Rounding) {x y : ℚ} (h : x ≤ y) : r.round x ≤ r.round y := by
  cases r with
  | floor => exact Int.floor_le_floor h
  | ceil => exact Int.ceil_le_ceil h
  | nearest => exact Int.floor_le_floor (by linarith)

/-! ### Products -/

theorem Timestamp.abs_ticks_le (t : Timestamp) : |t.ticks| ≤ 2 ^ 63 :=
  abs_le.mpr ⟨t.ticks_ge, t.ticks_lt.le⟩

/-- A 64-bit number times two 32-bit numbers fits 128 bits, with room for one more. -/
theorem abs_scaled_lt {t : ℤ} {m n : ℕ} (ht : |t| ≤ 2 ^ 63) (hm : m < 2 ^ 32) (hn : n < 2 ^ 32) :
    |t * m| < 2 ^ 127 ∧ |t * m * n| < 2 ^ 127 - 1 := by
  have hm' : (m : ℤ) ≤ 2 ^ 32 - 1 := by omega
  have hn' : (n : ℤ) ≤ 2 ^ 32 - 1 := by omega
  have hfirst : |t * m| ≤ 2 ^ 63 * (2 ^ 32 - 1) := by
    rw [abs_mul, Nat.abs_cast]
    exact mul_le_mul ht hm' (Nat.cast_nonneg m) (by norm_num)
  have hsecond : |t * m * n| ≤ 2 ^ 63 * (2 ^ 32 - 1) * (2 ^ 32 - 1) := by
    rw [abs_mul, Nat.abs_cast]
    exact mul_le_mul hfirst hn' (Nat.cast_nonneg n) (by norm_num)
  exact ⟨hfirst.trans_lt (by norm_num), hsecond.trans_lt (by norm_num)⟩

theorem scaled_eq (o : Overflow) {t : ℤ} {m n : ℕ} (ht : |t| ≤ 2 ^ 63) (hm : m < 2 ^ 32)
    (hn : n < 2 ^ 32) : Timestamp.scaled o t m n = some (t * m * n) := by
  obtain ⟨hfirst, hsecond⟩ := abs_scaled_lt ht hm hn
  rw [Timestamp.scaled, i128, o.int_of_abs_lt hfirst]
  exact o.int_of_abs_lt (hsecond.trans (by norm_num))

/-- The product that the code compares is the instant, in units of both denominators. -/
theorem Timestamp.scaled_cast (t : Timestamp) (den : ℕ) :
    ((t.ticks * t.base.num * den : ℤ) : ℚ) = t.instant * (t.base.den * den) := by
  have hden : (t.base.den : ℚ) ≠ 0 := Nat.cast_ne_zero.mpr t.base.den_pos.ne'
  rw [instant, TimeBase.seconds]
  push_cast
  field_simp

/-! ### Comparison -/

/-- The comparison is that of the exact instants, and overflows in no build. -/
theorem compare_eq (o : Overflow) (t other : Timestamp) :
    t.compare o other = some (cmp t.instant other.instant) := by
  rw [Timestamp.compare, scaled_eq o t.abs_ticks_le t.base.num_lt other.base.den_lt,
    scaled_eq o other.abs_ticks_le other.base.num_lt t.base.den_lt]
  refine congrArg some ?_
  have hpos : (0 : ℚ) < t.base.den * other.base.den :=
    mul_pos (Nat.cast_pos.mpr t.base.den_pos) (Nat.cast_pos.mpr other.base.den_pos)
  calc cmp (t.ticks * t.base.num * other.base.den) (other.ticks * other.base.num * t.base.den)
      = cmp ((t.ticks * t.base.num * other.base.den : ℤ) : ℚ)
          ((other.ticks * other.base.num * t.base.den : ℤ) : ℚ) :=
        (Int.cast_strictMono.cmp_map_eq _ _).symm
    _ = cmp (t.instant * (t.base.den * other.base.den))
          (other.instant * (t.base.den * other.base.den)) := by
        rw [t.scaled_cast, other.scaled_cast, mul_comm (other.base.den : ℚ)]
    _ = cmp t.instant other.instant := cmp_mul_pos_right hpos _ _

/-! ### Rounding -/

/-- The code's quotient and remainder give the exact rounding. -/
theorem roundsUp_eq (o : Overflow) (r : Rounding) (num : ℤ) {den : ℕ} (hden : 0 < den)
    (hlt : den < 2 ^ 64) :
    ∃ up, Timestamp.roundsUp o (num % den) den r = some up ∧
      r.round ((num : ℚ) / den) = num / den + if up then 1 else 0 := by
  have hpos : (0 : ℤ) < den := Int.natCast_pos.mpr hden
  have hposq : (0 : ℚ) < den := Nat.cast_pos.mpr hden
  have hrem := Int.emod_nonneg num hpos.ne'
  have hrem' := Int.emod_lt_of_pos num hpos
  have hsplit := Int.cast_div_eq_quotient_add num hden
  cases r with
  | floor =>
    refine ⟨false, rfl, ?_⟩
    rw [Rounding.round, Rat.floor_intCast_div_natCast]
    exact (add_zero _).symm
  | ceil =>
    refine ⟨decide (num % den ≠ 0), rfl, ?_⟩
    rw [Rounding.round, hsplit, Int.ceil_intCast_add]
    congr 1
    by_cases hzero : num % den = 0
    · simp [hzero]
    · have hup : (if decide (num % den ≠ 0) = true then (1 : ℤ) else 0) = 1 :=
        if_pos (decide_eq_true hzero)
      rw [hup, Int.ceil_eq_iff]
      have hnum : (0 : ℚ) < (num % den : ℤ) := by
        exact_mod_cast lt_of_le_of_ne hrem (Ne.symm hzero)
      refine ⟨by simpa using div_pos hnum hposq, ?_⟩
      rw [Int.cast_one, div_le_one hposq]
      exact_mod_cast hrem'.le
  | nearest =>
    refine ⟨decide ((den : ℤ) ≤ num % den * 2), ?_, ?_⟩
    · have hfits : |num % den * 2| < 2 ^ (128 - 1) := by
        rw [abs_of_nonneg (by omega)]
        omega
      rw [Timestamp.roundsUp, i128, o.int_of_abs_lt hfits]
      rfl
    · rw [Rounding.round, Int.floor_div_add_half num hden]
      congr 1
      by_cases hhalf : (den : ℤ) ≤ num % den * 2 <;> simp [hhalf]

/-- An instant on another clock is the exact number of its ticks, rounded, or an error when
that does not fit; no build overflows. -/
theorem rescale_eq (o : Overflow) (t : Timestamp) (target : TimeBase) (r : Rounding) :
    t.rescale o target r =
      some (Timestamp.tryNew (r.round (t.instant / target.seconds)) target) := by
  have hbase : (t.base.den * target.num : ℤ) = ((t.base.den * target.num : ℕ) : ℤ) := by
    push_cast
    rfl
  have hden : 0 < t.base.den * target.num := Nat.mul_pos t.base.den_pos target.num_pos
  have hdenlt : t.base.den * target.num < 2 ^ 32 * 2 ^ 32 :=
    Nat.mul_lt_mul'' t.base.den_lt target.num_lt
  have hdenfits : |((t.base.den * target.num : ℕ) : ℤ)| < 2 ^ (128 - 1) := by
    rw [Nat.abs_cast]
    omega
  have hnumfits := (abs_scaled_lt t.abs_ticks_le t.base.num_lt target.den_lt).2
  have hexact : t.instant / target.seconds =
      ((t.ticks * t.base.num * target.den : ℤ) : ℚ) / (t.base.den * target.num : ℕ) := by
    have hd : (t.base.den : ℚ) ≠ 0 := Nat.cast_ne_zero.mpr t.base.den_pos.ne'
    have hn : (target.num : ℚ) ≠ 0 := Nat.cast_ne_zero.mpr target.num_pos.ne'
    have hd' : (target.den : ℚ) ≠ 0 := Nat.cast_ne_zero.mpr target.den_pos.ne'
    rw [t.scaled_cast, TimeBase.seconds]
    push_cast
    field_simp
  rw [Timestamp.rescale, scaled_eq o t.abs_ticks_le t.base.num_lt target.den_lt, hexact]
  generalize t.ticks * t.base.num * target.den = num at hnumfits ⊢
  obtain ⟨up, hup, hround⟩ := roundsUp_eq o r num hden hdenlt
  have hquot : |num / ((t.base.den * target.num : ℕ) : ℤ)| < 2 ^ 127 - 1 :=
    (Int.abs_ediv_le_abs _ _).trans_lt hnumfits
  have hsum : |num / ((t.base.den * target.num : ℕ) : ℤ) + if up then 1 else 0| <
      2 ^ (128 - 1) := by
    rw [abs_lt] at hquot ⊢
    split <;> omega
  rw [hround]
  simp only [i128, Option.bind_eq_bind, Option.bind_some, hbase, o.int_of_abs_lt hdenfits, hup,
    o.int_of_abs_lt hsum]

/-! ### Durations -/

/-- Equal fractions in lowest terms have equal terms. -/
theorem terms_unique {a b c d : ℕ} (hb : 0 < b) (hd : 0 < d) (hab : Nat.Coprime a b)
    (hcd : Nat.Coprime c d) (h : (a : ℚ) / b = (c : ℚ) / d) : a = c ∧ b = d := by
  have hdivInt : ((a : ℤ) : ℚ) / ((b : ℤ) : ℚ) = ((c : ℤ) : ℚ) / ((d : ℤ) : ℚ) := by
    simpa only [Int.cast_natCast] using h
  obtain ⟨hac, hbd⟩ := Rat.div_int_inj (Int.natCast_pos.mpr hb) (Int.natCast_pos.mpr hd)
    (by simpa using hab) (by simpa using hcd) hdivInt
  exact ⟨Int.natCast_inj.mp hac, Int.natCast_inj.mp hbd⟩

/-- A duration is determined by its seconds. -/
theorem FrameDuration.eq_of_seconds {x y : FrameDuration} (h : x.seconds = y.seconds) : x = y := by
  obtain ⟨hnum, hden⟩ := terms_unique x.denominator_pos y.denominator_pos x.coprime y.coprime h
  cases x
  cases y
  obtain rfl := hnum
  obtain rfl := hden
  rfl

/-- `r` is the duration of `x` seconds, or an overflow when there is no such duration. -/
structure IsDuration (r : Except TimingError FrameDuration) (x : ℚ) : Prop where
  ok_iff : ∀ d, r = .ok d ↔ d.seconds = x
  overflow_iff : r = .error .overflow ↔ ∀ d : FrameDuration, d.seconds ≠ x

theorem IsDuration.of_ok {d : FrameDuration} {x : ℚ} (h : d.seconds = x) :
    IsDuration (.ok d) x where
  ok_iff d' := ⟨fun heq => Except.ok.inj heq ▸ h,
    fun h' => congrArg _ (FrameDuration.eq_of_seconds (h.trans h'.symm))⟩
  overflow_iff := iff_of_false (fun heq => by cases heq) fun hall => hall d h

theorem IsDuration.of_overflow {x : ℚ} (h : ∀ d : FrameDuration, d.seconds ≠ x) :
    IsDuration (.error .overflow) x where
  ok_iff d := iff_of_false (fun heq => by cases heq) (h d)
  overflow_iff := iff_of_true rfl h

theorem FrameDuration.new_eq {num den : ℕ} (hn : num < 2 ^ 64) (hd : den < 2 ^ 32)
    (hpos : 0 < den) :
    ∃ d, FrameDuration.new num den hn hd = .ok d ∧ d.seconds = (num : ℚ) / den := by
  refine ⟨_, dif_neg hpos.ne', ?_⟩
  simp only [FrameDuration.seconds, gcdLoop_eq]
  exact Nat.cast_div_gcd num hpos

/-- What the code makes of a fraction: the duration, when both parts fit in lowest terms. -/
def lowest (num den : ℕ) : Except TimingError FrameDuration :=
  let g := max (gcdLoop num den) 1
  if hn : num / g < 2 ^ 64 then
    if hd : den / g < 2 ^ 32 then FrameDuration.new (num / g) (den / g) hn hd
    else .error .overflow
  else .error .overflow

/-- A duration of `num / den` seconds has these terms. -/
theorem FrameDuration.terms {num den : ℕ} (hden : 0 < den) {d : FrameDuration}
    (h : d.seconds = (num : ℚ) / den) :
    d.numerator = num / Nat.gcd num den ∧ d.denominator = den / Nat.gcd num den := by
  have hgcd := Nat.gcd_pos_of_pos_right num hden
  have hpos : 0 < den / Nat.gcd num den := Nat.div_pos (Nat.gcd_le_right num hden) hgcd
  have hquot : (d.numerator : ℚ) / d.denominator =
      (num / Nat.gcd num den : ℕ) / (den / Nat.gcd num den : ℕ) :=
    h.trans (Nat.cast_div_gcd num hden).symm
  exact terms_unique d.denominator_pos hpos d.coprime (Nat.coprime_div_gcd_div_gcd hgcd) hquot

theorem isDuration_lowest (num : ℕ) {den : ℕ} (hden : 0 < den) :
    IsDuration (lowest num den) ((num : ℚ) / den) := by
  have hgcd := Nat.gcd_pos_of_pos_right num hden
  have hpos : 0 < den / Nat.gcd num den := Nat.div_pos (Nat.gcd_le_right num hden) hgcd
  have hmax : max (Nat.gcd num den) 1 = Nat.gcd num den := max_eq_left hgcd
  simp only [lowest, gcdLoop_eq, hmax]
  split
  · next hn =>
    split
    · next hd =>
      obtain ⟨d, heq, hsec⟩ := FrameDuration.new_eq hn hd hpos
      rw [heq]
      exact .of_ok (hsec.trans (Nat.cast_div_gcd num hden))
    · next hd =>
      exact .of_overflow fun d h => hd ((FrameDuration.terms hden h).2 ▸ d.denominator_lt)
  · next hn =>
    exact .of_overflow fun d h => hn ((FrameDuration.terms hden h).1 ▸ d.numerator_lt)

/-- So many ticks last exactly so long, when there is such a duration. -/
theorem ticksToDuration_eq (o : Overflow) {n : ℕ} (hn : n < 2 ^ 64) (base : TimeBase) :
    ∃ r, ticksToDuration o n base = some r ∧ IsDuration r (n * base.seconds) := by
  have hfits : n * base.num < 2 ^ 64 * 2 ^ 32 := Nat.mul_lt_mul'' hn base.num_lt
  have hden : ∀ g, base.den / g % 2 ^ 32 = base.den / g := fun g =>
    Nat.mod_eq_of_lt ((Nat.div_le_self _ _).trans_lt base.den_lt)
  have hsec : (n : ℚ) * base.seconds = ((n * base.num : ℕ) : ℚ) / base.den := by
    rw [TimeBase.seconds, Nat.cast_mul, mul_div_assoc]
  refine ⟨lowest (n * base.num) base.den, ?_, hsec ▸ isDuration_lowest _ base.den_pos⟩
  rw [ticksToDuration, u128, o.nat_of_lt (hfits.trans (by norm_num))]
  simp only [Option.bind_eq_bind, Option.bind_some, lowest]
  split
  · have hlt : base.den / max (gcdLoop (n * base.num) base.den) 1 < 2 ^ 32 :=
      (Nat.div_le_self _ _).trans_lt base.den_lt
    rw [dif_pos hlt]
    simp only [hden]
  · rfl

/-- A duration is a number of ticks when it lasts exactly so long. -/
theorem durationToTicks_eq (o : Overflow) (d : FrameDuration) (base : TimeBase) {n : ℕ}
    (hn : n < 2 ^ 64) (h : d.seconds = n * base.seconds) :
    durationToTicks o d base = some (.ok n) := by
  have hnum : d.numerator * base.den < 2 ^ 64 * 2 ^ 32 :=
    Nat.mul_lt_mul'' d.numerator_lt base.den_lt
  have hden : d.denominator * base.num < 2 ^ 32 * 2 ^ 32 :=
    Nat.mul_lt_mul'' d.denominator_lt base.num_lt
  have hpos : 0 < d.denominator * base.num := Nat.mul_pos d.denominator_pos base.num_pos
  have heq : d.numerator * base.den = d.denominator * base.num * n := by
    have hd : (d.denominator : ℚ) ≠ 0 := Nat.cast_ne_zero.mpr d.denominator_pos.ne'
    have hb : (base.den : ℚ) ≠ 0 := Nat.cast_ne_zero.mpr base.den_pos.ne'
    rw [FrameDuration.seconds, TimeBase.seconds] at h
    field_simp at h
    have h' : (d.numerator : ℚ) * base.den = d.denominator * base.num * n := by
      rw [h]
      ring
    exact_mod_cast h'
  rw [durationToTicks, u128, u128, o.nat_of_lt (hnum.trans (by norm_num)),
    o.nat_of_lt (hden.trans (by norm_num)), heq]
  simp only [Option.bind_eq_bind, Option.bind_some, Nat.dvd_mul_right, not_true, if_false,
    Nat.mul_div_cancel_left _ hpos, if_pos hn]

/-! ### The order of instants -/

/-- `t` is not after `u`, as the code compares them. -/
def Timestamp.NotAfter (o : Overflow) (t u : Timestamp) : Prop :=
  ∃ c, t.compare o u = some c ∧ c ≠ .gt

theorem Timestamp.notAfter_iff {o : Overflow} {t u : Timestamp} :
    t.NotAfter o u ↔ t.instant ≤ u.instant := by
  rw [NotAfter, compare_eq]
  constructor
  · rintro ⟨c, hc, hne⟩
    rw [← Option.some_inj.mp hc] at hne
    exact not_lt.mp fun hlt => hne ((cmp_eq_gt_iff _ _).mpr hlt)
  · intro hle
    exact ⟨_, rfl, fun hgt => ((cmp_eq_gt_iff _ _).mp hgt).not_ge hle⟩

theorem Timestamp.tryNew_eq_ok {z : ℤ} {base : TimeBase} {t : Timestamp}
    (h : tryNew z base = .ok t) : t.ticks = z ∧ t.base = base := by
  rw [tryNew] at h
  split at h
  · obtain rfl := Except.ok.inj h
    exact ⟨rfl, rfl⟩
  · cases h

/-- The comparison is that of the exact instants, a total preorder; rescaling is exact rounding
and monotone; ticks survive the way to a duration and back. No build overflows. -/
theorem instants_exact (o : Overflow) :
    (∀ t u : Timestamp, t.compare o u = some (cmp t.instant u.instant)) ∧
    (∀ t u : Timestamp, t.NotAfter o u ∨ u.NotAfter o t) ∧
    (∀ t u v : Timestamp, t.NotAfter o u → u.NotAfter o v → t.NotAfter o v) ∧
    (∀ (t : Timestamp) (target : TimeBase) (r : Rounding), t.rescale o target r =
      some (Timestamp.tryNew (r.round (t.instant / target.seconds)) target)) ∧
    (∀ (t u t' u' : Timestamp) (target : TimeBase) (r : Rounding), t.NotAfter o u →
      t.rescale o target r = some (.ok t') → u.rescale o target r = some (.ok u') →
      t'.ticks ≤ u'.ticks ∧ t'.NotAfter o u') ∧
    (∀ (n : ℕ) (base : TimeBase) (d : FrameDuration), n < 2 ^ 64 →
      ticksToDuration o n base = some (.ok d) → durationToTicks o d base = some (.ok n)) := by
  refine ⟨compare_eq o, fun t u => ?_, fun t u v htu huv => ?_, rescale_eq o,
    fun t u t' u' target r hle ht hu => ?_, fun n base d hn hd => ?_⟩
  · rw [Timestamp.notAfter_iff, Timestamp.notAfter_iff]
    exact le_total _ _
  · rw [Timestamp.notAfter_iff] at htu huv ⊢
    exact htu.trans huv
  · rw [rescale_eq] at ht hu
    obtain ⟨htticks, htbase⟩ := Timestamp.tryNew_eq_ok (Option.some_inj.mp ht)
    obtain ⟨huticks, hubase⟩ := Timestamp.tryNew_eq_ok (Option.some_inj.mp hu)
    have hpos := target.seconds_pos
    have hround : t'.ticks ≤ u'.ticks := by
      rw [htticks, huticks]
      exact r.round_mono (div_le_div_of_nonneg_right (Timestamp.notAfter_iff.mp hle) hpos.le)
    refine ⟨hround, Timestamp.notAfter_iff.mpr ?_⟩
    rw [Timestamp.instant, Timestamp.instant, htbase, hubase]
    exact mul_le_mul_of_nonneg_right (Int.cast_le.mpr hround) hpos.le
  · obtain ⟨r, hr, hexact⟩ := ticksToDuration_eq o hn base
    obtain rfl : r = .ok d := Option.some_inj.mp (hr.symm.trans hd)
    exact durationToTicks_eq o d base hn ((hexact.ok_iff d).mp rfl)

theorem one_lt_u32 : 1 < 2 ^ 32 := by decide

/-- Half a millisecond per tick. -/
def halfMillis : TimeBase := ⟨1, 2000, Nat.one_pos, by decide, one_lt_u32, by decide, by decide⟩

/-- A negative half goes up, and the instants stay in order; one second is 2000 ticks. -/
theorem instants_exact_halves :
    Timestamp.rescale .panics ⟨-3, halfMillis, by decide, by decide⟩ .millis .nearest =
        some (.ok ⟨-1, .millis, by decide, by decide⟩) ∧
      Timestamp.rescale .panics ⟨-1, halfMillis, by decide, by decide⟩ .millis .nearest =
        some (.ok ⟨0, .millis, by decide, by decide⟩) ∧
      ((-1 : ℤ) ≤ 0 ∧ Timestamp.NotAfter .panics ⟨-1, .millis, by decide, by decide⟩
        ⟨0, .millis, by decide, by decide⟩) ∧
      durationToTicks .panics ⟨1, 1, by decide, by decide, by decide, by decide⟩ halfMillis =
        some (.ok 2000) := by
  obtain ⟨-, -, -, -, hmono, hback⟩ := instants_exact .panics
  have hle : Timestamp.NotAfter .panics ⟨-3, halfMillis, by decide, by decide⟩
      ⟨-1, halfMillis, by decide, by decide⟩ := ⟨.lt, by decide, by decide⟩
  have hfirst : Timestamp.rescale .panics ⟨-3, halfMillis, by decide, by decide⟩ .millis .nearest =
      some (.ok ⟨-1, .millis, by decide, by decide⟩) := by decide
  have hsecond : Timestamp.rescale .panics ⟨-1, halfMillis, by decide, by decide⟩ .millis
      .nearest = some (.ok ⟨0, .millis, by decide, by decide⟩) := by decide
  have hsec : FrameDuration.seconds ⟨1, 1, by decide, by decide, by decide, by decide⟩ =
      (2000 : ℕ) * halfMillis.seconds := by
    norm_num [FrameDuration.seconds, TimeBase.seconds, halfMillis]
  obtain ⟨r, hr, hexact⟩ := ticksToDuration_eq .panics (by decide : 2000 < 2 ^ 64) halfMillis
  obtain rfl := (hexact.ok_iff _).mpr hsec
  exact ⟨hfirst, hsecond, hmono _ _ _ _ _ _ hle hfirst hsecond, hback 2000 _ _ (by decide) hr⟩

end Zencodec.Time
