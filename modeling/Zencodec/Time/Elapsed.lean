/-
The time between two instants.

`duration_until` subtracts two 128-bit products, and the difference of two numbers of 128 bits
may need 129. `durationUntil_exact_iff` says that the result is exact if and only if it does
not.
-/
import Zencodec.Time.Rescale

namespace Zencodec.Time

/-- `r` is the exact time from `t` to `later`: an error if and only if `later` comes first, and
else the difference in lowest terms, or an overflow when no duration is equal to it. -/
structure Elapsed (t later : Timestamp) (r : Except TimingError FrameDuration) : Prop where
  negative_iff : r = .error .negative ↔ later.instant < t.instant
  exact : t.instant ≤ later.instant → IsDuration r (later.instant - t.instant)

/-- The difference of the instants, in units of both denominators, has 128 bits. -/
def Timestamp.Near (t later : Timestamp) : Prop :=
  -2 ^ 127 ≤ (later.instant - t.instant) * (t.base.den * later.base.den) ∧
    (later.instant - t.instant) * (t.base.den * later.base.den) < 2 ^ 127

/-- The two products that the code subtracts. -/
def Timestamp.cross (t later : Timestamp) : ℤ :=
  later.ticks * later.base.num * t.base.den - t.ticks * t.base.num * later.base.den

theorem Timestamp.cross_cast (t later : Timestamp) :
    (t.cross later : ℚ) = (later.instant - t.instant) * (t.base.den * later.base.den) := by
  rw [cross, Int.cast_sub, later.scaled_cast, t.scaled_cast]
  ring

theorem Timestamp.near_iff (t later : Timestamp) :
    t.Near later ↔ -2 ^ 127 ≤ t.cross later ∧ t.cross later < 2 ^ 127 := by
  rw [Near, ← t.cross_cast later]
  constructor
  · rintro ⟨h, h'⟩
    exact ⟨by exact_mod_cast h, by exact_mod_cast h'⟩
  · rintro ⟨h, h'⟩
    exact ⟨by exact_mod_cast h, by exact_mod_cast h'⟩

theorem Timestamp.cross_neg_iff (t later : Timestamp) :
    t.cross later < 0 ↔ later.instant < t.instant := by
  have hpos : (0 : ℚ) < t.base.den * later.base.den :=
    mul_pos (Nat.cast_pos.mpr t.base.den_pos) (Nat.cast_pos.mpr later.base.den_pos)
  rw [← Int.cast_lt_zero (R := ℚ), t.cross_cast later, mul_neg_iff]
  constructor
  · rintro (⟨-, hneg⟩ | ⟨hneg, -⟩)
    · exact absurd hpos hneg.not_gt
    · exact sub_neg.mp hneg
  · exact fun h => .inr ⟨sub_neg.mpr h, hpos⟩

/-- The difference needs 129 bits at most. -/
theorem Timestamp.abs_cross_lt (t later : Timestamp) : |t.cross later| < 2 ^ 128 := by
  have hlater := (abs_scaled_lt later.abs_ticks_le later.base.num_lt t.base.den_lt).2
  have ht := (abs_scaled_lt t.abs_ticks_le t.base.num_lt later.base.den_lt).2
  refine (abs_sub _ _).trans_lt ?_
  omega

/-- What the code does after the subtraction. -/
def settle (o : Overflow) (num : ℤ) (den : ℕ) : Option (Except TimingError FrameDuration) :=
  if num < 0 then some (.error .negative)
  else (u128 o den).bind fun den => some (lowest num.natAbs den)

theorem durationUntil_eq (o : Overflow) (t later : Timestamp) :
    t.durationUntil o later =
      (i128 o (t.cross later)).bind fun num => settle o num (later.base.den * t.base.den) := by
  rw [Timestamp.durationUntil, scaled_eq o later.abs_ticks_le later.base.num_lt t.base.den_lt,
    scaled_eq o t.abs_ticks_le t.base.num_lt later.base.den_lt]
  simp only [Option.bind_eq_bind, Option.bind_some]
  refine congrArg (Option.bind (i128 o (t.cross later))) (funext fun num => ?_)
  rw [settle]
  split
  · rfl
  refine congrArg (Option.bind (u128 o _)) (funext fun den => ?_)
  simp only [lowest]
  split
  · split <;> rfl
  · rfl

theorem settle_eq (o : Overflow) (num : ℤ) (t later : Timestamp) :
    settle o num (later.base.den * t.base.den) =
      some (if num < 0 then .error .negative
        else lowest num.natAbs (later.base.den * t.base.den)) := by
  have hden : later.base.den * t.base.den < 2 ^ 32 * 2 ^ 32 :=
    Nat.mul_lt_mul'' later.base.den_lt t.base.den_lt
  rw [settle, u128, o.nat_of_lt (hden.trans (by norm_num))]
  split <;> rfl

theorem IsDuration.ne_negative {r : Except TimingError FrameDuration} {x : ℚ}
    (h : IsDuration r x) : r ≠ .error .negative := by
  rintro rfl
  by_cases hall : ∀ d : FrameDuration, d.seconds ≠ x
  · cases h.overflow_iff.mpr hall
  · obtain ⟨d, hd⟩ := not_forall_not.mp hall
    cases (h.ok_iff d).mpr hd

/-- Without an overflow the result is exact. -/
theorem elapsed_of_near {t later : Timestamp} (h : t.Near later) (o : Overflow) :
    ∃ r, t.durationUntil o later = some r ∧ Elapsed t later r := by
  obtain ⟨hge, hlt⟩ := (t.near_iff later).mp h
  rw [durationUntil_eq, i128, o.int_of_mem hge hlt, Option.bind_some, settle_eq]
  refine ⟨_, rfl, ?_⟩
  by_cases hneg : t.cross later < 0
  · rw [if_pos hneg]
    have hbefore := (t.cross_neg_iff later).mp hneg
    exact ⟨iff_of_true rfl hbefore, fun hle => absurd hbefore hle.not_gt⟩
  rw [if_neg hneg]
  have hden : 0 < later.base.den * t.base.den := Nat.mul_pos later.base.den_pos t.base.den_pos
  have hafter : t.instant ≤ later.instant :=
    not_lt.mp fun hlt => hneg ((t.cross_neg_iff later).mpr hlt)
  have hsec : later.instant - t.instant =
      ((t.cross later).natAbs : ℚ) / (later.base.den * t.base.den : ℕ) := by
    have habs : (((t.cross later).natAbs : ℕ) : ℚ) = t.cross later := by
      rw [← Int.cast_natCast, Int.natAbs_of_nonneg (not_lt.mp hneg)]
    have hdenq : ((later.base.den * t.base.den : ℕ) : ℚ) ≠ 0 := Nat.cast_ne_zero.mpr hden.ne'
    rw [habs, t.cross_cast later, eq_div_iff hdenq]
    push_cast
    ring
  have hduration := hsec ▸ isDuration_lowest (t.cross later).natAbs hden
  exact ⟨iff_of_false hduration.ne_negative hafter.not_gt, fun _ => hduration⟩

/-- With an overflow a build panics, or has the sign of the result wrong. -/
theorem not_elapsed_of_not_near {t later : Timestamp} (h : ¬t.Near later) (o : Overflow) :
    ¬∃ r, t.durationUntil o later = some r ∧ Elapsed t later r := by
  rintro ⟨r, hr, helapsed⟩
  rw [t.near_iff] at h
  rw [durationUntil_eq, i128] at hr
  cases o with
  | panics =>
    rw [Overflow.panics_int h] at hr
    cases hr
  | wraps =>
    obtain ⟨hge, hlt⟩ := abs_lt.mp (t.abs_cross_lt later)
    by_cases hlow : t.cross later < -2 ^ 127
    · -- The sum is too small: it comes out nonnegative, though `later` is first.
      rw [Overflow.wraps_int_of_lt hge.le hlow, Option.bind_some, settle_eq,
        if_neg (by omega)] at hr
      have hbefore : later.instant < t.instant := (t.cross_neg_iff later).mp (by omega)
      have hden : 0 < later.base.den * t.base.den :=
        Nat.mul_pos later.base.den_pos t.base.den_pos
      have heq := (Option.some_inj.mp hr).trans (helapsed.negative_iff.mpr hbefore)
      exact (isDuration_lowest _ hden).ne_negative heq
    · -- The sum is too large: it comes out negative, though `later` is not first.
      have hhigh : 2 ^ 127 ≤ t.cross later := by omega
      rw [Overflow.wraps_int_of_ge hhigh hlt, Option.bind_some, settle_eq,
        if_pos (by omega)] at hr
      have hbefore := helapsed.negative_iff.mp (Option.some_inj.mp hr).symm
      have hneg := (t.cross_neg_iff later).mpr hbefore
      omega

/-- In every build, the time from `t` to `later` is exact if and only if the difference of the
instants, in units of both denominators, has 128 bits. -/
theorem durationUntil_exact_iff (o : Overflow) (t later : Timestamp) :
    (∃ r, t.durationUntil o later = some r ∧ Elapsed t later r) ↔ t.Near later :=
  ⟨fun h => by_contra fun hfar => not_elapsed_of_not_near hfar o h, fun h => elapsed_of_near h o⟩

/-- A clock of just under one second per tick. -/
def slowClock : TimeBase :=
  ⟨4294967294, 4294967295, by decide, by decide, by decide, by decide, by decide⟩

/-- The start and the end of what the clock can count, in whole seconds. -/
def firstInstant : Timestamp := ⟨-9223372034707292160, slowClock, by decide, by decide⟩

def lastInstant : Timestamp := ⟨9223372034707292160, slowClock, by decide, by decide⟩

/-- The time from one to the other is a whole number of seconds that a duration can hold; one
build panics, the other says that the last instant comes first. -/
theorem firstInstant_lastInstant :
    (∃ d : FrameDuration, d.seconds = lastInstant.instant - firstInstant.instant) ∧
      firstInstant.instant < lastInstant.instant ∧
      firstInstant.durationUntil .panics lastInstant = none ∧
      firstInstant.durationUntil .wraps lastInstant = some (.error .negative) := by
  refine ⟨⟨⟨18446744065119617024, 1, by decide, by decide, by decide, by decide⟩, ?_⟩, ?_, ?_, ?_⟩
  · norm_num [FrameDuration.seconds, Timestamp.instant, TimeBase.seconds, firstInstant,
      lastInstant, slowClock]
  · norm_num [Timestamp.instant, TimeBase.seconds, firstInstant, lastInstant, slowClock]
  · rw [durationUntil_eq]
    decide
  · rw [durationUntil_eq]
    decide

end Zencodec.Time
