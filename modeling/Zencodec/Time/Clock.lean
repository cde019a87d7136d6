/-
Media time: instants on a clock, and durations.

A `Timestamp` is a number of ticks of a `TimeBase`, a `FrameDuration` a nonnegative fraction of
seconds in lowest terms. The code computes with 128-bit integers; every product and sum whose
type could be too narrow goes through `i128` or `u128`, which say what the build makes of it.
-/
import Mathlib
import Zencodec.Lib.Overflow

namespace Zencodec.Time

inductive TimingError where
  | zeroDenominator | inexact | overflow | negative
  deriving DecidableEq, Repr

/-- How a conversion settles a fractional tick. -/
inductive Rounding where
  | floor | ceil
  /-- To the nearest tick; exact halves go up. -/
  | nearest
  deriving DecidableEq, Repr

/-- `gcd32`, `gcd128`, and the loop in `FrameDuration::new`. -/
def gcdLoop : ℕ → ℕ → ℕ
  | a, 0 => a
  | a, b + 1 => gcdLoop (b + 1) (a % (b + 1))
  termination_by _ b => b
  decreasing_by exact Nat.mod_lt _ (Nat.succ_pos b)

theorem gcdLoop_eq (a b : ℕ) : gcdLoop a b = Nat.gcd a b := by
  induction a, b using gcdLoop.induct with
  | case1 a => rw [gcdLoop, Nat.gcd_zero_right]
  | case2 a b ih => rw [gcdLoop, ih, Nat.gcd_comm a, Nat.gcd_rec (b + 1) a, Nat.gcd_comm]

/-! ### Clocks -/

/-- Seconds per tick, in lowest terms. -/
structure TimeBase where
  num : ℕ
  den : ℕ
  num_pos : 0 < num
  den_pos : 0 < den
  num_lt : num < 2 ^ 32
  den_lt : den < 2 ^ 32
  coprime : Nat.Coprime num den

theorem TimeBase.eq_iff {a b : TimeBase} : a.num = b.num ∧ a.den = b.den ↔ a = b := by
  cases a
  cases b
  simp only [mk.injEq]

instance TimeBase.decEq : DecidableEq TimeBase := fun _ _ => decidable_of_iff _ TimeBase.eq_iff

theorem div_gcdLoop_pos {a b : ℕ} (ha : 0 < a) : 0 < a / gcdLoop a b := by
  rw [gcdLoop_eq]
  exact Nat.div_pos (Nat.gcd_le_left b ha) (Nat.gcd_pos_of_pos_left b ha)

theorem div_gcdLoop_pos_right {a b : ℕ} (hb : 0 < b) : 0 < b / gcdLoop a b := by
  rw [gcdLoop_eq]
  exact Nat.div_pos (Nat.gcd_le_right a hb) (Nat.gcd_pos_of_pos_right a hb)

theorem coprime_div_gcdLoop {a b : ℕ} (hb : 0 < b) :
    Nat.Coprime (a / gcdLoop a b) (b / gcdLoop a b) := by
  rw [gcdLoop_eq]
  exact Nat.coprime_div_gcd_div_gcd (Nat.gcd_pos_of_pos_right a hb)

/-- `TimeBase::new`, on two 32-bit numbers. -/
def TimeBase.new (numerator denominator : ℕ) (hn : numerator < 2 ^ 32)
    (hd : denominator < 2 ^ 32) : Except TimingError TimeBase :=
  if h : numerator = 0 ∨ denominator = 0 then .error .zeroDenominator
  else
    let g := gcdLoop numerator denominator
    .ok
      { num := numerator / g
        den := denominator / g
        num_pos := div_gcdLoop_pos (Nat.pos_of_ne_zero fun hz => h (.inl hz))
        den_pos := div_gcdLoop_pos_right (Nat.pos_of_ne_zero fun hz => h (.inr hz))
        num_lt := (Nat.div_le_self _ _).trans_lt hn
        den_lt := (Nat.div_le_self _ _).trans_lt hd
        coprime := coprime_div_gcdLoop (Nat.pos_of_ne_zero fun hz => h (.inr hz)) }

/-- One millisecond per tick. -/
def TimeBase.millis : TimeBase :=
  ⟨1, 1000, by decide, by decide, by decide, by decide, by decide⟩

/-! ### Durations -/

/-- A nonnegative number of seconds, in lowest terms. -/
structure FrameDuration where
  numerator : ℕ
  denominator : ℕ
  denominator_pos : 0 < denominator
  numerator_lt : numerator < 2 ^ 64
  denominator_lt : denominator < 2 ^ 32
  coprime : Nat.Coprime numerator denominator

theorem FrameDuration.eq_iff {a b : FrameDuration} :
    a.numerator = b.numerator ∧ a.denominator = b.denominator ↔ a = b := by
  cases a
  cases b
  simp only [mk.injEq]

instance FrameDuration.decEq : DecidableEq FrameDuration :=
  fun _ _ => decidable_of_iff _ FrameDuration.eq_iff

/-- `FrameDuration::new`, on a 64-bit and a 32-bit number. -/
def FrameDuration.new (numerator denominator : ℕ) (hn : numerator < 2 ^ 64)
    (hd : denominator < 2 ^ 32) : Except TimingError FrameDuration :=
  if h : denominator = 0 then .error .zeroDenominator
  else
    let a := gcdLoop numerator denominator
    .ok
      { numerator := numerator / a
        denominator := denominator / a
        denominator_pos := div_gcdLoop_pos_right (Nat.pos_of_ne_zero h)
        numerator_lt := (Nat.div_le_self _ _).trans_lt hn
        denominator_lt := (Nat.div_le_self _ _).trans_lt hd
        coprime := coprime_div_gcdLoop (Nat.pos_of_ne_zero h) }

/-! ### Instants -/

/-- A signed number of ticks of a clock. -/
structure Timestamp where
  ticks : ℤ
  base : TimeBase
  ticks_ge : -2 ^ 63 ≤ ticks
  ticks_lt : ticks < 2 ^ 63
  deriving DecidableEq

/-- The ticks, unless they do not fit. -/
def Timestamp.tryNew (ticks : ℤ) (base : TimeBase) : Except TimingError Timestamp :=
  if h : -2 ^ 63 ≤ ticks ∧ ticks < 2 ^ 63 then .ok ⟨ticks, base, h.1, h.2⟩
  else .error .overflow

def i128 (o : Overflow) (z : ℤ) : Option ℤ := o.int 128 z

def u128 (o : Overflow) (n : ℕ) : Option ℕ := o.nat 128 n

namespace Timestamp

/-- `ticks * num * den` as 128-bit products. -/
def scaled (o : Overflow) (ticks : ℤ) (num den : ℕ) : Option ℤ := do
  let l ← i128 o (ticks * num)
  i128 o (l * den)

/-- Exact physical ordering, whatever the bases and signs. -/
def compare (o : Overflow) (t other : Timestamp) : Option Ordering := do
  let l ← scaled o t.ticks t.base.num other.base.den
  let r ← scaled o other.ticks other.base.num t.base.den
  some (cmp l r)

/-- Whether a conversion rounds up, by the remainder. -/
def roundsUp (o : Overflow) (rem den : ℤ) : Rounding → Option Bool
  | .floor => some false
  | .ceil => some (decide (rem ≠ 0))
  | .nearest => do
    let twice ← i128 o (rem * 2)
    some (decide (den ≤ twice))

/-- The same instant on `target`, rounded as `rounding` says. -/
def rescale (o : Overflow) (t : Timestamp) (target : TimeBase) (rounding : Rounding) :
    Option (Except TimingError Timestamp) := do
  let num ← scaled o t.ticks t.base.num target.den
  let den ← i128 o (t.base.den * target.num)
  let floor := num / den
  let rem := num % den
  let up ← roundsUp o rem den rounding
  let ticks ← i128 o (floor + if up then 1 else 0)
  some (tryNew ticks target)

end Timestamp

/-- The whole number of `base` ticks in `duration`. -/
def durationToTicks (o : Overflow) (duration : FrameDuration) (base : TimeBase) :
    Option (Except TimingError ℕ) := do
  let n ← u128 o (duration.numerator * base.den)
  let d ← u128 o (duration.denominator * base.num)
  if ¬ d ∣ n then some (.error .inexact)
  else if n / d < 2 ^ 64 then some (.ok (n / d))
  else some (.error .overflow)

/-- The exact duration of `ticks` ticks of `base`. -/
def ticksToDuration (o : Overflow) (ticks : ℕ) (base : TimeBase) :
    Option (Except TimingError FrameDuration) := do
  let num ← u128 o (ticks * base.num)
  let den := base.den
  let g := max (gcdLoop num den) 1
  if hn : num / g < 2 ^ 64 then
    some (FrameDuration.new (num / g) (den / g % 2 ^ 32) hn (Nat.mod_lt _ (Nat.two_pow_pos 32)))
  else some (.error .overflow)

namespace Timestamp

/-- This instant moved later by `duration`, a whole number of ticks of its base. -/
def checkedAdd (o : Overflow) (t : Timestamp) (duration : FrameDuration) :
    Option (Except TimingError Timestamp) := do
  match ← durationToTicks o duration t.base with
  | .error e => some (.error e)
  | .ok ticks =>
    let sum ← i128 o (t.ticks + ticks)
    some (tryNew sum t.base)

/-- The exact time from this instant to `later`, whatever their bases. -/
def durationUntil (o : Overflow) (t later : Timestamp) :
    Option (Except TimingError FrameDuration) := do
  let l ← scaled o later.ticks later.base.num t.base.den
  let r ← scaled o t.ticks t.base.num later.base.den
  let num ← i128 o (l - r)
  if num < 0 then some (.error .negative)
  else do
    let num := num.natAbs
    let den ← u128 o (later.base.den * t.base.den)
    let g := max (gcdLoop num den) 1
    if hn : num / g < 2 ^ 64 then
      if hd : den / g < 2 ^ 32 then some (FrameDuration.new (num / g) (den / g) hn hd)
      else some (.error .overflow)
    else some (.error .overflow)

end Timestamp

end Zencodec.Time
