/-
Machine integers with a fixed width.

An operation whose result does not fit its type panics in a build with overflow checks, and
wraps around in one without. `Overflow.int` and `Overflow.nat` say what such an operation
leaves of its exact result, `Overflow.sub` of an unsigned difference, and `Overflow.shl` and
`Overflow.shr` of a shift; `none` is a panic.
`Abort` is how a fallible computation with such operations ends without a value.
-/
import Mathlib.Algebra.Ring.Nat
import Mathlib.Algebra.Ring.Int.Defs
import Mathlib.Algebra.Order.Ring.Int

namespace Zencodec

/-- What a build does with a result that does not fit. -/
inductive Overflow where
  | panics | wraps
  deriving DecidableEq, Repr

namespace Overflow

/-- A signed result of `w` bits. -/
def int (o : Overflow) (w : ℕ) (z : ℤ) : Option ℤ :=
  if -2 ^ (w - 1) ≤ z ∧ z < 2 ^ (w - 1) then some z
  else match o with
    | panics => none
    | wraps => some (z.bmod (2 ^ w))

/-- An unsigned result of `w` bits. -/
def nat (o : Overflow) (w : ℕ) (n : ℕ) : Option ℕ :=
  if n < 2 ^ w then some n
  else match o with
    | panics => none
    | wraps => some (n % 2 ^ w)

/-- A difference of numbers below `m`. -/
def sub (o : Overflow) (m a b : ℕ) : Option ℕ :=
  if b ≤ a then some (a - b)
  else match o with
    | panics => none
    | wraps => some (a + m - b)

/-- The distance of a shift of `w` bits. -/
def distance (o : Overflow) (w k : ℕ) : Option ℕ :=
  if k < w then some k
  else match o with
    | panics => none
    | wraps => some (k % w)

/-- To the left; the bits beyond the width are lost in every build. -/
def shl (o : Overflow) (w n k : ℕ) : Option ℕ :=
  (o.distance w k).map fun k => n * 2 ^ k % 2 ^ w

def shr (o : Overflow) (w n k : ℕ) : Option ℕ :=
  (o.distance w k).map fun k => n / 2 ^ k

variable (o : Overflow) {w : ℕ}

theorem distance_of_lt {k : ℕ} (hk : k < w) : o.distance w k = some k := if_pos hk

theorem shl_of_lt {n k : ℕ} (hk : k < w) (h : n * 2 ^ k < 2 ^ w) :
    o.shl w n k = some (n * 2 ^ k) := by
  rw [shl, o.distance_of_lt hk, Option.map_some, Nat.mod_eq_of_lt h]

theorem shr_of_lt {n k : ℕ} (hk : k < w) : o.shr w n k = some (n / 2 ^ k) := by
  rw [shr, o.distance_of_lt hk, Option.map_some]

theorem sub_of_le {m a b : ℕ} (h : b ≤ a) : o.sub m a b = some (a - b) := if_pos h

theorem int_of_abs_lt {z : ℤ} (h : |z| < 2 ^ (w - 1)) : o.int w z = some z :=
  if_pos ⟨(abs_lt.mp h).1.le, (abs_lt.mp h).2⟩

theorem int_of_mem {z : ℤ} (h : -2 ^ (w - 1) ≤ z) (h' : z < 2 ^ (w - 1)) :
    o.int w z = some z :=
  if_pos ⟨h, h'⟩

theorem nat_of_lt {n : ℕ} (h : n < 2 ^ w) : o.nat w n = some n := if_pos h

/-- A wrapped result that is too large by less than the width comes out negative. -/
theorem wraps_int_of_ge {z : ℤ} {n : ℕ} (h : 2 ^ n ≤ z) (h' : z < 2 ^ (n + 1)) :
    wraps.int (n + 1) z = some (z - 2 ^ (n + 1)) := by
  have hnot : ¬(-2 ^ (n + 1 - 1) ≤ z ∧ z < 2 ^ (n + 1 - 1)) := fun hfits => h.not_gt hfits.2
  have hpos : (0 : ℤ) < 2 ^ n := pow_pos (by decide) n
  have hpow : (2 : ℤ) ^ (n + 1) = 2 * 2 ^ n := by rw [pow_succ, mul_comm]
  rw [int, if_neg hnot, Int.bmod_def]
  push_cast
  rw [Int.emod_eq_of_lt (hpos.le.trans h) h', if_neg (by omega)]

/-- A wrapped result that is too small by less than the width comes out nonnegative. -/
theorem wraps_int_of_lt {z : ℤ} {n : ℕ} (h : -2 ^ (n + 1) ≤ z) (h' : z < -2 ^ n) :
    wraps.int (n + 1) z = some (z + 2 ^ (n + 1)) := by
  have hnot : ¬(-2 ^ (n + 1 - 1) ≤ z ∧ z < 2 ^ (n + 1 - 1)) := fun hfits => h'.not_ge hfits.1
  have hpos : (0 : ℤ) < 2 ^ n := pow_pos (by decide) n
  have hpow : (2 : ℤ) ^ (n + 1) = 2 * 2 ^ n := by rw [pow_succ, mul_comm]
  rw [int, if_neg hnot, Int.bmod_def]
  push_cast
  have hmod : z % 2 ^ (n + 1) = z + 2 ^ (n + 1) := by
    rw [← Int.add_emod_right, Int.emod_eq_of_lt (by omega) (by omega)]
  rw [hmod, if_pos (by omega)]

theorem panics_int {z : ℤ} (h : ¬(-2 ^ (w - 1) ≤ z ∧ z < 2 ^ (w - 1))) :
    panics.int w z = none :=
  if_neg h

theorem nat_of_ge {n : ℕ} (h : 2 ^ w ≤ n) : panics.nat w n = none := if_neg h.not_gt

end Overflow

/-- A panic, or an error. -/
inductive Abort (ε : Type) where
  | panicked
  | refused (e : ε)
  deriving DecidableEq, Repr

def Abort.ofOption {ε α : Type} : Option α → Except (Abort ε) α
  | some a => .ok a
  | none => .error .panicked

end Zencodec
