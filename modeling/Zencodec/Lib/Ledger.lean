/-
Sums over a table that changes at one place.

A ledger adds up what each place of a table holds. Changing the value at one place changes
the sum by the difference, stated without subtraction.
-/
import Mathlib.Algebra.BigOperators.Group.Finset.Basic
import Mathlib.Tactic.Abel

open scoped BigOperators

namespace Ledger

variable {ι α M : Type*} [DecidableEq ι] [AddCommMonoid M]

theorem sum_update (s : Finset ι) (f : ι → α → M) (g : ι → α) {i : ι} (hi : i ∈ s) (a : α) :
    ∑ j ∈ s, f j (Function.update g i a j) + f i (g i) = ∑ j ∈ s, f j (g j) + f i a := by
  have hrest : ∑ j ∈ s.erase i, f j (Function.update g i a j) = ∑ j ∈ s.erase i, f j (g j) :=
    Finset.sum_congr rfl fun j hj => by rw [Function.update_of_ne (Finset.ne_of_mem_erase hj)]
  rw [← Finset.add_sum_erase s _ hi, ← Finset.add_sum_erase s (fun j => f j (g j)) hi, hrest,
    Function.update_self]
  abel

end Ledger
