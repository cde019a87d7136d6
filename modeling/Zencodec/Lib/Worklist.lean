/-
Searches with a worklist.

A search pops an element, visits it and pushes its successors. Elements are never visited
twice: a search that finishes has visited `l` in order, and everything that was pending or
pushed, once each (`Visits`).

* `Visits.cons` adds the first element of a search;
* `Visits.next_mem`, `Visits.next_nodup`: the successors of a visited element are visited,
  and none occurs twice;
* `Visits.next_disjoint`, `Visits.start_not_next`: no element has two predecessors, and a
  starting element has none.
-/
import Mathlib.Data.List.Nodup
import Mathlib.Data.List.Pairwise
import Mathlib.Data.List.Perm.Basic
import Mathlib.Data.List.Perm.Lattice

namespace Worklist

variable {α : Type*} {next : α → List α} {pending l : List α} {a b c : α}

/-- A search from `pending` that visits `l`. -/
structure Visits (next : α → List α) (pending l : List α) : Prop where
  nodup : l.Nodup
  perm : l.Perm (pending ++ l.flatMap next)

theorem Visits.nil : Visits next [] [] := ⟨List.nodup_nil, List.Perm.refl _⟩

/-- The first element is popped and its successors are pushed. -/
theorem Visits.cons {pushed : List α} (h : Visits next (pushed ++ pending) l)
    (hpush : pushed.Perm (next a)) (ha : a ∉ l) : Visits next (a :: pending) (a :: l) := by
  refine ⟨List.nodup_cons.mpr ⟨ha, h.nodup⟩, ?_⟩
  rw [List.flatMap_cons, List.cons_append]
  refine List.Perm.cons a (h.perm.trans ?_)
  have hswap : (pushed ++ pending).Perm (pending ++ next a) :=
    List.perm_append_comm.trans (hpush.append_left pending)
  exact (hswap.append_right _).trans (by rw [List.append_assoc])

theorem Visits.nodup_all (h : Visits next pending l) : (pending ++ l.flatMap next).Nodup :=
  h.perm.nodup_iff.mp h.nodup

theorem Visits.start_mem (h : Visits next pending l) (ha : a ∈ pending) : a ∈ l :=
  h.perm.mem_iff.mpr (List.mem_append_left _ ha)

theorem Visits.next_mem (h : Visits next pending l) (ha : a ∈ l) (hb : b ∈ next a) : b ∈ l :=
  h.perm.mem_iff.mpr (List.mem_append_right _ (List.mem_flatMap.mpr ⟨a, ha, hb⟩))

theorem Visits.next_nodup (h : Visits next pending l) (ha : a ∈ l) : (next a).Nodup :=
  (List.nodup_flatMap.mp (List.nodup_append.mp h.nodup_all).2.1).1 a ha

/-- No element has two predecessors. -/
theorem Visits.next_disjoint (h : Visits next pending l) (ha : a ∈ l) (hb : b ∈ l)
    (hab : a ≠ b) : (next a).Disjoint (next b) := by
  have hsymm : Std.Symm (Function.onFun List.Disjoint next) := ⟨fun _ _ hd => hd.symm⟩
  exact (List.nodup_flatMap.mp (List.nodup_append.mp h.nodup_all).2.1).2.forall ha hb hab

/-- A starting element has no predecessor. -/
theorem Visits.start_not_next (h : Visits next pending l) (ha : a ∈ pending) (hb : b ∈ l) :
    a ∉ next b := fun hmem =>
  (List.nodup_append.mp h.nodup_all).2.2 a ha a (List.mem_flatMap.mpr ⟨b, hb, hmem⟩) rfl

end Worklist
