/-
Runs of a labelled transition relation.

`Run Step s ls t` says that the steps with the labels `ls`, in order, lead from `s` to `t`.

* `Run.preserves` — what every step keeps, every run keeps;
* `Run.labels` — what every step from such a state shows, every label of the run shows;
* `Run.split` — a run over a prefix and a rest passes through a state between them.
-/
import Mathlib.Data.List.Basic

namespace Trace

variable {σ ι : Type*} {Step : σ → ι → σ → Prop}

inductive Run (Step : σ → ι → σ → Prop) : σ → List ι → σ → Prop
  | nil (s : σ) : Run Step s [] s
  | cons {s t u : σ} {l : ι} {ls : List ι} :
      Step s l t → Run Step t ls u → Run Step s (l :: ls) u

variable {s t u : σ} {ls ls' : List ι} {P : σ → Prop}

theorem Run.append (h : Run Step s ls t) (h' : Run Step t ls' u) : Run Step s (ls ++ ls') u := by
  induction h with
  | nil => exact h'
  | cons hstep _ ih => exact .cons hstep (ih h')

theorem Run.split (h : Run Step s (ls ++ ls') u) : ∃ t, Run Step s ls t ∧ Run Step t ls' u := by
  induction ls generalizing s with
  | nil => exact ⟨s, .nil s, h⟩
  | cons l ls ih =>
    cases h with
    | cons hstep hrest =>
      obtain ⟨t, hls, hls'⟩ := ih hrest
      exact ⟨t, .cons hstep hls, hls'⟩

theorem Run.preserves (hstep : ∀ s l t, P s → Step s l t → P t) (h : Run Step s ls t)
    (hs : P s) : P t := by
  induction h with
  | nil => exact hs
  | cons hst _ ih => exact ih (hstep _ _ _ hs hst)

theorem Run.labels {Q : ι → Prop} (hstep : ∀ s l t, P s → Step s l t → P t)
    (hlabel : ∀ s l t, P s → Step s l t → Q l) (h : Run Step s ls t) (hs : P s) :
    ∀ l ∈ ls, Q l := by
  induction h with
  | nil => simp
  | cons hst _ ih =>
    intro l hl
    rcases List.mem_cons.mp hl with rfl | hl
    · exact hlabel _ _ _ hs hst
    · exact ih (hstep _ _ _ hs hst) l hl

end Trace
