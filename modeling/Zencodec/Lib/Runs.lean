/-
Runs of a machine that answers every input.

A machine is a function `step : σ → ι → ο × σ`: from a state and an input it gives an
output and the next state. A run feeds it a list of inputs.

* `final` and `outputs` — where a run ends and what it answered;
* `final_of_preserved` — what every step preserves, every run preserves;
* `outputs_of_preserved` — what every step from such a state answers, every run answers;
* `final_of_outputs` — the same where a step preserves it for some answers only;
* `exists_output_of_final` — a property of the last state that was not there at the start
  was brought in by a step whose output shows it;
* `history` — what ties a state to the outputs so far, when every step keeps it.
-/
import Mathlib.Data.List.Basic

namespace Runs

variable {σ ι ο : Type*} (step : σ → ι → ο × σ)

/-- The state after the inputs `is`. -/
def final (s : σ) : List ι → σ
  | [] => s
  | i :: is => final (step s i).2 is

/-- The outputs for the inputs `is`, in order. -/
def outputs (s : σ) : List ι → List ο
  | [] => []
  | i :: is => (step s i).1 :: outputs (step s i).2 is

@[simp] theorem final_nil (s : σ) : final step s [] = s := rfl

@[simp] theorem final_cons (s : σ) (i : ι) (is : List ι) :
    final step s (i :: is) = final step (step s i).2 is := rfl

@[simp] theorem outputs_nil (s : σ) : outputs step s [] = [] := rfl

@[simp] theorem outputs_cons (s : σ) (i : ι) (is : List ι) :
    outputs step s (i :: is) = (step s i).1 :: outputs step (step s i).2 is := rfl

theorem final_append (s : σ) (is js : List ι) :
    final step s (is ++ js) = final step (final step s is) js := by
  induction is generalizing s with
  | nil => rfl
  | cons i is ih => exact ih _

theorem outputs_append (s : σ) (is js : List ι) :
    outputs step s (is ++ js) = outputs step s is ++ outputs step (final step s is) js := by
  induction is generalizing s with
  | nil => rfl
  | cons i is ih => simp [ih]

/-- `P` is kept by every step on an input with `A`. -/
def Preserved (A : ι → Prop) (P : σ → Prop) : Prop :=
  ∀ s i, A i → P s → P (step s i).2

variable {step} {A : ι → Prop} {P : σ → Prop}

theorem final_of_preserved (h : Preserved step A P) {s : σ} {l : List ι}
    (hA : ∀ i ∈ l, A i) (hs : P s) : P (final step s l) := by
  induction l generalizing s with
  | nil => exact hs
  | cons i is ih =>
    exact ih (fun j hj => hA j (List.mem_cons_of_mem i hj)) (h s i (hA i List.mem_cons_self) hs)

theorem outputs_of_preserved (h : Preserved step A P) {Q : ο → Prop}
    (hQ : ∀ s i, A i → P s → Q (step s i).1) {s : σ} {l : List ι}
    (hA : ∀ i ∈ l, A i) (hs : P s) : ∀ o ∈ outputs step s l, Q o := by
  induction l generalizing s with
  | nil => simp
  | cons i is ih =>
    have hi : A i := hA i List.mem_cons_self
    have hrest := ih (fun j hj => hA j (List.mem_cons_of_mem i hj)) (h s i hi hs)
    intro o ho
    rcases List.mem_cons.mp ho with rfl | ho
    · exact hQ s i hi hs
    · exact hrest o ho

/-- What every step that answers with `G` keeps, a run of such steps keeps. -/
theorem final_of_outputs {G : ο → Prop} (h : ∀ s i, P s → G (step s i).1 → P (step s i).2) {s : σ}
    {l : List ι} (hs : P s) (hG : ∀ o ∈ outputs step s l, G o) : P (final step s l) := by
  induction l generalizing s with
  | nil => exact hs
  | cons i is ih =>
    exact ih (h s i hs (hG _ List.mem_cons_self)) fun o ho => hG o (List.mem_cons_of_mem _ ho)

/-- A step that makes `P` true answers with `Q`. -/
theorem exists_output_of_final {Q : ο → Prop}
    (h : ∀ s i, P (step s i).2 → P s ∨ Q (step s i).1) {s : σ} {l : List ι}
    (hP : P (final step s l)) : P s ∨ ∃ o ∈ outputs step s l, Q o := by
  induction l generalizing s with
  | nil => exact Or.inl hP
  | cons i is ih =>
    rcases ih hP with hnext | ⟨o, ho, hQ⟩
    · rcases h s i hnext with hs | hQ
      · exact Or.inl hs
      · exact Or.inr ⟨_, List.mem_cons_self, hQ⟩
    · exact Or.inr ⟨o, List.mem_cons_of_mem _ ho, hQ⟩

/-- Every output is the answer to some input of the run. -/
theorem mem_outputs {s : σ} {l : List ι} {o : ο} (ho : o ∈ outputs step s l) :
    ∃ pre i post, l = pre ++ i :: post ∧ (step (final step s pre) i).1 = o := by
  induction l generalizing s with
  | nil => simp at ho
  | cons i is ih =>
    rcases List.mem_cons.mp ho with rfl | ho
    · exact ⟨[], i, is, rfl, rfl⟩
    · obtain ⟨pre, j, post, rfl, hj⟩ := ih ho
      exact ⟨i :: pre, j, post, rfl, hj⟩

/-- A relation between the outputs so far and the state, when every step keeps it. -/
theorem history {H : List ο → σ → Prop}
    (hstep : ∀ os s i, H os s → H (os ++ [(step s i).1]) (step s i).2) {os : List ο} {s : σ}
    (hs : H os s) (l : List ι) : H (os ++ outputs step s l) (final step s l) := by
  induction l generalizing os s with
  | nil => simpa using hs
  | cons i is ih =>
    have hnext := ih (hstep os s i hs)
    simpa using hnext

end Runs
