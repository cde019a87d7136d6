/-
The stop token of an opened collection.

`LatchedStop` asks the application's pulse at each check and keeps the first reason it is given.
Several observers may be inside a check at once: the native collection, the transform, the policy
and threads that hold a clone of the token. `Step` is one atomic step of one of them.

* `Step.keeps` — a reason that is stored stays;
* `first_reason` — once a check has returned a reason, every later check returns that one.
-/
import Zencodec.Lib.Act
import Zencodec.Lib.Trace
import Mathlib.Logic.Function.Basic

namespace Zencodec.Operation

/-- Why a call did not return a value: with an error, or by unwinding. -/
inductive Fault (ε : Type) where
  | failed (e : ε)
  | unwound
  deriving DecidableEq, Repr

namespace Latch

variable {T ρ : Type}

/-- `Once::call_once`: the reason that is stored afterwards. -/
def callOnce (reason : Option ρ) (r : ρ) : ρ := reason.getD r

/-- What a look at the stored reason answers. -/
def look (reason : Option ρ) : Except ρ Unit :=
  match reason with
  | some r => .error r
  | none => .ok ()

/-! ### Observers -/

/-- Where an observer is inside `check`. -/
inductive Phase (ρ : Type) where
  | outside
  /-- Nothing was stored; the source is being asked. -/
  | asking
  /-- The source has answered with a reason. -/
  | stopped (r : ρ)
  /-- The source has answered `Ok`. -/
  | rechecking

structure State (T ρ : Type) where
  reason : Option ρ
  phase : T → Phase ρ

/-- A step of observer `t`, labelled with the answer when it ends a check. The source may answer
anything, each time anew. -/
inductive Step [DecidableEq T] : State T ρ → T × Option (Except ρ Unit) → State T ρ → Prop
  | stored {s : State T ρ} {t : T} {r : ρ} (h : s.phase t = .outside) (hr : s.reason = some r) :
      Step s (t, some (.error r)) s
  | ask {s : State T ρ} {t : T} (h : s.phase t = .outside) (hr : s.reason = none) :
      Step s (t, none) { s with phase := Function.update s.phase t .asking }
  | stop {s : State T ρ} {t : T} (r : ρ) (h : s.phase t = .asking) :
      Step s (t, none) { s with phase := Function.update s.phase t (.stopped r) }
  | pass {s : State T ρ} {t : T} (h : s.phase t = .asking) :
      Step s (t, none) { s with phase := Function.update s.phase t .rechecking }
  | store {s : State T ρ} {t : T} {r : ρ} (h : s.phase t = .stopped r) :
      Step s (t, some (.error (callOnce s.reason r)))
        ⟨some (callOnce s.reason r), Function.update s.phase t .outside⟩
  | recheck {s : State T ρ} {t : T} (h : s.phase t = .rechecking) :
      Step s (t, some (look s.reason)) { s with phase := Function.update s.phase t .outside }

variable [DecidableEq T] {s s' : State T ρ} {l : T × Option (Except ρ Unit)} {r : ρ}

theorem Step.keeps (h : Step s l s') (hr : s.reason = some r) : s'.reason = some r := by
  cases h with
  | stored | ask | stop | pass | recheck => exact hr
  | store => rw [callOnce, hr, Option.getD_some]

/-- With a reason stored, a check that ends returns it. -/
theorem Step.returns (h : Step s l s') (hr : s.reason = some r) {o : Except ρ Unit}
    (ho : l.2 = some o) : o = .error r := by
  cases h with
  | stored _ hr' =>
    obtain rfl := Option.some.inj (hr'.symm.trans hr)
    exact (Option.some.inj ho).symm
  | ask | stop | pass => cases ho
  | store =>
    rw [callOnce, hr, Option.getD_some] at ho
    exact (Option.some.inj ho).symm
  | recheck =>
    rw [hr] at ho
    exact (Option.some.inj ho).symm

/-- A check that returns a reason leaves it stored. -/
theorem Step.stores (h : Step s l s') (ho : l.2 = some (.error r)) : s'.reason = some r := by
  cases h with
  | stored _ hr =>
    obtain rfl := Except.error.inj (Option.some.inj ho)
    exact hr
  | ask | stop | pass => cases ho
  | store =>
    obtain rfl := Except.error.inj (Option.some.inj ho)
    rfl
  | recheck =>
    show s.reason = some r
    have hlook := Option.some.inj ho
    unfold look at hlook
    split at hlook
    · next hr => exact hr.trans (congrArg some (Except.error.inj hlook))
    · cases hlook

/-- The first reason that any observer is given is the one that every later check returns. -/
theorem first_reason {pre post : List (T × Option (Except ρ Unit))} {t : T}
    (h : Trace.Run Step s (pre ++ (t, some (.error r)) :: post) s') :
    s'.reason = some r ∧ ∀ l ∈ post, ∀ o, l.2 = some o → o = .error r := by
  obtain ⟨s₁, -, hrest⟩ := h.split
  cases hrest with
  | cons hstep hpost =>
    have hstored := hstep.stores rfl
    constructor
    · exact hpost.preserves (P := fun s => s.reason = some r) (fun _ _ _ hs hst => hst.keeps hs)
        hstored
    · exact hpost.labels (P := fun s => s.reason = some r) (fun _ _ _ hs hst => hst.keeps hs)
        (fun _ _ _ hs hst _ ho => hst.returns hs ho) hstored

end Latch

/-! ### One check in its thread -/

/-- The stored reason, beside the rest of the world. -/
abbrev Token (ρ Ω : Type) : Type := Option ρ × Ω

variable {ρ Ω ε α τ : Type}

/-- `x` keeps a reason that is stored. It may store one: `x` and whatever runs meanwhile in other
threads reach the token through checks alone (`Latch.Step.keeps`). -/
def Keeps (latch : τ → Option ρ) (x : Act τ ε α) : Prop :=
  ∀ s r, latch s = some r → latch (x s).2 = some r

/-- The pulse of the application. Other observers may store a reason while it answers. -/
structure PulseSource (ρ Ω : Type) where
  check : Act (Token ρ Ω) (Fault ρ) Unit
  keeps : Keeps Prod.fst check

/-- `LatchedStop::check` -/
def LatchedStop.check (source : PulseSource ρ Ω) : Act (Token ρ Ω) (Fault ρ) Unit := fun s =>
  match s.1 with
  | some r => (.error (.failed r), s)
  | none =>
    match source.check s with
    | (.ok (), s) => ((Latch.look s.1).mapError .failed, s)
    | (.error (.failed r), s) =>
      (.error (.failed (Latch.callOnce s.1 r)), (some (Latch.callOnce s.1 r), s.2))
    | (.error .unwound, s) => (.error .unwound, s)

namespace LatchedStop

variable (source : PulseSource ρ Ω)

/-- With a reason stored, nothing is asked. -/
theorem check_of_stored {s : Token ρ Ω} {r : ρ} (h : s.1 = some r) :
    LatchedStop.check source s = (.error (.failed r), s) := by
  unfold LatchedStop.check
  rw [h]

theorem keeps_check : Keeps Prod.fst (LatchedStop.check source) := by
  intro s r h
  rw [check_of_stored source h]
  exact h

/-- A check that passes finds nothing stored, and one that stops leaves its reason. -/
theorem spec_check (s : Token ρ Ω) :
    Act.Spec (LatchedStop.check source) (fun _ t => t.1 = none)
      (fun e t => ∀ r, e = .failed r → t.1 = some r) s := by
  unfold Act.Spec LatchedStop.check
  cases hs : s.1 with
  | some r =>
    intro r' hr'
    rw [hs, Fault.failed.inj hr']
  | none =>
    dsimp only
    obtain ⟨result, t⟩ := source.check s
    cases result with
    | ok =>
      obtain ⟨reason, ω⟩ := t
      cases reason with
      | none => rfl
      | some r =>
        intro r' hr'
        exact congrArg some (Fault.failed.inj hr')
    | error e =>
      cases e with
      | failed r =>
        intro r' hr'
        exact congrArg some (Fault.failed.inj hr')
      | unwound =>
        intro r' hr'
        cases hr'

end LatchedStop

end Zencodec.Operation
