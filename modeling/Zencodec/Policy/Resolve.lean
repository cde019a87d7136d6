/-
How a policy-driven decoder asks its policy, and what it keeps of the answers.

`resolveBoundary` and `resolveFrame` are the two questions: one at a suspended boundary of a
still image, one about a decoded video frame. `admitWorkspace` is the check before any native
work: no native bound is qualified here, so every limit refuses.

* `resolveBoundary_permits` — an answer is the one action that the facts permit;
* `admitWorkspace_limited` — a limit on workspace is refused;
* `holds_record` — the report holds the last sixteen decisions, in order.
-/
import Zencodec.Operation.Collection
import Zencodec.Incremental.Contract

namespace Zencodec.Policy

open Zencodec.Operation Zencodec.Incremental

variable {δ ε φ Ω : Type}

/-! ### Questions -/

/-- A pulse of the application; polling it may unwind. -/
abbrev Stop (Ω : Type) : Type := Act Ω (Fault StopReason) Unit

/-- `pulse.unwrap_or(&NoPulse)` -/
def Stop.orNone (pulse : Option (Stop Ω)) : Stop Ω := pulse.getD (Act.pure ())

/-- The application's policy; its questions show facts of type `φ`. -/
structure Resolver (φ ε Ω : Type) where
  requirements : Option PolicySet
  decide : φ → Question → Act (ℕ × Ω) (Fault ε) Decision

/-- The policy about these facts. -/
def Resolver.about (resolver : Resolver φ ε Ω) (facts : φ) : OperationPolicy Ω (Fault ε) :=
  ⟨resolver.requirements, resolver.decide facts⟩

/-- The one mechanism that a boundary in this state can be answered with. -/
def boundaryMechanism (facts : InterpretationFacts δ) : Incremental.BoundaryAction :=
  match facts.state with
  | .pending | .provisional => .continueReading
  | .final | .unavailable => .adoptInterpretation

/-- An action as it is offered. -/
def offered : Incremental.BoundaryAction → BoundaryOffer
  | .continueReading => ⟨.continueReading⟩
  | .adoptInterpretation => ⟨.adoptInterpretation⟩

/-- The action of an offer. -/
def BoundaryOffer.mechanism (offer : BoundaryOffer) : Incremental.BoundaryAction :=
  match offer.action with
  | .continueReading => .continueReading
  | .adoptInterpretation => .adoptInterpretation

/-- `resolve_boundary` -/
def resolveBoundary (usizeMax : ℕ) (boundary : DecodeBoundary δ)
    (resolver : Resolver (InterpretationFacts δ) ε Ω) (preset : PolicySet)
    (pulse : Option (Stop Ω)) :
    Act (ℕ × Ω) (Fault (PolicyFailure ε StopReason))
      (Incremental.BoundaryAction × DecisionRecord) := do
  let facts := boundary.facts
  let action := boundaryMechanism facts
  let offers := if action.permits facts then [offered action] else []
  let (index, record) ← Act.mapError PolicyFailure.fault
    (choose usizeMax .boundary offers (resolver.about facts) preset (Stop.orNone pulse))
  let offer ← Act.getOr offers[index]? .unwound
  pure (BoundaryOffer.mechanism offer, record)

/-- `resolve_frame` -/
def resolveFrame (usizeMax : ℕ) (frame : φ) (resolver : Resolver φ ε Ω) (preset : PolicySet)
    (pulse : Option (Stop Ω)) :
    Act (ℕ × Ω) (Fault (PolicyFailure ε StopReason)) DecisionRecord := do
  let (_, record) ← Act.mapError PolicyFailure.fault
    (choose usizeMax .frame [.returnHeld] (resolver.about frame) preset (Stop.orNone pulse))
  pure record

theorem mechanism_offered (action : Incremental.BoundaryAction) :
    BoundaryOffer.mechanism (offered action) = action := by
  cases action <;> rfl

/-- An answer is the offered mechanism, and only a permitted one is offered. -/
theorem resolveBoundary_permits {usizeMax : ℕ} {boundary : DecodeBoundary δ}
    {resolver : Resolver (InterpretationFacts δ) ε Ω} {preset : PolicySet}
    {pulse : Option (Stop Ω)} {w : ℕ × Ω}
    {answer : Incremental.BoundaryAction × DecisionRecord}
    (h : (resolveBoundary usizeMax boundary resolver preset pulse w).1 = .ok answer) :
    answer.1.permits boundary.facts = true := by
  unfold resolveBoundary at h
  obtain ⟨⟨index, record⟩, -, h⟩ := Act.ok_of_bind h
  obtain ⟨offer, hoffer, h⟩ := Act.ok_of_bind h
  obtain rfl : (BoundaryOffer.mechanism offer, record) = answer := Except.ok.inj h
  by_cases hpermits : (boundaryMechanism boundary.facts).permits boundary.facts = true
  · rw [if_pos hpermits] at hoffer
    cases index with
    | zero =>
      obtain rfl : offered (boundaryMechanism boundary.facts) = offer := Except.ok.inj hoffer
      rw [mechanism_offered]
      exact hpermits
    | succ n => cases hoffer
  · rw [if_neg hpermits] at hoffer
    cases hoffer

/-! ### Workspace -/

/-- The loop over both entry policies: neither has a qualified bound to meet. -/
def admitWorkspace (preset : PolicySet) (required : Option PolicySet) :
    Except UnmetRequirements Unit := do
  preset.checkWorkspace none
  match required with
  | some set => set.checkWorkspace none
  | none => pure ()

/-- Either policy limits the workspace. -/
def limitsWorkspace (preset : PolicySet) (required : Option PolicySet) : Bool :=
  preset.workspaceLimit.isSome || required.any fun set => set.workspaceLimit.isSome

theorem checkWorkspace_limited {set : PolicySet} (h : set.workspaceLimit.isSome = true) :
    ∃ u, set.checkWorkspace none = .error u := by
  obtain ⟨limit, hlimit⟩ := Option.isSome_iff_exists.mp h
  refine ⟨⟨4, 0⟩, ?_⟩
  unfold PolicySet.checkWorkspace
  rw [hlimit]
  rfl

theorem admitWorkspace_limited {preset : PolicySet} {required : Option PolicySet}
    (h : limitsWorkspace preset required = true) :
    ∃ u, admitWorkspace preset required = .error u := by
  cases hpreset : preset.checkWorkspace none with
  | error u => exact ⟨u, by simp only [admitWorkspace, hpreset]; rfl⟩
  | ok v =>
    have hfree : preset.workspaceLimit.isSome = false := by
      by_contra hlimit
      obtain ⟨u, hu⟩ := checkWorkspace_limited (Bool.eq_true_of_not_eq_false hlimit)
      rw [hpreset] at hu
      cases hu
    unfold limitsWorkspace at h
    rw [hfree, Bool.false_or] at h
    cases required with
    | none => cases h
    | some set =>
      obtain ⟨u, hu⟩ := checkWorkspace_limited (by exact h)
      refine ⟨u, ?_⟩
      simp only [admitWorkspace, hpreset, hu]
      rfl

/-! ### Reports -/

/-- The report lists the last sixteen of these decisions, in order. -/
def Holds (report : OperationReport) (decisions : List DecisionRecord) : Prop :=
  report.records = decisions.drop (decisions.length - 16)

theorem holds_record {report : OperationReport} {decisions : List DecisionRecord}
    (h : Holds report decisions) (r : DecisionRecord) :
    Holds (report.record r) (decisions ++ [r]) := by
  have hlength : report.records.length = min 16 decisions.length := by
    rw [show report.records = _ from h, List.length_drop]
    omega
  show (report.record r).records = _
  unfold OperationReport.record
  split
  · rename_i hfull
    have hmany : 16 ≤ decisions.length := by omega
    show report.records.drop 1 ++ [r] = _
    rw [show report.records = _ from h, List.drop_drop, List.length_append, List.length_singleton,
      List.drop_append_of_le_length (by omega)]
    congr 2
    omega
  · rename_i hroom
    have hfew : decisions.length < 16 := by omega
    show report.records ++ [r] = _
    rw [show report.records = _ from h, List.length_append, List.length_singleton,
      Nat.sub_eq_zero_of_le (by omega), Nat.sub_eq_zero_of_le (by omega)]
    rfl

/-- More events that decide nothing. -/
theorem holds_quiet {β : Type} {report : OperationReport} {past more : List β}
    {f : β → Option DecisionRecord} (h : Holds report (past.filterMap f))
    (hmore : more.filterMap f = []) : Holds report ((past ++ more).filterMap f) := by
  rwa [List.filterMap_append, hmore, List.append_nil]

/-- More events with one decision, which is recorded. -/
theorem holds_decided {β : Type} {report : OperationReport} {past more : List β}
    {f : β → Option DecisionRecord} {r : DecisionRecord} (h : Holds report (past.filterMap f))
    (hmore : more.filterMap f = [r]) :
    Holds (report.record r) ((past ++ more).filterMap f) := by
  rw [List.filterMap_append, hmore]
  exact holds_record h r

end Zencodec.Policy
