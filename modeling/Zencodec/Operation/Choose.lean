/-
`choose`: the one decision procedure of every question domain.

The application's callback is a foreign function on the process, which is the counter of
questions beside the rest of the world: it may keep tokens, ask questions of its own and answer
with any token.  `admitOffers` is the loop over the offers, `choose` the whole decision.
-/
import Zencodec.Machine
import Zencodec.Operation.Preset

namespace Zencodec.Operation

variable {Ω ε ρ T : Type}

/-- A policy as an operation's entry point takes it: its bound requirements, and its answers. -/
structure OperationPolicy (Ω ε : Type) where
  requirements : Option PolicySet
  decide : Question → Act (ℕ × Ω) ε Decision

/-- Built-in selection. -/
def PolicySet.policy (set : PolicySet) : OperationPolicy Ω ε where
  requirements := some set
  decide q := pure (set.resolveBuiltin q)

/-- `BoundPolicy` -/
def boundPolicy (requirements : PolicySet) (resolve : Question → Act (ℕ × Ω) ε Decision) :
    OperationPolicy Ω ε where
  requirements := some requirements
  decide := resolve

/-- A bare closure. -/
def closurePolicy (resolve : Question → Act (ℕ × Ω) ε Decision) : OperationPolicy Ω ε where
  requirements := none
  decide := resolve

inductive DecisionCode where
  | selected
  | declined
  | callbackFailed
  | invalidChoice
  | stopped
  | exhausted
  | invalidOffers
  deriving DecidableEq, Repr

structure DecisionRecord where
  question : ℕ
  offered : ℕ
  admitted : ℕ
  unmetRequirements : UnmetRequirements
  selected : Option Selection
  usedPreset : Bool
  code : DecisionCode
  deriving DecidableEq, Repr

inductive Cause (ε ρ : Type) where
  | framework
  | declined (reason : Decline)
  | callback (error : ε)
  | stopped (reason : ρ)
  | encodePlan (error : EncodePlanError)
  deriving DecidableEq, Repr

structure PolicyFailure (ε ρ : Type) where
  record : DecisionRecord
  cause : Cause ε ρ
  deriving DecidableEq, Repr

/-- `MAX_OFFERS` -/
def maxOffers : ℕ := 64

/-- `ticket`: the next identity of the process, until `usize` has no other. -/
def ticket (usizeMax : ℕ) (e : ε) : Act (ℕ × Ω) ε ℕ := fun s =>
  if s.1 + 1 ≤ usizeMax then (.ok s.1, (s.1 + 1, s.2)) else (.error e, s)

/-- The mask of all offers. -/
def allOffers (offers : List T) : ℕ :=
  if offers.length = maxOffers then 2 ^ 64 - 1 else (1 <<< offers.length) - 1

/-- The question about one offer alone. -/
def Domain.single (d : Domain T) (ticket : ℕ) (offers : List T) (index : ℕ) : Question :=
  d.question ⟨ticket, offers, 1 <<< index⟩

/-- What offer `index` fails of the preset and of the bound requirements. -/
def failuresOf (d : Domain T) (ticket : ℕ) (offers : List T) (preset : PolicySet)
    (bound : Option PolicySet) (index : ℕ) : UnmetRequirements :=
  let failures := preset.unmet (d.single ticket offers index)
  match bound with
  | some required => failures.merge (required.unmet (d.single ticket offers index))
  | none => failures

/-- One turn of the admission loop: the mask of admitted offers, and the failures so far. -/
def admitOne (failures : ℕ → UnmetRequirements) (acc : ℕ × UnmetRequirements) (index : ℕ) :
    ℕ × UnmetRequirements :=
  if (failures index).isEmpty then (acc.1 ||| (1 <<< index), acc.2)
  else (acc.1, acc.2.merge (failures index))

/-- The admission loop, over the offers of a question that has requirements. -/
def admitOffers (d : Domain T) (ticket : ℕ) (offers : List T) (preset : PolicySet)
    (bound : Option PolicySet) : ℕ × UnmetRequirements :=
  if d.isEncodeRoute || preset.hasRequirements || bound.any (·.hasRequirements) then
    (List.range offers.length).foldl (admitOne (failuresOf d ticket offers preset bound)) (0, {})
  else (allOffers offers, {})

/-- The reason of a refusal before the callback, as a built-in set would give it. -/
def refusalReason (d : Domain T) (ticket : ℕ) (offers : List T) (preset : PolicySet)
    (bound : Option PolicySet) : Decline :=
  (([bound, some preset].filterMap id).filter (·.hasRequirements)).findSome? (fun set =>
    match set.resolveBuiltin (d.question ⟨ticket, offers, allOffers offers⟩) with
    | .decline reason => some reason
    | _ => none)
  |>.getD .noPreferredChoice

/-- The plan that all offers of an encode route share. -/
def Domain.validate : Domain T → Except EncodePlanError Unit
  | .encodeRoute declaration plan _ => plan.validate declaration
  | _ => .ok ()

/-- The record before anything is decided. -/
def freshRecord (offers : List T) : DecisionRecord where
  question := 0
  offered := min offers.length 255
  admitted := 0
  unmetRequirements := {}
  selected := none
  usedPreset := false
  code := .exhausted

/-- The last `match` of `choose`. -/
def conclude (d : Domain T) (offers : List T) (choices : Choices T) (record : DecisionRecord)
    (decision : Decision) : Except (PolicyFailure ε ρ) (ℕ × DecisionRecord) :=
  match decision with
  | .choose id =>
    match choices.selected id with
    | some index =>
      .ok (index, { record with
        selected := offers[index]?.map d.selection
        code := .selected })
    | none => .error ⟨{ record with code := .invalidChoice }, .framework⟩
  | .decline reason => .error ⟨{ record with code := .declined }, .declined reason⟩
  -- unreachable: the built-in policy never delegates
  | .usePreset => .error ⟨record, .framework⟩

/-- `choose`, once the question has its ticket. -/
def chooseFrom (d : Domain T) (offers : List T) (resolver : OperationPolicy Ω ε)
    (preset : PolicySet) (pulse : Act Ω ρ Unit) (record : DecisionRecord) :
    Act (ℕ × Ω) (PolicyFailure ε ρ) (ℕ × DecisionRecord) := do
  let stopped := fun record reason => PolicyFailure.mk { record with code := .stopped }
    (.stopped reason)
  Act.mapError (stopped record) (onWorld pulse)
  Act.mapError (fun e => ⟨{ record with code := .invalidOffers }, .encodePlan e⟩)
    (Act.lift d.validate)
  let admission := admitOffers d record.question offers preset resolver.requirements
  let record := { record with
    admitted := Mask.countOnes 64 admission.1
    unmetRequirements := admission.2 }
  if admission.1 = 0 ∧ !admission.2.isEmpty then
    Act.fail ⟨{ record with code := .declined },
      .declined (refusalReason d record.question offers preset resolver.requirements)⟩
  else
    let choices : Choices T := ⟨record.question, offers, admission.1⟩
    let question := d.question choices
    let decision ← Act.mapError (fun e => ⟨{ record with code := .callbackFailed }, .callback e⟩)
      (resolver.decide question)
    Act.mapError (stopped record) (onWorld pulse)
    if decision = .usePreset then
      Act.lift (conclude d offers choices { record with usedPreset := true }
        ((resolver.requirements.getD preset).resolveBuiltin question))
    else Act.lift (conclude d offers choices record decision)

/-- `choose` -/
def choose (usizeMax : ℕ) (d : Domain T) (offers : List T) (resolver : OperationPolicy Ω ε)
    (preset : PolicySet) (pulse : Act Ω ρ Unit) :
    Act (ℕ × Ω) (PolicyFailure ε ρ) (ℕ × DecisionRecord) := do
  let record := freshRecord offers
  let exhausted := PolicyFailure.mk record .framework
  if maxOffers < offers.length then Act.fail exhausted
  else
    let question ← ticket usizeMax exhausted
    chooseFrom d offers resolver preset pulse { record with question := question }

/-- What the pulse and the callback keep of the world, a decision keeps. -/
theorem spec_choose_keeps {P : Ω → Prop} (resolver : OperationPolicy Ω ε) (pulse : Act Ω ρ Unit)
    (hpulse : ∀ w, P w → P (pulse w).2) (hdecide : ∀ q s, P s.2 → P (resolver.decide q s).2.2)
    (usizeMax : ℕ) (d : Domain T) (offers : List T) (preset : PolicySet) {s : ℕ × Ω}
    (hs : P s.2) : Act.Spec (choose usizeMax d offers resolver preset pulse) (fun _ t => P t.2)
      (fun _ t => P t.2) s := by
  have hcheck : ∀ (t : ℕ × Ω), P t.2 → Act.Spec pulse (fun _ w => P w) (fun _ w => P w) t.2 :=
    fun t ht => Act.spec_of_run (fun _ _ => hpulse t.2 ht) (fun _ _ => hpulse t.2 ht)
  have hlift : ∀ {β δ : Type} (r : Except δ β) (t : ℕ × Ω), P t.2 →
      Act.Spec (Act.lift r) (fun _ t => P t.2) (fun _ t => P t.2) t :=
    fun r t ht => (Act.spec_lift r).mpr ⟨fun _ _ => ht, fun _ _ => ht⟩
  unfold choose
  dsimp only
  rw [Act.spec_ite]
  refine ⟨fun _ => hs, fun _ => ?_⟩
  rw [Act.spec_bind]
  have hticket : P (ticket usizeMax
      (PolicyFailure.mk (ε := ε) (ρ := ρ) (freshRecord offers) .framework) s).2.2 := by
    unfold ticket
    split <;> exact hs
  refine Act.spec_of_run (fun question _ => ?_) (fun _ _ => hticket)
  generalize (ticket usizeMax _ s).2 = t at hticket
  simp only [chooseFrom, Act.spec_bind, Act.spec_mapError, spec_onWorld]
  refine (hcheck t hticket).mono (fun _ w hw => ?_) (fun _ _ hw => hw)
  refine (hlift d.validate (t.1, w) hw).mono (fun _ t ht => ?_) (fun _ _ ht => ht)
  rw [Act.spec_ite]
  refine ⟨fun _ => ht, fun _ => ?_⟩
  simp only [Act.spec_bind, Act.spec_mapError, spec_onWorld, Act.spec_ite]
  refine Act.spec_of_run (fun decision _ => ?_) (fun _ _ => hdecide _ _ ht)
  refine (hcheck _ (hdecide _ _ ht)).mono (fun _ w hw => ?_) (fun _ _ hw => hw)
  exact ⟨fun _ => hlift _ _ hw, fun _ => hlift _ _ hw⟩

end Zencodec.Operation
