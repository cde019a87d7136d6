/-
The built-in policy: mandatory requirements and preferences.

`unmet` checks one offer: `evidence` collects what its question knows of it, three-valued
throughout, and `unmetBy` compares that with each configured requirement.  `resolveBuiltin` picks
among the choices that it is shown.
-/
import Mathlib.Data.Option.NAry
import Zencodec.Operation.Question

namespace Zencodec.Operation

/-! ### Requirements -/

inductive PolicyRequirement where
  | metadata
  | opaqueProfiles
  | workspace
  | extendedRange
  | outputSchedule
  | outputWait
  | sourcePasses
  | exactReplay
  | rawMemoryStaging
  | encodeRoute
  deriving DecidableEq, Repr

inductive RequirementEvidence where
  | unknown
  | contradicted
  deriving DecidableEq, Repr

/-- `REQUIREMENTS` -/
def requirements : List PolicyRequirement :=
  [.metadata, .opaqueProfiles, .workspace, .extendedRange, .outputSchedule, .outputWait,
    .sourcePasses, .exactReplay, .rawMemoryStaging, .encodeRoute]

/-- Two masks over `requirements`. -/
structure UnmetRequirements where
  unknown : ℕ := 0
  contradicted : ℕ := 0
  deriving DecidableEq, Repr

namespace UnmetRequirements

def isEmpty (u : UnmetRequirements) : Bool := u.unknown = 0 && u.contradicted = 0

/-- The requirement and evidence pairs, in the order of `requirements`. -/
def iter (u : UnmetRequirements) : List (PolicyRequirement × RequirementEvidence) :=
  requirements.zipIdx.flatMap fun r =>
    (if u.unknown &&& (1 <<< r.2) ≠ 0 then [(r.1, .unknown)] else [])
      ++ if u.contradicted &&& (1 <<< r.2) ≠ 0 then [(r.1, .contradicted)] else []

def merge (u other : UnmetRequirements) : UnmetRequirements where
  unknown := u.unknown ||| other.unknown
  contradicted := u.contradicted ||| other.contradicted

/-- Merge the failures of a check made elsewhere. -/
def mergeError (u : UnmetRequirements) (r : Except UnmetRequirements Unit) : UnmetRequirements :=
  match r with
  | .ok () => u
  | .error other => u.merge other

def check (u : UnmetRequirements) (index : ℕ) (required : Bool) (evidence : Option Bool) :
    UnmetRequirements :=
  if !required then u
  else
    match evidence with
    | some true => u
    | some false => { u with contradicted := u.contradicted ||| (1 <<< index) }
    | none => { u with unknown := u.unknown ||| (1 <<< index) }

/-! The bits of a report -/

/-- Some offer failed the requirement with index `j`. -/
def names (u : UnmetRequirements) (j : ℕ) : Bool := u.unknown.testBit j || u.contradicted.testBit j

@[simp] theorem names_empty (j : ℕ) : names {} j = false := by simp [names]

@[simp] theorem names_merge (u v : UnmetRequirements) (j : ℕ) :
    (u.merge v).names j = (u.names j || v.names j) := by
  simp only [names, merge, Nat.testBit_or]
  cases u.unknown.testBit j <;> cases u.contradicted.testBit j <;> simp

/-- Only positive evidence passes a check that is required. -/
@[simp] theorem names_check (u : UnmetRequirements) (i : ℕ) (required : Bool)
    (evidence : Option Bool) (j : ℕ) : (u.check i required evidence).names j
      = (u.names j || (required && evidence ≠ some true && decide (i = j))) := by
  cases required with
  | false => simp [check]
  | true =>
    cases evidence with
    | none =>
      show ((u.unknown ||| (1 <<< i)).testBit j || u.contradicted.testBit j) = _
      rw [Mask.testBit_set, Bool.or_right_comm]
      simp [names]
    | some met =>
      cases met with
      | true => simp [check]
      | false =>
        show (u.unknown.testBit j || (u.contradicted ||| (1 <<< i)).testBit j) = _
        rw [Mask.testBit_set, ← Bool.or_assoc]
        simp [names]

/-- An empty report names nothing. -/
theorem isEmpty_iff {u : UnmetRequirements} : u.isEmpty = true ↔ ∀ j, u.names j = false := by
  simp only [isEmpty, names, Bool.and_eq_true, decide_eq_true_eq, Bool.or_eq_false_iff]
  constructor
  · rintro ⟨hu, hc⟩ j
    rw [hu, hc, Nat.zero_testBit]
    exact ⟨rfl, rfl⟩
  · intro h
    exact ⟨Nat.eq_of_testBit_eq fun j => by rw [(h j).1, Nat.zero_testBit],
      Nat.eq_of_testBit_eq fun j => by rw [(h j).2, Nat.zero_testBit]⟩

end UnmetRequirements

/-- The index of a requirement in `requirements`. -/
def PolicyRequirement.bit : PolicyRequirement → ℕ
  | .metadata => 0
  | .opaqueProfiles => 1
  | .workspace => 2
  | .extendedRange => 3
  | .outputSchedule => 4
  | .outputWait => 5
  | .sourcePasses => 6
  | .exactReplay => 7
  | .rawMemoryStaging => 8
  | .encodeRoute => 9

theorem PolicyRequirement.mem_zipIdx (r : PolicyRequirement) (i : ℕ) :
    (r, i) ∈ requirements.zipIdx ↔ i = r.bit := by
  cases r <;> simp [requirements, PolicyRequirement.bit]

/-- A report lists the requirements whose bits it has. -/
theorem UnmetRequirements.mem_iter {u : UnmetRequirements} {r : PolicyRequirement} :
    (∃ e, (r, e) ∈ u.iter) ↔ u.names r.bit = true := by
  simp only [iter, List.mem_flatMap, List.mem_append, Mask.and_shiftLeft_ne_zero, names,
    Bool.or_eq_true]
  constructor
  · rintro ⟨e, ⟨r', i⟩, hmem, h | h⟩
    all_goals
      split at h
      · next hbit =>
        obtain ⟨rfl, -⟩ := Prod.mk.inj (List.mem_singleton.mp h)
        obtain rfl := (PolicyRequirement.mem_zipIdx _ _).mp hmem
        first | exact .inl hbit | exact .inr hbit
      · cases h
  · rintro (hbit | hbit)
    · exact ⟨.unknown, (r, r.bit), (PolicyRequirement.mem_zipIdx _ _).mpr rfl,
        .inl (by simp [hbit])⟩
    · exact ⟨.contradicted, (r, r.bit), (PolicyRequirement.mem_zipIdx _ _).mpr rfl,
        .inr (by simp [hbit])⟩

structure PolicySet where
  maxSourcePasses : Option ℕ := none
  exactReplay : Bool := false
  allowRawMemoryStaging : Bool := true
  outputSchedule : Option OutputSchedule := none
  outputWaitLimit : Option ℕ := none
  preferLossless : Bool := false
  metadata : Option MetadataTransfer := none
  allowOpaqueProfiles : Bool := true
  workspaceLimit : Option ℕ := none
  allowAssumedSiting : Bool := false
  requireExtendedRange : Bool := false
  deriving DecidableEq, Repr

/-- What a question knows of one offer: `none` is unknown. -/
structure Evidence where
  metadata : Option MetadataTransfer := none
  noOpaque : Option Bool := none
  workspace : Option ℕ := none
  range : Option Bool := none
  schedule : Option OutputScheduleOffer := none
  passes : Option ℕ := none
  exact : Option Bool := none
  noRawStaging : Option Bool := none
  route : Option Bool := none

def EncodeRouteOffer.evidence (plan : EncodePlan) (job : EncodeEvidence) (o : EncodeRouteOffer) :
    Evidence where
  metadata := job.metadata
  noOpaque := job.retainsOpaqueProfile.map (!·)
  workspace := o.workspaceUpperBound
  range := o.preservesExtendedRange.bind fun preserves =>
    if preserves then job.encoder.fidelity.map (decide <| · = .lossless) else some false
  schedule := some o.output
  passes := (o.externalSourcePasses plan).bind (·.max)
  exact := o.exactReplay plan
  noRawStaging := o.noRawMemoryStaging
  route := some (o.compatible plan)

def TranscodeOffer.evidence (o : TranscodeOffer) : Evidence where
  schedule := o.outputSchedule
  metadata := some o.metadata
  noOpaque := o.retainsOpaqueProfile.map (!·)
  workspace := o.workspaceUpperBound

def ImageConversionOffer.evidence (o : ImageConversionOffer) : Evidence where
  workspace := o.workspaceUpperBound
  range := if o.preservesExtendedRange then some true else none

def FrameRouteOffer.evidence (o : FrameRouteOffer) : Evidence where
  workspace := o.workspaceUpperBound
  range := (o.conversion.filter (·.preservesExtendedRange)).bind fun _ =>
    o.fidelity.map (decide <| · = .lossless)
  schedule := o.outputSchedule

/-- The `match` of `unmet`; `none` defers every requirement. A question without a choice would
be a panic of the code, and the admission loop makes none. -/
def evidence (q : Question) : Option Evidence :=
  match q with
  | .encodeRoute _ plan job choices => choices.first.map fun c => c.value.evidence plan job
  | .transcode choices => choices.first.map fun c => c.value.evidence
  | .imageConversion choices => choices.first.map fun c => c.value.evidence
  | .frameRoute choices => choices.first.map fun c => c.value.evidence
  | .outputSchedule choices => choices.first.map fun c => { schedule := some c.value }
  | .boundary choices =>
    choices.first.bind fun c =>
      if c.value.action = .continueReading then none else some {}
  | .encode _ | .image _ | .frame _ => some {}

namespace PolicySet

/-- `check_workspace` -/
def checkWorkspace (set : PolicySet) (qualifiedUpperBound : Option ℕ) :
    Except UnmetRequirements Unit :=
  let unmet := UnmetRequirements.check {} 2 set.workspaceLimit.isSome
    (Option.map₂ (fun limit bound => decide (bound ≤ limit)) set.workspaceLimit
      qualifiedUpperBound)
  if unmet.isEmpty then .ok () else .error unmet

def hasRequirements (set : PolicySet) : Bool :=
  set.metadata.isSome || !set.allowOpaqueProfiles || set.workspaceLimit.isSome
    || set.requireExtendedRange || set.outputSchedule.isSome || set.outputWaitLimit.isSome
    || set.maxSourcePasses.isSome || set.exactReplay || !set.allowRawMemoryStaging

theorem names_checkWorkspace (set : PolicySet) (bound : Option ℕ) (u : UnmetRequirements)
    (j : ℕ) : (u.mergeError (set.checkWorkspace bound)).names j
      = (u.names j || (set.workspaceLimit.isSome
        && Option.map₂ (fun limit bound => decide (bound ≤ limit)) set.workspaceLimit bound
          ≠ some true && decide (2 = j))) := by
  unfold checkWorkspace
  have hcheck := UnmetRequirements.names_check {} 2 set.workspaceLimit.isSome
    (Option.map₂ (fun limit bound => decide (bound ≤ limit)) set.workspaceLimit bound) j
  rw [UnmetRequirements.names_empty, Bool.false_or] at hcheck
  rw [← hcheck]
  dsimp only
  split
  · next hempty =>
    rw [UnmetRequirements.isEmpty_iff.mp hempty j, Bool.or_false]
    rfl
  · exact UnmetRequirements.names_merge _ _ j

/-- The checks of `unmet`, against the evidence of one offer. -/
def unmetBy (set : PolicySet) (e : Evidence) : UnmetRequirements :=
  let unmet := UnmetRequirements.check {} 0 set.metadata.isSome
    (Option.map₂ (fun a b => decide (a = b)) set.metadata e.metadata)
  let unmet := unmet.check 1 (!set.allowOpaqueProfiles) e.noOpaque
  let unmet := unmet.mergeError (set.checkWorkspace e.workspace)
  let unmet := unmet.check 3 set.requireExtendedRange e.range
  let unmet := unmet.check 4 set.outputSchedule.isSome
    (Option.map₂ (fun a (b : OutputScheduleOffer) => decide (a = b.schedule)) set.outputSchedule
      e.schedule)
  let unmet := unmet.check 5 set.outputWaitLimit.isSome
    (Option.map₂ (fun limit bound => decide (bound ≤ limit)) set.outputWaitLimit
      (e.schedule.bind (·.waitRetainedUpperBound)))
  let unmet := unmet.check 6 set.maxSourcePasses.isSome
    (Option.map₂ (fun limit max => decide (max ≤ limit)) set.maxSourcePasses e.passes)
  let unmet := unmet.check 7 set.exactReplay e.exact
  let unmet := unmet.check 8 (!set.allowRawMemoryStaging) e.noRawStaging
  unmet.check 9 e.route.isSome e.route

/-- What the one choice of `q` fails to establish. -/
def unmet (set : PolicySet) (q : Question) : UnmetRequirements :=
  match evidence q with
  | none => {}
  | some e => set.unmetBy e

/-! ### Preferences -/

def permitsOutputSchedule (set : PolicySet) (offer : Option OutputScheduleOffer) : Bool :=
  if set.outputSchedule.isNone && set.outputWaitLimit.isNone then true
  else offer.any fun offer =>
    set.outputSchedule.all (decide <| · = offer.schedule)
      && set.outputWaitLimit.all fun limit =>
        offer.waitRetainedUpperBound.any (decide <| · ≤ limit)

def permitsTranscode (set : PolicySet) (offer : TranscodeOffer) : Bool :=
  set.permitsOutputSchedule offer.outputSchedule
    && set.metadata.all (decide <| · = offer.metadata)
    && (set.allowOpaqueProfiles || offer.retainsOpaqueProfile = some false)
    && set.workspaceLimit.all fun limit => offer.workspaceUpperBound.any (decide <| · ≤ limit)

end PolicySet

/-- Predefined refusals. -/
inductive Decline where
  | applicationRule
  | noPreferredChoice
  | unsupportedQuestion
  deriving DecidableEq, Repr

inductive Decision where
  | choose (id : ChoiceId)
  | usePreset
  | decline (reason : Decline)
  deriving DecidableEq, Repr

/-- The selected choice, or a refusal. -/
def Decision.ofChoice {T : Type} (choice : Option (Choice T)) (reason : Decline) : Decision :=
  match choice with
  | some c => .choose c.id
  | none => .decline reason

namespace PolicySet

/-- The first choice that `preferred` names, and else the first one. -/
def firstPreferring {T : Type} (choices : List (Choice T)) (preferred : T → Bool) :
    Option (Choice T) :=
  (choices.find? fun c => preferred c.value).or choices.head?

def permitsConversion (set : PolicySet) (offer : ImageConversionOffer) : Bool :=
  (offer.assumedChromaSiting.isNone || set.allowAssumedSiting)
    && offer.assumedChromaSiting ≠ some .unknown
    && (!set.requireExtendedRange || offer.preservesExtendedRange)
    && set.workspaceLimit.all fun limit => offer.workspaceUpperBound.any (decide <| · ≤ limit)

def permitsFrameRoute (set : PolicySet) (offer : FrameRouteOffer) : Bool :=
  (offer.conversion.all fun c =>
      (c.assumedChromaSiting.isNone || set.allowAssumedSiting)
        && c.assumedChromaSiting ≠ some .unknown)
    && (!set.requireExtendedRange
      || (offer.fidelity = some .lossless && offer.conversion.any (·.preservesExtendedRange)))
    && set.permitsOutputSchedule offer.outputSchedule
    && set.workspaceLimit.all fun limit => offer.workspaceUpperBound.any (decide <| · ≤ limit)

/-- A requirement that adoption of an interpretation cannot establish. -/
def unproven (set : PolicySet) : Bool :=
  set.metadata.isSome || !set.allowOpaqueProfiles || set.workspaceLimit.isSome
    || set.requireExtendedRange || set.outputSchedule.isSome || set.outputWaitLimit.isSome
    || set.maxSourcePasses.isSome || set.exactReplay || !set.allowRawMemoryStaging

def hasOutputRequirements (set : PolicySet) : Bool :=
  set.outputSchedule.isSome || set.outputWaitLimit.isSome

/-- The questions that can establish an output schedule. -/
def knowsOutput : Question → Bool
  | .outputSchedule _ | .encodeRoute _ _ _ _ | .transcode _ | .frameRoute _ | .boundary _ => true
  | _ => false

/-- The questions that can establish an extended range. -/
def knowsRange : Question → Bool
  | .imageConversion _ | .encodeRoute _ _ _ _ | .frameRoute _ | .boundary _ => true
  | _ => false

/-- The questions that can establish how the source is read. -/
def knowsSource : Question → Bool
  | .encodeRoute _ _ _ _ | .boundary _ => true
  | _ => false

/-- `resolve_builtin` -/
def resolveBuiltin (set : PolicySet) (q : Question) : Decision :=
  if set.hasOutputRequirements && !knowsOutput q then .decline .unsupportedQuestion
  else if set.requireExtendedRange && !knowsRange q then .decline .unsupportedQuestion
  else if (set.maxSourcePasses.isSome || set.exactReplay || !set.allowRawMemoryStaging)
      && !knowsSource q then .decline .unsupportedQuestion
  else
    match q with
    | .encodeRoute declaration plan job choices =>
      .ofChoice (choices.iter.find? fun c =>
        (set.unmet (.encodeRoute declaration plan job
          { choices with admitted := 1 <<< c.id.index })).isEmpty) .noPreferredChoice
    | .outputSchedule choices =>
      if set.metadata.isSome || !set.allowOpaqueProfiles || set.workspaceLimit.isSome then
        .decline .unsupportedQuestion
      else
        .ofChoice (choices.iter.find? fun c =>
          set.outputSchedule.all (decide <| · = c.value.schedule)
            && set.outputWaitLimit.all fun limit =>
              c.value.waitRetainedUpperBound.any (decide <| · ≤ limit)) .noPreferredChoice
    | .imageConversion choices =>
      if set.metadata.isSome || !set.allowOpaqueProfiles then .decline .unsupportedQuestion
      else
        .ofChoice (choices.iter.find? fun c => set.permitsConversion c.value) .noPreferredChoice
    | .frameRoute choices =>
      if set.metadata.isSome || !set.allowOpaqueProfiles then .decline .unsupportedQuestion
      else
        let permitted := choices.iter.filter fun c => set.permitsFrameRoute c.value
        let selected :=
          if set.preferLossless then
            (permitted.find? fun c => c.value.fidelity = some .lossless
              && c.value.conversion.any (·.preservesSamples)).or
                (firstPreferring permitted fun o => o.fidelity = some .lossless)
          else permitted.head?
        .ofChoice selected .noPreferredChoice
    | .frame choices | .image choices =>
      if set.metadata.isSome || !set.allowOpaqueProfiles || set.workspaceLimit.isSome then
        .decline .unsupportedQuestion
      else .ofChoice choices.first .noPreferredChoice
    | .transcode choices =>
      let permitted := choices.iter.filter fun c => set.permitsTranscode c.value
      .ofChoice
        (if set.preferLossless then
          firstPreferring permitted fun o => o.encoder.fidelity = some .lossless
        else permitted.head?) .noPreferredChoice
    | .encode choices =>
      if set.metadata.isSome || !set.allowOpaqueProfiles || set.workspaceLimit.isSome then
        .decline .unsupportedQuestion
      else
        .ofChoice
          (if set.preferLossless then
            firstPreferring choices.iter fun o => o.fidelity = some .lossless
          else choices.first) .noPreferredChoice
    | .boundary choices =>
      .ofChoice (choices.iter.find? fun c =>
          !set.unproven || c.value.action = .continueReading)
        (if set.unproven then .unsupportedQuestion else .noPreferredChoice)

end PolicySet

end Zencodec.Operation
