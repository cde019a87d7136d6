/-
What an operation asks its policy: the offers of each domain, and the choices shown.

A `Domain T` is one of the questions of `Question` with everything but its choices: the type
`T` of its offers, the facts that the policy reads beside them, and how a selected offer is
recorded. `Choices` is a list of offers under a mask of the admitted ones; a `ChoiceId` is the
token of one of them.
-/
import Zencodec.Lib.Mask

namespace Zencodec.Operation

/-! ### Facts of a configured encoder job -/

/-- The passes over the source that a plan declares; `new` makes no other ranges. -/
structure SourcePasses where
  min : ℕ
  max : Option ℕ
  min_pos : 0 < min
  min_le : ∀ m, max = some m → min ≤ m
  deriving DecidableEq

def SourcePasses.once : SourcePasses where
  min := 1
  max := some 1
  min_pos := Nat.one_pos
  min_le := by simp

inductive InputRequirement where
  | rows
  | wholeRaster
  | replay (passes : SourcePasses)
  deriving DecidableEq

/-- When the encoder's bytes become available. -/
structure OutputTiming where
  /-- `none`: everything arrives from `finish`. -/
  lagRows : Option ℕ
  patches : Bool
  deriving DecidableEq, Repr

def OutputTiming.streams (t : OutputTiming) : Bool := t.lagRows.isSome

inductive OutputAccess where
  | forward
  | seekBack
  deriving DecidableEq, Repr

/-- The spatial effects of a job. -/
structure OrientationPlan where
  /-- `applied.then(output) == input`, as the pixel crate composes orientations. -/
  consistent : Bool
  deriving DecidableEq, Repr

structure EncodeDeclaration where
  width : ℕ
  height : ℕ
  access : OutputAccess
  /-- Whether the pixel crate can check the declared sample grid, where there is one. -/
  exactDepth : Option Bool
  deriving DecidableEq, Repr

structure EncodePlan where
  input : InputRequirement
  timing : OutputTiming
  orientation : Option OrientationPlan
  deriving DecidableEq

inductive EncodePlanError where
  | orientation
  | exactDepth
  | dimensions
  | outputLag
  | destinationAccess
  | inputProtocol
  deriving DecidableEq, Repr

/-- `EncodePlan::validate` -/
def EncodePlan.validate (plan : EncodePlan) (declaration : EncodeDeclaration) :
    Except EncodePlanError Unit :=
  if plan.orientation.any fun o => !o.consistent then .error .orientation
  else if declaration.exactDepth = some false then .error .exactDepth
  else if declaration.width = 0 ∨ declaration.height = 0 then .error .dimensions
  else if plan.timing.lagRows.any fun lag => declaration.height ≤ lag then .error .outputLag
  else if plan.timing.patches ∧ declaration.access ≠ .seekBack then .error .destinationAccess
  else if plan.input = .wholeRaster ∧ plan.timing.streams then .error .inputProtocol
  else .ok ()

/-! ### Offers -/

/-- The qualities of a lossy target are floats, and no policy reads them. -/
inductive Fidelity where
  | lossless
  | lossy
  deriving DecidableEq, Repr

structure EncodeOffer where
  fidelity : Option Fidelity
  deriving DecidableEq, Repr

inductive MetadataTransfer where
  | preserveReported
  | discardDescriptive
  deriving DecidableEq, Repr

inductive OutputSchedule where
  | finishFirst
  | live
  deriving DecidableEq, Repr

structure OutputScheduleOffer where
  schedule : OutputSchedule
  waitRetainedUpperBound : Option ℕ
  deriving DecidableEq, Repr

structure TranscodeOffer where
  encoder : EncodeOffer
  metadata : MetadataTransfer
  retainsOpaqueProfile : Option Bool
  workspaceUpperBound : Option ℕ
  outputSchedule : Option OutputScheduleOffer
  deriving DecidableEq, Repr

/-- The pixel crate's chroma locations; one of them is unknown. -/
inductive ChromaSiting where
  | unknown
  | located (site : ℕ)
  deriving DecidableEq, Repr

structure ImageConversionOffer where
  assumedChromaSiting : Option ChromaSiting
  preservesExtendedRange : Bool
  workspaceUpperBound : Option ℕ
  deriving DecidableEq, Repr

structure FrameConversionOffer where
  preservesSamples : Bool
  preservesExtendedRange : Bool
  assumedChromaSiting : Option ChromaSiting
  deriving DecidableEq, Repr

structure FrameRouteOffer where
  fidelity : Option Fidelity
  conversion : Option FrameConversionOffer
  outputSchedule : Option OutputScheduleOffer
  workspaceUpperBound : Option ℕ
  deriving DecidableEq, Repr

inductive PublicationOffer where
  | returnHeld
  deriving DecidableEq, Repr

inductive BoundaryAction where
  | continueReading
  | adoptInterpretation
  deriving DecidableEq, Repr

structure BoundaryOffer where
  action : BoundaryAction
  deriving DecidableEq, Repr

inductive InputAcquisition where
  | unknown
  | borrowedRaster
  | directRows
  | memorySnapshot
  | diskReplay
  deriving DecidableEq, Repr

inductive ReplayEvidence where
  | unknown
  | immutableBorrow
  | privateSnapshot
  | verifiedIdentity
  | verifiedHash
  deriving DecidableEq, Repr

def ReplayEvidence.exact : ReplayEvidence → Option Bool
  | .unknown => none
  | .immutableBorrow | .privateSnapshot => some true
  | .verifiedIdentity | .verifiedHash => some false

/-- What is known of the one configured job that every encode route shares. -/
structure EncodeEvidence where
  encoder : EncodeOffer
  metadata : Option MetadataTransfer
  retainsOpaqueProfile : Option Bool
  deriving DecidableEq, Repr

structure EncodeRouteOffer where
  acquisition : InputAcquisition
  replay : ReplayEvidence
  output : OutputScheduleOffer
  workspaceUpperBound : Option ℕ
  preservesExtendedRange : Option Bool
  deriving DecidableEq, Repr

namespace EncodeRouteOffer

/-- `external_source_passes` -/
def externalSourcePasses (o : EncodeRouteOffer) (plan : EncodePlan) : Option SourcePasses :=
  match o.acquisition with
  | .unknown => none
  | .memorySnapshot | .diskReplay => some .once
  | .borrowedRaster | .directRows =>
    match plan.input with
    | .replay passes => some passes
    | .rows | .wholeRaster => some .once

/-- The native plan reads the source at most once. -/
def readsOnce (plan : EncodePlan) : Bool :=
  match plan.input with
  | .rows | .wholeRaster => true
  | .replay passes => passes.max = some 1

def exactReplay (o : EncodeRouteOffer) (plan : EncodePlan) : Option Bool :=
  if readsOnce plan then some true else o.replay.exact

def noRawMemoryStaging (o : EncodeRouteOffer) : Option Bool :=
  match o.acquisition with
  | .unknown => none
  | .memorySnapshot => some false
  | _ => some true

def compatible (o : EncodeRouteOffer) (plan : EncodePlan) : Bool :=
  o.acquisition ≠ .unknown
    && !((o.acquisition = .directRows || o.acquisition = .diskReplay)
      && plan.input = .wholeRaster)
    && (o.output.schedule ≠ .live || plan.timing.streams)
    && (match o.replay with
      | .immutableBorrow => o.acquisition = .borrowedRaster
      | .privateSnapshot => o.acquisition = .memorySnapshot
      | _ => true)

end EncodeRouteOffer

/-! ### Choices -/

/-- A token for one offer at one question. -/
structure ChoiceId where
  ticket : ℕ
  index : ℕ
  deriving DecidableEq, Repr

structure Choice (T : Type) where
  id : ChoiceId
  value : T
  deriving Repr

/-- Offers under a mask of 64 bits. -/
structure Choices (T : Type) where
  ticket : ℕ
  entries : List T
  admitted : ℕ

namespace Choices

variable {T : Type}

/-- The admitted choices. A mask has no bit beyond the entries, so none is skipped. -/
def iter (c : Choices T) : List (Choice T) :=
  (Mask.indices 64 c.admitted).filterMap fun index =>
    c.entries[index]?.map fun value => ⟨⟨c.ticket, index⟩, value⟩

def first (c : Choices T) : Option (Choice T) := c.iter.head?

/-- The original index of a token of this question. -/
def selected (c : Choices T) (id : ChoiceId) : Option ℕ :=
  if id.ticket = c.ticket ∧ id.index < c.entries.length ∧ c.admitted &&& (1 <<< id.index) ≠ 0
  then some id.index else none

end Choices

/-! ### Questions -/

inductive Question where
  | encodeRoute (declaration : EncodeDeclaration) (plan : EncodePlan) (evidence : EncodeEvidence)
      (choices : Choices EncodeRouteOffer)
  | outputSchedule (choices : Choices OutputScheduleOffer)
  | imageConversion (choices : Choices ImageConversionOffer)
  | frameRoute (choices : Choices FrameRouteOffer)
  | image (choices : Choices PublicationOffer)
  | frame (choices : Choices PublicationOffer)
  | transcode (choices : Choices TranscodeOffer)
  | boundary (choices : Choices BoundaryOffer)
  | encode (choices : Choices EncodeOffer)

/-- The selected contract, as a record keeps it. -/
inductive Selection where
  | encodeRoute (offer : EncodeRouteOffer)
  | outputSchedule (offer : OutputScheduleOffer)
  | imageConversion (offer : ImageConversionOffer)
  | frameRoute (offer : FrameRouteOffer)
  | image (offer : PublicationOffer)
  | frame (offer : PublicationOffer)
  | transcode (offer : TranscodeOffer)
  | encode (offer : EncodeOffer)
  | boundary (action : BoundaryAction)
  deriving DecidableEq, Repr

/-- What a caller of `choose` passes beside its offers. -/
inductive Domain : Type → Type where
  | encodeRoute (declaration : EncodeDeclaration) (plan : EncodePlan) (evidence : EncodeEvidence) :
      Domain EncodeRouteOffer
  | outputSchedule : Domain OutputScheduleOffer
  | imageConversion : Domain ImageConversionOffer
  | frameRoute : Domain FrameRouteOffer
  | image : Domain PublicationOffer
  | frame : Domain PublicationOffer
  | transcode : Domain TranscodeOffer
  | boundary : Domain BoundaryOffer
  | encode : Domain EncodeOffer

namespace Domain

def question {T : Type} : Domain T → Choices T → Question
  | encodeRoute declaration plan evidence, c => .encodeRoute declaration plan evidence c
  | outputSchedule, c => .outputSchedule c
  | imageConversion, c => .imageConversion c
  | frameRoute, c => .frameRoute c
  | image, c => .image c
  | frame, c => .frame c
  | transcode, c => .transcode c
  | boundary, c => .boundary c
  | encode, c => .encode c

def selection {T : Type} : Domain T → T → Selection
  | encodeRoute _ _ _, o => .encodeRoute o
  | outputSchedule, o => .outputSchedule o
  | imageConversion, o => .imageConversion o
  | frameRoute, o => .frameRoute o
  | image, o => .image o
  | frame, o => .frame o
  | transcode, o => .transcode o
  | boundary, o => .boundary o.action
  | encode, o => .encode o

/-- `DecisionContext::EncodeRoute`, the one context that `choose` looks for. -/
def isEncodeRoute {T : Type} : Domain T → Bool
  | encodeRoute _ _ _ => true
  | _ => false

end Domain

/-! ### Choices and their offers -/

namespace Choices

variable {T : Type}

/-- A choice that is shown is an admitted offer under its own token. -/
theorem mem_iter {c : Choices T} (hfit : c.admitted < 2 ^ 64) {choice : Choice T} :
    choice ∈ c.iter ↔ choice.id.ticket = c.ticket ∧ c.admitted.testBit choice.id.index = true ∧
      c.entries[choice.id.index]? = some choice.value := by
  simp only [iter, List.mem_filterMap, Option.map_eq_some_iff, Mask.mem_indices hfit]
  constructor
  · rintro ⟨index, hbit, value, hvalue, rfl⟩
    exact ⟨rfl, hbit, hvalue⟩
  · rintro ⟨hticket, hbit, hvalue⟩
    exact ⟨choice.id.index, hbit, choice.value, hvalue, by rw [← hticket]⟩

theorem first_mem {c : Choices T} {choice : Choice T} (h : c.first = some choice) :
    choice ∈ c.iter :=
  List.mem_of_mem_head? h

/-- `selected` accepts the tokens of the choices shown, and no others. -/
theorem selected_eq_some {c : Choices T} {id : ChoiceId} {i : ℕ} :
    c.selected id = some i ↔
      id = ⟨c.ticket, i⟩ ∧ i < c.entries.length ∧ c.admitted.testBit i = true := by
  simp only [selected, Mask.and_shiftLeft_ne_zero]
  constructor
  · intro h
    split at h
    · next hid =>
      obtain rfl := Option.some.inj h
      exact ⟨by rw [← hid.1], hid.2.1, hid.2.2⟩
    · cases h
  · rintro ⟨rfl, hi, hbit⟩
    exact if_pos ⟨rfl, hi, hbit⟩

/-- The one choice of a mask with one bit. -/
theorem first_single {c : Choices T} {i : ℕ} (hi : i < 64) (hmask : c.admitted = 1 <<< i)
    {o : T} (ho : c.entries[i]? = some o) : c.first = some ⟨⟨c.ticket, i⟩, o⟩ := by
  have hfit : c.admitted < 2 ^ 64 := by
    rw [hmask, Nat.one_shiftLeft]
    exact Nat.pow_lt_pow_right (by omega) hi
  have hone : Mask.indices 64 c.admitted = [i] := by
    rw [Mask.indices_eq hfit]
    have hcons := Mask.filter_eq_cons_of_find? (p := c.admitted.testBit) (i := i)
      (List.nodup_range (n := 64)) ?_
    · rw [hcons, List.filter_eq_nil_iff.mpr]
      intro j _
      rw [hmask, Mask.testBit_shiftLeft_one]
      simp only [Bool.and_eq_true, decide_eq_true_eq, not_and, not_not]
      exact fun h => h.symm
    · rw [List.find?_range_eq_some, hmask]
      refine ⟨by rw [Mask.testBit_shiftLeft_one, decide_eq_true rfl], List.mem_range.mpr hi, ?_⟩
      intro j hj
      rw [Mask.testBit_shiftLeft_one, Bool.not_eq_true', decide_eq_false_iff_not]
      omega
  simp [first, iter, hone, ho]

end Choices

end Zencodec.Operation
