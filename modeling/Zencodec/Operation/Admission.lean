/-
Admission: a selected offer proves what the policy demands.

`Demand` is one obligation that a `PolicySet` puts on an operation, and `Proves` says, domain by
domain, what an offer must show to discharge it: there is no case for an unknown fact. An offer
is `Admissible` when it proves all demands, and at a boundary also when it only continues
reading, which every demand defers to the question that adopts the interpretation.

* `unmet_isEmpty` — the code's check passes exactly the admissible offers;
* `mem_unmet` — what it reports are the demands that are not proved;
* `choose_admits` — a selected offer was admissible, and shown to the callback;
* `choose_refuses` — where there are offers and none is admissible, the callback is not called.
-/
import Zencodec.Operation.Choose

namespace Zencodec.Operation

variable {Ω ε ρ T : Type}

/-! ### Demands -/

inductive Demand where
  | metadata (treatment : MetadataTransfer)
  | noOpaqueProfiles
  | workspace (limit : ℕ)
  | extendedRange
  | schedule (schedule : OutputSchedule)
  | outputWait (limit : ℕ)
  | sourcePasses (limit : ℕ)
  | exactReplay
  | noRawStaging
  | executable

/-- The requirement that a refusal names for a demand. -/
def Demand.requirement : Demand → PolicyRequirement
  | .metadata _ => .metadata
  | .noOpaqueProfiles => .opaqueProfiles
  | .workspace _ => .workspace
  | .extendedRange => .extendedRange
  | .schedule _ => .outputSchedule
  | .outputWait _ => .outputWait
  | .sourcePasses _ => .sourcePasses
  | .exactReplay => .exactReplay
  | .noRawStaging => .rawMemoryStaging
  | .executable => .encodeRoute

/-- What a set demands. A route must be executable whatever is configured. -/
def PolicySet.Demands (set : PolicySet) (d : Domain T) : Demand → Prop
  | .metadata treatment => set.metadata = some treatment
  | .noOpaqueProfiles => set.allowOpaqueProfiles = false
  | .workspace limit => set.workspaceLimit = some limit
  | .extendedRange => set.requireExtendedRange = true
  | .schedule schedule => set.outputSchedule = some schedule
  | .outputWait limit => set.outputWaitLimit = some limit
  | .sourcePasses limit => set.maxSourcePasses = some limit
  | .exactReplay => set.exactReplay = true
  | .noRawStaging => set.allowRawMemoryStaging = false
  | .executable => d.isEncodeRoute = true

/-! ### Proofs of a demand -/

/-- A known bound within a limit. -/
def Within (bound : Option ℕ) (limit : ℕ) : Prop := ∃ b, bound = some b ∧ b ≤ limit

def OutputScheduleOffer.Proves (o : OutputScheduleOffer) : Demand → Prop
  | .schedule schedule => o.schedule = schedule
  | .outputWait limit => Within o.waitRetainedUpperBound limit
  | _ => False

def EncodeRouteOffer.Proves (plan : EncodePlan) (job : EncodeEvidence) (o : EncodeRouteOffer) :
    Demand → Prop
  | .metadata treatment => job.metadata = some treatment
  | .noOpaqueProfiles => job.retainsOpaqueProfile = some false
  | .workspace limit => Within o.workspaceUpperBound limit
  | .extendedRange =>
    o.preservesExtendedRange = some true ∧ job.encoder.fidelity = some .lossless
  | .schedule schedule => o.output.Proves (.schedule schedule)
  | .outputWait limit => o.output.Proves (.outputWait limit)
  | .sourcePasses limit =>
    ∃ passes, o.externalSourcePasses plan = some passes ∧ Within passes.max limit
  | .exactReplay =>
    EncodeRouteOffer.readsOnce plan = true ∨ o.replay = .immutableBorrow ∨
      o.replay = .privateSnapshot
  | .noRawStaging => o.acquisition ≠ .unknown ∧ o.acquisition ≠ .memorySnapshot
  | .executable => o.compatible plan = true

def TranscodeOffer.Proves (o : TranscodeOffer) : Demand → Prop
  | .metadata treatment => o.metadata = treatment
  | .noOpaqueProfiles => o.retainsOpaqueProfile = some false
  | .workspace limit => Within o.workspaceUpperBound limit
  | .schedule schedule => ∃ s, o.outputSchedule = some s ∧ s.Proves (.schedule schedule)
  | .outputWait limit => ∃ s, o.outputSchedule = some s ∧ s.Proves (.outputWait limit)
  | _ => False

def ImageConversionOffer.Proves (o : ImageConversionOffer) : Demand → Prop
  | .workspace limit => Within o.workspaceUpperBound limit
  | .extendedRange => o.preservesExtendedRange = true
  | _ => False

def FrameRouteOffer.Proves (o : FrameRouteOffer) : Demand → Prop
  | .workspace limit => Within o.workspaceUpperBound limit
  | .extendedRange =>
    (∃ c, o.conversion = some c ∧ c.preservesExtendedRange = true) ∧ o.fidelity = some .lossless
  | .schedule schedule => ∃ s, o.outputSchedule = some s ∧ s.Proves (.schedule schedule)
  | .outputWait limit => ∃ s, o.outputSchedule = some s ∧ s.Proves (.outputWait limit)
  | _ => False

/-- An offer of `d` shows that a demand is met. -/
def Domain.Proves {T : Type} : Domain T → T → Demand → Prop
  | .encodeRoute _ plan job, o => o.Proves plan job
  | .outputSchedule, o => o.Proves
  | .imageConversion, o => o.Proves
  | .frameRoute, o => o.Proves
  | .transcode, o => o.Proves
  | .image, _ | .frame, _ | .boundary, _ | .encode, _ => fun _ => False

/-- Continuing to read decides nothing yet. -/
def Domain.Defers {T : Type} : Domain T → T → Prop
  | .boundary, o => o.action = .continueReading
  | .encodeRoute _ _ _, _ | .outputSchedule, _ | .imageConversion, _ | .frameRoute, _
  | .transcode, _ | .image, _ | .frame, _ | .encode, _ => False

/-- An offer meets every requirement of `set`. -/
def PolicySet.Meets (set : PolicySet) (d : Domain T) (o : T) : Prop :=
  ∀ demand, set.Demands d demand → d.Proves o demand

/-- The sets whose requirements hold of an operation. -/
def inForce (preset : PolicySet) (bound : Option PolicySet) : List PolicySet :=
  preset :: bound.toList

/-! ### The evidence of one offer -/

/-- Evidence discharges a demand, where its question has that kind of evidence. -/
def Evidence.Proves (e : Evidence) : Demand → Prop
  | .metadata treatment => e.metadata = some treatment
  | .noOpaqueProfiles => e.noOpaque = some true
  | .workspace limit => Within e.workspace limit
  | .extendedRange => e.range = some true
  | .schedule schedule => ∃ s, e.schedule = some s ∧ s.schedule = schedule
  | .outputWait limit => ∃ s, e.schedule = some s ∧ Within s.waitRetainedUpperBound limit
  | .sourcePasses limit => Within e.passes limit
  | .exactReplay => e.exact = some true
  | .noRawStaging => e.noRawStaging = some true
  | .executable => e.route = some true

/-- The evidence that a question gives of its one offer. -/
def Domain.evidenceOf {T : Type} : Domain T → T → Evidence
  | .encodeRoute _ plan job, o => o.evidence plan job
  | .transcode, o => o.evidence
  | .imageConversion, o => o.evidence
  | .frameRoute, o => o.evidence
  | .outputSchedule, o => { schedule := some o }
  | .boundary, _ | .encode, _ | .image, _ | .frame, _ => {}

theorem EncodeRouteOffer.proves_iff (plan : EncodePlan) (job : EncodeEvidence)
    (o : EncodeRouteOffer) (demand : Demand) :
    o.Proves plan job demand ↔ (o.evidence plan job).Proves demand := by
  simp only [EncodeRouteOffer.Proves, EncodeRouteOffer.evidence]
  cases demand with
  | extendedRange =>
    cases hp : o.preservesExtendedRange with
    | none => simp [Evidence.Proves]
    | some preserves => cases preserves <;> simp [Evidence.Proves]
  | sourcePasses limit =>
    cases hp : o.externalSourcePasses plan with
    | none => simp [Evidence.Proves, Within]
    | some passes => simp [Evidence.Proves, Within]
  | exactReplay =>
    simp only [Evidence.Proves, EncodeRouteOffer.exactReplay]
    by_cases honce : EncodeRouteOffer.readsOnce plan = true
    · simp [honce]
    · cases hr : o.replay <;> simp [honce, ReplayEvidence.exact]
  | noRawStaging =>
    simp only [Evidence.Proves, EncodeRouteOffer.noRawMemoryStaging]
    cases hacq : o.acquisition <;> simp
  | _ => simp [Evidence.Proves, OutputScheduleOffer.Proves]

theorem FrameRouteOffer.proves_iff (o : FrameRouteOffer) (demand : Demand) :
    o.Proves demand ↔ o.evidence.Proves demand := by
  simp only [FrameRouteOffer.evidence]
  cases demand with
  | extendedRange =>
    cases hc : o.conversion with
    | none => simp [FrameRouteOffer.Proves, Evidence.Proves, hc]
    | some c =>
      cases hr : c.preservesExtendedRange <;>
        simp [FrameRouteOffer.Proves, Evidence.Proves, hc, hr, Option.filter]
  | _ => simp [FrameRouteOffer.Proves, Evidence.Proves, OutputScheduleOffer.Proves, Within]

/-- An offer proves what its evidence does. -/
theorem Domain.proves_iff (d : Domain T) (o : T) (demand : Demand) :
    d.Proves o demand ↔ (d.evidenceOf o).Proves demand := by
  cases d with
  | encodeRoute declaration plan job => exact o.proves_iff plan job demand
  | frameRoute => exact o.proves_iff demand
  | outputSchedule =>
    cases demand <;> simp [Domain.Proves, OutputScheduleOffer.Proves, Domain.evidenceOf,
      Evidence.Proves, Within]
  | imageConversion =>
    cases demand <;> simp [Domain.Proves, ImageConversionOffer.Proves, Domain.evidenceOf,
      ImageConversionOffer.evidence, Evidence.Proves, Within]
  | transcode =>
    cases demand <;> simp [Domain.Proves, TranscodeOffer.Proves, Domain.evidenceOf,
      TranscodeOffer.evidence, OutputScheduleOffer.Proves, Evidence.Proves, Within]
  | image | frame | boundary | encode =>
    cases demand <;> simp [Domain.Proves, Domain.evidenceOf, Evidence.Proves, Within]

/-- The evidence about one offer alone. -/
theorem Domain.evidence_single (d : Domain T) (ticket : ℕ) {offers : List T} {i : ℕ} {o : T}
    (hi : i < 64) (ho : offers[i]? = some o) :
    (d.Defers o → evidence (d.single ticket offers i) = none) ∧
      (¬d.Defers o → evidence (d.single ticket offers i) = some (d.evidenceOf o)) := by
  have hfirst : Choices.first ⟨ticket, offers, 1 <<< i⟩ = some ⟨⟨ticket, i⟩, o⟩ :=
    Choices.first_single hi rfl ho
  cases d <;>
    simp [Domain.single, Domain.question, evidence, hfirst, Domain.Defers, Domain.evidenceOf]

/-! ### The check of one offer -/

/-- A configured bound fails when there is nothing known within it. -/
theorem bound_fails {α β : Type} (f : α → β → Bool) (required : Option α) (known : Option β) :
    (required.isSome = true ∧ Option.map₂ f required known ≠ some true) ↔
      ∃ a, required = some a ∧ ¬∃ b, known = some b ∧ f a b = true := by
  cases required with
  | none => simp
  | some a => cases known <;> simp

/-- The check of a requirement fails exactly when it demands what is not proved. -/
theorem PolicySet.names_unmetBy (set : PolicySet) (d : Domain T) (o : T) (j : ℕ) :
    (set.unmetBy (d.evidenceOf o)).names j = true ↔
      ∃ demand, set.Demands d demand ∧ ¬d.Proves o demand ∧ demand.requirement.bit = j := by
  simp only [d.proves_iff]
  have hroute : (d.evidenceOf o).route.isSome = d.isEncodeRoute := by cases d <;> rfl
  generalize d.evidenceOf o = e at hroute
  simp only [PolicySet.unmetBy, UnmetRequirements.names_check, names_checkWorkspace, hroute,
    UnmetRequirements.names_empty, Bool.false_or, Bool.or_eq_true, Bool.and_eq_true,
    decide_eq_true_eq, bound_fails, Bool.not_eq_true', Option.bind_eq_some_iff]
  constructor
  · -- one disjunct for each requirement, in the order of their bits
    rintro (((((((((h | h) | h) | h) | h) | h) | h) | h) | h) | h) <;> obtain ⟨hfail, hj⟩ := h
    · obtain ⟨a, ha, hno⟩ := hfail
      exact ⟨.metadata a, ha, fun hp => hno ⟨a, hp, rfl⟩, hj⟩
    · exact ⟨.noOpaqueProfiles, hfail.1, hfail.2, hj⟩
    · obtain ⟨limit, hl, hno⟩ := hfail
      exact ⟨.workspace limit, hl, hno, hj⟩
    · exact ⟨.extendedRange, hfail.1, hfail.2, hj⟩
    · obtain ⟨a, ha, hno⟩ := hfail
      refine ⟨.schedule a, ha, fun hp => hno ?_, hj⟩
      obtain ⟨s, hs, hsa⟩ := hp
      exact ⟨s, hs, hsa.symm⟩
    · obtain ⟨limit, hl, hno⟩ := hfail
      refine ⟨.outputWait limit, hl, fun hp => hno ?_, hj⟩
      obtain ⟨s, hs, b, hb, hle⟩ := hp
      exact ⟨b, ⟨s, hs, hb⟩, hle⟩
    · obtain ⟨limit, hl, hno⟩ := hfail
      exact ⟨.sourcePasses limit, hl, hno, hj⟩
    · exact ⟨.exactReplay, hfail.1, hfail.2, hj⟩
    · exact ⟨.noRawStaging, hfail.1, hfail.2, hj⟩
    · exact ⟨.executable, hfail.1, hfail.2, hj⟩
  · rintro ⟨demand, hd, hp, rfl⟩
    cases demand with
    | schedule a =>
      have hno : ∀ s, e.schedule = some s → ¬a = s.schedule := by
        intro s hs ha
        exact hp ⟨s, hs, ha.symm⟩
      simpa [Demand.requirement, PolicyRequirement.bit] using ⟨_, hd, hno⟩
    | outputWait limit =>
      have hno : ∀ b s, e.schedule = some s → s.waitRetainedUpperBound = some b → limit < b := by
        intro b s hs hb
        exact Nat.lt_of_not_le fun hle => hp ⟨s, hs, b, hb, hle⟩
      simpa [Demand.requirement, PolicyRequirement.bit] using ⟨_, hd, hno⟩
    | metadata _ =>
      simpa [Demand.requirement, PolicyRequirement.bit, Evidence.Proves] using ⟨_, hd, hp⟩
    | workspace _ | sourcePasses _ =>
      simp only [Evidence.Proves, Within, not_exists, not_and, Nat.not_le] at hp
      simpa [Demand.requirement, PolicyRequirement.bit] using ⟨_, hd, hp⟩
    | _ =>
      simpa [Demand.requirement, PolicyRequirement.bit, PolicySet.Demands, Evidence.Proves]
        using And.intro hd hp

/-- An offer may be selected under `sets`. -/
def Admissible (d : Domain T) (sets : List PolicySet) (o : T) : Prop :=
  d.Defers o ∨ ∀ set ∈ sets, set.Meets d o

/-- Offer `o` fails a demand of `sets` that is reported as `r`. -/
def Fails (d : Domain T) (sets : List PolicySet) (o : T) (r : PolicyRequirement) : Prop :=
  ¬d.Defers o ∧ ∃ set ∈ sets, ∃ demand, set.Demands d demand ∧ ¬d.Proves o demand ∧
    demand.requirement = r

theorem PolicyRequirement.bit_inj {r r' : PolicyRequirement} (h : r.bit = r'.bit) : r = r' := by
  cases r <;> cases r' <;> first | rfl | cases h

theorem admissible_iff (d : Domain T) (sets : List PolicySet) (o : T) :
    Admissible d sets o ↔ ∀ r, ¬Fails d sets o r := by
  constructor
  · rintro (hdefer | hmeets) r ⟨hnot, set, hset, demand, hd, hp, -⟩
    · exact hnot hdefer
    · exact hp (hmeets set hset demand hd)
  · intro h
    by_cases hdefer : d.Defers o
    · exact .inl hdefer
    · refine .inr fun set hset demand hd => ?_
      by_contra hp
      exact h demand.requirement ⟨hdefer, set, hset, demand, hd, hp, rfl⟩

theorem names_unmet (set : PolicySet) (d : Domain T) (ticket : ℕ) {offers : List T} {i : ℕ}
    {o : T} (hi : i < 64) (ho : offers[i]? = some o) (j : ℕ) :
    (set.unmet (d.single ticket offers i)).names j = true ↔
      ∃ r, Fails d [set] o r ∧ r.bit = j := by
  obtain ⟨hdefer, hevidence⟩ := d.evidence_single ticket hi ho
  unfold PolicySet.unmet Fails
  by_cases hd : d.Defers o
  · simp [hdefer hd, hd]
  · rw [hevidence hd]
    simp only [PolicySet.names_unmetBy, hd, not_false_eq_true, true_and, List.mem_singleton,
      exists_eq_left]
    constructor
    · rintro ⟨demand, hdemand, hp, hj⟩
      exact ⟨_, ⟨demand, hdemand, hp, rfl⟩, hj⟩
    · rintro ⟨r, ⟨demand, hdemand, hp, rfl⟩, hj⟩
      exact ⟨demand, hdemand, hp, hj⟩

/-- The loop's failures of one offer, over all sets in force. -/
theorem names_failuresOf (d : Domain T) (ticket : ℕ) {offers : List T} (preset : PolicySet)
    (bound : Option PolicySet) {i : ℕ} {o : T} (hi : i < 64) (ho : offers[i]? = some o) (j : ℕ) :
    (failuresOf d ticket offers preset bound i).names j = true ↔
      ∃ r, Fails d (inForce preset bound) o r ∧ r.bit = j := by
  unfold failuresOf inForce
  cases bound with
  | none => exact names_unmet preset d ticket hi ho j
  | some required =>
    simp only [UnmetRequirements.names_merge, Bool.or_eq_true, names_unmet _ d ticket hi ho,
      Option.toList_some]
    constructor
    · rintro (⟨r, ⟨hd, set, hset, hfail⟩, hj⟩ | ⟨r, ⟨hd, set, hset, hfail⟩, hj⟩)
      · exact ⟨r, ⟨hd, set, List.mem_cons.mpr (.inl (List.mem_singleton.mp hset)), hfail⟩, hj⟩
      · exact ⟨r, ⟨hd, set, List.mem_cons_of_mem _ hset, hfail⟩, hj⟩
    · rintro ⟨r, ⟨hd, set, hset, hfail⟩, hj⟩
      obtain rfl | hset := List.mem_cons.mp hset
      · exact .inl ⟨r, ⟨hd, set, List.mem_singleton_self _, hfail⟩, hj⟩
      · exact .inr ⟨r, ⟨hd, set, hset, hfail⟩, hj⟩

theorem failuresOf_isEmpty (d : Domain T) (ticket : ℕ) {offers : List T} (preset : PolicySet)
    (bound : Option PolicySet) {i : ℕ} {o : T} (hi : i < 64) (ho : offers[i]? = some o) :
    (failuresOf d ticket offers preset bound i).isEmpty = true ↔
      Admissible d (inForce preset bound) o := by
  rw [UnmetRequirements.isEmpty_iff, admissible_iff]
  constructor
  · intro h r hfail
    have := (names_failuresOf d ticket preset bound hi ho r.bit).mpr ⟨r, hfail, rfl⟩
    rw [h r.bit] at this
    cases this
  · intro h j
    by_contra hj
    obtain ⟨r, hfail, -⟩ :=
      (names_failuresOf d ticket preset bound hi ho j).mp (Bool.eq_true_of_not_eq_false hj)
    exact h r hfail

/-! ### The admission loop -/

/-- What the loop has found after `n` offers. -/
theorem admitOne_foldl (failures : ℕ → UnmetRequirements) (n : ℕ) :
    let result := (List.range n).foldl (admitOne failures) (0, {})
    result.1 < 2 ^ n ∧
      (∀ i, result.1.testBit i = true ↔ i < n ∧ (failures i).isEmpty = true) ∧
      ∀ j, result.2.names j = true ↔ ∃ i < n, (failures i).names j = true := by
  induction n with
  | zero => simp
  | succ n ih =>
    obtain ⟨hlt, hbits, hnames⟩ := ih
    simp only [List.range_succ, List.foldl_append, List.foldl_cons, List.foldl_nil]
    generalize (List.range n).foldl (admitOne failures) (0, {}) = acc at hlt hbits hnames
    have hlt' : acc.1 < 2 ^ (n + 1) :=
      Nat.lt_trans hlt (Nat.pow_lt_pow_right (by omega) (Nat.lt_succ_self n))
    unfold admitOne
    split
    · next hempty =>
      refine ⟨Nat.or_lt_two_pow hlt' ?_, fun i => ?_, fun j => ?_⟩
      · rw [Nat.one_shiftLeft]
        exact Nat.pow_lt_pow_right (by omega) (Nat.lt_succ_self n)
      · rw [Mask.testBit_set, Bool.or_eq_true, hbits, decide_eq_true_eq]
        constructor
        · rintro (⟨hi, he⟩ | rfl)
          · exact ⟨by omega, he⟩
          · exact ⟨by omega, hempty⟩
        · rintro ⟨hi, he⟩
          by_cases hin : n = i
          · exact .inr hin
          · exact .inl ⟨by omega, he⟩
      · rw [hnames]
        constructor
        · rintro ⟨i, hi, hj⟩
          exact ⟨i, by omega, hj⟩
        · rintro ⟨i, hi, hj⟩
          refine ⟨i, ?_, hj⟩
          -- the new offer fails nothing
          by_contra hin
          obtain rfl : i = n := by omega
          rw [UnmetRequirements.isEmpty_iff.mp hempty j] at hj
          cases hj
    · next hempty =>
      refine ⟨hlt', fun i => ?_, fun j => ?_⟩
      · rw [hbits]
        constructor
        · rintro ⟨hi, he⟩
          exact ⟨by omega, he⟩
        · rintro ⟨hi, he⟩
          refine ⟨?_, he⟩
          by_contra hin
          obtain rfl : i = n := by omega
          exact hempty he
      · rw [UnmetRequirements.names_merge, Bool.or_eq_true, hnames]
        constructor
        · rintro (⟨i, hi, hj⟩ | hj)
          · exact ⟨i, by omega, hj⟩
          · exact ⟨n, Nat.lt_succ_self n, hj⟩
        · rintro ⟨i, hi, hj⟩
          by_cases hin : i = n
          · exact .inr (hin ▸ hj)
          · exact .inl ⟨i, by omega, hj⟩

/-- A set without requirements demands nothing outside an encode route. -/
theorem PolicySet.not_demands {set : PolicySet} {d : Domain T} (hset : set.hasRequirements = false)
    (hd : d.isEncodeRoute = false) (demand : Demand) : ¬set.Demands d demand := by
  simp only [PolicySet.hasRequirements, Bool.or_eq_false_iff, Bool.not_eq_false',
    Option.isSome_eq_false_iff, Option.isNone_iff_eq_none] at hset
  cases demand <;> simp [PolicySet.Demands, hset, hd]

theorem testBit_allOffers {offers : List T} (i : ℕ) :
    (allOffers offers).testBit i = decide (i < offers.length) := by
  unfold allOffers maxOffers
  split
  · next hlen => rw [Mask.testBit_ones, hlen]
  · rw [Nat.one_shiftLeft, Mask.testBit_ones]

theorem allOffers_lt {offers : List T} (hlen : offers.length ≤ maxOffers) :
    allOffers offers < 2 ^ 64 := by
  refine Nat.lt_pow_two_of_testBit _ fun i hi => ?_
  have hmax : maxOffers = 64 := rfl
  rw [testBit_allOffers, decide_eq_false_iff_not]
  omega

/-- Admission keeps the admissible offers, and reports what the others fail. -/
theorem admitOffers_spec (d : Domain T) (ticket : ℕ) {offers : List T} (preset : PolicySet)
    (bound : Option PolicySet) (hlen : offers.length ≤ maxOffers) :
    (admitOffers d ticket offers preset bound).1 < 2 ^ 64 ∧
      (∀ i o, offers[i]? = some o →
        ((admitOffers d ticket offers preset bound).1.testBit i = true ↔
          Admissible d (inForce preset bound) o)) ∧
      (∀ i, (admitOffers d ticket offers preset bound).1.testBit i = true → i < offers.length) ∧
      ∀ j, (admitOffers d ticket offers preset bound).2.names j = true ↔
        ∃ o ∈ offers, ∃ r, Fails d (inForce preset bound) o r ∧ r.bit = j := by
  have hmax : maxOffers = 64 := rfl
  unfold admitOffers
  split
  · obtain ⟨hlt, hbits, hnames⟩ :=
      admitOne_foldl (failuresOf d ticket offers preset bound) offers.length
    refine ⟨?_, fun i o ho => ?_, fun i hi => ((hbits i).mp hi).1, fun j => ?_⟩
    · exact Nat.lt_of_lt_of_le hlt (Nat.pow_le_pow_right (by omega) hlen)
    · have hi : i < offers.length := (List.getElem?_eq_some_iff.mp ho).1
      rw [hbits, failuresOf_isEmpty d ticket preset bound (by omega) ho]
      exact and_iff_right hi
    · rw [hnames]
      constructor
      · rintro ⟨i, hi, hj⟩
        have ho : offers[i]? = some offers[i] := List.getElem?_eq_getElem hi
        exact ⟨offers[i], List.getElem_mem hi,
          (names_failuresOf d ticket preset bound (by omega) ho j).mp hj⟩
      · rintro ⟨o, hmem, hfail⟩
        obtain ⟨i, hi, rfl⟩ := List.mem_iff_getElem.mp hmem
        have ho : offers[i]? = some offers[i] := List.getElem?_eq_getElem hi
        exact ⟨i, hi, (names_failuresOf d ticket preset bound (by omega) ho j).mpr hfail⟩
  · next hnone =>
    -- nothing is demanded of anyone
    simp only [Bool.or_eq_true, not_or, Bool.not_eq_true] at hnone
    have hdemands : ∀ set ∈ inForce preset bound, ∀ demand, ¬set.Demands d demand := by
      intro set hset
      refine PolicySet.not_demands ?_ hnone.1.1
      obtain rfl | hset := List.mem_cons.mp hset
      · exact hnone.1.2
      · have hb := hnone.2
        rw [Option.mem_toList.mp hset] at hb
        simpa using hb
    refine ⟨allOffers_lt hlen, fun i o ho => ?_, fun i hi => ?_, fun j => ?_⟩
    · rw [testBit_allOffers]
      have hi : i < offers.length := (List.getElem?_eq_some_iff.mp ho).1
      refine iff_of_true (decide_eq_true hi) (.inr fun set hset demand hd => ?_)
      exact absurd hd (hdemands set hset demand)
    · rw [testBit_allOffers] at hi
      exact of_decide_eq_true hi
    · rw [UnmetRequirements.names_empty]
      refine iff_of_false Bool.false_ne_true ?_
      rintro ⟨o, -, r, ⟨-, set, hset, demand, hd, -⟩, -⟩
      exact hdemands set hset demand hd

/-! ### The decision -/

/-- Offer `i` was one of the choices of a question that the callback answered with its token,
or by delegating. -/
def Answered (d : Domain T) (offers : List T) (resolver : OperationPolicy Ω ε)
    (ticket i : ℕ) (o : T) (s : ℕ × Ω) : Prop :=
  ∃ choices : Choices T, choices.ticket = ticket ∧ choices.entries = offers ∧
    ⟨⟨ticket, i⟩, o⟩ ∈ choices.iter ∧
    ∃ decision, (resolver.decide (d.question choices) s).1 = .ok decision ∧
      (decision = .choose ⟨ticket, i⟩ ∨ decision = .usePreset)

/-- `conclude` selects nothing but a choice that was shown. -/
theorem conclude_ok {d : Domain T} {offers : List T} {choices : Choices T} {record : DecisionRecord}
    {decision : Decision} {i : ℕ} {record' : DecisionRecord}
    (h : conclude (ε := ε) (ρ := ρ) d offers choices record decision = .ok (i, record')) :
    decision = .choose ⟨choices.ticket, i⟩ ∧ i < choices.entries.length ∧
      choices.admitted.testBit i = true ∧ record'.question = record.question := by
  unfold conclude at h
  split at h
  · split at h
    · next hsel =>
      obtain ⟨rfl, rfl⟩ := Prod.mk.inj (Except.ok.inj h)
      obtain ⟨rfl, hi, hbit⟩ := Choices.selected_eq_some.mp hsel
      exact ⟨rfl, hi, hbit, rfl⟩
    · cases h
  · cases h
  · cases h

/-- What a run needs before its offers are looked at. -/
structure Asked (usizeMax : ℕ) (d : Domain T) (offers : List T) (pulse : Act Ω ρ Unit)
    (s : ℕ × Ω) : Prop where
  offers_le : offers.length ≤ maxOffers
  ticket_le : s.1 + 1 ≤ usizeMax
  live : (pulse s.2).1 = .ok ()
  valid : d.validate = .ok ()

/-- A selected offer was admissible, and the callback answered a question that showed it. -/
theorem spec_chooseFrom (d : Domain T) {offers : List T} (resolver : OperationPolicy Ω ε)
    (preset : PolicySet) (pulse : Act Ω ρ Unit) (record : DecisionRecord)
    (hlen : offers.length ≤ maxOffers) (s : ℕ × Ω) :
    Act.Spec (chooseFrom d offers resolver preset pulse record)
      (fun r _ => r.2.question = record.question ∧ ∃ o, offers[r.1]? = some o ∧
        Admissible d (inForce preset resolver.requirements) o ∧
        Answered d offers resolver record.question r.1 o (s.1, (pulse s.2).2))
      (fun _ _ => True) s := by
  obtain ⟨hfit, hbits, -, -⟩ :=
    admitOffers_spec d record.question preset resolver.requirements hlen
  simp only [chooseFrom, Act.spec_bind, Act.spec_mapError, spec_onWorld]
  refine Act.spec_of_run (fun _ _ => ?_) (fun _ _ => trivial)
  rw [Act.spec_lift]
  refine ⟨fun _ _ => ?_, fun _ _ => trivial⟩
  generalize hadm : admitOffers d record.question offers preset resolver.requirements = admission
  rw [hadm] at hfit hbits
  rw [Act.spec_ite]
  refine ⟨fun _ => trivial, fun _ => ?_⟩
  simp only [Act.spec_bind, Act.spec_mapError, spec_onWorld, Act.spec_ite, Act.spec_lift]
  refine Act.spec_of_run (fun decision hdecide => ?_) (fun _ _ => trivial)
  refine Act.spec_of_run (fun _ _ => ?_) (fun _ _ => trivial)
  -- whatever the answer, `conclude` checked its token against the choices shown
  have hshown : ∀ record' answer i record'', record'.question = record.question →
      (decision = answer ∨ decision = .usePreset) →
      conclude (ε := ε) (ρ := ρ) d offers ⟨record.question, offers, admission.1⟩ record' answer
        = .ok (i, record'') →
      record''.question = record.question ∧ ∃ o, offers[i]? = some o ∧
        Admissible d (inForce preset resolver.requirements) o ∧
        Answered d offers resolver record.question i o (s.1, (pulse s.2).2) := by
    intro record' answer i record'' hq hanswer hconclude
    obtain ⟨rfl, hi, hbit, hquestion⟩ := conclude_ok hconclude
    have ho : offers[i]? = some offers[i] := List.getElem?_eq_getElem hi
    refine ⟨hquestion.trans hq, offers[i], ho, (hbits i _ ho).mp hbit,
      ⟨record.question, offers, admission.1⟩, rfl, rfl, ?_, decision, hdecide, hanswer⟩
    exact (Choices.mem_iter hfit).mpr ⟨rfl, hbit, ho⟩
  refine ⟨fun hpreset => ⟨fun r hr => ?_, fun _ _ => trivial⟩,
    fun _ => ⟨fun r hr => ?_, fun _ _ => trivial⟩⟩
  · refine hshown _ _ r.1 r.2 ?_ (.inr hpreset) hr
    rfl
  · refine hshown _ _ r.1 r.2 ?_ (.inl rfl) hr
    rfl

/-- A question that admits nothing is refused without its callback. -/
theorem chooseFrom_refused (d : Domain T) {offers : List T} (resolver : OperationPolicy Ω ε)
    (preset : PolicySet) (pulse : Act Ω ρ Unit) (record : DecisionRecord)
    (hlen : offers.length ≤ maxOffers) (hne : offers ≠ [])
    (hnone : ∀ o ∈ offers, ¬Admissible d (inForce preset resolver.requirements) o) :
    chooseFrom d offers resolver preset pulse record = (do
      Act.mapError (fun reason => ⟨{ record with code := .stopped }, .stopped reason⟩)
        (onWorld pulse)
      Act.mapError (fun e => ⟨{ record with code := .invalidOffers }, .encodePlan e⟩)
        (Act.lift d.validate)
      Act.fail ⟨{ record with
          admitted := 0
          unmetRequirements := (admitOffers d record.question offers preset resolver.requirements).2
          code := .declined },
        .declined (refusalReason d record.question offers preset resolver.requirements)⟩) := by
  obtain ⟨hfit, hbits, hlt, hnames⟩ :=
    admitOffers_spec d record.question preset resolver.requirements hlen
  have hzero : (admitOffers d record.question offers preset resolver.requirements).1 = 0 := by
    refine Nat.eq_of_testBit_eq fun i => ?_
    rw [Nat.zero_testBit]
    by_contra hbit
    have hbit := Bool.eq_true_of_not_eq_false hbit
    obtain ⟨o, ho⟩ : ∃ o, offers[i]? = some o := ⟨_, List.getElem?_eq_getElem (hlt i hbit)⟩
    exact hnone o (List.mem_of_getElem? ho) ((hbits i o ho).mp hbit)
  have hunmet : (admitOffers d record.question offers preset
      resolver.requirements).2.isEmpty = false := by
    obtain ⟨o, rest, rfl⟩ := List.exists_cons_of_ne_nil hne
    have ho := hnone o List.mem_cons_self
    rw [admissible_iff] at ho
    obtain ⟨r, hfail⟩ := not_forall_not.mp ho
    by_contra hempty
    have hempty := UnmetRequirements.isEmpty_iff.mp (Bool.eq_true_of_not_eq_false hempty) r.bit
    rw [(hnames r.bit).mpr ⟨o, List.mem_cons_self, r, hfail, rfl⟩] at hempty
    cases hempty
  simp only [chooseFrom, hzero, hunmet, Bool.not_false, and_self, if_true]
  rfl

variable (usizeMax : ℕ) (d : Domain T) (offers : List T) (resolver : OperationPolicy Ω ε)
  (preset : PolicySet) (pulse : Act Ω ρ Unit) (s : ℕ × Ω)

/-- Admission cannot be bypassed. Of any offers, a selected one is admissible and was shown to
the callback, whatever the callback answers. Where there are offers and none is admissible, the
callback has no part in the outcome, and a question that is asked at all is refused with the
requirements that the offers fail. -/
theorem choose_admission :
    (∀ i record, (choose usizeMax d offers resolver preset pulse s).1 = .ok (i, record) →
      ∃ o, offers[i]? = some o ∧ Admissible d (inForce preset resolver.requirements) o ∧
        Answered d offers resolver record.question i o (s.1 + 1, (pulse s.2).2)) ∧
    (offers ≠ [] → (∀ o ∈ offers, ¬Admissible d (inForce preset resolver.requirements) o) →
      (∀ decide, choose usizeMax d offers ⟨resolver.requirements, decide⟩ preset pulse s
        = choose usizeMax d offers resolver preset pulse s) ∧
      ∃ failure, (choose usizeMax d offers resolver preset pulse s).1 = .error failure ∧
        (Asked usizeMax d offers pulse s →
          failure.record.code = .declined ∧
          ∀ r, (∃ e, (r, e) ∈ failure.record.unmetRequirements.iter) ↔
            ∃ o ∈ offers, Fails d (inForce preset resolver.requirements) o r)) := by
  constructor
  · intro i record hrun
    have hspec : Act.Spec (choose usizeMax d offers resolver preset pulse)
        (fun r _ => ∃ o, offers[r.1]? = some o ∧
          Admissible d (inForce preset resolver.requirements) o ∧
          Answered d offers resolver r.2.question r.1 o (s.1 + 1, (pulse s.2).2))
        (fun _ _ => True) s := by
      unfold choose
      dsimp only
      rw [Act.spec_ite]
      refine ⟨fun _ => trivial, fun hlen => ?_⟩
      rw [Act.spec_bind]
      unfold ticket
      refine Act.spec_of_run (fun question hq => ?_) (fun _ _ => trivial)
      by_cases hticket : s.1 + 1 ≤ usizeMax
      · simp only [hticket, if_true] at hq ⊢
        refine (spec_chooseFrom d resolver preset pulse _ (by omega) _).mono (fun r t hr => ?_)
          (fun _ _ _ => trivial)
        obtain ⟨hquestion, o, ho, hadm, hanswer⟩ := hr
        exact ⟨o, ho, hadm, hquestion ▸ hanswer⟩
      · simp only [hticket, if_false] at hq
        cases hq
    exact hspec.run.1 _ hrun
  · intro hne hnone
    constructor
    · intro decide
      have hsame : choose usizeMax d offers ⟨resolver.requirements, decide⟩ preset pulse
          = choose usizeMax d offers resolver preset pulse := by
        unfold choose
        dsimp only
        split
        · rfl
        · next hlen =>
          have hlen : offers.length ≤ maxOffers := by omega
          have hother := fun record => chooseFrom_refused d ⟨resolver.requirements, decide⟩ preset
            pulse record hlen hne hnone
          have hthis := fun record => chooseFrom_refused d resolver preset pulse record hlen hne
            hnone
          simp only [hother, hthis]
      rw [hsame]
    · have hspec : Act.Spec (choose usizeMax d offers resolver preset pulse) (fun _ _ => False)
          (fun failure _ => Asked usizeMax d offers pulse s →
            failure.record.code = .declined ∧
            ∀ r, (∃ e, (r, e) ∈ failure.record.unmetRequirements.iter) ↔
              ∃ o ∈ offers, Fails d (inForce preset resolver.requirements) o r) s := by
        unfold choose
        dsimp only
        rw [Act.spec_ite]
        refine ⟨fun hlen hasked => absurd hasked.offers_le (by omega), fun hlen => ?_⟩
        have hlen : offers.length ≤ maxOffers := by omega
        simp only [chooseFrom_refused d _ preset pulse _ hlen hne hnone, Act.spec_bind,
          Act.spec_mapError, spec_onWorld, Act.spec_lift, Act.spec_fail]
        unfold ticket
        refine Act.spec_of_run (fun question hq => ?_) (fun e he hasked => ?_)
        · by_cases hticket : s.1 + 1 ≤ usizeMax
          · simp only [hticket, if_true] at hq ⊢
            refine Act.spec_of_run (fun _ _ => ⟨fun _ _ => ?_, fun e he hasked => ?_⟩)
              (fun e he hasked => ?_)
            · intro _
              refine ⟨trivial, fun r => ?_⟩
              rw [UnmetRequirements.mem_iter, (admitOffers_spec d question preset _ hlen).2.2.2]
              constructor
              · rintro ⟨o, ho, r', hfail, hbit⟩
                exact ⟨o, ho, PolicyRequirement.bit_inj hbit ▸ hfail⟩
              · rintro ⟨o, ho, hfail⟩
                exact ⟨o, ho, r, hfail, rfl⟩
            · rw [hasked.valid] at he
              cases he
            · rw [hasked.live] at he
              cases he
          · simp only [hticket, if_false] at hq
            cases hq
        · rw [if_pos hasked.ticket_le] at he
          cases he
      cases hrun : (choose usizeMax d offers resolver preset pulse s).1 with
      | ok r => exact (hspec.run.1 r hrun).elim
      | error failure => exact ⟨failure, rfl, hspec.run.2 failure hrun⟩

/-- A limit of 8 refuses a transcode of unknown workspace, and names it. -/
theorem choose_admission_unknown_workspace :
    let offer : TranscodeOffer := ⟨⟨none⟩, .preserveReported, none, none, none⟩
    let preset : PolicySet := { workspaceLimit := some 8 }
    let resolver : OperationPolicy Unit Unit := closurePolicy fun _ => pure (.choose ⟨1, 0⟩)
    ∃ failure, (choose 9 .transcode [offer] resolver preset (pure () : Act Unit Unit Unit)
        (1, ())).1 = .error failure ∧
      ∃ e, (.workspace, e) ∈ failure.record.unmetRequirements.iter := by
  intro offer preset resolver
  have hfails : Fails .transcode (inForce preset resolver.requirements) offer .workspace := by
    refine ⟨fun h => h, preset, List.mem_cons_self, .workspace 8, rfl, ?_, rfl⟩
    rintro ⟨b, hb, -⟩
    cases hb
  have hnone : ∀ o ∈ [offer], ¬Admissible .transcode (inForce preset resolver.requirements) o := by
    intro o ho hadm
    obtain rfl := List.mem_singleton.mp ho
    exact (admissible_iff _ _ _).mp hadm _ hfails
  obtain ⟨-, failure, hrun, hnames⟩ := (choose_admission 9 .transcode [offer] resolver preset
    (pure () : Act Unit Unit Unit) (1, ())).2 (List.cons_ne_nil _ _) hnone
  refine ⟨failure, hrun, ((hnames ⟨by decide, by decide, rfl, rfl⟩).2 .workspace).mpr ?_⟩
  exact ⟨offer, List.mem_singleton_self _, hfails⟩

/-- Selection under a requirement that the selected offer does not meet: the boundary that
continues reading defers it. And a question without offers does reach its callback. -/
theorem choose_defers :
    let preset : PolicySet := { workspaceLimit := some 8 }
    (∃ record, (choose (Ω := Unit) (ε := Unit) (ρ := Unit) 9 .boundary [⟨.continueReading⟩]
        (closurePolicy fun _ => pure (.choose ⟨1, 0⟩)) preset (pure ()) (1, ())).1
          = .ok (0, record)) ∧
      ¬preset.Meets .boundary ⟨.continueReading⟩ ∧
      ∃ record, (choose (Ω := Unit) (ε := Unit) (ρ := Unit) 9 .boundary []
        (closurePolicy fun _ => Act.fail ()) preset (pure ()) (1, ())).1
          = .error ⟨record, .callback ()⟩ := by
  refine ⟨⟨_, rfl⟩, fun hmeets => hmeets (.workspace 8) rfl, ⟨_, rfl⟩⟩

end Zencodec.Operation
