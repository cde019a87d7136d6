/-
The built-in policy and the admission check.

`resolveBuiltin` picks among the choices that it is shown, and `unmet` checks one offer; they are
two pieces of code for one set of requirements. `selects_resolveBuiltin` says that they agree:
what is picked is admissible, and something is picked where something admissible is shown. Only
the chroma siting that a conversion assumes is the built-in policy's own.
-/
import Zencodec.Operation.Admission

namespace Zencodec.Operation

variable {T : Type}

/-- A mask of 64 bits has no other. -/
theorem index_lt {mask i : ℕ} (hmask : mask < 2 ^ 64) (hbit : mask.testBit i = true) : i < 64 := by
  by_contra hge
  rw [Nat.testBit_lt_two_pow (hmask.trans_le (Nat.pow_le_pow_right (by omega) (by omega)))] at hbit
  cases hbit

/-- The one choice that a mask with one bit shows. -/
theorem Choices.eq_of_single {ticket : ℕ} {offers : List T} {i : ℕ} {o : T} (hi : i < 64)
    (ho : offers[i]? = some o) {c : Choice T}
    (hc : c ∈ (Choices.mk ticket offers (1 <<< i)).iter) : c = ⟨⟨ticket, i⟩, o⟩ := by
  have hone : 1 <<< i < 2 ^ 64 := by
    rw [Nat.one_shiftLeft]
    exact Nat.pow_lt_pow_right (by omega) hi
  obtain ⟨hticket, hbit, hvalue⟩ := (Choices.mem_iter (c := ⟨ticket, offers, 1 <<< i⟩) hone).mp hc
  rw [Mask.testBit_shiftLeft_one, decide_eq_true_eq] at hbit
  obtain ⟨⟨t, j⟩, value⟩ := c
  obtain rfl := hbit
  obtain rfl := hticket
  obtain rfl := Option.some.inj (ho.symm.trans hvalue)
  rfl

/-! ### Picking from a list -/

/-- A member of the list, if it has any. -/
structure IsPick (x : Option (Choice T)) (l : List (Choice T)) : Prop where
  mem : ∀ c, x = some c → c ∈ l
  isSome : l ≠ [] → x.isSome

theorem isPick_head? (l : List (Choice T)) : IsPick l.head? l := by
  refine ⟨fun c hc => List.mem_of_mem_head? hc, fun hne => ?_⟩
  cases l with
  | nil => exact absurd rfl hne
  | cons c l => rfl

theorem isPick_find? (f : Choice T → Bool) (l : List (Choice T)) :
    IsPick (l.find? f) (l.filter f) := by
  rw [← List.head?_filter]
  exact isPick_head? _

/-- A preferred choice if there is one, and else any. -/
theorem IsPick.prefer {x : Option (Choice T)} {l : List (Choice T)} (h : IsPick x l)
    (f : Choice T → Bool) : IsPick ((l.find? f).or x) l := by
  refine ⟨fun c hc => ?_, fun hne => ?_⟩
  · rcases Option.or_eq_some_iff.mp hc with hf | ⟨-, hx⟩
    · exact List.mem_of_find?_eq_some hf
    · exact h.mem c hx
  · rw [Option.isSome_or, h.isSome hne, Bool.or_true]

theorem isPick_firstPreferring (l : List (Choice T)) (preferred : T → Bool) :
    IsPick (PolicySet.firstPreferring l preferred) l :=
  (isPick_head? l).prefer _

/-- A decision for one of the choices with `p`, if there is one. -/
structure Selects (decision : Decision) (l : List (Choice T)) (p : T → Prop) : Prop where
  sound : ∀ id, decision = .choose id → ∃ c ∈ l, c.id = id ∧ p c.value
  complete : (∃ c ∈ l, p c.value) → ∃ id, decision = .choose id

variable {l : List (Choice T)} {p : T → Prop} {reason : Decline}

theorem selects_decline (h : ∀ c ∈ l, ¬ p c.value) : Selects (.decline reason) l p :=
  ⟨fun id hid => (by cases hid), fun ⟨c, hc, hp⟩ => absurd hp (h c hc)⟩

/-- A guard that no choice with `p` runs into. -/
theorem selects_guard {b : Bool} {decision : Decision} (hb : ∀ c ∈ l, p c.value → b = false)
    (h : b = false → Selects decision l p) :
    Selects (if b then .decline reason else decision) l p := by
  cases hcase : b with
  | false => exact h hcase
  | true =>
    refine selects_decline fun c hc hp => ?_
    rw [hb c hc hp] at hcase
    cases hcase

theorem IsPick.selects {x : Option (Choice T)} {f : Choice T → Bool} (h : IsPick x (l.filter f))
    (hf : ∀ c ∈ l, f c = true ↔ p c.value) : Selects (.ofChoice x reason) l p := by
  cases x with
  | none =>
    refine selects_decline fun c hc hp => ?_
    have hsome := h.isSome (List.ne_nil_of_mem (List.mem_filter.mpr ⟨hc, (hf c hc).mpr hp⟩))
    cases hsome
  | some c =>
    obtain ⟨hc, htrue⟩ := List.mem_filter.mp (h.mem c rfl)
    refine ⟨fun id hid => ?_, fun _ => ⟨c.id, rfl⟩⟩
    obtain rfl := Decision.choose.inj hid
    exact ⟨c, hc, rfl, (hf c hc).mp htrue⟩

/-- The same where every choice will do. -/
theorem IsPick.selects_all {x : Option (Choice T)} (h : IsPick x l) (hp : ∀ c ∈ l, p c.value) :
    Selects (.ofChoice x reason) l p := by
  have hall : l.filter (fun _ => true) = l := List.filter_true l
  exact IsPick.selects (f := fun _ => true) (hall.symm ▸ h) fun c hc =>
    iff_of_true rfl (hp c hc)

/-! ### Requirements of a set -/

/-- The chroma siting that a conversion assumes. -/
def PolicySet.PermitsSiting (set : PolicySet) (siting : Option ChromaSiting) : Prop :=
  (siting = none ∨ set.allowAssumedSiting = true) ∧ siting ≠ some .unknown

/-- What the built-in policy asks beside the requirements. -/
def Domain.Sited {T : Type} (set : PolicySet) : Domain T → T → Prop
  | .imageConversion, o => set.PermitsSiting o.assumedChromaSiting
  | .frameRoute, o => ∀ c, o.conversion = some c → set.PermitsSiting c.assumedChromaSiting
  | .encodeRoute _ _ _, _ | .outputSchedule, _ | .image, _ | .frame, _ | .transcode, _
  | .boundary, _ | .encode, _ => True

/-- The demands of a set, one by one. -/
theorem meets_iff {set : PolicySet} {d : Domain T} {o : T} : set.Meets d o ↔
    ((∀ t, set.metadata = some t → d.Proves o (.metadata t)) ∧
      (set.allowOpaqueProfiles = false → d.Proves o .noOpaqueProfiles) ∧
      (∀ n, set.workspaceLimit = some n → d.Proves o (.workspace n)) ∧
      (set.requireExtendedRange = true → d.Proves o .extendedRange)) ∧
    ((∀ s, set.outputSchedule = some s → d.Proves o (.schedule s)) ∧
      ∀ n, set.outputWaitLimit = some n → d.Proves o (.outputWait n)) ∧
    ((∀ n, set.maxSourcePasses = some n → d.Proves o (.sourcePasses n)) ∧
      (set.exactReplay = true → d.Proves o .exactReplay) ∧
      (set.allowRawMemoryStaging = false → d.Proves o .noRawStaging)) ∧
    (d.isEncodeRoute = true → d.Proves o .executable) := by
  constructor
  · intro h
    exact ⟨⟨fun t => h (.metadata t), h .noOpaqueProfiles, fun n => h (.workspace n),
      h .extendedRange⟩, ⟨fun s => h (.schedule s), fun n => h (.outputWait n)⟩,
      ⟨fun n => h (.sourcePasses n), h .exactReplay, h .noRawStaging⟩, h .executable⟩
  · rintro ⟨⟨hm, ho, hw, hr⟩, ⟨hs, ht⟩, ⟨hp, he, hst⟩, hx⟩ demand hd
    cases demand with
    | metadata t => exact hm t hd
    | noOpaqueProfiles => exact ho hd
    | workspace n => exact hw n hd
    | extendedRange => exact hr hd
    | schedule s => exact hs s hd
    | outputWait n => exact ht n hd
    | sourcePasses n => exact hp n hd
    | exactReplay => exact he hd
    | noRawStaging => exact hst hd
    | executable => exact hx hd

theorem all_decide_eq_iff {α : Type} [DecidableEq α] {required : Option α} {a : α} :
    required.all (decide <| · = a) = true ↔ ∀ b, required = some b → a = b := by
  cases required with
  | none => simp
  | some b => simp [eq_comm]

/-- A limit is kept by a known bound within it. -/
theorem all_within_iff {limit bound : Option ℕ} :
    (limit.all fun n => bound.any (decide <| · ≤ n)) = true ↔
      ∀ n, limit = some n → Within bound n := by
  cases limit with
  | none => simp
  | some n => cases bound <;> simp [Within]

theorem required_iff {required met : Bool} :
    (!required || met) = true ↔ (required = true → met = true) := by
  cases required <;> simp

theorem permitsSiting_iff {set : PolicySet} {siting : Option ChromaSiting} :
    ((siting.isNone || set.allowAssumedSiting) && siting ≠ some .unknown) = true ↔
      set.PermitsSiting siting := by
  simp [PolicySet.PermitsSiting]

theorem permitsOutputSchedule_iff {set : PolicySet} {offer : Option OutputScheduleOffer} :
    set.permitsOutputSchedule offer = true ↔
      (∀ s, set.outputSchedule = some s → ∃ o, offer = some o ∧ o.Proves (.schedule s)) ∧
      ∀ n, set.outputWaitLimit = some n → ∃ o, offer = some o ∧ o.Proves (.outputWait n) := by
  unfold PolicySet.permitsOutputSchedule
  cases offer with
  | none =>
    cases set.outputSchedule <;> cases set.outputWaitLimit <;> simp
  | some o =>
    simp only [Option.any_some, Option.some.injEq, exists_eq_left', OutputScheduleOffer.Proves]
    split
    · next hnone =>
      simp only [Bool.and_eq_true, Option.isNone_iff_eq_none] at hnone
      simp [hnone.1, hnone.2]
    · rw [Bool.and_eq_true, all_decide_eq_iff, all_within_iff]

theorem isSome_eq_false_iff {α : Type} {x : Option α} :
    x.isSome = false ↔ ∀ a, x = some a → False := by
  cases x <;> simp

/-- No demand on the treatment of metadata. -/
theorem transfer_iff {set : PolicySet} :
    (set.metadata.isSome || !set.allowOpaqueProfiles) = false ↔
      (∀ t, set.metadata = some t → False) ∧ (set.allowOpaqueProfiles = false → False) := by
  rw [Bool.or_eq_false_iff, isSome_eq_false_iff]
  simp

/-- No demand on the output. -/
theorem output_iff {set : PolicySet} : set.hasOutputRequirements = false ↔
    (∀ s, set.outputSchedule = some s → False) ∧ ∀ n, set.outputWaitLimit = some n → False := by
  rw [PolicySet.hasOutputRequirements, Bool.or_eq_false_iff, isSome_eq_false_iff,
    isSome_eq_false_iff]

/-- No demand on how the source is read. -/
theorem source_iff {set : PolicySet} :
    (set.maxSourcePasses.isSome || set.exactReplay || !set.allowRawMemoryStaging) = false ↔
      (∀ n, set.maxSourcePasses = some n → False) ∧ (set.exactReplay = true → False) ∧
        (set.allowRawMemoryStaging = false → False) := by
  rw [Bool.or_eq_false_iff, Bool.or_eq_false_iff, isSome_eq_false_iff]
  simp [and_assoc]

/-! ### Domain by domain -/

section Domains

variable {set : PolicySet}

/-- What a set permits in a domain, as the built-in policy reads it. -/
def Domain.Permits {T : Type} (set : PolicySet) (d : Domain T) (o : T) : Prop :=
  Admissible d [set] o ∧ d.Sited set o

theorem admissible_single {d : Domain T} {o : T} :
    Admissible d [set] o ↔ d.Defers o ∨ set.Meets d o := by
  simp [Admissible]

/-- Where nothing is known, nothing may be demanded. -/
theorem meets_silent {d : Domain T} {o : T} (hroute : d.isEncodeRoute = false)
    (hno : ∀ demand, ¬ d.Proves o demand) : set.Meets d o ↔
    ((set.metadata.isSome || !set.allowOpaqueProfiles) = false ∧
      set.workspaceLimit.isSome = false ∧ set.requireExtendedRange = false) ∧
    set.hasOutputRequirements = false ∧
    (set.maxSourcePasses.isSome || set.exactReplay || !set.allowRawMemoryStaging) = false := by
  rw [meets_iff, transfer_iff, output_iff, source_iff, isSome_eq_false_iff, hroute]
  simp only [hno]
  simp [and_assoc]

theorem selects_encodeRoute (declaration : EncodeDeclaration) (plan : EncodePlan)
    (job : EncodeEvidence) (c : Choices EncodeRouteOffer) (hfit : c.admitted < 2 ^ 64) :
    Selects (set.resolveBuiltin (.encodeRoute declaration plan job c)) c.iter
      (Domain.Permits set (.encodeRoute declaration plan job)) := by
  simp only [PolicySet.resolveBuiltin, PolicySet.knowsOutput, PolicySet.knowsRange,
    PolicySet.knowsSource, Bool.not_true, Bool.and_false, Bool.false_eq_true, if_false]
  refine (isPick_find? _ _).selects fun choice hchoice => ?_
  obtain ⟨-, hbit, hvalue⟩ := (Choices.mem_iter hfit).mp hchoice
  have hcheck := failuresOf_isEmpty (.encodeRoute declaration plan job) c.ticket set none
    (index_lt hfit hbit) hvalue
  exact hcheck.trans (and_iff_left trivial).symm

theorem selects_outputSchedule (c : Choices OutputScheduleOffer) :
    Selects (set.resolveBuiltin (.outputSchedule c)) c.iter
      (Domain.Permits set .outputSchedule) := by
  have hpermits (o : OutputScheduleOffer) : Domain.Permits set .outputSchedule o ↔
      ((set.metadata.isSome || !set.allowOpaqueProfiles) = false ∧
        set.workspaceLimit.isSome = false ∧ set.requireExtendedRange = false) ∧
      ((∀ s, set.outputSchedule = some s → o.schedule = s) ∧
        ∀ n, set.outputWaitLimit = some n → Within o.waitRetainedUpperBound n) ∧
      (set.maxSourcePasses.isSome || set.exactReplay || !set.allowRawMemoryStaging) = false := by
    rw [Domain.Permits, admissible_single, meets_iff, transfer_iff, source_iff,
      isSome_eq_false_iff]
    simp [Domain.Defers, Domain.Sited, Domain.Proves, OutputScheduleOffer.Proves,
      Domain.isEncodeRoute, and_assoc]
  simp only [PolicySet.resolveBuiltin, PolicySet.knowsOutput, PolicySet.knowsRange,
    PolicySet.knowsSource, Bool.not_true, Bool.not_false, Bool.and_false, Bool.and_true,
    Bool.false_eq_true, if_false]
  refine selects_guard (fun c _ hp => ((hpermits c.value).mp hp).1.2.2) fun hrange => ?_
  refine selects_guard (fun c _ hp => ((hpermits c.value).mp hp).2.2) fun hsource => ?_
  refine selects_guard (fun c _ hp => ?_) fun hother => ?_
  · have hset := ((hpermits c.value).mp hp).1
    rw [hset.1, hset.2.1]
    rfl
  · refine (isPick_find? _ _).selects fun choice _ => ?_
    rw [Bool.or_eq_false_iff] at hother
    rw [hpermits, Bool.and_eq_true, all_decide_eq_iff, all_within_iff]
    simp only [hrange, hsource, hother.1, hother.2, and_self, and_true, true_and]

theorem selects_imageConversion (c : Choices ImageConversionOffer) :
    Selects (set.resolveBuiltin (.imageConversion c)) c.iter
      (Domain.Permits set .imageConversion) := by
  have hpermits (o : ImageConversionOffer) : Domain.Permits set .imageConversion o ↔
      ((set.metadata.isSome || !set.allowOpaqueProfiles) = false ∧
        (∀ n, set.workspaceLimit = some n → Within o.workspaceUpperBound n) ∧
        (set.requireExtendedRange = true → o.preservesExtendedRange = true)) ∧
      set.hasOutputRequirements = false ∧
      (set.maxSourcePasses.isSome || set.exactReplay || !set.allowRawMemoryStaging) = false ∧
      set.PermitsSiting o.assumedChromaSiting := by
    rw [Domain.Permits, admissible_single, meets_iff, transfer_iff, output_iff, source_iff]
    simp [Domain.Defers, Domain.Sited, Domain.Proves, ImageConversionOffer.Proves,
      Domain.isEncodeRoute, and_assoc]
  simp only [PolicySet.resolveBuiltin, PolicySet.knowsOutput, PolicySet.knowsRange,
    PolicySet.knowsSource, Bool.not_true, Bool.not_false, Bool.and_false, Bool.and_true,
    Bool.false_eq_true, if_false]
  refine selects_guard (fun c _ hp => ((hpermits c.value).mp hp).2.1) fun houtput => ?_
  refine selects_guard (fun c _ hp => ((hpermits c.value).mp hp).2.2.1) fun hsource => ?_
  refine selects_guard (fun c _ hp => ((hpermits c.value).mp hp).1.1) fun hother => ?_
  refine (isPick_find? _ _).selects fun choice _ => ?_
  rw [hpermits, PolicySet.permitsConversion]
  rw [Bool.and_eq_true, Bool.and_eq_true, permitsSiting_iff, required_iff, all_within_iff]
  simp only [houtput, hsource, hother, true_and]
  tauto

theorem selects_frameRoute (c : Choices FrameRouteOffer) :
    Selects (set.resolveBuiltin (.frameRoute c)) c.iter (Domain.Permits set .frameRoute) := by
  have hpermits (o : FrameRouteOffer) : Domain.Permits set .frameRoute o ↔
      ((set.metadata.isSome || !set.allowOpaqueProfiles) = false ∧
        (∀ n, set.workspaceLimit = some n → Within o.workspaceUpperBound n) ∧
        (set.requireExtendedRange = true → o.Proves .extendedRange)) ∧
      ((∀ s, set.outputSchedule = some s →
          ∃ x, o.outputSchedule = some x ∧ x.Proves (.schedule s)) ∧
        ∀ n, set.outputWaitLimit = some n →
          ∃ x, o.outputSchedule = some x ∧ x.Proves (.outputWait n)) ∧
      (set.maxSourcePasses.isSome || set.exactReplay || !set.allowRawMemoryStaging) = false ∧
      ∀ conversion, o.conversion = some conversion →
        set.PermitsSiting conversion.assumedChromaSiting := by
    rw [Domain.Permits, admissible_single, meets_iff, transfer_iff, source_iff]
    simp [Domain.Defers, Domain.Sited, Domain.Proves, FrameRouteOffer.Proves,
      Domain.isEncodeRoute, and_assoc]
  have hroute (o : FrameRouteOffer) : set.permitsFrameRoute o = true ↔
      (∀ conversion, o.conversion = some conversion →
        set.PermitsSiting conversion.assumedChromaSiting) ∧
      (set.requireExtendedRange = true → o.Proves .extendedRange) ∧
      ((∀ s, set.outputSchedule = some s →
          ∃ x, o.outputSchedule = some x ∧ x.Proves (.schedule s)) ∧
        ∀ n, set.outputWaitLimit = some n →
          ∃ x, o.outputSchedule = some x ∧ x.Proves (.outputWait n)) ∧
      ∀ n, set.workspaceLimit = some n → Within o.workspaceUpperBound n := by
    rw [PolicySet.permitsFrameRoute, Bool.and_eq_true, Bool.and_eq_true, Bool.and_eq_true,
      permitsOutputSchedule_iff, all_within_iff, required_iff, and_assoc, and_assoc]
    refine and_congr ?_ (and_congr (imp_congr_right fun _ => ?_) Iff.rfl)
    · cases o.conversion <;> simp [PolicySet.PermitsSiting]
    · cases hc : o.conversion <;> simp [FrameRouteOffer.Proves, hc, and_comm]
  simp only [PolicySet.resolveBuiltin, PolicySet.knowsOutput, PolicySet.knowsRange,
    PolicySet.knowsSource, Bool.not_true, Bool.not_false, Bool.and_false, Bool.and_true,
    Bool.false_eq_true, if_false]
  refine selects_guard (fun c _ hp => ((hpermits c.value).mp hp).2.2.1) fun hsource => ?_
  refine selects_guard (fun c _ hp => ((hpermits c.value).mp hp).1.1) fun hother => ?_
  have hpick : ∀ c' ∈ c.iter, set.permitsFrameRoute c'.value = true ↔
      Domain.Permits set .frameRoute c'.value := fun c' _ => by
    rw [hroute, hpermits]
    simp only [hsource, hother, true_and]
    tauto
  split
  · exact ((isPick_firstPreferring _ _).prefer _).selects hpick
  · exact (isPick_head? _).selects hpick

theorem selects_transcode (c : Choices TranscodeOffer) :
    Selects (set.resolveBuiltin (.transcode c)) c.iter (Domain.Permits set .transcode) := by
  have hpermits (o : TranscodeOffer) : Domain.Permits set .transcode o ↔
      ((∀ t, set.metadata = some t → o.metadata = t) ∧
        (set.allowOpaqueProfiles = false → o.retainsOpaqueProfile = some false) ∧
        (∀ n, set.workspaceLimit = some n → Within o.workspaceUpperBound n) ∧
        set.requireExtendedRange = false) ∧
      ((∀ s, set.outputSchedule = some s →
          ∃ x, o.outputSchedule = some x ∧ x.Proves (.schedule s)) ∧
        ∀ n, set.outputWaitLimit = some n →
          ∃ x, o.outputSchedule = some x ∧ x.Proves (.outputWait n)) ∧
      (set.maxSourcePasses.isSome || set.exactReplay || !set.allowRawMemoryStaging) = false := by
    rw [Domain.Permits, admissible_single, meets_iff, source_iff]
    simp [Domain.Defers, Domain.Sited, Domain.Proves, TranscodeOffer.Proves,
      Domain.isEncodeRoute, and_assoc]
  simp only [PolicySet.resolveBuiltin, PolicySet.knowsOutput, PolicySet.knowsRange,
    PolicySet.knowsSource, Bool.not_true, Bool.not_false, Bool.and_false, Bool.and_true,
    Bool.false_eq_true, if_false]
  refine selects_guard (fun c _ hp => ((hpermits c.value).mp hp).1.2.2.2) fun hrange => ?_
  refine selects_guard (fun c _ hp => ((hpermits c.value).mp hp).2.2) fun hsource => ?_
  have hpick : ∀ c' ∈ c.iter, set.permitsTranscode c'.value = true ↔
      Domain.Permits set .transcode c'.value := fun c' _ => by
    have hopaque : (set.allowOpaqueProfiles || c'.value.retainsOpaqueProfile = some false) = true ↔
        (set.allowOpaqueProfiles = false → c'.value.retainsOpaqueProfile = some false) := by
      cases set.allowOpaqueProfiles <;> simp
    rw [hpermits, PolicySet.permitsTranscode, Bool.and_eq_true, Bool.and_eq_true,
      Bool.and_eq_true, permitsOutputSchedule_iff, all_decide_eq_iff, hopaque, all_within_iff]
    simp only [hrange, hsource, and_true]
    tauto
  split
  · exact (isPick_firstPreferring _ _).selects hpick
  · exact (isPick_head? _).selects hpick

/-- The questions that know nothing of their offers: publication and the choice of an encoder. -/
theorem selects_silent {d : Domain T} {c : Choices T} {x : Option (Choice T)}
    (hroute : d.isEncodeRoute = false) (hno : ∀ o demand, ¬ d.Proves o demand)
    (hdefers : ∀ o, ¬ d.Defers o) (hsited : ∀ o, d.Sited set o) (hx : IsPick x c.iter)
    (hresolve : set.resolveBuiltin (d.question c) =
      if set.hasOutputRequirements then .decline .unsupportedQuestion
      else if set.requireExtendedRange then .decline .unsupportedQuestion
      else if set.maxSourcePasses.isSome || set.exactReplay || !set.allowRawMemoryStaging then
        .decline .unsupportedQuestion
      else if set.metadata.isSome || !set.allowOpaqueProfiles || set.workspaceLimit.isSome then
        .decline .unsupportedQuestion
      else .ofChoice x .noPreferredChoice) :
    Selects (set.resolveBuiltin (d.question c)) c.iter (Domain.Permits set d) := by
  have hpermits (o : T) : Domain.Permits set d o ↔
      ((set.metadata.isSome || !set.allowOpaqueProfiles) = false ∧
        set.workspaceLimit.isSome = false ∧ set.requireExtendedRange = false) ∧
      set.hasOutputRequirements = false ∧
      (set.maxSourcePasses.isSome || set.exactReplay || !set.allowRawMemoryStaging) = false := by
    rw [Domain.Permits, admissible_single, meets_silent hroute (hno o), and_iff_left (hsited o),
      or_iff_right (hdefers o)]
  rw [hresolve]
  refine selects_guard (fun c _ hp => ((hpermits c.value).mp hp).2.1) fun houtput => ?_
  refine selects_guard (fun c _ hp => ((hpermits c.value).mp hp).1.2.2) fun hrange => ?_
  refine selects_guard (fun c _ hp => ((hpermits c.value).mp hp).2.2) fun hsource => ?_
  refine selects_guard (fun c _ hp => ?_) fun hother => ?_
  · have hset := ((hpermits c.value).mp hp).1
    rw [hset.1, hset.2.1]
    rfl
  · rw [Bool.or_eq_false_iff] at hother
    exact hx.selects_all fun c _ =>
      (hpermits c.value).mpr ⟨⟨hother.1, hother.2, hrange⟩, houtput, hsource⟩

theorem selects_encode (c : Choices EncodeOffer) :
    Selects (set.resolveBuiltin (.encode c)) c.iter (Domain.Permits set .encode) := by
  have hpick : IsPick (if set.preferLossless then
      PolicySet.firstPreferring c.iter fun o => o.fidelity = some .lossless else c.first)
      c.iter := by
    split
    · exact isPick_firstPreferring _ _
    · exact isPick_head? _
  refine selects_silent (d := .encode) rfl (fun _ _ h => h) (fun _ h => h) (fun _ => trivial)
    hpick ?_
  simp [PolicySet.resolveBuiltin, Domain.question, PolicySet.knowsOutput, PolicySet.knowsRange,
    PolicySet.knowsSource]

theorem selects_publication {d : Domain PublicationOffer} (hd : d = .image ∨ d = .frame)
    (c : Choices PublicationOffer) :
    Selects (set.resolveBuiltin (d.question c)) c.iter (Domain.Permits set d) := by
  rcases hd with rfl | rfl
  all_goals
    refine selects_silent rfl (fun _ _ h => h) (fun _ h => h) (fun _ => trivial)
      (isPick_head? _) ?_
    simp [PolicySet.resolveBuiltin, Domain.question, PolicySet.knowsOutput, PolicySet.knowsRange,
      PolicySet.knowsSource, Choices.first]

theorem unproven_iff : set.unproven = false ↔
    ((set.metadata.isSome || !set.allowOpaqueProfiles) = false ∧
      set.workspaceLimit.isSome = false ∧ set.requireExtendedRange = false) ∧
    set.hasOutputRequirements = false ∧
    (set.maxSourcePasses.isSome || set.exactReplay || !set.allowRawMemoryStaging) = false := by
  simp only [PolicySet.unproven, PolicySet.hasOutputRequirements, Bool.or_eq_false_iff, and_assoc]

theorem selects_boundary (c : Choices BoundaryOffer) :
    Selects (set.resolveBuiltin (.boundary c)) c.iter (Domain.Permits set .boundary) := by
  simp only [PolicySet.resolveBuiltin, PolicySet.knowsOutput, PolicySet.knowsRange,
    PolicySet.knowsSource, Bool.not_true, Bool.and_false, Bool.false_eq_true, if_false]
  refine (isPick_find? _ _).selects fun choice _ => ?_
  rw [Domain.Permits, admissible_single, meets_silent (d := .boundary) rfl (fun _ h => h),
    ← unproven_iff, and_iff_left (show Domain.Sited set .boundary choice.value from trivial),
    Bool.or_eq_true, Bool.not_eq_true', decide_eq_true_eq]
  exact or_comm

end Domains

/-- The built-in policy and the admission check agree, in every domain and on all choices. -/
theorem selects_resolveBuiltin (set : PolicySet) (d : Domain T) {c : Choices T}
    (hfit : c.admitted < 2 ^ 64) :
    Selects (set.resolveBuiltin (d.question c)) c.iter (Domain.Permits set d) := by
  cases d with
  | encodeRoute declaration plan job => exact selects_encodeRoute declaration plan job c hfit
  | outputSchedule => exact selects_outputSchedule c
  | imageConversion => exact selects_imageConversion c
  | frameRoute => exact selects_frameRoute c
  | image => exact selects_publication (.inl rfl) c
  | frame => exact selects_publication (.inr rfl) c
  | transcode => exact selects_transcode c
  | boundary => exact selects_boundary c
  | encode => exact selects_encode c

/-- A single offer is selected if and only if it leaves no requirement unmet, and its siting is
permitted; of any offers one is selected when there is such a one, and only such a one. -/
theorem builtin_agrees (set : PolicySet) (d : Domain T) (ticket : ℕ) (offers : List T) {mask : ℕ}
    (hmask : mask < 2 ^ 64) :
    (∀ i o, i < 64 → offers[i]? = some o →
      (set.resolveBuiltin (d.single ticket offers i) = .choose ⟨ticket, i⟩ ↔
        (set.unmet (d.single ticket offers i)).isEmpty = true ∧ d.Sited set o)) ∧
    ((∃ c ∈ (Choices.mk ticket offers mask).iter,
        (set.unmet (d.single ticket offers c.id.index)).isEmpty = true ∧ d.Sited set c.value) →
      ∃ id, set.resolveBuiltin (d.question ⟨ticket, offers, mask⟩) = .choose id) ∧
    ∀ id, set.resolveBuiltin (d.question ⟨ticket, offers, mask⟩) = .choose id →
      ∃ c ∈ (Choices.mk ticket offers mask).iter, c.id = id ∧
        (set.unmet (d.single ticket offers c.id.index)).isEmpty = true ∧ d.Sited set c.value := by
  have hcheck {i : ℕ} {o : T} (hi : i < 64) (ho : offers[i]? = some o) :
      (set.unmet (d.single ticket offers i)).isEmpty = true ↔ Admissible d [set] o :=
    failuresOf_isEmpty d ticket set none hi ho
  have hshown {m : ℕ} (hm : m < 2 ^ 64) {c : Choice T} (hc : c ∈ (Choices.mk ticket offers m).iter) :
      (set.unmet (d.single ticket offers c.id.index)).isEmpty = true ↔
        Admissible d [set] c.value := by
    obtain ⟨-, hbit, hvalue⟩ := (Choices.mem_iter hm).mp hc
    exact hcheck (index_lt hm hbit) hvalue
  have hall := selects_resolveBuiltin set d (c := ⟨ticket, offers, mask⟩) hmask
  refine ⟨fun i o hi ho => ?_, fun ⟨c, hc, hempty, hsited⟩ => hall.complete
    ⟨c, hc, (hshown hmask hc).mp hempty, hsited⟩, fun id hid => ?_⟩
  · have hone : 1 <<< i < 2 ^ 64 := by
      rw [Nat.one_shiftLeft]
      exact Nat.pow_lt_pow_right (by omega) hi
    have hsingle := selects_resolveBuiltin set d (c := ⟨ticket, offers, 1 <<< i⟩) hone
    have hiter : ∀ c ∈ (Choices.mk ticket offers (1 <<< i)).iter, c = ⟨⟨ticket, i⟩, o⟩ :=
      fun c hc => Choices.eq_of_single hi ho hc
    have hmem : (⟨⟨ticket, i⟩, o⟩ : Choice T) ∈ (Choices.mk ticket offers (1 <<< i)).iter :=
      Choices.first_mem (Choices.first_single hi rfl ho)
    rw [hcheck hi ho]
    constructor
    · intro hchoose
      obtain ⟨c, hc, -, hp⟩ := hsingle.sound _ hchoose
      rw [hiter c hc] at hp
      exact hp
    · intro hp
      obtain ⟨id, hid⟩ := hsingle.complete ⟨_, hmem, hp⟩
      obtain ⟨c, hc, rfl, -⟩ := hsingle.sound id hid
      rw [hiter c hc] at hid
      exact hid
  · obtain ⟨c, hc, heq, hp⟩ := hall.sound id hid
    exact ⟨c, hc, heq, (hshown hmask hc).mpr hp.1, hp.2⟩

/-- Of two transcodes, within a workspace of 8, the one with a known bound is selected. -/
theorem builtin_agrees_workspace :
    ∃ id, PolicySet.resolveBuiltin { workspaceLimit := some 8 }
      (Domain.transcode.question ⟨0, [⟨⟨none⟩, .discardDescriptive, none, none, none⟩,
        ⟨⟨none⟩, .discardDescriptive, none, some 8, none⟩], 3⟩) = .choose id := by
  obtain ⟨-, hsome, -⟩ := builtin_agrees { workspaceLimit := some 8 } .transcode 0
    [⟨⟨none⟩, .discardDescriptive, none, none, none⟩,
      ⟨⟨none⟩, .discardDescriptive, none, some 8, none⟩] (by decide : 3 < 2 ^ 64)
  exact hsome ⟨⟨⟨0, 1⟩, ⟨⟨none⟩, .discardDescriptive, none, some 8, none⟩⟩,
    by rw [Choices.mem_iter (by decide)]; decide, by decide, trivial⟩

end Zencodec.Operation
