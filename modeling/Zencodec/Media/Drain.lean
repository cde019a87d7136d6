/-
Staged encoding is all or nothing.

`Encoding tr q t` says that a running operation has only let packets out of the encoder since
the trace `tr`, and that exactly these, `q`, are staged. Every part of a push and the drain of
`finish` keep it; `run_pushes` says so of every run of pushes, and `staged_all_or_nothing` of
the whole operation.
-/
import Zencodec.Lib.Runs
import Zencodec.Media.Publish

open Zencodec.Incremental Zencodec.Session

namespace Zencodec.Media

variable {Ω ε φ ι τ κ ν ρ ϱ : Type}

/-- The packets of `q` were emitted, and nothing else happened since `tr`. -/
def Emitted (tr : List Event) (q : List (Packet (List UInt8))) (trace : List Event) : Prop :=
  trace = tr ++ q.map Event.emitted

theorem Emitted.snoc {tr trace : List Event} {q : List (Packet (List UInt8))}
    (h : Emitted tr q trace) (p : Packet (List UInt8)) :
    Emitted tr (q ++ [p]) (trace ++ [.emitted p]) := by
  unfold Emitted at h ⊢
  rw [h, List.map_append, List.append_assoc]
  rfl

/-- Only packets of the encoder were let out since `tr`. -/
def OnlyEmitted (tr trace : List Event) : Prop := ∃ q, Emitted tr q trace

/-- What the encoder emitted since `tr` is what is staged. -/
def Encoding (tr : List Event) (q : List (Packet (List UInt8))) (t : Running Ω φ κ ν ρ ε) : Prop :=
  Emitted tr q t.2.2.2.2 ∧ t.2.2.1.packets.Holds q

/-- `x` keeps what was emitted staged; when it fails, it has only let packets out. -/
def Encodes (tr : List Event) (x : Act (Running Ω φ κ ν ρ ε) (EncodeCause ε) Unit) : Prop :=
  ∀ q t, Encoding tr q t →
    Act.Spec x (fun _ u => ∃ q', Encoding tr q' u) (fun _ u => OnlyEmitted tr u.2.2.2.2) t

@[simp] theorem spec_inWorld {α : Type} (x : Act (Traced Ω) (EncodeCause ε) α)
    {Q : α → Running Ω φ κ ν ρ ε → Prop} {E : EncodeCause ε → Running Ω φ κ ν ρ ε → Prop}
    {t : Running Ω φ κ ν ρ ε} : Act.Spec (inWorld x) Q E t ↔
      Act.Spec x (fun a w => Q a (t.1, t.2.1, t.2.2.1, w)) (fun e w => E e (t.1, t.2.1, t.2.2.1, w))
        t.2.2.2 :=
  Act.spec_focus _ _ _

/-- A foreign call moves the world and is not recorded. -/
theorem spec_unseen {α δ : Type} (f : δ → EncodeCause ε) (x : Act Ω δ α)
    {Q : α → Running Ω φ κ ν ρ ε → Prop} {E : EncodeCause ε → Running Ω φ κ ν ρ ε → Prop}
    {t : Running Ω φ κ ν ρ ε} (hQ : ∀ a w, Q a (t.1, t.2.1, t.2.2.1, w, t.2.2.2.2))
    (hE : ∀ e w, E e (t.1, t.2.1, t.2.2.1, w, t.2.2.2.2)) :
    Act.Spec (inWorld (untraced (Act.mapError f x))) Q E t := by
  simp only [spec_inWorld, spec_untraced, Act.spec_mapError]
  exact spec_any (fun a w => hQ a w) (fun e w => hE _ w)

theorem spec_pulseCheck (pulse : Pulse Ω) {Q : Unit → Running Ω φ κ ν ρ ε → Prop}
    {E : EncodeCause ε → Running Ω φ κ ν ρ ε → Prop} {t : Running Ω φ κ ν ρ ε}
    (hQ : ∀ w, Q () (t.1, t.2.1, t.2.2.1, w, t.2.2.2.2))
    (hE : ∀ e w, E e (t.1, t.2.1, t.2.2.1, w, t.2.2.2.2)) :
    Act.Spec (inWorld (pulseCheck pulse)) Q E t :=
  spec_unseen _ _ (fun _ w => hQ w) hE

/-- A packet that the encoder lets out is recorded. -/
theorem spec_receive (encoder : VideoEncoder Ω φ ν ε) (pulse : Option (Pulse Ω))
    {Q : Receive (Packet PacketPayload) → Traced Ω → Prop} {E : EncodeCause ε → Traced Ω → Prop}
    {t : Traced Ω} (hready : ∀ p w, Q (.ready p) (w, t.2 ++ [.emitted p.contents]))
    (hneed : ∀ w, Q .needInput (w, t.2)) (hend : ∀ w, Q .endOfStream (w, t.2))
    (hE : ∀ e w, E e (w, t.2)) : Act.Spec (receive encoder pulse) Q E t := by
  unfold Act.Spec receive
  generalize Act.mapError EncodeCause.session (encoder.receive pulse) t.1 = p
  obtain ⟨r, w⟩ := p
  cases r with
  | error e => exact hE e w
  | ok r =>
    cases r with
    | ready p => exact hready p w
    | needInput => exact hneed w
    | endOfStream => exact hend w

/-- A packet that was let out and is not staged yet is staged, or the operation fails. -/
theorem spec_stagePacket (host : Host Ω) (packet : Packet PacketPayload) (pulse : Pulse Ω)
    {tr : List Event} {q : List (Packet (List UInt8))} {t : Running Ω φ κ ν ρ ε}
    (hemitted : Emitted tr (q ++ [packet.contents]) t.2.2.2.2) (hheld : t.2.2.1.packets.Holds q) :
    Act.Spec (stagePacket host packet pulse)
      (fun _ u => Encoding tr (q ++ [packet.contents]) u) (fun _ u => OnlyEmitted tr u.2.2.2.2)
      t := by
  simp only [stagePacket, Act.spec_bind, Act.spec_get, Act.spec_lift, Act.spec_require,
    Act.spec_focus, Act.spec_mapError]
  have hfail : OnlyEmitted tr t.2.2.2.2 := ⟨_, hemitted⟩
  refine ⟨fun _ _ => ⟨fun _ => ?_, fun _ => hfail⟩, fun _ _ => hfail⟩
  exact (Staging.spec_push hheld host packet pulse).mono (fun _ _ hp => ⟨hemitted, hp⟩)
    (fun _ _ _ => hfail)

theorem encodes_sendLoop (host : Host Ω) (frame : φ) (pulse : Option (Pulse Ω))
    (localPulse : Pulse Ω) (tr : List Event) (fuel : ℕ) :
    Encodes tr (sendLoop (κ := κ) (ν := ν) (ρ := ρ) (ε := ε) host frame pulse localPulse fuel) := by
  induction fuel with
  | zero => exact fun q t h => ⟨q, h.1⟩
  | succ fuel ih =>
    intro q t h
    simp only [sendLoop, Act.spec_bind, Act.spec_get]
    refine spec_pulseCheck _ (fun w => ?_) (fun _ w => ⟨q, h.1⟩)
    refine spec_unseen _ _ (fun status w => ?_) (fun _ w => ⟨q, h.1⟩)
    cases status with
    | accepted => exact ⟨q, h⟩
    | receivePending =>
      simp only [Act.spec_bind, spec_inWorld]
      refine spec_receive _ _ (fun p w => ?_) (fun w => ⟨q, h.1⟩) (fun w => ⟨q, h.1⟩)
        (fun _ w => ⟨q, h.1⟩)
      simp only [Act.spec_bind]
      exact (spec_stagePacket host p localPulse
        (t := (t.1, t.2.1, t.2.2.1, w, t.2.2.2.2 ++ [.emitted p.contents])) (h.1.snoc _) h.2).mono
        (fun _ u hu => ih _ u hu) (fun _ _ he => he)

theorem encodes_receiveLoop (host : Host Ω) (atEnd : Bool) (pulse : Option (Pulse Ω))
    (localPulse : Pulse Ω) (tr : List Event) (fuel : ℕ) :
    Encodes tr (receiveLoop (φ := φ) (κ := κ) (ν := ν) (ρ := ρ) (ε := ε) host atEnd pulse localPulse
      fuel) := by
  induction fuel with
  | zero => exact fun q t h => ⟨q, h.1⟩
  | succ fuel ih =>
    intro q t h
    simp only [receiveLoop, Act.spec_bind, Act.spec_get]
    refine spec_pulseCheck _ (fun w => ?_) (fun _ w => ⟨q, h.1⟩)
    rw [spec_inWorld]
    refine spec_receive _ _ (fun p w => ?_) (fun w => ?_) (fun w => ?_) (fun _ w => ⟨q, h.1⟩)
    · simp only [Act.spec_bind]
      exact (spec_stagePacket host p localPulse
        (t := (t.1, t.2.1, t.2.2.1, w, t.2.2.2.2 ++ [.emitted p.contents])) (h.1.snoc _) h.2).mono
        (fun _ u hu => ih _ u hu) (fun _ _ he => he)
    · cases atEnd
      · exact ⟨q, h⟩
      · exact ⟨q, h.1⟩
    · cases atEnd
      · exact ⟨q, h.1⟩
      · exact ⟨q, h⟩

theorem spec_checkConfiguration [DecidableEq ν] {Q : Unit → Running Ω φ κ ν ρ ε → Prop}
    {E : EncodeCause ε → Running Ω φ κ ν ρ ε → Prop} {t : Running Ω φ κ ν ρ ε} (hQ : Q () t)
    (hE : ∀ e, E e t) : Act.Spec checkConfiguration Q E t := by
  simp only [checkConfiguration, Act.spec_bind, Act.spec_get, Act.spec_require]
  exact ⟨fun _ => hQ, fun _ => hE _⟩

/-- A push stages what the encoder lets out. -/
theorem encodes_pushRun [DecidableEq κ] [DecidableEq ι] [DecidableEq τ] [DecidableEq ν]
    (s : Surroundings Ω φ ι τ κ) (policy : Policy Ω κ ν ϱ ρ ε) (preset : ϱ)
    (policyChanged : Bool) (input : φ) (target : ι) (conversion : FrameConversionOffer κ)
    (execute : φ → Act Ω ε φ) (pulse : Option (Pulse Ω)) (tr : List Event) :
    Encodes tr
      (pushRun s policy preset policyChanged input target conversion execute pulse) := by
  intro q t h
  have hfail : OnlyEmitted tr t.2.2.2.2 := ⟨q, h.1⟩
  simp only [pushRun, Act.spec_bind, Act.spec_get, Act.spec_require, enterStage]
  refine spec_pulseCheck _ (fun w => ?_) (fun _ w => hfail)
  refine ⟨fun _ => ⟨fun _ => ⟨fun _ => ?_, fun _ => hfail⟩, fun _ => hfail⟩, fun _ => hfail⟩
  -- the decision of the policy
  rw [spec_inWorld, spec_untraced, Act.spec_attempt]
  refine spec_any (fun decision w => ?_) (fun decision w => ?_)
  swap
  · simp only [record, Act.spec_bind, Act.spec_modify, Act.spec_fail]
    exact hfail
  simp only [record, Act.spec_bind, Act.spec_modify, Act.spec_require]
  -- the conversion
  refine spec_unseen _ _ (fun converted w => ?_) (fun _ w => hfail)
  refine spec_pulseCheck _ (fun w => ⟨fun _ => ?_, fun _ => hfail⟩) (fun _ w => hfail)
  -- the encoder
  refine (encodes_sendLoop s.host converted pulse _ tr s.fuel q
    (.encode, t.2.1.record decision, t.2.2.1, w, t.2.2.2.2) h).mono (fun _ u hu => ?_)
    (fun _ _ he => he)
  obtain ⟨q₁, h₁⟩ := hu
  refine (encodes_receiveLoop s.host false pulse _ tr s.fuel q₁ u h₁).mono (fun _ v hv => ?_)
    (fun _ _ he => he)
  obtain ⟨q₂, h₂⟩ := hv
  refine spec_checkConfiguration ?_ (fun _ => ⟨q₂, h₂.1⟩)
  exact spec_pulseCheck _ (fun w => ⟨q₂, h₂⟩) (fun _ w => ⟨q₂, h₂.1⟩)

/-- The drain of `finish` stages what the encoder still lets out. -/
theorem encodes_finishRun [DecidableEq ν] (s : Surroundings Ω φ ι τ κ) (policyChanged : Bool)
    (pulse : Option (Pulse Ω)) (tr : List Event) :
    Encodes tr (finishRun (ν := ν) (ρ := ρ) (ε := ε) s policyChanged pulse) := by
  intro q t h
  simp only [finishRun, Act.spec_bind, Act.spec_get, Act.spec_require]
  refine spec_pulseCheck _ (fun w => ?_) (fun _ w => ⟨q, h.1⟩)
  refine ⟨fun _ => ⟨fun _ => ?_, fun _ => ⟨q, h.1⟩⟩, fun _ => ⟨q, h.1⟩⟩
  refine spec_unseen _ _ (fun _ w' => ?_) (fun _ w => ⟨q, h.1⟩)
  refine (encodes_receiveLoop s.host true pulse _ tr s.fuel q
    (t.1, t.2.1, t.2.2.1, w', t.2.2.2.2) h).mono (fun _ v hv => ?_)
    (fun _ _ he => he)
  obtain ⟨q₂, h₂⟩ := hv
  refine spec_checkConfiguration ?_ (fun _ => ⟨q₂, h₂.1⟩)
  exact spec_pulseCheck _ (fun w => ⟨q₂, h₂⟩) (fun _ w => ⟨q₂, h₂.1⟩)


/-! ### Runs of operations -/

/-- What a caller may do with an operation before `finish`; `outside` is the world moving on
its own. -/
inductive EncodeOp (Ω φ ι κ ϱ ε : Type) where
  | converted (input : φ) (target : ι) (conversion : FrameConversionOffer κ)
    (execute : φ → Act Ω ε φ) (pulse : Option (Pulse Ω))
  | frame (input : φ) (pulse : Option (Pulse Ω))
  | policySet (preset : ϱ)
  | outside (f : Ω → Ω)

/-- One operation; a push answers how it ended. -/
def encodeStep [DecidableEq κ] [DecidableEq ι] [DecidableEq τ] [DecidableEq ν]
    (s : Surroundings Ω φ ι τ κ) (t : StagedEncode Ω φ κ ν ϱ ρ ε × Traced Ω) :
    EncodeOp Ω φ ι κ ϱ ε →
      Option (Except (EncodeFailure ε ρ) Unit) × (StagedEncode Ω φ κ ν ϱ ρ ε × Traced Ω)
  | .converted input target conversion execute pulse =>
    let (r, t) := StagedEncode.pushConverted s input target conversion execute pulse t
    (some r, t)
  | .frame input pulse =>
    let (r, t) := StagedEncode.push s input pulse t
    (some r, t)
  | .policySet preset => (none, t.1.withPolicySet preset, t.2)
  | .outside f => (none, t.1, f t.2.1, t.2.2)

/-- While the operation lives, what was emitted since `tr` is staged. In any case nothing but
emissions happened. -/
def JobHolds (tr : List Event) (t : StagedEncode Ω φ κ ν ϱ ρ ε × Traced Ω) : Prop :=
  OnlyEmitted tr t.2.2 ∧ ∀ state, t.1.state = some state →
    ∃ q, Emitted tr q t.2.2 ∧ state.packets.Holds q

section Steps

variable [DecidableEq κ] [DecidableEq ι] [DecidableEq τ] [DecidableEq ν]
  (s : Surroundings Ω φ ι τ κ)

/-- A push keeps what was emitted staged, and a push that fails ends the operation. -/
theorem jobHolds_pushConverted {tr : List Event} {t : StagedEncode Ω φ κ ν ϱ ρ ε × Traced Ω}
    (h : JobHolds tr t) (input : φ) (target : ι) (conversion : FrameConversionOffer κ)
    (execute : φ → Act Ω ε φ) (pulse : Option (Pulse Ω)) :
    JobHolds tr (StagedEncode.pushConverted s input target conversion execute pulse t).2 ∧
      ∀ e, (StagedEncode.pushConverted s input target conversion execute pulse t).1 = .error e →
        (StagedEncode.pushConverted s input target conversion execute pulse t).2.1.state = none := by
  obtain ⟨⟨state, policy, preset, report, changed⟩, w⟩ := t
  cases state with
  | none => exact ⟨⟨h.1, fun _ hs => by cases hs⟩, fun _ _ => rfl⟩
  | some state =>
    obtain ⟨q, hq, hheld⟩ := h.2 state rfl
    have hrun := (encodes_pushRun s policy preset changed input target conversion execute pulse tr
      q (.policy, report, state, w) ⟨hq, hheld⟩).run
    unfold StagedEncode.pushConverted
    simp only
    generalize pushRun s policy preset changed input target conversion execute pulse
      (.policy, report, state, w) = p at hrun
    obtain ⟨r, stage, report', state', w'⟩ := p
    cases r with
    | ok u =>
      obtain ⟨q', hemitted, hheld'⟩ := hrun.1 u rfl
      refine ⟨⟨⟨q', hemitted⟩, fun st hst => ?_⟩, fun e he => by cases he⟩
      obtain rfl := Option.some.inj hst
      exact ⟨q', hemitted, hheld'⟩
    | error e => exact ⟨⟨hrun.2 e rfl, fun _ hs => by cases hs⟩, fun _ _ => rfl⟩

/-- Every operation keeps what was emitted staged, and one that fails ends the whole. -/
theorem jobHolds_step {tr : List Event} {t : StagedEncode Ω φ κ ν ϱ ρ ε × Traced Ω}
    (h : JobHolds tr t) (op : EncodeOp Ω φ ι κ ϱ ε) :
    JobHolds tr (encodeStep s t op).2 ∧
      ∀ e, (encodeStep s t op).1 = some (.error e) → (encodeStep s t op).2.1.state = none := by
  cases op with
  | converted input target conversion execute pulse =>
    obtain ⟨hholds, hfail⟩ := jobHolds_pushConverted s h input target conversion execute pulse
    exact ⟨hholds, fun e he => hfail e (Option.some.inj he)⟩
  | frame input pulse =>
    obtain ⟨hholds, hfail⟩ := jobHolds_pushConverted s h input (s.view.interpretation input)
      { encoderInput := s.view.of input, preservesSamples := true, preservesExtendedRange := true }
      pure pulse
    exact ⟨hholds, fun e he => hfail e (Option.some.inj he)⟩
  | policySet preset => exact ⟨h, fun e he => by cases he⟩
  | outside f => exact ⟨h, fun e he => by cases he⟩

/-- Once the operation has failed it stays failed, and no push does anything. -/
theorem failed_step {t : StagedEncode Ω φ κ ν ϱ ρ ε × Traced Ω} (h : t.1.state = none)
    (op : EncodeOp Ω φ ι κ ϱ ε) :
    (encodeStep s t op).2.1.state = none ∧ (encodeStep s t op).2.2.2 = t.2.2 ∧
      ∀ r, (encodeStep s t op).1 = some r → ∃ e, r = .error e := by
  obtain ⟨⟨state, policy, preset, report, changed⟩, w⟩ := t
  obtain rfl : state = none := h
  cases op with
  | converted input target conversion execute pulse =>
    exact ⟨rfl, rfl, fun r hr => ⟨_, (Option.some.inj hr).symm⟩⟩
  | frame input pulse => exact ⟨rfl, rfl, fun r hr => ⟨_, (Option.some.inj hr).symm⟩⟩
  | policySet preset => exact ⟨rfl, rfl, fun r hr => by cases hr⟩
  | outside f => exact ⟨rfl, rfl, fun r hr => by cases hr⟩

end Steps

/-- `finish` fails without a trace in the destination, or while it publishes, or it delivers
all that was emitted and then the end of the stream. -/
theorem spec_finish [DecidableEq ν] (s : Surroundings Ω φ ι τ κ) {tr : List Event} {t : StagedEncode Ω φ κ ν ϱ ρ ε × Traced Ω}
    (h : JobHolds tr t) (pulse : Option (Pulse Ω)) :
    Act.Spec (StagedEncode.finish s pulse)
      (fun _ u => ∃ (q : List (Packet (List UInt8))) (added last : List Event),
        u.2.2 = tr ++ q.map Event.emitted ++ added ++ last ∧ Delivers
          (q.map MuxCall.packet ++ [.finish]) added ∧ Quiet last)
      (fun e u => e.stage ≠ .publish → OnlyEmitted tr u.2.2) t := by
  obtain ⟨⟨state, policy, preset, report, changed⟩, w⟩ := t
  cases state with
  | none => exact fun _ => h.1
  | some state =>
    obtain ⟨q, hq, hheld⟩ := h.2 state rfl
    have hrun := (encodes_finishRun s changed pulse tr q (.finish, report, state, w) ⟨hq, hheld⟩).run
    unfold Act.Spec StagedEncode.finish
    simp only
    generalize finishRun s changed pulse (.finish, report, state, w) = p at hrun
    obtain ⟨r, stage, report', state', w', trace⟩ := p
    cases r with
    | error e => exact fun _ => hrun.2 e rfl
    | ok u =>
      obtain ⟨q', hemitted, hheld'⟩ := hrun.1 u rfl
      have hpublish := (delivers_publishRun pulse s.noPulse s.fuel hheld' 0 state'.output w'
        trace).run
      simp only
      generalize publishRun pulse s.noPulse s.fuel (state'.packets, 0, state'.output, w', trace) = p
        at hpublish
      obtain ⟨r, packets, emitted, output, w'', trace'⟩ := p
      cases r with
      | error e => exact fun hne => absurd rfl hne
      | ok stats =>
        obtain ⟨added, last, htrace, hdel, hquiet⟩ := hpublish.1 stats rfl
        refine ⟨q', added, last, ?_, hdel, hquiet⟩
        rw [← show trace = tr ++ q'.map Event.emitted from hemitted]
        exact htrace

/-! ### The whole operation -/

/-- A staging as its constructors make it. -/
def Staging.Fresh (staging : Staging Ω ε) : Prop :=
  (∃ budget, staging = Staging.memory budget) ∨
    ∃ file limits replay w w', Staging.disk file limits replay w = (.ok staging, w')

theorem Staging.Fresh.holds {staging : Staging Ω ε} (h : staging.Fresh) : staging.Holds [] := by
  rcases h with ⟨budget, rfl⟩ | ⟨file, limits, replay, w, w', h⟩
  · exact Staging.memory_holds budget
  · exact Staging.disk_holds h

/-- Preparing an operation leaves no trace. -/
theorem spec_withStaging (s : Surroundings Ω φ ι τ κ) (encoder : VideoEncoder Ω φ ν ε)
    (mux : Muxer Ω ε) (destination : Destination Ω ε) (policy : Policy Ω κ ν ϱ ρ ε) (preset : ϱ)
    {staging : Staging Ω ε} (hfresh : staging.Fresh) (pulse : Option (Pulse Ω)) (t : Traced Ω) :
    Act.Spec (StagedEncode.withStaging s encoder mux destination policy preset staging pulse)
      (fun job u => JobHolds t.2 (job, u) ∧ u.2 = t.2) (fun _ u => u.2 = t.2) t := by
  obtain ⟨w, trace⟩ := t
  simp only [StagedEncode.withStaging, PreparedOutput.new, stopped, pulseCheck, Act.spec_bind,
    Act.spec_mapError, spec_untraced, Act.spec_get, Act.spec_getOr, Act.spec_require, Act.spec_pure]
  refine spec_any (fun _ w => ?_) (fun _ _ => trivial)
  refine spec_any (fun _ w => ?_) (fun _ _ => trivial)
  refine ⟨fun config _ => ⟨fun video _ => ⟨fun _ => ?_, fun _ => trivial⟩, fun _ => trivial⟩, fun _ => trivial⟩
  refine spec_any (fun _ w => ?_) (fun _ _ => trivial)
  refine spec_any (fun timing w => ⟨fun _ => ?_, fun _ => trivial⟩) (fun _ _ => trivial)
  refine spec_any (fun _ w => ?_) (fun _ _ => trivial)
  have hnone : Emitted trace [] trace := (List.append_nil _).symm
  refine ⟨⟨⟨[], hnone⟩, fun state hstate => ⟨[], hnone, ?_⟩⟩, trivial⟩
  obtain rfl := Option.some.inj hstate
  exact hfresh.holds

/-- **Staged encoding is all or nothing.** An operation is prepared on an empty trace and gets
any operations before `finish`.

* Until then the trace has emissions of the encoder only: neither the muxer nor the
  destination was given anything.
* A push that fails ends the operation: every later push fails, and so does `finish`, and
  none of them leaves a trace.
* If `finish` succeeds, the muxer got exactly the packets that the encoder emitted, each once
  and in that order, then the end of the stream, and the destination took all the bytes that
  the muxer handed out meanwhile, in order; patches and the flush come last.
* If `finish` fails before it publishes, the destination was given nothing. -/
theorem staged_all_or_nothing [DecidableEq κ] [DecidableEq ι] [DecidableEq τ] [DecidableEq ν]
    (s : Surroundings Ω φ ι τ κ) (encoder : VideoEncoder Ω φ ν ε) (mux : Muxer Ω ε)
    (destination : Destination Ω ε) (policy : Policy Ω κ ν ϱ ρ ε) (preset : ϱ)
    (staging : Staging Ω ε) (hfresh : staging.Fresh) (pulse : Option (Pulse Ω)) (w w₀ : Ω)
    (trace : List Event) (job : StagedEncode Ω φ κ ν ϱ ρ ε)
    (hnew : StagedEncode.withStaging s encoder mux destination policy preset staging pulse (w, [])
      = (.ok job, w₀, trace)) (ops : List (EncodeOp Ω φ ι κ ϱ ε)) (pulse' : Option (Pulse Ω)) :
    let run := Runs.final (encodeStep s) (job, w₀, trace) ops
    (∃ q : List (Packet (List UInt8)), run.2.2 = q.map Event.emitted) ∧
    ((∃ e, some (.error e) ∈ Runs.outputs (encodeStep s) (job, w₀, trace) ops) →
      run.1.state = none) ∧
    (run.1.state = none →
      (∀ op, (encodeStep s run op).2.1.state = none ∧ (encodeStep s run op).2.2.2 = run.2.2 ∧
        ∀ r, (encodeStep s run op).1 = some r → ∃ e, r = .error e) ∧
      ∃ e, StagedEncode.finish s pulse' run = (.error e, run)) ∧
    (∀ completed t, StagedEncode.finish s pulse' run = (.ok completed, t) →
      ∃ (q : List (Packet (List UInt8))) (added last : List Event),
        t.2.2 = q.map Event.emitted ++ added ++ last ∧
        Delivers (q.map MuxCall.packet ++ [.finish]) added ∧ Quiet last) ∧
    (∀ e t, StagedEncode.finish s pulse' run = (.error e, t) → e.stage ≠ .publish →
      ∃ q : List (Packet (List UInt8)), t.2.2 = q.map Event.emitted) := by
  intro run
  have hstart : JobHolds [] (job, w₀, trace) := by
    have := (spec_withStaging s encoder mux destination policy preset hfresh pulse (w, [])).run.1
      job (by rw [hnew])
    rw [hnew] at this
    exact this.1
  -- every operation keeps the invariant, and a failure once it has happened
  have hstep : Runs.Preserved (encodeStep s) (fun _ => True)
      (fun t : StagedEncode Ω φ κ ν ϱ ρ ε × Traced Ω => JobHolds [] t) :=
    fun t op _ ht => (jobHolds_step s ht op).1
  have hinv : JobHolds [] run := Runs.final_of_preserved hstep (fun _ _ => trivial) hstart
  have hfailed : (∃ e, some (.error e) ∈ Runs.outputs (encodeStep s) (job, w₀, trace) ops) →
      run.1.state = none := by
    rintro ⟨e, he⟩
    obtain ⟨pre, op, post, rfl, hop⟩ := Runs.mem_outputs he
    have hpre : JobHolds [] (Runs.final (encodeStep s) (job, w₀, trace) pre) :=
      Runs.final_of_preserved hstep (fun _ _ => trivial) hstart
    have hnone := (jobHolds_step s hpre op).2 e hop
    have hrest : Runs.Preserved (encodeStep s) (fun _ => True)
        (fun t : StagedEncode Ω φ κ ν ϱ ρ ε × Traced Ω => t.1.state = none) :=
      fun t op _ ht => (failed_step s ht op).1
    show (Runs.final (encodeStep s) (job, w₀, trace) (pre ++ op :: post)).1.state = none
    rw [Runs.final_append, Runs.final_cons]
    exact Runs.final_of_preserved hrest (fun _ _ => trivial) hnone
  have hfinish := (spec_finish s hinv pulse').run
  refine ⟨hinv.1, hfailed, fun hnone => ⟨fun op => failed_step s hnone op, ?_⟩, fun completed t ht => ?_,
    fun e t ht hne => ?_⟩
  · obtain ⟨⟨state, policy', preset', report, changed⟩, w'⟩ := run
    obtain rfl : state = none := hnone
    exact ⟨_, rfl⟩
  · have := hfinish.1 completed (by rw [ht])
    rwa [ht] at this
  · have := hfinish.2 e (by rw [ht]) hne
    rwa [ht] at this

/-! ### An encoding of one frame

The world counts the packets that the encoder has pending, and knows whether input ended. -/

def pendingPacket : Packet PacketPayload := ⟨some (.owned [7]), 0, none, none, none, .yes, 0, none,
  none, none, []⟩

def delayingEncoder : VideoEncoder (ℕ × Bool) Unit Unit Unit where
  send := fun _ _ w => (.ok .accepted, w.1 + 1, w.2)
  receive := fun _ w =>
    if w.2 then
      if w.1 = 0 then (.ok .endOfStream, w) else (.ok (.ready pendingPacket), w.1 - 1, w.2)
    else (.ok .needInput, w)
  endInput := fun w => (.ok (), w.1, true)
  outputConfig := fun _ => some ⟨.av1, none, 0, ⟨1, 1000⟩, some ⟨2, 2, none, none⟩⟩
  outputFidelity := fun _ => none

def plainMuxer : Muxer (ℕ × Bool) Unit where
  beginExactTiming := fun _ _ w => (.ok ⟨false, false⟩, w)
  writePacket := fun _ _ w => (.ok (), w)
  pendingOutput := fun _ => []
  consumeOutput := fun _ w => w
  finish := fun _ w => (.ok ⟨[1, 2, 3], []⟩, w)

def plainDestination : Destination (ℕ × Bool) Unit where
  canPatch := false
  write := fun bytes w => (.ok bytes.length, w)
  position := fun _ w => (.error (), w)
  flush := fun w => (.ok (), w)
  interrupted := fun _ => false
  writeZero := ()
  invalidData := ()

def consentingPolicy : Policy (ℕ × Bool) Unit Unit Unit Unit Unit where
  checkWorkspace := fun w => (.ok (), w)
  resolve := fun _ _ _ _ _ w => (.ok (), w)

def plainSurroundings : Surroundings (ℕ × Bool) Unit Unit Unit Unit where
  view := ⟨fun _ => (), fun _ => (), fun _ _ => (), fun _ => ()⟩
  host := ⟨2 ^ 64 - 1, fun w => (true, w)⟩
  noPulse := ⟨fun w => (.ok (), w)⟩
  fuel := 8

def plainBudget : StorageBudget (ℕ × Bool) := ⟨64, fun _ => 0, fun _ w => (.ok (), w), fun _ w => w⟩

/-- The operation on one frame, whose packet comes out at the end. -/
def preparedJob : StagedEncode (ℕ × Bool) Unit Unit Unit Unit Unit Unit :=
  ⟨some ⟨delayingEncoder,
      ⟨some plainMuxer, plainDestination,
        [⟨0, .av1, ⟨1, 1000⟩, none, 0, some ⟨2, 2, none, none⟩⟩], ⟨false, false⟩, true, {}⟩,
      ⟨.av1, none, 0, ⟨1, 1000⟩, some ⟨2, 2, none, none⟩⟩, none, Staging.memory plainBudget, none⟩,
    consentingPolicy, (), {}, false⟩

/-- The end of the run that pushes one frame and finishes. -/
def oneFrame : Except (EncodeFailure Unit Unit) (Completed Unit) ×
    (StagedEncode (ℕ × Bool) Unit Unit Unit Unit Unit Unit × Traced (ℕ × Bool)) :=
  StagedEncode.finish plainSurroundings none
    (Runs.final (encodeStep plainSurroundings) (preparedJob, (0, false), []) [.frame () none])

theorem oneFrame_eq : oneFrame = (.ok ⟨⟨3, 0, 0, 3⟩, ⟨[()], 0⟩⟩, oneFrame.2) := by
  have hok : oneFrame.1 = .ok ⟨⟨3, 0, 0, 3⟩, ⟨[()], 0⟩⟩ := by decide +kernel
  rw [← hok]

theorem preparedJob_eq :
    StagedEncode.withStaging plainSurroundings delayingEncoder plainMuxer plainDestination
      consentingPolicy () (Staging.memory plainBudget) none ((0, false), [])
      = (.ok preparedJob, (0, false), []) := rfl

theorem staged_all_or_nothing_oneFrame :
    ∃ (q : List (Packet (List UInt8))) (added last : List Event),
      oneFrame.2.2.2 = q.map Event.emitted ++ added ++ last ∧
      Delivers (q.map MuxCall.packet ++ [.finish]) added ∧ Quiet last := by
  have h := staged_all_or_nothing plainSurroundings delayingEncoder plainMuxer plainDestination
    consentingPolicy () (Staging.memory plainBudget) (Or.inl ⟨plainBudget, rfl⟩) none (0, false)
    (0, false) [] preparedJob preparedJob_eq [.frame () none] none
  exact h.2.2.2.1 _ _ oneFrame_eq

end Zencodec.Media
