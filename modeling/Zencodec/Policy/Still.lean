/-
`PolicyDecoder` of still images: a controlled decoder whose suspensions a policy answers.

The decoder is taken out for the time of a step, and only a step that succeeds puts it back.
A foreign call that unwinds ends its caller with `unwound`. `serve` is one call of the
application; beside its reply it says what happened on the way, as a list of `Happened`.

* `CallShape` — the ways one call can go: a suspension is answered once, and its answer alone
  is passed on;
* `Sound` — what ties the adapter to what happened so far;
* `serve_law` — what one call does.
-/
import Zencodec.Incremental.Guarded
import Zencodec.Policy.Resolve

namespace Zencodec.Policy

open Zencodec.Operation Zencodec.Incremental Runs

variable {σ δ τ ε κ θ Ω : Type}

/-! ### The adapter -/

/-- `PolicyDecodeError` -/
inductive PolicyDecodeError (ε κ : Type) where
  | native (e : κ)
  | requirements (unmet : UnmetRequirements)
  | policy (e : PolicyFailure ε StopReason)

/-- The error of a step of the native decoder, as this adapter reports it. -/
def fromNative : StepError τ (Fault κ) → Fault (StepError τ (PolicyDecodeError ε κ))
  | .codec (.failed e) => .failed (.codec (.native e))
  | .codec .unwound => .unwound
  | .sink e => .failed (.sink e)
  | .cancelled reason => .failed (.cancelled reason)
  | .finished => .failed .finished
  | .control e => .failed (.control e)

structure PolicyDecoder (σ δ : Type) where
  decoder : Option (Fused σ δ)
  preset : PolicySet
  report : OperationReport
  failed : Bool

def PolicyDecoder.new (inner : σ) (preset : PolicySet) : PolicyDecoder σ δ :=
  ⟨some (Fused.new inner false), preset, {}, false⟩

/-- What the adapter is used with. -/
structure StillEnv (σ δ τ ε κ θ Ω : Type) where
  usizeMax : ℕ
  native : ScriptedDecoder σ δ τ (Fault κ) θ
  resolver : Resolver (InterpretationFacts δ) ε Ω

/-- What happened during a call: a call on the held decoder, an answer of the policy, and the
details that the native decoder was asked for. -/
inductive Happened (δ τ ε κ θ Ω : Type) where
  | called (r : Record δ τ (Fault κ) θ (ℕ × Ω))
  | resolved (boundary : DecodeBoundary δ)
      (answer : Except (Fault (PolicyFailure ε StopReason))
        (Incremental.BoundaryAction × DecisionRecord))
  | details (answer : Option θ)

/-- The pulse as the held decoder polls it. An unwinding leaves that decoder where a trip
does, and the step that it ends drops the decoder either way. -/
def Stop.pulse (stop : Stop Ω) : Pulse (ℕ × Ω) where
  check := fun (n, w) =>
    match stop w with
    | (.ok u, w) => (.ok u, n, w)
    | (.error (.failed reason), w) => (.error reason, n, w)
    | (.error .unwound, w) => (.error .cancelled, n, w)

/-- How the work of a step ended, what happened, and what is left of it. -/
structure Ended (σ δ τ ε κ θ Ω : Type) where
  answer : Except (Fault (StepError τ (PolicyDecodeError ε κ))) (Progress δ)
  happened : List (Happened δ τ ε κ θ Ω)
  decoder : Fused σ δ
  report : OperationReport
  world : ℕ × Ω

variable (env : StillEnv σ δ τ ε κ θ Ω)

/-- The arm of a suspension: ask, record, resume. -/
def answerBoundary [DecidableEq δ] (preset : PolicySet) (pulse : Option (Stop Ω))
    (consumed : ℕ) (boundary : DecodeBoundary δ) (report : OperationReport)
    (decoder : Fused σ δ) (w : ℕ × Ω) :
    Ended σ δ τ ε κ θ Ω :=
  match resolveBoundary env.usizeMax boundary env.resolver preset pulse w with
  | (.error (.failed e), w) =>
    ⟨.error (.failed (.codec (.policy e))), [.resolved boundary (.error (.failed e))], decoder,
      report.record e.record, w⟩
  | (.error .unwound, w) =>
    ⟨.error .unwound, [.resolved boundary (.error .unwound)], decoder, report, w⟩
  | (.ok (action, record), w) =>
    let report := report.record record
    let (call, decoder, w) := controlledCall env.native (decoder, w)
      (.resume boundary.id action (pulse.map Stop.pulse))
    let happened := [.resolved boundary (.ok (action, record)), .called call]
    match call.reply with
    | .error e => ⟨.error (fromNative e), happened, decoder, report, w⟩
    | _ => ⟨.ok ⟨consumed, .metadata .updated⟩, happened, decoder, report, w⟩

/-- The work of a step, once the decoder is taken out and admitted. -/
def stepHeld [DecidableEq δ] (preset : PolicySet) (input : Input) (sink : Sink δ τ (ℕ × Ω))
    (pulse : Option (Stop Ω)) (report : OperationReport) (decoder : Fused σ δ) (w : ℕ × Ω) :
    Ended σ δ τ ε κ θ Ω :=
  let (call, decoder, w) := controlledCall env.native (decoder, w)
    (.step input sink (pulse.map Stop.pulse))
  match call.reply with
  | .suspended consumed boundary =>
    let ended := answerBoundary env preset pulse consumed boundary report decoder w
    { ended with happened := .called call :: ended.happened }
  | .progress p => ⟨.ok p, [.called call], decoder, report, w⟩
  | .error e => ⟨.error (fromNative e), [.called call], decoder, report, w⟩
  -- a step answers in no other way
  | .resumed | .details _ => ⟨.error .unwound, [.called call], decoder, report, w⟩

inductive StillReply (δ τ ε κ θ : Type) where
  | stepped (answer : Except (Fault (StepError τ (PolicyDecodeError ε κ))) (Progress δ))
  | details (answer : Option θ)

/-- A reply and what happened before it. -/
structure StillCall (δ τ ε κ θ Ω : Type) where
  reply : StillReply δ τ ε κ θ
  happened : List (Happened δ τ ε κ θ Ω)

/-- `step` -/
def PolicyDecoder.step [DecidableEq δ] (self : PolicyDecoder σ δ) (input : Input)
    (sink : Sink δ τ (ℕ × Ω)) (pulse : Option (Stop Ω)) (w : ℕ × Ω) :
    StillCall δ τ ε κ θ Ω × PolicyDecoder σ δ × ℕ × Ω :=
  if self.failed then (⟨.stepped (.error (.failed .finished)), []⟩, self, w)
  else
    let poisoned := { self with failed := true, decoder := none }
    match self.decoder with
    | none => (⟨.stepped (.error (.failed .finished)), []⟩, poisoned, w)
    | some decoder =>
      match admitWorkspace self.preset env.resolver.requirements with
      | .error unmet =>
        (⟨.stepped (.error (.failed (.codec (.requirements unmet)))), []⟩, poisoned, w)
      | .ok _ =>
        let ended := stepHeld env self.preset input sink pulse self.report decoder w
        let call := ⟨.stepped ended.answer, ended.happened⟩
        match ended.answer with
        | .error _ => (call, { poisoned with report := ended.report }, ended.world)
        | .ok _ =>
          (call, { self with decoder := some ended.decoder, report := ended.report },
            ended.world)

/-- Whether the native decoder is asked for its details. -/
def Fused.asksDetails (self : Fused σ δ) : Bool :=
  match self.state with
  | .done _ => !self.detailsTaken
  | _ => false

/-- `take_details` -/
def PolicyDecoder.takeDetails (self : PolicyDecoder σ δ) :
    StillCall δ τ ε κ θ Ω × PolicyDecoder σ δ :=
  if self.failed then (⟨.details none, []⟩, self)
  else
    match self.decoder with
    | none => (⟨.details none, []⟩, self)
    | some decoder =>
      let (answer, held) :=
        (decoder.mapInner fun inner => (inner, [])).takeDetails env.native.native
      (⟨.details answer, if Fused.asksDetails decoder then [.details answer] else []⟩,
        { self with decoder := some (held.mapInner Prod.fst) })

inductive StillOp (δ τ Ω : Type) where
  | step (input : Input) (sink : Sink δ τ (ℕ × Ω)) (pulse : Option (Stop Ω))
  | takeDetails

/-- One call of the application. -/
def serve [DecidableEq δ] (s : PolicyDecoder σ δ × ℕ × Ω) :
    StillOp δ τ Ω → StillCall δ τ ε κ θ Ω × PolicyDecoder σ δ × ℕ × Ω
  | .step input sink pulse => s.1.step env input sink pulse s.2
  | .takeDetails =>
    let (call, self) := s.1.takeDetails env
    (call, self, s.2)

/-! ### What happened -/

/-- The decision of an answer. A callback that unwinds has not decided. -/
def Happened.decision : Happened δ τ ε κ θ Ω → Option DecisionRecord
  | .resolved _ (.ok (_, record)) => some record
  | .resolved _ (.error (.failed e)) => some e.record
  | _ => none

/-- The interpretation that an answer accepts. -/
def Happened.accepted : Happened δ τ ε κ θ Ω → Option (InterpretationFacts δ)
  | .resolved boundary (.ok (.adoptInterpretation, _)) => some boundary.facts
  | _ => none

/-- The ways one call of the application can go. -/
inductive CallShape : List (Happened δ τ ε κ θ Ω) → Prop
  | idle : CallShape []
  | details (answer : Option θ) : CallShape [.details answer]
  | step (r : Record δ τ (Fault κ) θ (ℕ × Ω)) (hquiet : r.reply.boundary? = none)
      (htold : ∀ id action, .resumed id action ∉ r.heard) : CallShape [.called r]
  | refused (r : Record δ τ (Fault κ) θ (ℕ × Ω)) (boundary : DecodeBoundary δ)
      (e : Fault (PolicyFailure ε StopReason)) (hboundary : r.reply.boundary? = some boundary)
      (htold : ∀ id action, .resumed id action ∉ r.heard) :
      CallShape [.called r, .resolved boundary (.error e)]
  | resumed (r r' : Record δ τ (Fault κ) θ (ℕ × Ω)) (boundary : DecodeBoundary δ)
      (action : Incremental.BoundaryAction) (record : DecisionRecord)
      (hboundary : r.reply.boundary? = some boundary)
      (htold : ∀ id action, .resumed id action ∉ r.heard)
      (hpermits : action.permits boundary.facts = true)
      (htold' : ∀ x ∈ r'.heard, x = .resumed boundary.id action) (hsent : r'.sent = []) :
      CallShape [.called r, .resolved boundary (.ok (action, record)), .called r']

/-- What reaches the sink fits an interpretation that was accepted in `past`. -/
def Published (past happened : List (Happened δ τ ε κ θ Ω)) : Prop :=
  ∀ r, .called r ∈ happened → ∀ x ∈ r.sent,
    ∃ f ∈ past.filterMap Happened.accepted, x.call.Agrees f

/-- A held decoder waits for no answer, and has adopted only what was accepted. -/
structure Resting (past : List (Happened δ τ ε κ θ Ω)) (decoder : Fused σ δ) : Prop where
  free : ∀ b, decoder.state ≠ .suspended b
  accepted : ∀ f, decoder.interpretation = some f → f ∈ past.filterMap Happened.accepted

/-- What the work of a step leaves. -/
structure EndedLaw (past : List (Happened δ τ ε κ θ Ω)) (ended : Ended σ δ τ ε κ θ Ω) :
    Prop where
  shape : CallShape ended.happened
  published : Published past ended.happened
  report : Holds ended.report ((past ++ ended.happened).filterMap Happened.decision)
  resting : ended.answer.isOk = true → Resting (past ++ ended.happened) ended.decoder

theorem Resting.append {past : List (Happened δ τ ε κ θ Ω)} {decoder : Fused σ δ}
    (h : Resting past decoder) (more : List (Happened δ τ ε κ θ Ω)) :
    Resting (past ++ more) decoder := by
  refine ⟨h.free, fun f hf => ?_⟩
  rw [List.filterMap_append]
  exact List.mem_append_left _ (h.accepted f hf)

/-- A suspension: the one answer is recorded, and only its action is passed on. -/
theorem answerBoundary_law [DecidableEq δ] (preset : PolicySet) (pulse : Option (Stop Ω))
    (consumed : ℕ) {boundary : DecodeBoundary δ} {report : OperationReport}
    {held : Fused σ δ} (w : ℕ × Ω)
    {past : List (Happened δ τ ε κ θ Ω)} {call : Record δ τ (Fault κ) θ (ℕ × Ω)}
    (hboundary : call.reply.boundary? = some boundary)
    (htold : ∀ id action, .resumed id action ∉ call.heard)
    (hcall : ∀ x ∈ call.sent, ∃ f ∈ past.filterMap Happened.accepted, x.call.Agrees f)
    (hwaits : ∀ b, held.state = .suspended b → b = boundary)
    (hfacts : ∀ f, held.interpretation = some f → f ∈ past.filterMap Happened.accepted)
    (hreport : Holds report (past.filterMap Happened.decision)) :
    let ended := answerBoundary env preset pulse consumed boundary report held w
    EndedLaw past { ended with happened := .called call :: ended.happened } := by
  have hfirst : ∀ rest : List (Happened δ τ ε κ θ Ω),
      (∀ r, .called r ∈ rest → r.sent = []) → Published past (.called call :: rest) := by
    intro rest hrest r hr x hx
    rcases List.mem_cons.mp hr with hr | hr
    · obtain rfl : r = call := by simpa using hr
      exact hcall x hx
    · rw [hrest r hr] at hx
      cases hx
  intro ended
  cases hresolve : resolveBoundary env.usizeMax boundary env.resolver preset pulse w with
  | mk answer w₁ =>
    cases answer with
    | error e =>
      cases e with
      | unwound =>
        simp only [ended, answerBoundary, hresolve]
        refine ⟨.refused call boundary _ hboundary htold, hfirst _ (by simp), ?_, fun h => ?_⟩
        · exact holds_quiet hreport rfl
        · cases h
      | failed e =>
        simp only [ended, answerBoundary, hresolve]
        refine ⟨.refused call boundary _ hboundary htold, hfirst _ (by simp), ?_, fun h => ?_⟩
        · exact holds_decided hreport rfl
        · cases h
    | ok answer =>
      obtain ⟨action, record⟩ := answer
      have hpermits : action.permits boundary.facts = true :=
        resolveBoundary_permits (congrArg Prod.fst hresolve)
      have law := resume_law env.native boundary.id action (pulse.map Stop.pulse) (held, w₁)
      generalize hrun : controlledCall env.native (held, w₁)
        (.resume boundary.id action (pulse.map Stop.pulse)) = run at law
      obtain ⟨call', held', w₂⟩ := run
      change ResumeLaw boundary.id action held held' call' at law
      have htold' : ∀ x ∈ call'.heard, x = .resumed boundary.id action := by
        intro x hx
        rcases law.heard with hheard | hheard
        · rw [hheard] at hx
          cases hx
        · rw [hheard] at hx
          simpa using hx
      have hended : ended.happened = [.resolved boundary (.ok (action, record)), .called call'] ∧
          ended.report = report.record record ∧ ended.decoder = held' := by
        simp only [ended, answerBoundary, hresolve, hrun]
        cases call'.reply <;> exact ⟨rfl, rfl, rfl⟩
      obtain ⟨hhappened, hrecorded, hheld⟩ := hended
      rw [hhappened, hrecorded, hheld]
      refine ⟨.resumed call call' boundary action record hboundary htold hpermits htold' law.sent,
        hfirst _ fun r hr => ?_, ?_, fun _ => ⟨law.resting, fun f hf => ?_⟩⟩
      · obtain rfl : r = call' := by simpa using hr
        exact law.sent
      · exact holds_decided hreport rfl
      · rw [List.filterMap_append]
        rcases law.interpretation with hsame | hresumed
        · rw [hsame] at hf
          exact List.mem_append_left _ (hfacts f hf)
        · obtain ⟨b, hb, -, -, hnext⟩ := law.adopted hresumed
          obtain rfl := hwaits b hb
          rw [hnext] at hf
          split at hf
          · rename_i haction
            subst haction
            exact List.mem_append_right _ (by simpa [Happened.accepted] using hf)
          · exact List.mem_append_left _ (hfacts f hf)

theorem stepHeld_law [DecidableEq δ] (preset : PolicySet) (input : Input) (sink : Sink δ τ (ℕ × Ω))
    (pulse : Option (Stop Ω)) {report : OperationReport} {decoder : Fused σ δ} (w : ℕ × Ω)
    {past : List (Happened δ τ ε κ θ Ω)} (hresting : Resting past decoder)
    (hreport : Holds report (past.filterMap Happened.decision)) :
    EndedLaw past (stepHeld env preset input sink pulse report decoder w) := by
  have law := step_law env.native input sink (pulse.map Stop.pulse) (decoder, w)
    fun b _ hb => absurd hb (hresting.free b)
  unfold stepHeld
  generalize controlledCall env.native (decoder, w) (.step input sink (pulse.map Stop.pulse))
    = run at law ⊢
  obtain ⟨call, held, w₁⟩ := run
  change StepLaw decoder.interpretation held call at law
  obtain ⟨heard, guard, hheard, hscreened, -⟩ := law.screened
  have htold : ∀ id action, .resumed id action ∉ call.heard := by
    intro id action hmem
    rw [hheard] at hmem
    simp at hmem
  have hcall : ∀ x ∈ call.sent, ∃ f ∈ past.filterMap Happened.accepted, x.call.Agrees f := by
    intro x hx
    obtain ⟨f, hf, hagrees⟩ := hscreened.agrees x hx
    exact ⟨f, hresting.accepted f hf, hagrees⟩
  have hwaits : ∀ b, held.state = .suspended b → call.reply.boundary? = some b :=
    fun b hb => (law.suspended b hb).1
  have hfacts : ∀ f, held.interpretation = some f → f ∈ past.filterMap Happened.accepted := by
    intro f hf
    rw [law.interpretation] at hf
    exact hresting.accepted f hf
  -- A step that does not suspend asks nothing.
  have hplain : ∀ answer, call.reply.boundary? = none →
      EndedLaw past (⟨answer, [.called call], held, report, w₁⟩ : Ended σ δ τ ε κ θ Ω) := by
    intro answer hnone
    refine ⟨.step call hnone htold, ?_, ?_, fun _ => ⟨fun b hb => ?_, fun f hf => ?_⟩⟩
    · intro r hr x hx
      obtain rfl : r = call := by simpa using hr
      exact hcall x hx
    · exact holds_quiet hreport rfl
    · rw [hwaits b hb] at hnone
      cases hnone
    · rw [List.filterMap_append]
      exact List.mem_append_left _ (hfacts f hf)
  cases hreply : call.reply with
  | progress p =>
    simp only [hreply]
    exact hplain _ (by rw [hreply]; rfl)
  | suspended consumed boundary =>
    simp only [hreply]
    have hboundary : call.reply.boundary? = some boundary := by rw [hreply]; rfl
    refine answerBoundary_law env preset pulse consumed w₁ hboundary htold hcall
      (fun b hb => ?_) hfacts hreport
    exact Option.some.inj ((hwaits b hb).symm.trans hboundary)
  | resumed =>
    simp only [hreply]
    exact hplain _ (by rw [hreply]; rfl)
  | details answer =>
    simp only [hreply]
    exact hplain _ (by rw [hreply]; rfl)
  | error e =>
    simp only [hreply]
    exact hplain _ (by rw [hreply]; rfl)

/-! ### Calls of the application -/

/-- What ties the adapter to what happened so far. -/
structure Sound (past : List (Happened δ τ ε κ θ Ω)) (adapter : PolicyDecoder σ δ) : Prop where
  held : ∀ decoder, adapter.decoder = some decoder → Resting past decoder
  dropped : adapter.failed = true → adapter.decoder = none
  report : Holds adapter.report (past.filterMap Happened.decision)

def StillReply.isError : StillReply δ τ ε κ θ → Bool
  | .stepped (.error _) => true
  | _ => false

/-- What one call leaves. -/
structure CallLaw (past : List (Happened δ τ ε κ θ Ω)) (call : StillCall δ τ ε κ θ Ω)
    (after : PolicyDecoder σ δ) : Prop where
  shape : CallShape call.happened
  published : Published past call.happened
  sound : Sound (past ++ call.happened) after
  dropped : call.reply.isError = true → after.decoder = none

/-- A call that reaches nothing. -/
theorem CallLaw.silent {past : List (Happened δ τ ε κ θ Ω)} {reply : StillReply δ τ ε κ θ}
    {after : PolicyDecoder σ δ} (hsound : Sound past after)
    (hdropped : reply.isError = true → after.decoder = none) :
    CallLaw past ⟨reply, []⟩ after where
  shape := .idle
  published := fun r hr => by cases hr
  sound := by rwa [List.append_nil]
  dropped := hdropped

/-- An adapter without a decoder, with its report. -/
theorem Sound.empty {past : List (Happened δ τ ε κ θ Ω)} {self : PolicyDecoder σ δ}
    (hdecoder : self.decoder = none)
    (hreport : Holds self.report (past.filterMap Happened.decision)) : Sound past self where
  held := fun decoder h => by rw [hdecoder] at h; cases h
  dropped := fun _ => hdecoder
  report := hreport

theorem step_callLaw [DecidableEq δ] {past : List (Happened δ τ ε κ θ Ω)} {self : PolicyDecoder σ δ}
    (h : Sound past self) (input : Input) (sink : Sink δ τ (ℕ × Ω)) (pulse : Option (Stop Ω))
    (w : ℕ × Ω) :
    let run := self.step env input sink pulse w
    CallLaw past run.1 run.2.1 := by
  unfold PolicyDecoder.step
  split
  · rename_i hself
    exact CallLaw.silent h fun _ => h.dropped hself
  · cases hdecoder : self.decoder with
    | none => exact CallLaw.silent (.empty rfl h.report) fun _ => rfl
    | some decoder =>
      cases hadmit : admitWorkspace self.preset env.resolver.requirements with
      | error unmet => exact CallLaw.silent (.empty rfl h.report) fun _ => rfl
      | ok u =>
        have law := stepHeld_law env self.preset input sink pulse w (h.held decoder hdecoder)
          h.report
        simp only
        generalize stepHeld env self.preset input sink pulse self.report decoder w = ended
          at law ⊢
        cases hanswer : ended.answer with
        | error e => exact ⟨law.shape, law.published, .empty rfl law.report, fun _ => rfl⟩
        | ok p =>
          refine ⟨law.shape, law.published, ⟨fun d hd => ?_, fun hself => ?_, law.report⟩,
            fun he => by cases he⟩
          · obtain rfl : ended.decoder = d := by simpa using hd
            exact law.resting (by rw [hanswer]; rfl)
          · have hnone := h.dropped hself
            rw [hdecoder] at hnone
            cases hnone

theorem takeDetails_keeps (dec : NativeDecoder σ δ τ κ θ) (self : Fused σ δ) :
    (self.takeDetails dec).2.state = self.state ∧
      (self.takeDetails dec).2.interpretation = self.interpretation := by
  unfold Fused.takeDetails
  cases hstate : self.state with
  | done info =>
    simp only
    split
    · exact ⟨hstate, rfl⟩
    · exact ⟨rfl, rfl⟩
  | running => exact ⟨hstate, rfl⟩
  | suspended boundary => exact ⟨hstate, rfl⟩
  | failed => exact ⟨hstate, rfl⟩

theorem takeDetails_callLaw {past : List (Happened δ τ ε κ θ Ω)} {self : PolicyDecoder σ δ}
    (h : Sound past self) :
    CallLaw past (self.takeDetails env).1 (self.takeDetails env).2 := by
  unfold PolicyDecoder.takeDetails
  split
  · exact CallLaw.silent h fun he => by cases he
  · cases hdecoder : self.decoder with
    | none => exact CallLaw.silent h fun he => by cases he
    | some decoder =>
      simp only
      have hkeeps := takeDetails_keeps env.native.native
        (decoder.mapInner fun inner => (inner, []))
      generalize (decoder.mapInner fun inner => (inner, [])).takeDetails env.native.native = run
        at hkeeps ⊢
      obtain ⟨answer, held⟩ := run
      obtain ⟨hstate, hfacts⟩ := hkeeps
      have hresting := h.held decoder hdecoder
      have hnext : Sound past { self with decoder := some (held.mapInner Prod.fst) } := by
        refine ⟨fun d hd => ?_, fun hself => ?_, h.report⟩
        · obtain rfl : held.mapInner Prod.fst = d := by simpa using hd
          exact ⟨fun b hb => hresting.free b (hstate.symm.trans hb),
            fun f hf => hresting.accepted f (hfacts.symm.trans hf)⟩
        · have hnone := h.dropped hself
          rw [hdecoder] at hnone
          cases hnone
      split
      · refine ⟨.details answer, fun r hr => (by simp at hr), ⟨fun d hd => ?_, hnext.dropped, ?_⟩,
          fun he => by cases he⟩
        · exact (hnext.held d hd).append _
        · exact holds_quiet hnext.report rfl
      · exact CallLaw.silent hnext fun he => by cases he

/-! ### Runs -/

variable [DecidableEq δ]

theorem serve_law {past : List (Happened δ τ ε κ θ Ω)} {s : PolicyDecoder σ δ × ℕ × Ω}
    (h : Sound past s.1) (op : StillOp δ τ Ω) :
    CallLaw past (serve env s op).1 (serve env s op).2.1 := by
  cases op with
  | step input sink pulse => exact step_callLaw env h input sink pulse s.2
  | takeDetails => exact takeDetails_callLaw env h

/-- All that happened in these calls. -/
def pastOf (calls : List (StillCall δ τ ε κ θ Ω)) : List (Happened δ τ ε κ θ Ω) :=
  calls.flatMap StillCall.happened

theorem sound_run (inner : σ) (preset : PolicySet) (w : ℕ × Ω) (ops : List (StillOp δ τ Ω)) :
    Sound (pastOf (outputs (serve env) (PolicyDecoder.new inner preset, w) ops))
      (final (serve env) (PolicyDecoder.new inner preset, w) ops).1 := by
  have hstart : Sound (pastOf ([] : List (StillCall δ τ ε κ θ Ω)))
      (PolicyDecoder.new inner preset : PolicyDecoder σ δ) := by
    refine ⟨fun d hd => ?_, fun hfailed => (by cases hfailed), rfl⟩
    obtain rfl : Fused.new inner false = d := by simpa [PolicyDecoder.new] using hd
    exact ⟨fun b hb => (by cases hb), fun f hf => (by cases hf)⟩
  have hstep : ∀ (calls : List (StillCall δ τ ε κ θ Ω)) (s : PolicyDecoder σ δ × ℕ × Ω)
      (op : StillOp δ τ Ω), Sound (pastOf calls) s.1 →
      Sound (pastOf (calls ++ [(serve env s op).1])) (serve env s op).2.1 := by
    intro calls s op h
    have hnext := (serve_law env h op).sound
    simpa [pastOf] using hnext
  exact history (H := fun calls (s : PolicyDecoder σ δ × ℕ × Ω) => Sound (pastOf calls) s.1)
    hstep (s := (PolicyDecoder.new inner preset, w)) hstart ops

/-- Without a decoder every call is empty. -/
theorem serve_of_dropped {s : PolicyDecoder σ δ × ℕ × Ω} (hs : s.1.decoder = none)
    (op : StillOp δ τ Ω) :
    ((serve env s op).1.happened = [] ∧
      ((serve env s op).1.reply = .stepped (.error (.failed .finished)) ∨
        (serve env s op).1.reply = .details none)) ∧
      (serve env s op).2.1.decoder = none := by
  cases op with
  | step input sink pulse =>
    simp only [serve, PolicyDecoder.step, hs]
    split
    · exact ⟨⟨rfl, Or.inl rfl⟩, hs⟩
    · exact ⟨⟨rfl, Or.inl rfl⟩, rfl⟩
  | takeDetails =>
    simp only [serve, PolicyDecoder.takeDetails, hs]
    split
    · exact ⟨⟨rfl, Or.inr rfl⟩, hs⟩
    · exact ⟨⟨rfl, Or.inr rfl⟩, hs⟩

/-- A call that is refused before anything happens, or has no details to give. -/
def StillCall.Refused (call : StillCall δ τ ε κ θ Ω) : Prop :=
  call.happened = [] ∧ (call.reply.isError = true ∨ call.reply = .details none)

/-- An adapter that has not started a step. -/
def Unstarted (preset : PolicySet) (adapter : PolicyDecoder σ δ) : Prop :=
  adapter.preset = preset ∧ ∀ decoder, adapter.decoder = some decoder → decoder.state = .running

/-- With a limit on workspace nothing ever starts. -/
theorem serve_limited {preset : PolicySet} {s : PolicyDecoder σ δ × ℕ × Ω}
    (hlimit : limitsWorkspace preset env.resolver.requirements = true)
    (hs : Unstarted preset s.1) (op : StillOp δ τ Ω) :
    (serve env s op).1.Refused ∧ Unstarted preset (serve env s op).2.1 := by
  obtain ⟨hpreset, hheld⟩ := hs
  cases op with
  | step input sink pulse =>
    obtain ⟨unmet, hunmet⟩ := admitWorkspace_limited hlimit
    rw [← hpreset] at hunmet
    simp only [serve, PolicyDecoder.step]
    split
    · exact ⟨⟨rfl, Or.inl rfl⟩, hpreset, hheld⟩
    · cases hdecoder : s.1.decoder with
      | none => exact ⟨⟨rfl, Or.inl rfl⟩, hpreset, fun d hd => by cases hd⟩
      | some decoder =>
        simp only [hunmet]
        exact ⟨⟨rfl, Or.inl rfl⟩, hpreset, fun d hd => by cases hd⟩
  | takeDetails =>
    simp only [serve, PolicyDecoder.takeDetails]
    split
    · exact ⟨⟨rfl, Or.inr rfl⟩, hpreset, hheld⟩
    · cases hdecoder : s.1.decoder with
      | none => exact ⟨⟨rfl, Or.inr rfl⟩, hpreset, hheld⟩
      | some decoder =>
        have hrunning := hheld decoder hdecoder
        simp only [Fused.takeDetails, Fused.mapInner, Fused.asksDetails, hrunning]
        refine ⟨⟨rfl, Or.inr rfl⟩, hpreset, fun d hd => ?_⟩
        obtain rfl := Option.some.inj hd
        rfl

end Zencodec.Policy
