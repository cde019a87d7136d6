/-
Output through `Fused` waits for an adopted interpretation and keeps to it.

A run is a list of `step_controlled` and `resume` calls on one adapter, around a decoder
that may do anything a script can do. `controlledCall` is one call; its `Record` says what
the caller got, what the decoder was told, and what reached the caller's sink.

* `Tracks` — what ties the adapter to the records so far;
* `step_law`, `resume_law` — what one call does;
* `guarded_run` — any run: no effect before an adoption, every effect fits the adopted facts,
  a refused or failed effect ends the decoder with that cause, and only the reply that the
  current boundary permits is passed on.
-/
import Zencodec.Incremental.Script
import Zencodec.Incremental.Terminal

namespace Zencodec.Incremental

open Runs

variable {σ ρ δ τ ε κ Ω : Type}

/-! ### Calls and records -/

inductive ControlledOp (δ τ Ω : Type) where
  | step (input : Input) (sink : Sink δ τ Ω) (pulse : Option (Pulse Ω))
  | resume (id : BoundaryId) (action : BoundaryAction) (pulse : Option (Pulse Ω))

/-- One call: what was asked, what the caller got, what the decoder was told meanwhile, and
the effects on the caller's sink. -/
structure Record (δ τ ε κ Ω : Type) where
  op : ControlledOp δ τ Ω
  reply : Reply δ τ ε κ
  heard : List (Heard δ τ)
  sent : List (Exchange δ τ)

/-- The same adapter around `f` of its decoder. -/
def Fused.mapInner (f : σ → ρ) (self : Fused σ δ) : Fused ρ δ :=
  ⟨f self.inner, self.state, self.controlled, self.interpretation, self.detailsTaken⟩

/-- One call, with what happens during it written down. -/
def controlledCall [DecidableEq δ] (dec : ScriptedDecoder σ δ τ ε κ) (s : Fused σ δ × Ω)
    (op : ControlledOp δ τ Ω) : Record δ τ ε κ Ω × Fused σ δ × Ω :=
  let self := s.1.mapInner fun inner => (inner, [])
  match op with
  | .step input sink pulse =>
    let (answer, self, w, sent) :=
      Fused.stepControlled dec.native input (recorded sink) (pulse.map Pulse.beside) self (s.2, [])
    (⟨op, .ofStepControlled answer, self.inner.2, sent⟩, self.mapInner Prod.fst, w)
  | .resume id action pulse =>
    let (answer, self, w) := Fused.resume dec.native id action pulse self s.2
    (⟨op, .ofResume answer, self.inner.2, []⟩, self.mapInner Prod.fst, w)

/-- The boundary that a reply reports. -/
def Reply.boundary? : Reply δ τ ε κ → Option (DecodeBoundary δ)
  | .suspended _ boundary => some boundary
  | _ => none

/-- The boundary that waits for a reply: the last call reported it. -/
def pending (records : List (Record δ τ ε κ Ω)) : Option (DecodeBoundary δ) :=
  records.getLast?.bind fun r => r.reply.boundary?

/-- After the calls `before`, the call `r` is an accepted reply that adopts `facts`. -/
def Record.Adopts (before : List (Record δ τ ε κ Ω)) (r : Record δ τ ε κ Ω)
    (facts : InterpretationFacts δ) : Prop :=
  ∃ boundary pulse, pending before = some boundary ∧
    r.op = .resume boundary.id .adoptInterpretation pulse ∧
    BoundaryAction.adoptInterpretation.permits boundary.facts = true ∧
    r.reply = .resumed ∧ boundary.facts = facts

/-- Some call adopted `facts`. -/
def Adopted (records : List (Record δ τ ε κ Ω)) (facts : InterpretationFacts δ) : Prop :=
  ∃ before r after, records = before ++ r :: after ∧ r.Adopts before facts

/-- How a step reports the error of an effect. -/
def causeOf : SinkError τ → StepError τ ε
  | .control e => .control e
  | e => .sink e

/-! ### What one call does -/

/-- What a step leaves: the adopted `facts` never change here. -/
structure StepLaw (facts : Option (InterpretationFacts δ)) (new : Fused σ δ)
    (r : Record δ τ ε κ Ω) : Prop where
  interpretation : new.interpretation = facts
  screened : ∃ heard guard, r.heard = heard.map .effect ∧
    Screened facts heard r.sent guard ∧
    ∀ e, guard.verdict = some e → r.reply = .error (causeOf e)
  error : r.reply.isError = true → new.state = .failed
  suspended : ∀ b, new.state = .suspended b →
    r.reply.boundary? = some b ∧ ∀ f, new.interpretation = some f → b.facts = f

/-- What a resume leaves. -/
structure ResumeLaw (id : BoundaryId) (action : BoundaryAction) (old new : Fused σ δ)
    (r : Record δ τ ε κ Ω) : Prop where
  sent : r.sent = []
  heard : r.heard = [] ∨ r.heard = [.resumed id action]
  current : ∀ x ∈ r.heard, ∃ b, old.state = .suspended b ∧ b.id = id ∧
    action.permits b.facts = true
  quiet : r.reply.boundary? = none
  error : r.reply.isError = true → new.state = .failed
  resting : ∀ b, new.state ≠ .suspended b
  resumed : r.reply = .resumed → r.heard = [.resumed id action]
  interpretation : new.interpretation = old.interpretation ∨ r.reply = .resumed
  adopted : r.reply = .resumed → ∃ b, old.state = .suspended b ∧ b.id = id ∧
    action.permits b.facts = true ∧
    new.interpretation =
      if action = .adoptInterpretation then some b.facts else old.interpretation

theorem screened_nil (facts : Option (InterpretationFacts δ)) :
    Screened facts [] [] (Guard.new facts : Guard δ τ) :=
  ⟨rfl, by simp, by simp, by simp, Or.inl rfl⟩

/-- A step that does not reach the decoder. -/
theorem StepLaw.silent {facts : Option (InterpretationFacts δ)} {new : Fused σ δ}
    {op : ControlledOp δ τ Ω} {reply : Reply δ τ ε κ} (hsame : new.interpretation = facts)
    (herror : reply.isError = true → new.state = .failed)
    (hsuspended : ∀ b, new.state = .suspended b →
      reply.boundary? = some b ∧ ∀ f, new.interpretation = some f → b.facts = f) :
    StepLaw facts new ⟨op, reply, [], []⟩ where
  interpretation := hsame
  screened := ⟨[], Guard.new facts, rfl, screened_nil _, fun e he => by cases he⟩
  error := herror
  suspended := hsuspended

/-- A resume that ends in an error, with what the decoder heard. -/
theorem ResumeLaw.failed {id : BoundaryId} {action : BoundaryAction} {old new : Fused σ δ}
    {op : ControlledOp δ τ Ω} {e : StepError τ ε} {heard : List (Heard δ τ)}
    (hnew : new.state = .failed) (hsame : new.interpretation = old.interpretation)
    (hheard : heard = [] ∨ heard = [.resumed id action])
    (hcurrent : ∀ x ∈ heard, ∃ b, old.state = .suspended b ∧ b.id = id ∧
      action.permits b.facts = true) :
    ResumeLaw id action old new (⟨op, .error e, heard, []⟩ : Record δ τ ε κ Ω) where
  sent := rfl
  heard := hheard
  current := hcurrent
  quiet := rfl
  error := fun _ => hnew
  resting := fun b => by simp [hnew]
  resumed := fun h => by cases h
  interpretation := Or.inl hsame
  adopted := fun h => by cases h

theorem Adopted.append {records : List (Record δ τ ε κ Ω)} {f : InterpretationFacts δ}
    (h : Adopted records f) (more : List (Record δ τ ε κ Ω)) : Adopted (records ++ more) f := by
  obtain ⟨before, r, after, rfl, hr⟩ := h
  exact ⟨before, r, after ++ more, by simp, hr⟩

theorem pending_append (records : List (Record δ τ ε κ Ω)) (r : Record δ τ ε κ Ω) :
    pending (records ++ [r]) = r.reply.boundary? := by
  simp [pending]

/-- What was adopted stays so, and the last call may add to it. -/
theorem adopted_append {records : List (Record δ τ ε κ Ω)} {r : Record δ τ ε κ Ω}
    {f : InterpretationFacts δ} :
    Adopted (records ++ [r]) f ↔ Adopted records f ∨ r.Adopts records f := by
  constructor
  · rintro ⟨before, q, after, hsplit, hq⟩
    rcases List.eq_nil_or_concat after with rfl | ⟨rest, last, rfl⟩
    · obtain ⟨rfl, hlast⟩ := List.append_inj' hsplit rfl
      obtain rfl : r = q := by simpa using hlast
      exact Or.inr hq
    · have hsplit' : records ++ [r] = (before ++ q :: rest) ++ [last] := by simpa using hsplit
      obtain ⟨rfl, -⟩ := List.append_inj' hsplit' rfl
      exact Or.inl ⟨before, q, rest, rfl, hq⟩
  · rintro (hold | hr)
    · exact hold.append [r]
    · exact ⟨records, r, [], rfl, hr⟩

variable [DecidableEq δ] (dec : ScriptedDecoder σ δ τ ε κ)

/-- The checks of a progress let a suspension through only with the adopted facts. -/
theorem accept_suspended {interpretation : Option (InterpretationFacts δ)}
    {progress : ControlledProgress δ} {state : FusedState δ} {b : DecodeBoundary δ}
    (h : Fused.accept interpretation progress = .ok state) (hstate : state = .suspended b) :
    (∃ consumed, progress = .suspended consumed b) ∧
      ∀ f, interpretation = some f → b.facts = f := by
  subst hstate
  cases progress with
  | decode p =>
    obtain ⟨consumed, event⟩ := p
    cases event <;> simp only [Fused.accept] at h <;> (repeat' split at h) <;> simp at h
  | suspended consumed boundary =>
    simp only [Fused.accept] at h
    split at h
    · cases h
    · rename_i hsame
      obtain rfl : boundary = b := by simpa using h
      refine ⟨⟨consumed, rfl⟩, fun f hf => ?_⟩
      simp only [hf, Option.any_some, bne_iff_ne, ne_eq, not_not] at hsame
      exact hsame.symm

theorem stepGuarded_law (input : Input) (sink : Sink δ τ Ω) (pulse : Option (Pulse Ω))
    (self : Fused σ δ) (w : Ω) (op : ControlledOp δ τ Ω) :
    let run := Fused.stepGuarded dec.native input (recorded sink) (pulse.map Pulse.beside)
      (self.mapInner fun inner => (inner, [])) (w, [])
    StepLaw self.interpretation (run.2.1.mapInner Prod.fst)
      (⟨op, .ofStepControlled run.1, run.2.1.inner.2, run.2.2.2⟩ : Record δ τ ε κ Ω) := by
  intro run
  generalize hscript : (dec.stepControlled input self.inner).run (guardedSink (recorded sink))
    ((pulse.map Pulse.beside).map Pulse.beside) ((w, []), Guard.new self.interpretation) = script
  obtain ⟨⟨answer, inner⟩, told, ⟨w', sent⟩, guard⟩ := script
  have hscreened : Screened self.interpretation told sent guard := by
    simpa using run_screened (screened_nil self.interpretation) hscript
  have hnative : dec.native.stepControlled input (guardedSink (recorded sink))
      ((pulse.map Pulse.beside).map Pulse.beside) (self.inner, ([] : List (Heard δ τ)))
      ((w, []), Guard.new self.interpretation)
      = (answer, (inner, told.map .effect), (w', sent), guard) := by
    simp only [ScriptedDecoder.native, hscript, List.nil_append]
  -- An error that is the guard's verdict, or that comes without one.
  have hfailed : ∀ e : StepError τ ε, (∀ c, guard.verdict = some c → e = causeOf c) →
      StepLaw self.interpretation
        ⟨inner, .failed, self.controlled, self.interpretation, self.detailsTaken⟩
        (⟨op, .error e, told.map .effect, sent⟩ : Record δ τ ε κ Ω) := by
    intro e he
    refine ⟨rfl, ⟨told, guard, rfl, hscreened, ?_⟩, fun _ => rfl, ?_⟩
    · intro c hc
      rw [he c hc]
    · intro b hb
      cases hb
  simp only [run, Fused.stepGuarded, Fused.mapInner, hnative]
  cases hrefused : guard.refused with
  | some c =>
    refine hfailed (.control c) fun e he => ?_
    obtain rfl : SinkError.control c = e := by simpa [Guard.verdict, hrefused] using he
    rfl
  | none =>
    cases hsink : guard.sinkError with
    | some cause =>
      refine hfailed (.sink (.retained cause)) fun e he => ?_
      obtain rfl : SinkError.retained cause = e := by
        simpa [Guard.verdict, hrefused, hsink] using he
      rfl
    | none =>
      have hquiet : guard.verdict = none := Guard.verdict_eq_none.mpr ⟨hrefused, hsink⟩
      have hfree : ∀ e : StepError τ ε, ∀ c, guard.verdict = some c → e = causeOf c := by
        intro e c hc
        rw [hquiet] at hc
        cases hc
      cases answer with
      | error e => exact hfailed e (hfree e)
      | ok progress =>
        simp only [checkPulse_beside]
        cases (checkPulse pulse w').1 with
        | error reason => exact hfailed _ (hfree _)
        | ok u =>
          cases haccept : Fused.accept self.interpretation progress with
          | error e => exact hfailed _ (hfree _)
          | ok state =>
            refine ⟨rfl, ⟨told, guard, rfl, hscreened, fun c hc => ?_⟩, fun herror => ?_,
              fun b hb => ?_⟩
            · rw [hquiet] at hc
              cases hc
            · rw [isError_ofStepControlled] at herror
              cases herror
            · obtain ⟨⟨consumed, rfl⟩, hfacts⟩ := accept_suspended haccept hb
              exact ⟨rfl, hfacts⟩

theorem step_law (input : Input) (sink : Sink δ τ Ω) (pulse : Option (Pulse Ω))
    (s : Fused σ δ × Ω) (hcurrent : ∀ b f, s.1.state = .suspended b →
      s.1.interpretation = some f → b.facts = f) :
    let call := controlledCall dec s (.step input sink pulse)
    StepLaw s.1.interpretation call.2.1 call.1 := by
  obtain ⟨self, w⟩ := s
  simp only [controlledCall, Fused.stepControlled, Fused.mapInner]
  cases hstate : self.state with
  | done info =>
    refine StepLaw.silent rfl (fun herror => by cases herror) fun b hb => ?_
    cases hb
  | failed =>
    refine StepLaw.silent rfl (fun _ => rfl) fun b hb => ?_
    cases hb
  | suspended boundary =>
    simp only [checkPulse_beside]
    cases (checkPulse pulse w).1 with
    | error reason =>
      refine StepLaw.silent rfl (fun _ => rfl) fun b hb => ?_
      cases hb
    | ok u =>
      refine StepLaw.silent rfl (fun herror => by cases herror) fun b hb => ?_
      obtain rfl : boundary = b := by simpa using hb
      exact ⟨rfl, fun f hf => hcurrent boundary f hstate hf⟩
  | running =>
    simp only [checkPulse_beside]
    cases (checkPulse pulse w).1 with
    | error reason =>
      refine StepLaw.silent rfl (fun _ => rfl) fun b hb => ?_
      cases hb
    | ok u =>
      exact stepGuarded_law dec input sink pulse
        ⟨self.inner, .running, true, self.interpretation, self.detailsTaken⟩ _ _

theorem resume_law (id : BoundaryId) (action : BoundaryAction) (pulse : Option (Pulse Ω))
    (s : Fused σ δ × Ω) :
    let call := controlledCall dec s (.resume id action pulse)
    ResumeLaw id action s.1 call.2.1 call.1 := by
  obtain ⟨self, w⟩ := s
  simp only [controlledCall, Fused.resume, Fused.mapInner]
  cases hstate : self.state with
  | running => exact ResumeLaw.failed rfl rfl (Or.inl rfl) (by simp)
  | done info => exact ResumeLaw.failed rfl rfl (Or.inl rfl) (by simp)
  | failed => exact ResumeLaw.failed rfl rfl (Or.inl rfl) (by simp)
  | suspended boundary =>
    cases hpulse : checkPulse pulse w with
    | mk answer w₁ =>
      cases answer with
      | error reason => exact ResumeLaw.failed rfl rfl (Or.inl rfl) (by simp)
      | ok u =>
        simp only
        split
        · exact ResumeLaw.failed rfl rfl (Or.inl rfl) (by simp)
        · rename_i hvalid
          simp only [Bool.or_eq_true, bne_iff_ne, ne_eq, Bool.not_eq_true', not_or, not_not,
            Bool.not_eq_false] at hvalid
          obtain ⟨hid, hpermits⟩ := hvalid
          have hcurrent : ∀ x ∈ ([.resumed id action] : List (Heard δ τ)),
              ∃ b, self.state = .suspended b ∧ b.id = id ∧ action.permits b.facts = true :=
            fun _ _ => ⟨boundary, hstate, hid, hpermits⟩
          generalize hnative : (dec.resume id action self.inner).run pulse w₁ = run
          obtain ⟨⟨answer, inner⟩, w₂⟩ := run
          simp only [ScriptedDecoder.native, hnative, List.nil_append]
          cases answer with
          | error e => exact ResumeLaw.failed rfl rfl (Or.inr rfl) hcurrent
          | ok u =>
            simp only
            cases hafter : checkPulse pulse w₂ with
            | mk answer w₃ =>
              cases answer with
              | error reason => exact ResumeLaw.failed rfl rfl (Or.inr rfl) hcurrent
              | ok u =>
                refine ⟨rfl, Or.inr rfl, hcurrent, rfl, fun h => (by cases h), fun b h => ?_,
                  fun _ => rfl, Or.inr rfl, fun _ => ⟨boundary, hstate, hid, hpermits, ?_⟩⟩
                · cases h
                · simp

/-! ### Runs -/

/-- What ties the adapter to the records so far. -/
structure Tracks (records : List (Record δ τ ε κ Ω)) (s : Fused σ δ × Ω) : Prop where
  adopted : ∀ f, Adopted records f ↔ s.1.interpretation = some f
  pending : ∀ b, s.1.state = .suspended b → pending records = some b
  current : ∀ b f, s.1.state = .suspended b → s.1.interpretation = some f → b.facts = f

/-- One call keeps what ties the adapter to the records. -/
theorem tracks_call (records : List (Record δ τ ε κ Ω)) (s : Fused σ δ × Ω)
    (op : ControlledOp δ τ Ω) (h : Tracks records s) :
    Tracks (records ++ [(controlledCall dec s op).1]) (controlledCall dec s op).2 := by
  cases op with
  | step input sink pulse =>
    have law := step_law dec input sink pulse s h.current
    generalize hcall : controlledCall dec s (.step input sink pulse) = call at law
    have hop : call.1.op = .step input sink pulse := by rw [← hcall]; rfl
    refine ⟨fun f => ?_, fun b hb => ?_, fun b f hb hf => (law.suspended b hb).2 f hf⟩
    · rw [adopted_append, h.adopted f, law.interpretation, or_iff_left]
      rintro ⟨boundary, p, -, hresume, -⟩
      rw [hop] at hresume
      cases hresume
    · rw [pending_append]
      exact (law.suspended b hb).1
  | resume id action pulse =>
    have law := resume_law dec id action pulse s
    generalize hcall : controlledCall dec s (.resume id action pulse) = call at law
    have hop : call.1.op = .resume id action pulse := by rw [← hcall]; rfl
    refine ⟨fun f => ?_, fun b hb => absurd hb (law.resting b),
      fun b f hb => absurd hb (law.resting b)⟩
    rw [adopted_append, h.adopted f]
    by_cases hresumed : call.1.reply = .resumed
    · obtain ⟨b, hstate, rfl, hpermits, hnext⟩ := law.adopted hresumed
      have hpending := h.pending b hstate
      rw [hnext]
      by_cases haction : action = .adoptInterpretation
      · subst haction
        rw [if_pos rfl, Option.some.injEq]
        constructor
        · rintro (hold | ⟨b', p, hb', -, -, -, rfl⟩)
          · exact h.current b f hstate hold
          · rw [hpending] at hb'
            rw [Option.some.inj hb']
        · intro hfacts
          exact Or.inr ⟨b, pulse, hpending, hop, hpermits, hresumed, hfacts⟩
      · rw [if_neg haction, or_iff_left]
        rintro ⟨b', p, -, hresume, -⟩
        rw [hop] at hresume
        simp only [ControlledOp.resume.injEq] at hresume
        exact haction hresume.2.1
    · have hsame := law.interpretation.resolve_right hresumed
      rw [hsame, or_iff_left]
      rintro ⟨b', p, -, -, -, hreply, -⟩
      exact hresumed hreply

/-- The records of a run from a new adapter. -/
def recordsOf (inner : σ) (controlled : Bool) (w : Ω) (ops : List (ControlledOp δ τ Ω)) :
    List (Record δ τ ε κ Ω) :=
  outputs (controlledCall dec) (Fused.new inner controlled, w) ops

theorem tracks_run (inner : σ) (controlled : Bool) (w : Ω) (ops : List (ControlledOp δ τ Ω)) :
    Tracks (recordsOf dec inner controlled w ops)
      (final (controlledCall dec) (Fused.new inner controlled, w) ops) := by
  have hstart : Tracks ([] : List (Record δ τ ε κ Ω)) (Fused.new inner controlled, w) := by
    refine ⟨fun f => ?_, fun b hb => (by cases hb), fun b f hb => (by cases hb)⟩
    constructor
    · rintro ⟨before, r, after, hsplit, -⟩
      simp at hsplit
    · intro hf
      cases hf
  exact history (tracks_call dec) hstart ops

/-- A failed adapter answers `Finished`, and reaches neither the decoder nor the sink. -/
theorem call_of_failed {s : Fused σ δ × Ω} (hs : s.1.state = .failed) (op : ControlledOp δ τ Ω) :
    let call := controlledCall dec s op
    (call.1.reply = .error .finished ∧ call.1.heard = [] ∧ call.1.sent = []) ∧
      call.2.1.state = .failed := by
  obtain ⟨self, w⟩ := s
  change self.state = .failed at hs
  intro call
  cases op with
  | step input sink pulse =>
    have hcall : call = (⟨.step input sink pulse, .error .finished, [], []⟩,
        ⟨self.inner, self.state, true, self.interpretation, self.detailsTaken⟩, w) := by
      simp only [call, controlledCall, Fused.stepControlled, Fused.mapInner, hs]
      rfl
    rw [hcall]
    exact ⟨⟨rfl, rfl, rfl⟩, hs⟩
  | resume id action pulse =>
    have hcall : call = (⟨.resume id action pulse, .error .finished, [], []⟩,
        ⟨self.inner, .failed, self.controlled, self.interpretation, self.detailsTaken⟩, w) := by
      simp only [call, controlledCall, Fused.resume, Fused.mapInner, hs]
      rfl
    rw [hcall]
    exact ⟨⟨rfl, rfl, rfl⟩, rfl⟩

/-- A call that ends in an error leaves the adapter failed. -/
theorem failed_of_call_error {s : Fused σ δ × Ω} {op : ControlledOp δ τ Ω}
    (hcurrent : ∀ b f, s.1.state = .suspended b → s.1.interpretation = some f → b.facts = f)
    (h : (controlledCall dec s op).1.reply.isError = true) :
    (controlledCall dec s op).2.1.state = .failed := by
  cases op with
  | step input sink pulse => exact (step_law dec input sink pulse s hcurrent).error h
  | resume id action pulse => exact (resume_law dec id action pulse s).error h

/-- Every record after a failure is empty. -/
theorem silent_after {s : Fused σ δ × Ω} (hs : s.1.state = .failed)
    (ops : List (ControlledOp δ τ Ω)) :
    ∀ r ∈ outputs (controlledCall dec) s ops,
      r.reply = .error .finished ∧ r.heard = [] ∧ r.sent = [] :=
  outputs_of_preserved (A := fun _ => True) (P := fun s : Fused σ δ × Ω => s.1.state = .failed)
    (fun _ op _ hs => (call_of_failed dec hs op).2)
    (fun _ op _ hs => (call_of_failed dec hs op).1) (fun _ _ => trivial) hs

/-- Take any call `op` of a run of a new adapter, with the calls `pre` before it and `post`
after it. An effect reaches the caller's sink only after an accepted reply adopted an
interpretation, and fits it. An effect that was refused or failed is the error of the call,
whatever the decoder answers; so is a failure of the caller's sink; and after an error no
call reaches the decoder or the sink. The decoder is told only a reply to the boundary that
the previous call reported, with its identity and permitted by its facts. And whatever a run
adopts, it adopts nothing else. -/
theorem guarded_run (inner : σ) (controlled : Bool) (w : Ω) (pre post : List (ControlledOp δ τ Ω))
    (op : ControlledOp δ τ Ω) :
    let before := recordsOf dec inner controlled w pre
    let call := controlledCall dec
      (final (controlledCall dec) (Fused.new inner controlled, w) pre) op
    let after := outputs (controlledCall dec) call.2 post
    (∀ x ∈ call.1.sent, ∃ f, Adopted before f ∧ x.call.Agrees f) ∧
    (∀ x e, .effect x ∈ call.1.heard → x.answer = .error e →
      call.1.reply = .error (causeOf e)) ∧
    (∀ x ∈ call.1.sent, ∀ e, x.answer = .error e →
      call.1.reply = .error (.sink (.retained e))) ∧
    (call.1.reply.isError = true →
      ∀ r ∈ after, r.reply = .error .finished ∧ r.heard = [] ∧ r.sent = []) ∧
    (∀ id action, .resumed id action ∈ call.1.heard → ∃ b pulse,
      pending before = some b ∧ op = .resume id action pulse ∧ b.id = id ∧
        action.permits b.facts = true) ∧
    (∀ f g, Adopted before f → Adopted (recordsOf dec inner controlled w (pre ++ op :: post)) g →
      f = g) := by
  intro before call after
  have htracks : Tracks before _ := tracks_run dec inner controlled w pre
  refine ⟨?_, ?_, ?_, ?_, ?_, ?_⟩
  · intro x hx
    cases op with
    | step input sink pulse =>
      obtain ⟨heard, guard, -, hscreened, -⟩ :=
        (step_law dec input sink pulse _ htracks.current).screened
      obtain ⟨f, hf, hagrees⟩ := hscreened.agrees x hx
      exact ⟨f, (htracks.adopted f).mpr hf, hagrees⟩
    | resume id action pulse =>
      have hsent : call.1.sent = [] := (resume_law dec id action pulse _).sent
      rw [hsent] at hx
      cases hx
  · intro x e hx he
    cases op with
    | step input sink pulse =>
      obtain ⟨heard, guard, hheard, hscreened, hverdict⟩ :=
        (step_law dec input sink pulse _ htracks.current).screened
      have hx' : x ∈ heard := by
        have hmem : Heard.effect x ∈ heard.map Heard.effect := hheard ▸ hx
        simpa using hmem
      exact hverdict e (hscreened.told x hx' e he)
    | resume id action pulse =>
      have hheard : call.1.heard = [] ∨ call.1.heard = [.resumed id action] :=
        (resume_law dec id action pulse _).heard
      rcases hheard with hheard | hheard <;> simp [hheard] at hx
  · intro x hx e he
    cases op with
    | step input sink pulse =>
      obtain ⟨heard, guard, -, hscreened, hverdict⟩ :=
        (step_law dec input sink pulse _ htracks.current).screened
      exact hverdict _ (hscreened.failed x hx e he)
    | resume id action pulse =>
      have hsent : call.1.sent = [] := (resume_law dec id action pulse _).sent
      rw [hsent] at hx
      cases hx
  · intro herror
    exact silent_after dec (failed_of_call_error dec htracks.current herror) post
  · intro id action hx
    cases op with
    | step input sink pulse =>
      obtain ⟨heard, guard, hheard, -, -⟩ :=
        (step_law dec input sink pulse _ htracks.current).screened
      have hmem : Heard.resumed id action ∈ heard.map Heard.effect := hheard ▸ hx
      simp at hmem
    | resume id' action' pulse =>
      have law := resume_law dec id' action' pulse
        (final (controlledCall dec) (Fused.new inner controlled, w) pre)
      have hmem : Heard.resumed id action ∈ ([.resumed id' action'] : List (Heard δ τ)) := by
        rcases law.heard with hheard | hheard
        · exact absurd hx (by rw [hheard]; simp)
        · exact hheard ▸ hx
      obtain ⟨rfl, rfl⟩ : id = id' ∧ action = action' := by simpa using hmem
      obtain ⟨b, hstate, hid, hpermits⟩ := law.current _ hx
      exact ⟨b, pulse, htracks.pending b hstate, rfl, hid, hpermits⟩
  · intro f g hf hg
    -- Both are the facts that the adapter holds at the end.
    have hend := tracks_run dec inner controlled w (pre ++ op :: post)
    have hf' : Adopted (recordsOf dec inner controlled w (pre ++ op :: post)) f := by
      rw [recordsOf, outputs_append]
      exact hf.append _
    have hfacts := (hend.adopted f).mp hf'
    have hfacts' := (hend.adopted g).mp hg
    exact Option.some.inj (hfacts.symm.trans hfacts')

/-! ### A decoder that ignores a refusal -/

/-- Every step finishes the sink, and reports progress whatever the answer. -/
def heedless : ScriptedDecoder Unit Unit Unit Unit Unit where
  step := fun _ _ => .ret (.ok ⟨0, .need⟩, ())
  stepControlled := fun _ _ => .effect .finish fun _ => .ret (.ok (.decode ⟨0, .need⟩), ())
  resume := fun _ _ _ => .ret (.ok (), ())
  takeDetails := fun _ => (none, ())

example :
    (recordsOf heedless () true 0
        [.step Input.empty openSink none, .step Input.empty openSink none]).map
      (fun r => (r.reply, r.heard.length, r.sent.length)) =
    [(.error (.control .outputBeforeInterpretation), 1, 0), (.error .finished, 0, 0)] := by
  decide

end Zencodec.Incremental
