/-
Native decoders as scripts of what they do with the sink and the pulse.

A decoder that is given a sink may call it in any order, go on after an error, and decide
each call by the answers so far. `Script` is such a program: a tree that branches on the
answers. `ScriptedDecoder.native` runs the scripts of a decoder, and writes down what the
decoder hears: each answer of the sink, and each reply it is resumed with.

* `recorded` — the caller's sink, with each effect and its answer written down;
* `Screened` — what ties the effects asked for and those let through to the guard;
* `run_screened` — a whole script behind the guard keeps it.
-/
import Zencodec.Incremental.Fused

namespace Zencodec.Incremental

variable {σ δ τ ε κ α Ω : Type}

/-! ### Effects on a sink -/

/-- A call that has an effect on a sink. -/
inductive SinkCall (δ : Type) where
  | start (width height : ℕ) (descriptor : δ)
  | provideNext (y height width : ℕ) (descriptor : δ)
  | providePass (batch : BatchMeta) (height width : ℕ) (descriptor : δ)
  | finish
  deriving DecidableEq, Repr

def Sink.call (sink : Sink δ τ Ω) : SinkCall δ → Ω → Except (SinkError τ) Unit × Ω
  | .start width height descriptor => sink.start width height descriptor
  | .provideNext y height width descriptor => sink.provideNextBuffer y height width descriptor
  | .providePass batch height width descriptor =>
    sink.providePassBuffer batch height width descriptor
  | .finish => sink.finish

/-- An effect and the sink's answer to it. -/
structure Exchange (δ τ : Type) where
  call : SinkCall δ
  answer : Except (SinkError τ) Unit

/-- The effect fits the facts: their width, height and descriptor, and rows of theirs. -/
def SinkCall.Agrees (facts : InterpretationFacts δ) : SinkCall δ → Prop
  | .start width height descriptor =>
    width = facts.width ∧ height = facts.height ∧ facts.descriptor = some descriptor
  | .provideNext y height width descriptor =>
    width = facts.width ∧ y + height ≤ facts.height ∧ facts.descriptor = some descriptor
  | .providePass batch height width descriptor =>
    width = facts.width ∧ batch.y + height ≤ facts.height ∧ facts.descriptor = some descriptor
  | .finish => True

/-- The caller's sink; the world also holds the effects so far. -/
def recorded (sink : Sink δ τ Ω) : Sink δ τ (Ω × List (Exchange δ τ)) where
  maxBufferRows := fun (w, _) => sink.maxBufferRows w
  start := fun width height descriptor (w, sent) =>
    let (answer, w) := sink.start width height descriptor w
    (answer, w, sent ++ [⟨.start width height descriptor, answer⟩])
  provideNextBuffer := fun y height width descriptor (w, sent) =>
    let (answer, w) := sink.provideNextBuffer y height width descriptor w
    (answer, w, sent ++ [⟨.provideNext y height width descriptor, answer⟩])
  providePassBuffer := fun batch height width descriptor (w, sent) =>
    let (answer, w) := sink.providePassBuffer batch height width descriptor w
    (answer, w, sent ++ [⟨.providePass batch height width descriptor, answer⟩])
  acceptsProvisional := fun (w, _) => sink.acceptsProvisional w
  finish := fun (w, sent) =>
    let (answer, w) := sink.finish w
    (answer, w, sent ++ [⟨.finish, answer⟩])

theorem recorded_call (sink : Sink δ τ Ω) (call : SinkCall δ) (w : Ω)
    (sent : List (Exchange δ τ)) :
    (recorded sink).call call (w, sent) =
      ((sink.call call w).1, (sink.call call w).2, sent ++ [⟨call, (sink.call call w).1⟩]) := by
  cases call <;> rfl

/-! ### Scripts -/

/-- What a decoder does with a sink and a pulse before it returns. -/
inductive Script (δ τ α : Type) where
  | ret (a : α)
  | effect (call : SinkCall δ) (next : Except (SinkError τ) Unit → Script δ τ α)
  | maxBufferRows (next : ℕ → Script δ τ α)
  | acceptsProvisional (next : Bool → Script δ τ α)
  | poll (next : Except StopReason Unit → Script δ τ α)

namespace Script

/-- The result, the effects asked for with their answers, and the world left behind. -/
def run (sink : Sink δ τ Ω) (pulse : Option (Pulse Ω)) :
    Script δ τ α → Ω → α × List (Exchange δ τ) × Ω
  | .ret a, w => (a, [], w)
  | .effect call next, w =>
    let (answer, w) := sink.call call w
    let (a, heard, w) := (next answer).run sink pulse w
    (a, ⟨call, answer⟩ :: heard, w)
  | .maxBufferRows next, w => (next (sink.maxBufferRows w)).run sink pulse w
  | .acceptsProvisional next, w => (next (sink.acceptsProvisional w)).run sink pulse w
  | .poll next, w =>
    let (answer, w) := checkPulse pulse w
    (next answer).run sink pulse w

end Script

/-- What a decoder does with a pulse alone. -/
inductive Polls (α : Type) where
  | ret (a : α)
  | poll (next : Except StopReason Unit → Polls α)

def Polls.run (pulse : Option (Pulse Ω)) : Polls α → Ω → α × Ω
  | .ret a, w => (a, w)
  | .poll next, w =>
    let (answer, w) := checkPulse pulse w
    (next answer).run pulse w

/-- What a native decoder is told. -/
inductive Heard (δ τ : Type) where
  | effect (x : Exchange δ τ)
  | resumed (id : BoundaryId) (action : BoundaryAction)

/-- A native decoder as the scripts of its methods. -/
structure ScriptedDecoder (σ δ τ ε κ : Type) where
  step : Input → σ → Script δ τ (Except (StepError τ ε) (Progress δ) × σ)
  stepControlled : Input → σ → Script δ τ (Except (StepError τ ε) (ControlledProgress δ) × σ)
  resume : BoundaryId → BoundaryAction → σ → Polls (Except (StepError τ ε) Unit × σ)
  takeDetails : σ → Option κ × σ

/-- The decoder that plays these scripts; its state also holds what it was told so far. -/
def ScriptedDecoder.native (dec : ScriptedDecoder σ δ τ ε κ) :
    NativeDecoder (σ × List (Heard δ τ)) δ τ ε κ where
  step := fun input sink pulse (inner, heard) w =>
    let ((answer, inner), told, w) := (dec.step input inner).run sink pulse w
    (answer, (inner, heard ++ told.map .effect), w)
  stepControlled := fun input sink pulse (inner, heard) w =>
    let ((answer, inner), told, w) := (dec.stepControlled input inner).run sink pulse w
    (answer, (inner, heard ++ told.map .effect), w)
  resume := fun id action pulse (inner, heard) w =>
    let ((answer, inner), w) := (dec.resume id action inner).run pulse w
    (answer, (inner, heard ++ [.resumed id action]), w)
  takeDetails := fun (inner, heard) =>
    let (details, inner) := dec.takeDetails inner
    (details, (inner, heard))

/-! ### Behind the guard -/

/-- The error that every later effect gets. -/
def Guard.verdict (guard : Guard δ τ) : Option (SinkError τ) :=
  match guard.refused, guard.sinkError with
  | some error, _ => some (.control error)
  | none, some cause => some (.retained cause)
  | none, none => none

/-- What the guard knows of the effects asked for (`heard`) and let through (`sent`). -/
structure Screened (facts : Option (InterpretationFacts δ)) (heard sent : List (Exchange δ τ))
    (guard : Guard δ τ) : Prop where
  facts_eq : guard.facts = facts
  agrees : ∀ x ∈ sent, ∃ f, facts = some f ∧ x.call.Agrees f
  told : ∀ x ∈ heard, ∀ e, x.answer = .error e → guard.verdict = some e
  failed : ∀ x ∈ sent, ∀ e, x.answer = .error e → guard.verdict = some (.retained e)
  single : guard.refused = none ∨ guard.sinkError = none

namespace Guard

theorem verdict_eq_none {guard : Guard δ τ} :
    guard.verdict = none ↔ guard.refused = none ∧ guard.sinkError = none := by
  unfold verdict
  cases guard.refused <;> cases guard.sinkError <;> simp

/-- What becomes of an effect with this answer of the checks. -/
def passed (self : Guard δ τ) (answer : Except (SinkError τ) Unit)
    (call : Ω → Except (SinkError τ) Unit × Ω) (w : Ω) :
    Except (SinkError τ) Unit × Ω × Guard δ τ :=
  match answer with
  | .error e => (.error e, w, self)
  | .ok _ =>
    let (result, w) := call w
    let (result, self) := self.retainSinkFailure result
    (result, w, self)

variable [DecidableEq δ]

/-- The checks of `start`. -/
def screenStart (self : Guard δ τ) (width height : ℕ) (descriptor : δ) :
    Except (SinkError τ) Unit × Guard δ τ :=
  match self.check (some width) (some (0, height)) (some descriptor) with
  | (.error e, self) => (.error e, self)
  | (.ok _, self) =>
    if self.facts.any (fun facts => facts.height != height) then
      (.error (.control .inconsistentFacts), { self with refused := some .inconsistentFacts })
    else (.ok (), self)

/-- All that the guard checks before it passes an effect on. -/
def screen (self : Guard δ τ) : SinkCall δ → Except (SinkError τ) Unit × Guard δ τ
  | .start width height descriptor => self.screenStart width height descriptor
  | .provideNext y height width descriptor =>
    self.check (some width) (some (y, height)) (some descriptor)
  | .providePass batch height width descriptor =>
    self.check (some width) (some (batch.y, height)) (some descriptor)
  | .finish => self.check none none none

theorem check_ok {self : Guard δ τ} {width : Option ℕ} {extent : Option (ℕ × ℕ)}
    {descriptor : Option δ} (h : (self.check width extent descriptor).1 = .ok ()) :
    (self.check width extent descriptor).2 = self ∧ self.verdict = none ∧
      self.objection width extent descriptor = none := by
  unfold check at h ⊢
  cases hsink : self.sinkError with
  | some cause => simp [hsink] at h
  | none =>
    cases hrefused : self.refused.or (self.objection width extent descriptor) with
    | some error => simp [hsink, hrefused] at h
    | none =>
      obtain ⟨hnone, hobjection⟩ := Option.or_eq_none_iff.mp hrefused
      exact ⟨rfl, verdict_eq_none.mpr ⟨hnone, hsink⟩, hobjection⟩

theorem check_error {self : Guard δ τ} {width : Option ℕ} {extent : Option (ℕ × ℕ)}
    {descriptor : Option δ} {e : SinkError τ}
    (hsingle : self.refused = none ∨ self.sinkError = none)
    (h : (self.check width extent descriptor).1 = .error e) :
    let after := (self.check width extent descriptor).2
    after.verdict = some e ∧ after.facts = self.facts ∧
      (after.refused = none ∨ after.sinkError = none) ∧
      ∀ e', self.verdict = some e' → e' = e := by
  intro after
  unfold check at h
  cases hsink : self.sinkError with
  | some cause =>
    have hrefused : self.refused = none := by
      rcases hsingle with hsingle | hsingle
      · exact hsingle
      · rw [hsink] at hsingle
        cases hsingle
    rw [hsink] at h
    obtain rfl : SinkError.retained cause = e := by simpa using h
    have hafter : after = self := by simp [after, check, hsink]
    have hverdict : self.verdict = some (.retained cause) := by simp [verdict, hrefused, hsink]
    rw [hafter]
    refine ⟨hverdict, rfl, Or.inl hrefused, fun e' he' => ?_⟩
    exact Option.some.inj (he'.symm.trans hverdict)
  | none =>
    cases hrefused : self.refused.or (self.objection width extent descriptor) with
    | none => simp [hsink, hrefused] at h
    | some error =>
      obtain rfl : SinkError.control error = e := by simpa [hsink, hrefused] using h
      have hafter : after = { self with refused := some error } := by
        simp [after, check, hsink, hrefused]
      rw [hafter]
      refine ⟨rfl, rfl, Or.inr hsink, fun e' he' => ?_⟩
      -- A refusal that was there before is the one that is repeated.
      cases hold : self.refused with
      | none => simp [verdict, hold, hsink] at he'
      | some old =>
        obtain rfl : old = error := by simpa [hold] using hrefused
        simpa [verdict, hold, eq_comm] using he'

theorem agrees_of_objection {self : Guard δ τ} {width y height : ℕ} {descriptor : δ}
    (h : self.objection (some width) (some (y, height)) (some descriptor) = none) :
    ∃ f, self.facts = some f ∧ width = f.width ∧ y + height ≤ f.height ∧
      f.descriptor = some descriptor := by
  unfold objection at h
  cases hfacts : self.facts with
  | none => simp [hfacts] at h
  | some f =>
    rw [hfacts] at h
    simp only [Option.any_some] at h
    split at h
    · cases h
    · rename_i hfine
      simp only [Bool.or_eq_true, bne_iff_ne, decide_eq_true_eq, not_or, not_not, not_le,
        not_lt] at hfine
      exact ⟨f, rfl, hfine.1.1, hfine.2.2, hfine.1.2⟩

theorem isSome_of_objection {self : Guard δ τ} {width : Option ℕ} {extent : Option (ℕ × ℕ)}
    {descriptor : Option δ} (h : self.objection width extent descriptor = none) :
    ∃ f, self.facts = some f := by
  cases hfacts : self.facts with
  | none => simp [objection, hfacts] at h
  | some f => exact ⟨f, rfl⟩

theorem screenStart_of_error {self : Guard δ τ} {width height : ℕ} {descriptor : δ}
    {e : SinkError τ}
    (h : (self.check (some width) (some (0, height)) (some descriptor)).1 = .error e) :
    self.screenStart width height descriptor =
      self.check (some width) (some (0, height)) (some descriptor) := by
  unfold screenStart
  generalize self.check (some width) (some (0, height)) (some descriptor) = run at h ⊢
  obtain ⟨answer, after⟩ := run
  obtain rfl : answer = .error e := h
  rfl

theorem screenStart_of_ok {self : Guard δ τ} {width height : ℕ} {descriptor : δ}
    (h : self.check (some width) (some (0, height)) (some descriptor) = (.ok (), self)) :
    self.screenStart width height descriptor =
      if self.facts.any (fun facts => facts.height != height) then
        (.error (.control .inconsistentFacts), { self with refused := some .inconsistentFacts })
      else (.ok (), self) := by
  unfold screenStart
  rw [h]

/-- An effect that passes leaves the guard alone and fits the facts. -/
theorem screen_ok {self : Guard δ τ} {call : SinkCall δ} (h : (self.screen call).1 = .ok ()) :
    (self.screen call).2 = self ∧ self.verdict = none ∧
      ∃ f, self.facts = some f ∧ call.Agrees f := by
  cases call with
  | start width height descriptor =>
    change (self.screenStart width height descriptor).1 = .ok () at h
    show (self.screenStart width height descriptor).2 = self ∧ _
    cases hcheck : (self.check (some width) (some (0, height)) (some descriptor)).1 with
    | error e =>
      rw [screenStart_of_error hcheck, hcheck] at h
      cases h
    | ok u =>
      obtain ⟨hsame, hquiet, hobjection⟩ := check_ok hcheck
      obtain ⟨f, hf, hwidth, -, hdescriptor⟩ := agrees_of_objection hobjection
      rw [screenStart_of_ok (Prod.ext hcheck hsame)] at h ⊢
      by_cases hh : f.height = height
      · refine ⟨?_, hquiet, f, hf, hwidth, hh.symm, hdescriptor⟩
        simp [hf, hh]
      · simp [hf, hh] at h
  | provideNext y height width descriptor =>
    obtain ⟨hsame, hquiet, hobjection⟩ := check_ok h
    obtain ⟨f, hf, hfits⟩ := agrees_of_objection hobjection
    exact ⟨hsame, hquiet, f, hf, hfits⟩
  | providePass batch height width descriptor =>
    obtain ⟨hsame, hquiet, hobjection⟩ := check_ok h
    obtain ⟨f, hf, hfits⟩ := agrees_of_objection hobjection
    exact ⟨hsame, hquiet, f, hf, hfits⟩
  | finish =>
    obtain ⟨hsame, hquiet, hobjection⟩ := check_ok h
    obtain ⟨f, hf⟩ := isSome_of_objection hobjection
    exact ⟨hsame, hquiet, f, hf, trivial⟩

/-- An effect that is refused gets the error that all later ones get. -/
theorem screen_error {self : Guard δ τ} {call : SinkCall δ} {e : SinkError τ}
    (hsingle : self.refused = none ∨ self.sinkError = none)
    (h : (self.screen call).1 = .error e) :
    (self.screen call).2.verdict = some e ∧ (self.screen call).2.facts = self.facts ∧
      ((self.screen call).2.refused = none ∨ (self.screen call).2.sinkError = none) ∧
      ∀ e', self.verdict = some e' → e' = e := by
  cases call with
  | start width height descriptor =>
    simp only [screen] at h ⊢
    cases hcheck : (self.check (some width) (some (0, height)) (some descriptor)).1 with
    | error c =>
      rw [screenStart_of_error hcheck] at h ⊢
      exact check_error hsingle h
    | ok u =>
      obtain ⟨hsame, hquiet, -⟩ := check_ok hcheck
      obtain ⟨-, hsink⟩ := verdict_eq_none.mp hquiet
      rw [screenStart_of_ok (Prod.ext hcheck hsame)] at h ⊢
      -- The shape is fine, so only the whole height can be wrong.
      split at h
      · rename_i hheight
        obtain rfl : SinkError.control .inconsistentFacts = e := by simpa using h
        rw [if_pos hheight]
        refine ⟨rfl, rfl, Or.inr hsink, fun e' he' => ?_⟩
        rw [hquiet] at he'
        cases he'
      · cases h
  | provideNext y height width descriptor => exact check_error hsingle h
  | providePass batch height width descriptor => exact check_error hsingle h
  | finish => exact check_error hsingle h

end Guard

theorem checkPulse_beside {γ : Type} (pulse : Option (Pulse Ω)) (w : Ω) (c : γ) :
    checkPulse (pulse.map Pulse.beside) (w, c) =
      ((checkPulse pulse w).1, (checkPulse pulse w).2, c) := by
  cases pulse <;> rfl

variable [DecidableEq δ]

theorem through_eq (guard : Guard δ τ) (width : Option ℕ) (extent : Option (ℕ × ℕ))
    (descriptor : Option δ) (call : Ω → Except (SinkError τ) Unit × Ω) (w : Ω) :
    guard.through width extent descriptor call w =
      ((guard.check width extent descriptor).2).passed (guard.check width extent descriptor).1
        call w := by
  unfold Guard.through
  generalize guard.check width extent descriptor = run
  obtain ⟨answer, after⟩ := run
  cases answer <;> rfl

theorem start_eq (sink : Sink δ τ Ω) (width height : ℕ) (descriptor : δ) (w : Ω)
    (guard : Guard δ τ) :
    guard.start sink width height descriptor w =
      ((guard.screenStart width height descriptor).2).passed
        (guard.screenStart width height descriptor).1 (sink.start width height descriptor) w := by
  unfold Guard.start Guard.screenStart
  generalize guard.check (some width) (some (0, height)) (some descriptor) = run
  obtain ⟨answer, after⟩ := run
  cases answer with
  | error e => rfl
  | ok u =>
    by_cases hh : after.facts.any (fun facts => facts.height != height) = true
    · simp only [hh, if_true]
      rfl
    · simp only [hh]
      rfl

/-- Every effect goes through the screen, then to the sink. -/
theorem guardedSink_call (sink : Sink δ τ Ω) (call : SinkCall δ) (w : Ω) (guard : Guard δ τ) :
    (guardedSink sink).call call (w, guard) =
      ((guard.screen call).2).passed (guard.screen call).1 (sink.call call) w := by
  cases call with
  | start width height descriptor => exact start_eq sink width height descriptor w guard
  | provideNext y height width descriptor => exact through_eq ..
  | providePass batch height width descriptor => exact through_eq ..
  | finish => exact through_eq ..

/-- One effect: it is refused with the verdict, or it fits the facts, goes out, and comes
back with its failure retained. -/
theorem call_screened {facts : Option (InterpretationFacts δ)}
    {heard sent sent' : List (Exchange δ τ)} {guard guard' : Guard δ τ} {sink : Sink δ τ Ω}
    {call : SinkCall δ} {answer : Except (SinkError τ) Unit} {w w' : Ω} (h : Screened facts heard sent guard)
    (hcall : (guardedSink (recorded sink)).call call ((w, sent), guard)
      = (answer, (w', sent'), guard')) :
    Screened facts (heard ++ [⟨call, answer⟩]) sent' guard' := by
  rw [guardedSink_call] at hcall
  cases hscreen : (guard.screen call).1 with
  | error e =>
    obtain ⟨hverdict, hfacts, hsingle, hold⟩ := Guard.screen_error h.single hscreen
    rw [hscreen] at hcall
    simp only [Guard.passed, Prod.mk.injEq] at hcall
    obtain ⟨rfl, ⟨-, rfl⟩, rfl⟩ := hcall
    refine ⟨hfacts.trans h.facts_eq, h.agrees, ?_, ?_, hsingle⟩
    · intro x hx e' he'
      rcases List.mem_append.mp hx with hx | hx
      · rw [hverdict, hold e' (h.told x hx e' he')]
      · obtain rfl := List.mem_singleton.mp hx
        obtain rfl : e = e' := by simpa using he'
        exact hverdict
    · intro x hx e' he'
      rw [hverdict, hold _ (h.failed x hx e' he')]
  | ok u =>
    obtain ⟨hsame, hquiet, f, hf, hagrees⟩ := Guard.screen_ok hscreen
    obtain ⟨hrefused, hsink⟩ := Guard.verdict_eq_none.mp hquiet
    -- Nothing failed before, so every error so far is the one of this effect.
    have hclean : ∀ x ∈ heard, ∀ e, x.answer ≠ .error e := by
      intro x hx e he
      have := h.told x hx e he
      rw [hquiet] at this
      cases this
    have hsent : ∀ x ∈ sent, ∀ e, x.answer ≠ .error e := by
      intro x hx e he
      have := h.failed x hx e he
      rw [hquiet] at this
      cases this
    have hfits : ∀ result : Except (SinkError τ) Unit,
        ∀ x ∈ sent ++ [(⟨call, result⟩ : Exchange δ τ)], ∃ f, facts = some f ∧ x.call.Agrees f := by
      intro result x hx
      rcases List.mem_append.mp hx with hx | hx
      · exact h.agrees x hx
      · obtain rfl := List.mem_singleton.mp hx
        exact ⟨f, h.facts_eq ▸ hf, hagrees⟩
    rw [hscreen, hsame] at hcall
    simp only [Guard.passed, recorded_call] at hcall
    cases hresult : (sink.call call w).1 with
    | ok v =>
      simp only [hresult, Guard.retainSinkFailure, Prod.mk.injEq] at hcall
      obtain ⟨rfl, ⟨-, rfl⟩, rfl⟩ := hcall
      refine ⟨h.facts_eq, hfits _, ?_, ?_, h.single⟩
      · intro x hx e he
        rcases List.mem_append.mp hx with hx | hx
        · exact absurd he (hclean x hx e)
        · obtain rfl := List.mem_singleton.mp hx
          cases he
      · intro x hx e he
        rcases List.mem_append.mp hx with hx | hx
        · exact absurd he (hsent x hx e)
        · obtain rfl := List.mem_singleton.mp hx
          cases he
    | error cause =>
      simp only [hresult, Guard.retainSinkFailure, Prod.mk.injEq] at hcall
      obtain ⟨rfl, ⟨-, rfl⟩, rfl⟩ := hcall
      have hverdict : ({ guard with sinkError := some cause } : Guard δ τ).verdict
          = some (.retained cause) := by
        simp [Guard.verdict, hrefused]
      refine ⟨h.facts_eq, hfits _, ?_, ?_, Or.inl hrefused⟩
      · intro x hx e he
        rcases List.mem_append.mp hx with hx | hx
        · exact absurd he (hclean x hx e)
        · obtain rfl := List.mem_singleton.mp hx
          obtain rfl : SinkError.retained cause = e := by simpa using he
          exact hverdict
      · intro x hx e he
        rcases List.mem_append.mp hx with hx | hx
        · exact absurd he (hsent x hx e)
        · obtain rfl := List.mem_singleton.mp hx
          obtain rfl : cause = e := by simpa using he
          exact hverdict

/-- A whole script, by induction on it: each effect keeps what ties the guard to the lists,
and a poll or a question changes neither. -/
theorem run_screened {facts : Option (InterpretationFacts δ)} {sink : Sink δ τ Ω}
    {pulse : Option (Pulse Ω)} {script : Script δ τ α} {heard told sent sent' : List (Exchange δ τ)}
    {guard guard' : Guard δ τ} {a : α} {w w' : Ω} (h : Screened facts heard sent guard)
    (hrun : script.run (guardedSink (recorded sink)) ((pulse.map Pulse.beside).map Pulse.beside)
      ((w, sent), guard) = (a, told, (w', sent'), guard')) :
    Screened facts (heard ++ told) sent' guard' := by
  induction script generalizing heard told sent guard w with
  | ret b =>
    simp only [Script.run, Prod.mk.injEq] at hrun
    obtain ⟨-, rfl, ⟨-, rfl⟩, rfl⟩ := hrun
    simpa using h
  | effect call next ih =>
    generalize hcall : (guardedSink (recorded sink)).call call ((w, sent), guard) = reply at hrun
    obtain ⟨answer, ⟨w₁, sent₁⟩, guard₁⟩ := reply
    generalize hrest : (next answer).run (guardedSink (recorded sink))
      ((pulse.map Pulse.beside).map Pulse.beside) ((w₁, sent₁), guard₁) = rest at hrun
    obtain ⟨b, told₁, ⟨w₂, sent₂⟩, guard₂⟩ := rest
    simp only [Script.run, hcall, hrest, Prod.mk.injEq] at hrun
    obtain ⟨rfl, rfl, ⟨rfl, rfl⟩, rfl⟩ := hrun
    have hnext := ih answer (call_screened h hcall) hrest
    simpa using hnext
  | maxBufferRows next ih => exact ih _ h hrun
  | acceptsProvisional next ih => exact ih _ h hrun
  | poll next ih =>
    simp only [Script.run, checkPulse_beside] at hrun
    exact ih _ h hrun

end Zencodec.Incremental
