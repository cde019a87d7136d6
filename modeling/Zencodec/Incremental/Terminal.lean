/-
What `Fused` guarantees over a whole run.

The native decoder under the adapter is the logging one, so that `calls` lists every call
it has got so far.

* `Lawful` — what one `step`, `stepControlled` or `resume` does to the adapter's state and
  to the calls, with `step_lawful`, `stepControlled_lawful` and `resume_lawful`;
* `preserved_failed` — a failed adapter stays failed and calls nothing;
* `preserved_taken` — the details are asked for at most once;
* `run_terminal` — the three guarantees, for any two calls of a run.
-/
import Zencodec.Lib.Runs
import Zencodec.Incremental.Fused

open Runs

namespace Zencodec.Incremental

variable {σ δ τ ε κ Ω : Type}

def Event.done? : Event δ → Option (OutputInfo δ)
  | .done info => some info
  | _ => none

def ControlledProgress.done? : ControlledProgress δ → Option (OutputInfo δ)
  | .decode p => p.event.done?
  | .suspended _ _ => none

/-- The caller is told that decoding finished. -/
def Reply.done? : Reply δ τ ε κ → Option (OutputInfo δ)
  | .progress p => p.event.done?
  | _ => none

def Reply.isError : Reply δ τ ε κ → Bool
  | .error _ => true
  | _ => false

/-- The native decoder answers that decoding finished. -/
def NativeCall.done? : NativeCall δ τ ε κ → Option (OutputInfo δ)
  | .step (.ok p) => p.event.done?
  | .stepControlled (.ok p) => p.done?
  | _ => none

def NativeCall.isTakeDetails : NativeCall δ τ ε κ → Bool
  | .takeDetails _ => true
  | _ => false

def Op.isStep : Op δ τ Ω → Bool
  | .step .. | .stepControlled .. => true
  | _ => false

def Op.isResume : Op δ τ Ω → Bool
  | .resume .. => true
  | _ => false

/-- An adapter over the logging decoder. -/
abbrev Logged (σ δ τ ε κ : Type) : Type := Fused (σ × List (NativeCall δ τ ε κ)) δ

/-- The calls that the native decoder has got. -/
def Fused.calls (s : Logged σ δ τ ε κ) : List (NativeCall δ τ ε κ) := s.inner.2

/-! ### One call -/

/-- What a step or a resume may do: `s` before, `s'` after, `r` the reply. -/
structure Lawful (s s' : Logged σ δ τ ε κ) (r : Reply δ τ ε κ) : Prop where
  failed : s.state = .failed → s'.state = .failed ∧ s'.calls = s.calls ∧ r = .error .finished
  error : r.isError = true → s'.state = .failed
  done : ∀ info, r.done? = some info → s'.state = .done info
  ofDone : ∀ info, s'.state = .done info → s.state = .done info ∨ r.done? = some info
  calls : s'.calls = s.calls ∨ ∃ c, s'.calls = s.calls ++ [c] ∧ c.isTakeDetails = false ∧
    ∀ info, c.done? = some info → r.done? = some info ∨ r.isError = true
  taken : s'.detailsTaken = s.detailsTaken

/-- An error whose call left the adapter failed. -/
theorem Lawful.of_error {s s' : Logged σ δ τ ε κ} {e : StepError τ ε}
    (hs : s.state ≠ .failed) (hs' : s'.state = .failed)
    (hcalls : s'.calls = s.calls ∨ ∃ c, s'.calls = s.calls ++ [c] ∧ c.isTakeDetails = false)
    (htaken : s'.detailsTaken = s.detailsTaken) : Lawful s s' (.error e) where
  failed := fun h => absurd h hs
  error := fun _ => hs'
  done := fun _ h => by cases h
  ofDone := fun _ h => by rw [hs'] at h; cases h
  calls := hcalls.imp_right fun ⟨c, hc, hd⟩ => ⟨c, hc, hd, fun _ _ => Or.inr rfl⟩
  taken := htaken

/-- A failed adapter refuses. -/
theorem Lawful.of_failed {s s' : Logged σ δ τ ε κ}
    (hs' : s'.state = .failed) (hcalls : s'.calls = s.calls)
    (htaken : s'.detailsTaken = s.detailsTaken) : Lawful s s' (.error .finished) where
  failed := fun _ => ⟨hs', hcalls, rfl⟩
  error := fun _ => hs'
  done := fun _ h => by cases h
  ofDone := fun _ h => by rw [hs'] at h; cases h
  calls := Or.inl hcalls
  taken := htaken

/-- A success whose reply and new state agree on whether decoding finished. -/
theorem Lawful.of_ok {s s' : Logged σ δ τ ε κ} {r : Reply δ τ ε κ} (hs : s.state ≠ .failed)
    (hr : r.isError = false) (hdone : ∀ info, s'.state = .done info ↔ r.done? = some info)
    (hcalls : s'.calls = s.calls ∨
      ∃ c, s'.calls = s.calls ++ [c] ∧ c.isTakeDetails = false ∧ c.done? = r.done?)
    (htaken : s'.detailsTaken = s.detailsTaken) : Lawful s s' r where
  failed := fun h => absurd h hs
  error := fun h => by simp [hr] at h
  done := fun info h => (hdone info).mpr h
  ofDone := fun info h => Or.inr ((hdone info).mp h)
  calls := hcalls.imp_right fun ⟨c, hc, hd, he⟩ => ⟨c, hc, hd, fun _ h => Or.inl (he ▸ h)⟩
  taken := htaken

theorem stateAfter_eq_done (event : Event δ) (info : OutputInfo δ) :
    Fused.stateAfter event = .done info ↔ event.done? = some info := by
  cases event <;> simp [Fused.stateAfter, Event.done?]

theorem step_lawful (dec : NativeDecoder σ δ τ ε κ) (input : Input) (sink : Sink δ τ Ω)
    (pulse : Option (Pulse Ω)) (s : Logged σ δ τ ε κ) (w : Ω) :
    Lawful s (Fused.step dec.logged input sink pulse s w).2.1
      (.ofStep (Fused.step dec.logged input sink pulse s w).1) := by
  unfold Fused.step
  cases hstate : s.state with
  | done info =>
    refine .of_ok (by simp [hstate]) rfl (fun i => ?_) (Or.inl rfl) rfl
    simp [hstate, Reply.ofStep, Reply.done?, Event.done?]
  | failed => exact .of_failed hstate rfl rfl
  | suspended b => exact .of_error (by simp [hstate]) rfl (Or.inl rfl) rfl
  | running =>
    have hne : s.state ≠ .failed := by simp [hstate]
    cases hc : s.controlled with
    | true => exact .of_error hne rfl (Or.inl rfl) rfl
    | false =>
      simp only [Bool.false_eq_true, if_false]
      rcases checkPulse pulse w with ⟨reason | ok, w⟩
      · exact .of_error hne rfl (Or.inl rfl) rfl
      · -- The native step is called, and the log grows by its answer.
        rcases hstep : dec.step input sink pulse s.inner.1 w with ⟨e | p, inner, w⟩
        · simp only [NativeDecoder.logged, hstep]
          exact .of_error hne rfl (Or.inr ⟨.step (.error e), rfl, rfl⟩) rfl
        · simp only [NativeDecoder.logged, hstep]
          rcases checkPulse pulse w with ⟨reason | ok, w⟩
          · exact .of_error hne rfl (Or.inr ⟨.step (.ok p), rfl, rfl⟩) rfl
          · exact .of_ok hne rfl (fun info => stateAfter_eq_done p.event info)
              (Or.inr ⟨.step (.ok p), rfl, rfl, rfl⟩) rfl

/-- The checks let a completion through exactly as the state it leads to. -/
theorem accept_eq_done [DecidableEq δ] {interpretation : Option (InterpretationFacts δ)}
    {progress : ControlledProgress δ} {state : FusedState δ}
    (h : Fused.accept interpretation progress = .ok state) (info : OutputInfo δ) :
    state = .done info ↔ progress.done? = some info := by
  unfold Fused.accept at h
  split at h
  · split at h
    · cases h
    · split at h
      · cases h
      · obtain rfl := Except.ok.inj h
        simp [ControlledProgress.done?, Event.done?]
  · split at h
    · cases h
    · obtain rfl := Except.ok.inj h
      simp [ControlledProgress.done?, Event.done?]
  · obtain rfl := Except.ok.inj h
    rename_i p hdone hrows
    rcases p with ⟨consumed, event⟩
    cases event with
    | done i => exact absurd rfl (hdone consumed i)
    | _ => simp [ControlledProgress.done?, Event.done?]
  · split at h
    · cases h
    · obtain rfl := Except.ok.inj h
      simp [ControlledProgress.done?]

theorem done?_ofStepControlled (progress : ControlledProgress δ) :
    (Reply.ofStepControlled (.ok progress) : Reply δ τ ε κ).done? = progress.done? := by
  cases progress <;> rfl

theorem isError_ofStepControlled (progress : ControlledProgress δ) :
    (Reply.ofStepControlled (.ok progress) : Reply δ τ ε κ).isError = false := by
  cases progress <;> rfl

theorem stepGuarded_lawful [DecidableEq δ] (dec : NativeDecoder σ δ τ ε κ) (input : Input)
    (sink : Sink δ τ Ω) (pulse : Option (Pulse Ω)) (s s₀ : Logged σ δ τ ε κ)
    (hinner : s.inner = s₀.inner) (htaken : s.detailsTaken = s₀.detailsTaken)
    (hs₀ : s₀.state ≠ .failed) (w : Ω) :
    Lawful s₀ (Fused.stepGuarded dec.logged input sink pulse s w).2.1
      (.ofStepControlled (Fused.stepGuarded dec.logged input sink pulse s w).1) := by
  unfold Fused.stepGuarded
  rcases hstep : dec.stepControlled input (guardedSink sink) (pulse.map Pulse.beside) s.inner.1
    (w, Guard.new s.interpretation) with ⟨result, inner, w, guard⟩
  simp only [NativeDecoder.logged, hstep]
  have hcalls : s.inner.2 ++ [NativeCall.stepControlled result]
      = s₀.calls ++ [NativeCall.stepControlled result] := by rw [hinner]; rfl
  -- Every refusal leaves the adapter failed, with the native answer in the log.
  have hfail : ∀ e : StepError τ ε, Lawful s₀
      { s with inner := (inner, s.inner.2 ++ [.stepControlled result]), state := .failed }
      (.error e) := fun e =>
    .of_error hs₀ rfl (Or.inr ⟨_, hcalls, rfl⟩) htaken
  split
  · exact hfail _
  · exact hfail _
  · cases result with
    | error e => exact hfail _
    | ok progress =>
      simp only
      rcases checkPulse pulse w with ⟨reason | ok, w⟩
      · exact hfail _
      · cases haccept : Fused.accept s.interpretation progress with
        | error e => exact hfail _
        | ok state =>
          refine .of_ok hs₀ (isError_ofStepControlled _) (fun info => ?_)
            (Or.inr ⟨_, hcalls, rfl, (done?_ofStepControlled _).symm⟩) htaken
          rw [done?_ofStepControlled]
          exact accept_eq_done haccept info

theorem stepControlled_lawful [DecidableEq δ] (dec : NativeDecoder σ δ τ ε κ) (input : Input)
    (sink : Sink δ τ Ω) (pulse : Option (Pulse Ω)) (s : Logged σ δ τ ε κ) (w : Ω) :
    Lawful s (Fused.stepControlled dec.logged input sink pulse s w).2.1
      (.ofStepControlled (Fused.stepControlled dec.logged input sink pulse s w).1) := by
  unfold Fused.stepControlled
  cases hstate : s.state with
  | done info =>
    refine .of_ok (by simp [hstate]) rfl (fun i => ?_) (Or.inl rfl) rfl
    simp [Reply.ofStepControlled, Reply.done?, Event.done?]
  | failed => exact .of_failed rfl rfl rfl
  | suspended boundary =>
    have hne : s.state ≠ .failed := by simp [hstate]
    simp only
    rcases checkPulse pulse w with ⟨reason | ok, w⟩
    · exact .of_error hne rfl (Or.inl rfl) rfl
    · refine .of_ok hne rfl (fun i => ?_) (Or.inl rfl) rfl
      simp [Reply.ofStepControlled, Reply.done?]
  | running =>
    have hne : s.state ≠ .failed := by simp [hstate]
    simp only
    rcases checkPulse pulse w with ⟨reason | ok, w⟩
    · exact .of_error hne rfl (Or.inl rfl) rfl
    · exact stepGuarded_lawful dec input sink pulse
        { s with controlled := true, state := .running } s rfl rfl hne w

theorem resume_lawful [DecidableEq δ] (dec : NativeDecoder σ δ τ ε κ) (id : BoundaryId)
    (action : BoundaryAction) (pulse : Option (Pulse Ω)) (s : Logged σ δ τ ε κ) (w : Ω) :
    Lawful s (Fused.resume dec.logged id action pulse s w).2.1
      (.ofResume (Fused.resume dec.logged id action pulse s w).1) := by
  unfold Fused.resume
  cases hstate : s.state with
  | done info => exact .of_error (by simp [hstate]) rfl (Or.inl rfl) rfl
  | failed => exact .of_failed rfl rfl rfl
  | running => exact .of_error (by simp [hstate]) rfl (Or.inl rfl) rfl
  | suspended boundary =>
    have hne : s.state ≠ .failed := by simp [hstate]
    simp only
    rcases checkPulse pulse w with ⟨reason | ok, w⟩
    · exact .of_error hne rfl (Or.inl rfl) rfl
    · simp only
      split
      · exact .of_error hne rfl (Or.inl rfl) rfl
      · rcases hresume : dec.resume id action pulse s.inner.1 w with ⟨e | ok, inner, w⟩
        · simp only [NativeDecoder.logged, hresume]
          exact .of_error hne rfl (Or.inr ⟨.resume (.error e), rfl, rfl⟩) rfl
        · simp only [NativeDecoder.logged, hresume]
          rcases checkPulse pulse w with ⟨reason | ok', w⟩
          · exact .of_error hne rfl (Or.inr ⟨.resume (.ok ok), rfl, rfl⟩) rfl
          · refine .of_ok hne rfl (fun info => ?_) (Or.inr ⟨.resume (.ok ok), rfl, rfl, rfl⟩) rfl
            simp [Reply.ofResume, Reply.done?]

theorem serve_lawful [DecidableEq δ] (dec : NativeDecoder σ δ τ ε κ)
    (s : Logged σ δ τ ε κ × Ω) {op : Op δ τ Ω} (hop : op ≠ .takeDetails) :
    Lawful s.1 (serve dec.logged s op).2.1 (serve dec.logged s op).1 := by
  cases op with
  | step input sink pulse => exact step_lawful dec input sink pulse s.1 s.2
  | stepControlled input sink pulse => exact stepControlled_lawful dec input sink pulse s.1 s.2
  | resume id action pulse => exact resume_lawful dec id action pulse s.1 s.2
  | takeDetails => exact absurd rfl hop

/-- Asking for the details: nothing happens, or they are asked for the first time, after
completion. -/
theorem serve_takeDetails [DecidableEq δ] (dec : NativeDecoder σ δ τ ε κ)
    (s : Logged σ δ τ ε κ × Ω) :
    serve dec.logged s .takeDetails = (.details none, s) ∨
    (∃ info, s.1.state = .done info) ∧ s.1.detailsTaken = false ∧
      ∃ details inner, serve dec.logged s .takeDetails = (.details details,
        { s.1 with detailsTaken := true, inner := (inner, s.1.calls ++ [.takeDetails details]) },
        s.2) := by
  obtain ⟨self, w⟩ := s
  simp only [serve, Fused.takeDetails]
  cases hstate : self.state with
  | done info =>
    cases htaken : self.detailsTaken with
    | true => exact Or.inl rfl
    | false => exact Or.inr ⟨⟨info, rfl⟩, rfl, _, _, rfl⟩
  | _ => exact Or.inl rfl

/-! ### Runs -/

section Run

variable [DecidableEq δ] (dec : NativeDecoder σ δ τ ε κ)

/-- A failed adapter calls nothing and answers every step and every resume with
`finished`. -/
theorem serve_of_failed {s : Logged σ δ τ ε κ × Ω} (hs : s.1.state = .failed) (op : Op δ τ Ω) :
    (serve dec.logged s op).2.1.state = .failed ∧
      (serve dec.logged s op).2.1.calls = s.1.calls ∧
      ((serve dec.logged s op).1 = .error .finished ∨
        op = .takeDetails ∧ (serve dec.logged s op).1 = .details none) := by
  by_cases hop : op = .takeDetails
  · subst hop
    rcases serve_takeDetails dec s with h | ⟨⟨info, h⟩, -⟩
    · rw [h]
      exact ⟨hs, rfl, Or.inr ⟨rfl, rfl⟩⟩
    · rw [hs] at h
      cases h
  · obtain ⟨hstate, hcalls, hreply⟩ := (serve_lawful dec s hop).failed hs
    exact ⟨hstate, hcalls, Or.inl hreply⟩

/-- A failed adapter stays failed and its native decoder is not called again. -/
theorem preserved_failed (calls : List (NativeCall δ τ ε κ)) :
    Preserved (serve (Ω := Ω) dec.logged) (fun _ => True)
      fun s => s.1.state = .failed ∧ s.1.calls = calls := by
  rintro s op - ⟨hs, hcalls⟩
  obtain ⟨hstate, hcalls', -⟩ := serve_of_failed dec hs op
  exact ⟨hstate, hcalls'.trans hcalls⟩

/-- A completed adapter stays completed until it is asked to resume. -/
theorem preserved_done (info : OutputInfo δ) :
    Preserved (serve (Ω := Ω) dec.logged) (fun op => op.isResume = false)
      fun s => s.1.state = .done info := by
  rintro ⟨self, w⟩ op hop hs
  simp only at hs
  cases op with
  | step input sink pulse => simp [serve, Fused.step, hs]
  | stepControlled input sink pulse => simp [serve, Fused.stepControlled, hs]
  | resume id action pulse => simp [Op.isResume] at hop
  | takeDetails =>
    rcases serve_takeDetails dec (self, w) with h | ⟨-, -, details, inner, h⟩
    · rw [h]
      exact hs
    · rw [h]
      exact hs

/-- A completed adapter repeats its completion, without a native call. -/
theorem serve_of_done {s : Logged σ δ τ ε κ × Ω} {info : OutputInfo δ}
    (hs : s.1.state = .done info) {op : Op δ τ Ω} (hop : op.isStep = true) :
    (serve dec.logged s op).1 = .progress ⟨0, .done info⟩ ∧
      (serve dec.logged s op).2.1.calls = s.1.calls ∧ (serve dec.logged s op).2.2 = s.2 := by
  cases op with
  | step input sink pulse => simp [serve, Fused.step, hs, Reply.ofStep]
  | stepControlled input sink pulse =>
    simp [serve, Fused.stepControlled, hs, Reply.ofStepControlled, Fused.calls]
  | _ => simp [Op.isStep] at hop

/-- The details are asked for as often as `detailsTaken` says. -/
theorem preserved_taken : Preserved (serve (Ω := Ω) dec.logged) (fun _ => True)
    fun s => s.1.calls.countP NativeCall.isTakeDetails = s.1.detailsTaken.toNat := by
  rintro s op - hs
  by_cases hop : op = .takeDetails
  · subst hop
    rcases serve_takeDetails dec s with h | ⟨-, htaken, details, inner, h⟩
    · rw [h]
      exact hs
    · rw [h]
      show (s.1.calls ++ [NativeCall.takeDetails details]).countP _ = 1
      rw [List.countP_append, hs, htaken]
      rfl
  · have hlaw := serve_lawful dec s hop
    rw [hlaw.taken]
    rcases hlaw.calls with h | ⟨c, h, hc, -⟩
    · rw [h]
      exact hs
    · rw [h, List.countP_append, hs]
      simp [hc]

/-- Completion is told to the caller. -/
theorem done_of_serve {s : Logged σ δ τ ε κ × Ω} {op : Op δ τ Ω} {info : OutputInfo δ}
    (h : (serve dec.logged s op).2.1.state = .done info) :
    s.1.state = .done info ∨ (serve dec.logged s op).1.done? = some info := by
  by_cases hop : op = .takeDetails
  · subst hop
    rcases serve_takeDetails dec s with h' | ⟨⟨i, hi⟩, -, details, inner, h'⟩
    · rw [h'] at h
      exact Or.inl h
    · rw [h'] at h
      exact Or.inl h
  · exact (serve_lawful dec s hop).ofDone info h

theorem failed_of_serve_error {s : Logged σ δ τ ε κ × Ω} {op : Op δ τ Ω}
    (h : (serve dec.logged s op).1.isError = true) :
    (serve dec.logged s op).2.1.state = .failed := by
  by_cases hop : op = .takeDetails
  · subst hop
    rcases serve_takeDetails dec s with h' | ⟨-, -, details, inner, h'⟩ <;>
      simp [h', Reply.isError] at h
  · exact (serve_lawful dec s hop).error h

/-- The state of a run after `pre` from a new adapter, and the replies on the way. -/
theorem done_of_run {inner : σ} {controlled : Bool} {w : Ω} {pre : List (Op δ τ Ω)}
    {info : OutputInfo δ}
    (h : (final (serve dec.logged) (Fused.new (inner, []) controlled, w) pre).1.state
      = .done info) :
    (∃ r ∈ outputs (serve dec.logged) (Fused.new (inner, []) controlled, w) pre,
        r.done? = some info) ∧
      ∀ r ∈ outputs (serve dec.logged) (Fused.new (inner, []) controlled, w) pre,
        r.isError = false := by
  constructor
  · rcases exists_output_of_final (P := fun s : Logged σ δ τ ε κ × Ω => s.1.state = .done info)
      (Q := fun r => r.done? = some info) (fun s op hs => done_of_serve dec hs) h with hnew | hout
    · cases hnew
    · exact hout
  · intro r hr
    by_contra herror
    -- An error on the way leaves the adapter failed to the end.
    rcases mem_outputs hr with ⟨before, op, after, rfl, rfl⟩
    have hfailed := failed_of_serve_error dec (by simpa using herror)
    rw [final_append, final_cons] at h
    obtain ⟨hend, -⟩ := final_of_preserved (preserved_failed dec _) (fun _ _ => trivial)
      ⟨hfailed, rfl⟩ (l := after)
    rw [hend] at h
    cases h

/-- Take any two calls `a` and `b` of a run of a new adapter, with the calls `mid` between
them. If `a` completed, then `b` repeats the completion unless `mid` has a resume; if the
native decoder completed during `a`, then `a` completed or failed; if `a` failed, then `b`
is refused, and the native decoder is never called again; and the details are asked for at
most once, after a completion and no error. -/
theorem run_terminal (inner : σ) (controlled : Bool) (w : Ω) (pre mid : List (Op δ τ Ω))
    (a b : Op δ τ Ω) :
    let start : Logged σ δ τ ε κ × Ω := (Fused.new (inner, []) controlled, w)
    let before := final (serve dec.logged) start pre
    let first := serve dec.logged before a
    let later := final (serve dec.logged) first.2 mid
    let last := serve dec.logged later b
    (∀ info, first.1.done? = some info → (∀ op ∈ mid, op.isResume = false) →
      b.isStep = true → last.1 = .progress ⟨0, .done info⟩ ∧ last.2.1.calls = later.1.calls) ∧
    (∀ call info, first.2.1.calls = before.1.calls ++ [call] → call.done? = some info →
      first.1.done? = some info ∨ first.1.isError = true) ∧
    (first.1.isError = true → last.2.1.calls = first.2.1.calls ∧
      (last.1 = .error .finished ∨ b = .takeDetails ∧ last.1 = .details none)) ∧
    first.2.1.calls.countP NativeCall.isTakeDetails ≤ 1 ∧
    (a = .takeDetails → first.2.1.calls ≠ before.1.calls →
      (∃ r ∈ outputs (serve dec.logged) start pre, (r.done?).isSome) ∧
        ∀ r ∈ outputs (serve dec.logged) start pre, r.isError = false) := by
  intro start before first later last
  refine ⟨fun info hdone hmid hb => ?_, fun call info hcall hinfo => ?_, fun herror => ?_, ?_,
    fun ha hne => ?_⟩
  · have ha : a ≠ .takeDetails := by
      rintro rfl
      rcases serve_takeDetails dec before with h | ⟨-, -, details, inner, h⟩ <;>
        simp [first, h, Reply.done?] at hdone
    have hlater : later.1.state = .done info :=
      final_of_preserved (preserved_done dec info) hmid ((serve_lawful dec before ha).done info hdone)
    obtain ⟨hreply, hcalls, -⟩ := serve_of_done dec hlater hb
    exact ⟨hreply, hcalls⟩
  · have ha : a ≠ .takeDetails := by
      rintro rfl
      rcases serve_takeDetails dec before with h | ⟨-, -, details, inner, h⟩
      · simp [first, h] at hcall
      · have hcall' : before.1.calls ++ [.takeDetails details] = before.1.calls ++ [call] := by
          rw [← hcall]
          simp [first, h, Fused.calls]
        obtain rfl : NativeCall.takeDetails details = call := by simpa using hcall'
        cases hinfo
    rcases (serve_lawful dec before ha).calls with h | ⟨c, h, -, hdone⟩
    · simp [first, h] at hcall
    · obtain rfl : c = call := by
        have h' := h.symm.trans hcall
        simpa using h'
      exact hdone info hinfo
  · have hfirst : first.2.1.state = .failed := failed_of_serve_error dec herror
    obtain ⟨hlater, hcalls⟩ := final_of_preserved (preserved_failed dec first.2.1.calls)
      (l := mid) (fun _ _ => trivial) ⟨hfirst, rfl⟩
    obtain ⟨-, hlast, hreply⟩ := serve_of_failed dec hlater b
    exact ⟨hlast.trans hcalls, hreply⟩
  · have hbefore := final_of_preserved (preserved_taken dec) (l := pre ++ [a])
      (fun _ _ => trivial) (s := start) rfl
    rw [final_append] at hbefore
    exact Nat.le_trans (Nat.le_of_eq hbefore) (Bool.toNat_le _)
  · subst ha
    rcases serve_takeDetails dec before with h | ⟨⟨info, hstate⟩, -⟩
    · simp [first, h] at hne
    · obtain ⟨⟨r, hr, hinfo⟩, hok⟩ := done_of_run dec hstate
      exact ⟨⟨r, hr, by simp [hinfo]⟩, hok⟩

end Run

/-! ### A decoder that is done at once -/

/-- Every step completes. -/
def eager : NativeDecoder Unit Unit Unit Unit Unit where
  step := fun _ _ _ _ w => (.ok ⟨0, .done ⟨1, 1, ()⟩⟩, (), w)
  stepControlled := fun _ _ _ _ w => (.ok (.decode ⟨0, .done ⟨1, 1, ()⟩⟩), (), w)
  resume := fun _ _ _ _ w => (.ok (), (), w)
  takeDetails := fun _ => (some (), ())

/-- A sink that takes everything. -/
def openSink : Sink Unit Unit ℕ :=
  ⟨fun _ => 1, fun _ _ _ w => (.ok (), w), fun _ _ _ _ w => (.ok (), w),
    fun _ _ _ _ w => (.ok (), w), fun _ => false, fun w => (.ok (), w)⟩

/-- A pulse that lets one poll pass and trips at the next; the world counts the polls. -/
def secondPoll : Pulse ℕ where
  check := fun polls => (if polls = 0 then .ok () else .error .cancelled, polls + 1)

/-- The native decoder completes in the first call of either run. In the first, the pulse
trips on its return, and the next step is refused. In the second the completion is
reported, but a resume ends it. -/
theorem eager_done_then_finished :
    (let start : Logged Unit Unit Unit Unit Unit × ℕ := (Fused.new ((), []) false, 0)
     let step := Op.step Input.empty openSink (some secondPoll)
     ((serve eager.logged start step).2.1.calls.head?.bind NativeCall.done?).isSome = true ∧
      outputs (serve eager.logged) start [step, .step Input.empty openSink none]
        = [.error (.cancelled .cancelled), .error .finished]) ∧
    (let start : Logged Unit Unit Unit Unit Unit × ℕ := (Fused.new ((), []) false, 0)
     let step := Op.step Input.empty openSink none
     outputs (serve eager.logged) start [step, step, .resume ⟨0⟩ .continueReading none, step]
      = [.progress ⟨0, .done ⟨1, 1, ()⟩⟩, .progress ⟨0, .done ⟨1, 1, ()⟩⟩, .error .finished,
        .error .finished]) := by
  decide

end Zencodec.Incremental
