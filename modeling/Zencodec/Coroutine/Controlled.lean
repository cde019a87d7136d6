/-
A controlled decode is safe, over any run of calls.

Every call keeps what `Adoption` says of the decoder. A call that fails leaves the decoder failed,
and a failed decoder does nothing any more.
-/
import Zencodec.Coroutine.Adoption

namespace Zencodec.Coroutine

open Act
open Zencodec.Operation (Fault)

variable {γ δ χ ρ ε Ω α : Type} {m : Machine γ δ χ ρ Ω} {mode : Bool}

/-! ### Failing and ending -/

/-- A call that ended with an error, or by unwinding. -/
def Answer.Fails : Answer δ χ ρ ε → Prop
  | .failed _ | .unwound => True
  | _ => False

/-- What a failed decoder answers. -/
def Answer.Idle (a : Answer δ χ ρ ε) : Prop := a = .failed .finished ∨ a = .details none

theorem answer_fails {f : α → Answer δ χ ρ ε} {r : Except (Fault (StepError ρ ε)) α}
    (hf : ∀ a, ¬ (f a).Fails) (h : (answer f r).Fails) : ∃ e, r = .error e := by
  cases r with
  | ok a => exact absurd h (hf a)
  | error e => exact ⟨e, rfl⟩

/-- What a failed decoder is left with. -/
def Ended (log : List (Entry δ)) (m : Machine γ δ χ ρ Ω) : Prop :=
  m.log = log ∧ m.decoder.state = .failed

theorem ended_answer {log : List (Entry δ)} {x : Step γ δ χ ρ ε Ω α} {f : α → Answer δ χ ρ ε}
    (hx : Spec x (fun a m => (f a).Idle ∧ Ended log m)
      (fun e m => e = .failed .finished ∧ Ended log m) m) :
    (answer f (x m).1).Idle ∧ Ended log (x m).2 := by
  cases hr : (x m).1 with
  | ok a => exact hx.run.1 a hr
  | error e =>
    obtain ⟨rfl, hended⟩ := hx.run.2 e hr
    exact ⟨.inl rfl, hended⟩

theorem Ended.cleanup {log : List (Entry δ)} (h : Ended log m) : Ended log m.cleanup :=
  ⟨(cleanup_log m).trans h.1, (cleanup_state m).trans h.2⟩

theorem Logged.cleanup (h : Logged mode m) : Logged mode m.cleanup := by
  refine ⟨fun hc hinside => ?_, (cleanup_controlled m).trans h.2⟩
  rw [cleanup_log] at hinside ⊢
  exact h.1 hc hinside

/-! ### What holds between the calls -/

variable [DecidableEq δ]

/-- What holds before and after every call. -/
def Good (mode : Bool) (m : Machine γ δ χ ρ Ω) : Prop := Sound mode m ∨ Failed mode m

theorem Live.good (h : Live mode m) : Good mode m := .inl (.inl h)

theorem Complete.good (h : Complete mode m) : Good mode m := .inl (.inr h)

theorem Failed.good (h : Failed mode m) : Good mode m := .inr h

theorem Good.logged (h : Good mode m) : Logged mode m := by
  rcases h with (h | h) | h
  · exact h.logged
  · exact h.1
  · exact h.1

theorem Good.failed (h : Good mode m) (hstate : m.decoder.state = .failed) : Failed mode m :=
  h.logged.failed hstate

theorem Failed.cleanup (h : Failed mode m) : Failed mode m.cleanup := by
  by_cases hstate : m.decoder.state = .failed
  · exact h.1.cleanup.failed ((cleanup_state m).trans hstate)
  · rw [cleanup_of_ne hstate]
    exact h

theorem Good.cleanup (h : Good mode m) : Good mode m.cleanup := by
  by_cases hstate : m.decoder.state = .failed
  · exact (h.failed hstate).cleanup.good
  · rw [cleanup_of_ne hstate]
    exact h

theorem Good.refused (h : Good mode m) :
    Failed mode (Machine.cleanup { m with decoder.state := .failed }) :=
  Failed.cleanup (Logged.failed h.logged rfl)

/-- A good decoder with a result has reported it. -/
theorem Good.complete (h : Good mode m) {info : OutputInfo δ}
    (hstate : m.decoder.state = .done info) : Complete mode m := by
  rcases h with (h | h) | ⟨-, h | h⟩
  · exact absurd hstate (h.working info)
  · exact h
  · rw [h] at hstate
    cases hstate
  · exact absurd hstate (h.1.working info)

/-- Neither at the end nor failed: the decoder works. -/
theorem Good.live (h : Good mode m) (hfailed : m.decoder.state ≠ .failed)
    (hdone : ∀ info, m.decoder.state ≠ .done info) : Live mode m := by
  rcases h with (h | ⟨-, ⟨info, hinfo⟩, -⟩) | ⟨-, h | h⟩
  · exact h
  · exact absurd hinfo (hdone info)
  · exact absurd h hfailed
  · exact h.1

/-- A fresh decoder has done nothing. -/
theorem good_new (mode : Bool) (store : InputStore) (g : γ) (w : Ω) :
    Good mode (Machine.new mode store g w : Machine γ δ χ ρ Ω) := by
  refine Live.good ⟨fun _ _ => ⟨trivial, fun facts => ?_, fun facts hfacts => ?_, fun r hr => ?_,
    fun r n hr => ?_⟩, fun info hinfo => (by cases hinfo), rfl⟩
  · exact ⟨fun hmem => (by cases hmem), fun hfacts => by cases hfacts⟩
  · cases hfacts
  · cases hr
  · cases hr

variable {host : Host δ ρ Ω}

/-! ### Replies and details -/

/-- An adopting reply is noted, and the only one. -/
theorem Held.replied {s : Shared δ χ ρ} {q : Option (PendingRows δ × ℕ)} {log : List (Entry δ)}
    {id : BoundaryId} {action : BoundaryAction} {b : DecodeBoundary δ} (h : Held s q log)
    (hfailure : s.controlFailure = none) (hpermitted : Permitted s id action b)
    (hagrees : s.agrees b.facts = true) :
    Held (s.replied id action b.facts) q
      (if action = .adoptInterpretation then .adopted b.facts :: log else log) := by
  -- nothing is adopted while a boundary waits
  have hnone : s.adopted = none := by
    cases hadopted : s.adopted with
    | none => rfl
    | some facts =>
      have hboundary := (h.agreed facts hadopted hfailure).2
      rw [hpermitted.outstanding] at hboundary
      cases hboundary
  by_cases hadopt : action = .adoptInterpretation
  · rw [Shared.replied, if_pos hadopt, if_pos hadopt]
    refine ⟨h.authorized, fun facts => ?_, fun facts hfacts _ => ?_, fun r hr => ?_,
      fun r n hr => ?_⟩
    · have hold : ¬ .adopted facts ∈ log := by
        rw [h.noted facts, hnone]
        exact fun hfacts => by cases hfacts
      rw [List.mem_cons, or_iff_left hold]
      exact ⟨fun he => congrArg some (Entry.adopted.inj he).symm,
        fun he => congrArg Entry.adopted (Option.some.inj he).symm⟩
    · obtain rfl : b.facts = facts := Option.some.inj hfacts
      exact ⟨hagrees, rfl⟩
    · obtain ⟨facts, hfacts, -⟩ := h.slot r hr
      rw [hnone] at hfacts
      cases hfacts
    · obtain ⟨facts, hfacts, -⟩ := h.queued r n hr
      rw [hnone] at hfacts
      cases hfacts
  · rw [Shared.replied, if_neg hadopt, if_neg hadopt]
    exact ⟨h.authorized, h.noted, fun facts hfacts hf => ⟨(h.agreed facts hfacts hf).1, rfl⟩,
      h.slot, h.queued⟩

theorem good_resume {id : BoundaryId} {action : BoundaryAction} (h : Good mode m) :
    Spec (resume host id action : Step γ δ χ ρ ε Ω Unit)
      (fun _ => Good mode) (fun _ => Failed mode) m := by
  refine spec_resume (fun e w boundary => Failed.cleanup (Logged.failed h.logged rfl))
    (fun b w hstate hfailure hpermitted hagrees => ?_)
  have hlive : Live mode m := h.live (by rw [hstate]; simp) (by rw [hstate]; simp)
  refine Good.cleanup (Live.good ⟨fun hc hinside => ?_, fun info hinfo => (by cases hinfo),
    hlive.mode⟩)
  -- the adoption is noted before
  have hbefore : RowsInside m.log := by
    dsimp only at hinside
    split at hinside
    · exact hinside.of_cons
    · exact hinside
  exact (hlive.inv hc hbefore).replied hfailure hpermitted hagrees

theorem good_takeDetails (h : Good mode m) :
    Spec (takeDetails : Step γ δ χ ρ ε Ω (Option (DecodeDetails χ)))
      (fun details m' => Good mode m' ∧ (details.isSome → .done ∈ m.log)) (fun _ _ => False) m := by
  unfold takeDetails
  rw [spec_bind, spec_get]
  dsimp only
  cases hstate : m.decoder.state with
  | done info =>
    have hcomplete := h.complete hstate
    exact ⟨Complete.good ⟨hcomplete.1, ⟨info, hstate⟩, hcomplete.2.2⟩, fun _ => hcomplete.2.2⟩
  | running | finishing | failed => exact ⟨h, fun hd => by cases hd⟩

theorem good_answer {x : Step γ δ χ ρ ε Ω α} {f : α → Answer δ χ ρ ε}
    (hf : ∀ a, ¬ (f a).Fails) (hx : Spec x (fun _ => Good mode) (fun _ => Failed mode) m) :
    Good mode (x m).2 ∧ ((answer f (x m).1).Fails → Failed mode (x m).2) := by
  refine ⟨(hx.mono (fun _ _ hm => hm) (fun _ _ hm => hm.good)).state, fun hfails => ?_⟩
  obtain ⟨e, he⟩ := answer_fails hf hfails
  exact hx.run.2 e he

variable [DecidableEq χ] {fromInput : CoroutineError → ε} {co : Future γ δ χ ρ ε}

/-! ### One call -/

theorem sound_advanceLive {input : Input} (h : Live mode m) :
    Spec (advanceLive host fromInput co input : Step γ δ χ ρ ε Ω (Progress δ))
      (fun _ => Sound mode) (fun _ => Failed mode) m := by
  unfold advanceLive
  rw [spec_bind]
  refine spec_checkPulse fun r w => ?_
  have hlive : Live mode { m with world := w } := ⟨h.inv, h.working, h.mode⟩
  cases r with
  | some reason => exact Logged.failed hlive.logged rfl
  | none =>
    dsimp only
    rw [spec_bind, spec_get]
    dsimp only
    have hrun : Spec (do
        let consumed ← absorbInput fromInput input 0
        drive host fromInput co input (input.bytes.length + 1) consumed :
          Step γ δ χ ρ ε Ω (Progress δ)) (fun _ => Sound mode) (fun _ => Failed mode)
        { m with world := w } := by
      rw [spec_bind]
      refine (live_absorbInput hlive).mono (fun consumed m' h' => ?_) (fun _ _ hm => hm)
      exact sound_drive _ consumed h'
    cases hboundary : m.decoder.shared.boundary with
    | some boundary => exact .inl hlive
    | none =>
      rcases hpending : m.decoder.pendingRows with _ | ⟨rows, offset⟩
      · cases hstate : m.decoder.state with
        | finishing info =>
          exact (live_finish hlive).mono (fun _ _ hm => .inr hm) (fun _ _ hm => hm)
        | running | done info | failed => exact hrun
      · -- the rest of rows that already went out in part
        have hrest : Live mode
            { m with decoder := { m.decoder with pendingRows := none }, world := w } := by
          refine ⟨fun hc hinside => ?_, h.working, h.mode⟩
          obtain ⟨hauthorized, hnoted, hagreed, hslot, -⟩ := h.inv hc hinside
          exact ⟨hauthorized, hnoted, hagreed, hslot, fun r n hr => by cases hr⟩
        show Spec (_ >>= _) _ _ _
        rw [spec_bind, spec_update]
        refine (live_deliverRows hrest fun hc hinside => ?_).mono (fun _ _ hm => .inl hm)
          (fun _ _ hm => hm)
        exact (h.inv hc hinside).queued rows offset hpending

theorem good_advance {input : Input} (h : Good mode m) :
    Spec (advance host fromInput co input : Step γ δ χ ρ ε Ω (Progress δ))
      (fun _ => Sound mode) (fun _ => Failed mode) m := by
  unfold advance
  rw [spec_bind, spec_get]
  cases hstate : m.decoder.state with
  | done info => exact .inr (h.complete hstate)
  | failed => exact h.failed hstate
  | running => exact sound_advanceLive (h.live (by rw [hstate]; simp) (by rw [hstate]; simp))
  | finishing info => exact sound_advanceLive (h.live (by rw [hstate]; simp) (by rw [hstate]; simp))

/-- A step keeps the decoder good, and fails for good. -/
theorem good_stepControlled {input : Input} (h : Good mode m) :
    Spec (stepControlled host fromInput co input : Step γ δ χ ρ ε Ω (Progress δ))
      (fun _ => Good mode) (fun _ => Failed mode) m := by
  unfold stepControlled
  rw [spec_withDetailsCleanup, spec_bind, spec_get]
  dsimp only
  cases hstate : m.decoder.state with
  | failed => exact (h.failed hstate).cleanup
  | running | finishing | done =>
    rw [spec_ite]
    refine ⟨fun _ => h.refused, fun _ => ?_⟩
    exact (good_advance h).mono (fun _ _ hm => Good.cleanup (.inl hm)) (fun _ _ hm => hm.cleanup)

theorem good_step {input : Input} (h : Good mode m) :
    Spec (step host fromInput co input : Step γ δ χ ρ ε Ω (Progress δ))
      (fun _ => Good mode) (fun _ => Failed mode) m := by
  unfold step
  rw [spec_withDetailsCleanup, spec_bind, spec_get]
  dsimp only
  cases hstate : m.decoder.state with
  | failed => exact (h.failed hstate).cleanup
  | running | finishing | done =>
    rw [spec_ite]
    refine ⟨fun _ => h.refused, fun _ => ?_⟩
    rw [spec_bind]
    refine (good_advance h).mono (fun p m' hm => ?_) (fun _ _ hm => hm.cleanup)
    have hgood : Good mode m' := .inl hm
    cases p.event with
    | suspended b => exact hgood.refused
    | need | rows | metadata | done => exact hgood.cleanup

/-! ### Runs -/

/-- A call keeps the decoder good, and one that fails leaves it failed. -/
theorem good_call (h : Good mode m) (c : Call) :
    Good mode (call host fromInput co m c).2 ∧
      ((call host fromInput co m c).1.Fails → Failed mode (call host fromInput co m c).2) := by
  cases c with
  | step input => exact good_answer (fun _ hp => hp) (good_step h)
  | stepControlled input => exact good_answer (fun _ hp => hp) (good_stepControlled h)
  | resume id action => exact good_answer (fun _ hp => hp) (good_resume h)
  | takeDetails =>
    exact good_answer (fun _ hp => hp)
      ((good_takeDetails h).mono (fun _ _ hm => hm.1) (fun _ _ hm => hm.elim))

/-- A failed decoder does nothing. -/
theorem ended_call {log : List (Entry δ)} (h : Ended log m) (c : Call) :
    (call host fromInput co m c).1.Idle ∧ Ended log (call host fromInput co m c).2 := by
  have hstate := h.2
  cases c with
  | step input =>
    refine ended_answer ?_
    unfold step
    rw [spec_withDetailsCleanup, spec_bind, spec_get]
    dsimp only
    rw [hstate]
    exact ⟨rfl, h.cleanup⟩
  | stepControlled input =>
    refine ended_answer ?_
    unfold stepControlled
    rw [spec_withDetailsCleanup, spec_bind, spec_get]
    dsimp only
    rw [hstate]
    exact ⟨rfl, h.cleanup⟩
  | resume id action =>
    refine ended_answer ?_
    unfold resume
    rw [spec_withDetailsCleanup, spec_bind, spec_get, spec_bind, spec_setState, hstate]
    exact ⟨rfl, Ended.cleanup ⟨h.1, rfl⟩⟩
  | takeDetails =>
    refine ended_answer ?_
    unfold takeDetails
    rw [spec_bind, spec_get]
    dsimp only
    rw [hstate]
    exact ⟨.inr rfl, h⟩

/-- A reply that is not permitted fails, and nothing is polled. -/
theorem resume_refused {id : BoundaryId} {action : BoundaryAction}
    (h : ¬ ∃ b, Permitted m.decoder.shared id action b) :
    (∃ e, (call host fromInput co m (.resume id action)).1 = .failed e) ∧
      (call host fromInput co m (.resume id action)).2.log = m.log := by
  have hspec : Spec (resume host id action : Step γ δ χ ρ ε Ω Unit) (fun _ _ => False)
      (fun e m' => (∃ e', e = .failed e') ∧ m'.log = m.log) m := by
    refine spec_resume (fun e w boundary => ⟨⟨e, rfl⟩, cleanup_log _⟩) (fun b w _ _ hb _ => ?_)
    exact absurd ⟨b, hb⟩ h
  show (∃ e, answer _ (resume host id action m).1 = .failed e) ∧ (resume host id action m).2.log = _
  cases hr : (resume host id action m : Except (Fault (StepError ρ ε)) Unit × _).1 with
  | ok a => exact (hspec.run.1 a hr).elim
  | error e =>
    obtain ⟨⟨e', rfl⟩, hlog⟩ := hspec.run.2 e hr
    exact ⟨⟨e', rfl⟩, hlog⟩

/-- Details are given out after the end only. -/
theorem details_done {details : DecodeDetails χ} (h : Good mode m)
    (hd : (call host fromInput co m .takeDetails).1 = .details (some details)) :
    .done ∈ m.log := by
  have hspec := (good_takeDetails (ε := ε) h).run
  have hanswer : answer (ε := ε) (ρ := ρ) (δ := δ) .details (takeDetails (ε := ε) m).1 =
      .details (some details) := hd
  cases hr : (takeDetails (ε := ε) m).1 with
  | ok taken =>
    rw [hr] at hanswer
    obtain rfl : taken = some details := Answer.details.inj hanswer
    exact (hspec.1 _ hr).2 rfl
  | error e => exact (hspec.2 e hr).elim

/-- In a controlled decode every call of the sink is for the image that was adopted, a reply that
is not permitted is refused, a decoder that failed does nothing any more, and the details are those
of a decode that is done. -/
theorem controlled_safe (host : Host δ ρ Ω) (fromInput : CoroutineError → ε)
    (co : Future γ δ χ ρ ε) (controlled : Bool) (store : InputStore) (g : γ) (w : Ω)
    (calls : List Call) :
    let run := Runs.final (call host fromInput co)
    let m := run (Machine.new controlled store g w) calls
    (controlled = true → RowsInside m.log → Authorized m.log) ∧
    (∀ id action, (¬ ∃ b, Permitted m.decoder.shared id action b) →
      (∃ e, (call host fromInput co m (.resume id action)).1 = .failed e) ∧
      (call host fromInput co m (.resume id action)).2.log = m.log) ∧
    (∀ c, (call host fromInput co m c).1.Fails → BeginReturned (call host fromInput co m c).2.log →
      ∀ later,
        (run (call host fromInput co m c).2 later).log = (call host fromInput co m c).2.log ∧
        ∀ a ∈ Runs.outputs (call host fromInput co) (call host fromInput co m c).2 later,
          a.Idle) ∧
    (∀ details, (call host fromInput co m .takeDetails).1 = .details (some details) →
      .done ∈ m.log) := by
  intro run m
  have hgood : Good controlled m :=
    Runs.final_of_preserved (A := fun _ => True) (P := Good controlled)
      (fun m c _ hm => (good_call hm c).1) (fun _ _ => trivial) (good_new controlled store g w)
  refine ⟨hgood.logged.1, fun id action => resume_refused, fun c hc hreturned later => ?_,
    fun details hd => details_done hgood hd⟩
  have hstate : (call host fromInput co m c).2.decoder.state = .failed :=
    ((good_call hgood c).2 hc).2.resolve_right fun h => h.2 hreturned
  have hended : Ended (call host fromInput co m c).2.log (call host fromInput co m c).2 :=
    ⟨rfl, hstate⟩
  -- nothing changes after the failure
  have hpreserved : Runs.Preserved (call host fromInput co) (fun _ => True)
      (Ended (call host fromInput co m c).2.log) :=
    fun m c _ hm => (ended_call hm c).2
  exact ⟨(Runs.final_of_preserved hpreserved (fun _ _ => trivial) hended).1,
    Runs.outputs_of_preserved hpreserved (fun m c _ hm => (ended_call hm c).1)
      (fun _ _ => trivial) hended⟩

/-! ### A decode of one row -/

/-- A future that makes these operations, poll by poll, and then waits. -/
def scripted (turns : List (List (Op Unit Unit) × Polled Unit Unit)) :
    Future ℕ Unit Unit Unit Unit where
  poll n _ :=
    match turns[n]? with
    | some turn => (turn.1, turn.2, n + 1)
    | none => ([], .pending, n)

/-- A sink that takes every row, but may unwind when it begins. -/
def plainSink (unwinds : Bool) : Host Unit Unit Unit where
  check w := (none, w)
  sliceOk _ := true
  maxBufferRows w := (.ok ⟨2, by decide⟩, w)
  begin _ _ _ w := (if unwinds then .error .unwound else .ok (), w)
  acceptsProvisional w := (.ok false, w)
  nextBuffer _ count width descriptor w := (.ok ⟨width, count, descriptor⟩, w)
  passBuffer _ count width descriptor w := (.ok ⟨width, count, descriptor⟩, w)
  finish w := (.ok (), w)

/-- One pixel. -/
def pixelFacts : InterpretationFacts Unit := ⟨1, 1, some (), .final, none⟩

def pixelRows (count : ℕ) : PendingRows Unit := ⟨⟨0, 0, true⟩, 1, .replicate count [0], ()⟩

/-- Announce one pixel, wait for the adoption, and write rows. -/
def pixelTurns (count : ℕ) : List (List (Op Unit Unit) × Polled Unit Unit) :=
  [([.setInfo ⟨1, 1, 0, ()⟩, .setOutputDescriptor (), .interpretation pixelFacts (some 0)],
      .pending),
    ([.reply (some 0), .writeRows (pixelRows count)], .pending)]

def pixelCalls : List Call :=
  [.stepControlled ⟨0, [], none⟩, .resume 0 .adoptInterpretation, .stepControlled ⟨0, [], none⟩]

def pixelRun (unwinds : Bool) (count : ℕ) (calls : List Call) : Machine ℕ Unit Unit Unit Unit :=
  Runs.final (call (plainSink unwinds) (fun _ => ()) (scripted (pixelTurns count)))
    (Machine.new true (.new 8) 0 ()) calls

theorem controlled_safe_pixel : Authorized (pixelRun false 1 pixelCalls).log := by
  have hlog : (pixelRun false 1 pixelCalls).log =
      [(pixelRows 1).strip 0 1 2, .sink (.nextBuffer 0 1 1 ()), .sink .maxBufferRows,
        .sink .acceptsProvisional, .sink (.begin 1 1 ()),
        .handed (.rows (pixelRows 1)) ⟨false, false⟩, .polled,
        .adopted pixelFacts, .polled] := by
    decide +kernel
  refine (controlled_safe (plainSink false) (fun _ => ()) (scripted (pixelTurns 1)) true (.new 8) 0
    () pixelCalls).1 rfl fun r found facts hr hfacts => ?_
  rw [pixelRun] at hlog
  rw [hlog] at hr hfacts
  simp only [PendingRows.strip, List.mem_cons, reduceCtorEq, Entry.handed.injEq, Item.rows.injEq,
    Entry.adopted.injEq, List.not_mem_nil, or_false, false_or] at hr hfacts
  obtain ⟨rfl, -⟩ := hr
  subst hfacts
  exact Nat.le_refl 1

/-- Two rows of an image with one go to the sink; and after the sink unwound when it began, the
future is polled once more. -/
theorem controlled_unsafe :
    ¬ Authorized (pixelRun false 2 pixelCalls).log ∧
    (call (plainSink true) (fun _ => ()) (scripted (pixelTurns 1))
      (pixelRun true 1 (pixelCalls.take 2)) (.stepControlled ⟨0, [], none⟩)).1 = .unwound ∧
    (pixelRun true 1 pixelCalls).log.count .polled = 2 ∧
    (pixelRun true 1 (pixelCalls ++ [.stepControlled ⟨0, [], none⟩])).log.count .polled = 3 := by
  refine ⟨fun h => ?_, by decide +kernel, by decide +kernel, by decide +kernel⟩
  have hlog : (pixelRun false 2 pixelCalls).log =
      [(pixelRows 2).strip 0 2 2, .sink (.nextBuffer 0 2 1 ()), .sink .maxBufferRows,
        .sink .acceptsProvisional, .sink (.begin 1 1 ()),
        .handed (.rows (pixelRows 2)) ⟨false, false⟩, .polled,
        .adopted pixelFacts, .polled] := by
    decide +kernel
  rw [hlog] at h
  -- the buffer is for the rows 0 and 1
  have hmatches : (SinkCall.nextBuffer 0 2 1 ()).Matches pixelFacts := h.2.1 pixelFacts (by decide)
  exact absurd hmatches.2.2 (by decide)

end Zencodec.Coroutine
