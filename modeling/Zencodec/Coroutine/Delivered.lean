/-
A decode delivers everything once, in order, over any run of calls.

The driver goes on until the end or the first call that fails; `delivered_once` says what the last
call leaves.
-/
import Zencodec.Coroutine.Controlled
import Zencodec.Coroutine.Delivery

namespace Zencodec.Coroutine

open Act
open Zencodec.Operation (Fault)

variable {γ δ χ ρ ε Ω α : Type} {m : Machine γ δ χ ρ Ω}

/-! ### What deliveries show -/

/-- An item that leaves a trace. -/
def Item.isVisible : Item δ → Bool
  | .rows r => 0 < r.rows
  | .update _ => true

theorem Strips.nonempty {r : PendingRows δ} {n : ℕ} {strips : List (Entry δ)}
    (h : Strips r n strips) (hn : 0 < n) :
    ∃ batch lines limit rest, strips = .strip batch lines limit :: rest := by
  cases h with
  | nil => omega
  | cons _ _ _ _ => exact ⟨_, _, _, _, rfl⟩

theorem Delivers.length_le {items : List (Item δ)} {out : List (Entry δ)} (h : Delivers items out)
    (hvisible : items.all Item.isVisible) : items.length ≤ out.length := by
  induction h with
  | nil => exact Nat.le_refl 0
  | rows hstrips _ ih =>
    rw [List.all_cons, Bool.and_eq_true] at hvisible
    obtain ⟨_, _, _, rest, rfl⟩ := hstrips.nonempty (of_decide_eq_true hvisible.1)
    have hrest := ih hvisible.2
    rw [List.length_append, List.length_cons, List.length_cons]
    omega
  | update _ ih =>
    rw [List.all_cons, Bool.and_eq_true] at hvisible
    exact Nat.succ_le_succ (ih hvisible.2)

/-- The strips of the newest item are the newest deliveries. -/
theorem Delivers.newest {r : PendingRows δ} {items : List (Item δ)} {a : Entry δ}
    {out : List (Entry δ)} (h : Delivers (.rows r :: items) (a :: out)) (hr : 0 < r.rows) :
    ∃ batch lines limit, a = .strip batch lines limit := by
  generalize hout : a :: out = out' at h
  cases h with
  | rows hstrips _ =>
    obtain ⟨batch, lines, limit, rest, rfl⟩ := hstrips.nonempty hr
    exact ⟨batch, lines, limit, (List.cons.inj hout).1⟩

/-! ### One call -/

/-- Between the calls of a run in which none failed. -/
def Between (m : Machine γ δ χ ρ Ω) : Prop :=
  Steady (Owed.of m.decoder.pendingRows) m ∨ Finished m

theorem Sure.between {p : Progress δ} (h : Sure p m) : Between m := h.imp Working.steady id

theorem Between.settled (h : Between m) : Settled m.log := h.elim Steady.settled Finished.settled

theorem Between.cleanup (h : Between m) : Between m.cleanup := by
  unfold Machine.cleanup
  split
  · rcases h with ⟨hqueue, hunfinished, hfinishing, hworking⟩ | ⟨hsettled, hreported, hstate⟩
    · exact .inl ⟨hqueue, hunfinished, hfinishing, hworking⟩
    · exact .inr ⟨hsettled, hreported, hstate⟩
  · exact h

theorem between_new (controlled : Bool) (store : InputStore) (g : γ) (w : Ω) :
    Between (Machine.new controlled store g w : Machine γ δ χ ρ Ω) := by
  refine .inl ⟨fun _ => ⟨[], rfl, .nil⟩, fun hmem => (by cases hmem), fun info hinfo => ?_,
    fun info hinfo => ?_⟩
  · cases hinfo
  · cases hinfo

theorem Sure.cleanup {p : Progress δ} (h : Sure p m) : Sure p m.cleanup := by
  rcases h with h | h
  · unfold Machine.cleanup
    split
    · obtain ⟨hqueue, hunfinished, hfinishing, hworking⟩ := h.steady
      exact .inl ⟨⟨hqueue, hunfinished, hfinishing, hworking⟩, h.event⟩
    · exact .inl h
  · -- the end is no failure
    obtain ⟨info, hinfo⟩ := h.state
    rw [cleanup_of_ne (by rw [hinfo]; exact fun he => by cases he)]
    exact .inr h

theorem Settled.cleanup (h : Settled m.log) : Settled m.cleanup.log := by
  rw [cleanup_log]
  exact h

/-- A refusal leaves the log as it is. -/
theorem Settled.refused (h : Settled m.log) :
    Settled (Machine.cleanup { m with decoder.state := .failed }).log :=
  Settled.cleanup (m := { m with decoder.state := .failed }) h

variable {host : Host δ ρ Ω}

theorem between_resume [DecidableEq δ] {id : BoundaryId} {action : BoundaryAction}
    (h : Between m) :
    Spec (resume host id action : Step γ δ χ ρ ε Ω Unit)
      (fun _ => Between) (fun _ m' => Settled m'.log) m := by
  refine spec_resume (fun e w boundary => Settled.cleanup h.settled)
    (fun b w hstate _ _ _ => Between.cleanup ?_)
  rcases h with h | h
  · by_cases hadopt : action = .adoptInterpretation
    · rw [if_pos hadopt]
      have hsilent : ∀ a ∈ [Entry.adopted b.facts], a.Silent := by
        intro a ha
        rw [List.mem_singleton.mp ha]
        exact ⟨rfl, rfl, fun he => by cases he⟩
      obtain ⟨hqueue, hunfinished, -, -⟩ := h.silent hsilent w
      exact .inl ⟨hqueue, hunfinished, fun info hinfo => (by cases hinfo), fun info hinfo => by
        cases hinfo⟩
    · rw [if_neg hadopt]
      exact .inl ⟨h.queue, h.unfinished, fun info hinfo => (by cases hinfo), fun info hinfo => by
        cases hinfo⟩
  · obtain ⟨info, hinfo⟩ := h.state
    rw [hinfo] at hstate
    cases hstate

theorem between_takeDetails (h : Between m) :
    Spec (takeDetails : Step γ δ χ ρ ε Ω (Option (DecodeDetails χ)))
      (fun _ => Between) (fun _ m' => Settled m'.log) m := by
  unfold takeDetails
  rw [spec_bind, spec_get]
  dsimp only
  cases hstate : m.decoder.state with
  | done info =>
    rcases h with h | h
    · exact absurd hstate (h.working info)
    · exact .inr ⟨h.settled, h.reported, info, hstate⟩
  | running | finishing | failed => exact h

/-- What a call leaves. -/
structure Leaves (a : Answer δ χ ρ ε) (m : Machine γ δ χ ρ Ω) : Prop where
  settled : Settled m.log
  between : ¬ a.Fails → Between m
  reported : ∀ n info, a = .progress ⟨n, .done info⟩ → .done ∈ m.log

theorem leaves_answer {x : Step γ δ χ ρ ε Ω α} {f : α → Answer δ χ ρ ε}
    {Q : α → Machine γ δ χ ρ Ω → Prop} (hx : Spec x Q (fun _ m' => Settled m'.log) m)
    (hQ : ∀ a m', Q a m' → Leaves (f a) m') : Leaves (answer f (x m).1) (x m).2 := by
  cases hr : (x m).1 with
  | ok a => exact hQ a _ (hx.run.1 a hr)
  | error e =>
    have hsettled := hx.run.2 e hr
    cases e with
    | failed e => exact ⟨hsettled, fun hno => absurd trivial hno, fun n info he => by cases he⟩
    | unwound => exact ⟨hsettled, fun hno => absurd trivial hno, fun n info he => by cases he⟩

theorem Sure.leaves {p : Progress δ} (h : Sure p m) :
    Leaves (.progress p : Answer δ χ ρ ε) m := by
  refine ⟨h.between.settled, fun _ => h.between, fun n info he => ?_⟩
  obtain rfl := Answer.progress.inj he
  rcases h with h | h
  · exact absurd rfl (h.event info)
  · exact h.reported

variable [DecidableEq δ] [DecidableEq χ] {fromInput : CoroutineError → ε} {co : Future γ δ χ ρ ε}

theorem sure_advanceLive {input : Input} (h : Steady (Owed.of m.decoder.pendingRows) m) :
    Spec (advanceLive host fromInput co input : Step γ δ χ ρ ε Ω (Progress δ))
      Sure (fun _ m' => Settled m'.log) m := by
  unfold advanceLive
  rw [spec_bind]
  refine spec_checkPulse fun r w => ?_
  have hsteady : Steady (Owed.of m.decoder.pendingRows) { m with world := w } :=
    ⟨h.queue, h.unfinished, h.finishing, h.working⟩
  cases r with
  | some reason => exact hsteady.settled
  | none =>
    dsimp only
    rw [spec_bind, spec_get]
    dsimp only
    cases hboundary : m.decoder.shared.boundary with
    | some boundary => exact .inl ⟨hsteady, fun info he => by cases he⟩
    | none =>
      rcases hpending : m.decoder.pendingRows with _ | ⟨rows, offset⟩
      · rw [hpending] at hsteady
        have hturning : Turning .nothing { m with world := w } := ⟨hsteady, hpending⟩
        have hrun : Spec (do
            let consumed ← absorbInput fromInput input 0
            drive host fromInput co input (input.bytes.length + 1) consumed :
              Step γ δ χ ρ ε Ω (Progress δ)) Sure (fun _ m' => Settled m'.log)
            { m with world := w } := by
          rw [spec_bind]
          refine (turning_absorbInput hturning).mono (fun consumed m' h' => ?_) (fun _ _ hm => hm)
          exact sure_drive _ consumed h'
        cases hstate : m.decoder.state with
        | finishing info =>
          exact (finished_finish hsteady (h.finishing info hstate)).mono (fun _ _ hm => .inr hm)
            (fun _ _ hm => hm)
        | running | done info | failed => exact hrun
      · -- the rest of rows that already went out in part
        rw [hpending] at hsteady
        have hrest : Steady (.rows rows offset)
            { m with decoder := { m.decoder with pendingRows := none }, world := w } :=
          ⟨hsteady.queue, hsteady.unfinished, hsteady.finishing, hsteady.working⟩
        show Spec (_ >>= _) _ _ _
        rw [spec_bind, spec_update]
        exact (steady_deliverRows hrest).mono (fun _ _ hm => .inl hm) (fun _ _ hm => hm)

theorem sure_advance {input : Input} (h : Between m) :
    Spec (advance host fromInput co input : Step γ δ χ ρ ε Ω (Progress δ))
      Sure (fun _ m' => Settled m'.log) m := by
  unfold advance
  rw [spec_bind, spec_get]
  have hlive : (∀ info, m.decoder.state ≠ .done info) →
      Steady (Owed.of m.decoder.pendingRows) m := by
    intro hdone
    refine h.resolve_right fun hfinished => ?_
    obtain ⟨info, hinfo⟩ := hfinished.state
    exact hdone info hinfo
  cases hstate : m.decoder.state with
  | done info =>
    exact .inr (h.resolve_left fun hsteady => hsteady.working info hstate)
  | failed => exact h.settled
  | running => exact sure_advanceLive (hlive (by rw [hstate]; simp))
  | finishing info => exact sure_advanceLive (hlive (by rw [hstate]; simp))

theorem sure_stepControlled {input : Input} (h : Between m) :
    Spec (stepControlled host fromInput co input : Step γ δ χ ρ ε Ω (Progress δ))
      Sure (fun _ m' => Settled m'.log) m := by
  unfold stepControlled
  rw [spec_withDetailsCleanup, spec_bind, spec_get]
  dsimp only
  cases hstate : m.decoder.state with
  | failed => exact Settled.cleanup h.settled
  | running | finishing | done =>
    rw [spec_ite]
    refine ⟨fun _ => h.settled.refused, fun _ => ?_⟩
    exact (sure_advance h).mono (fun _ _ hm => hm.cleanup) (fun _ _ hm => hm.cleanup)

theorem sure_step {input : Input} (h : Between m) :
    Spec (step host fromInput co input : Step γ δ χ ρ ε Ω (Progress δ))
      Sure (fun _ m' => Settled m'.log) m := by
  unfold step
  rw [spec_withDetailsCleanup, spec_bind, spec_get]
  dsimp only
  cases hstate : m.decoder.state with
  | failed => exact Settled.cleanup h.settled
  | running | finishing | done =>
    rw [spec_ite]
    refine ⟨fun _ => h.settled.refused, fun _ => ?_⟩
    rw [spec_bind]
    refine (sure_advance h).mono (fun p m' hm => ?_) (fun _ _ hm => hm.cleanup)
    cases hevent : p.event with
    | suspended b => exact hm.between.settled.refused
    | need | rows | metadata | done => exact hm.cleanup

/-! ### Runs -/

theorem leaves_call (h : Between m) (c : Call) :
    Leaves (call host fromInput co m c).1 (call host fromInput co m c).2 := by
  cases c with
  | step input => exact leaves_answer (sure_step h) fun p m' hm => hm.leaves
  | stepControlled input => exact leaves_answer (sure_stepControlled h) fun p m' hm => hm.leaves
  | resume id action =>
    refine leaves_answer (between_resume h) fun _ m' hm => ⟨hm.settled, fun _ => hm, ?_⟩
    exact fun n info he => by cases he
  | takeDetails =>
    refine leaves_answer (between_takeDetails h) fun _ m' hm => ⟨hm.settled, fun _ => hm, ?_⟩
    exact fun n info he => by cases he

/-- Calls of which only the last may fail deliver what was handed over once and in order, and all
of it before the end is reported. -/
theorem delivered_once (host : Host δ ρ Ω) (fromInput : CoroutineError → ε)
    (co : Future γ δ χ ρ ε) (controlled : Bool) (store : InputStore) (g : γ) (w : Ω)
    (calls : List Call) (last : Call)
    (hcalls : ∀ a ∈ Runs.outputs (call host fromInput co) (Machine.new controlled store g w) calls,
      ¬ a.Fails) :
    let answered := call host fromInput co
      (Runs.final (call host fromInput co) (Machine.new controlled store g w) calls) last
    Orderly answered.2.log →
      InOrder answered.2.log ∧
      ∀ n info, answered.1 = .progress ⟨n, .done info⟩ →
        ∃ earlier, answered.2.log = .done :: earlier ∧
          Delivers (handedItems earlier) (delivered earlier) := by
  intro answered horderly
  have hbetween : Between
      (Runs.final (call host fromInput co) (Machine.new controlled store g w) calls) :=
    Runs.final_of_outputs (P := Between) (G := fun a => ¬ a.Fails)
      (fun m c hm hno => (leaves_call hm c).between hno) (between_new controlled store g w) hcalls
  have hleaves : Leaves answered.1 answered.2 := leaves_call hbetween last
  obtain ⟨hinOrder, hreported⟩ := hleaves.settled horderly
  exact ⟨hinOrder, fun n info he => hreported (hleaves.reported n info he)⟩

/-! ### One row, and what is lost -/

/-- A future that announces one pixel, makes these operations in the same poll, and then waits or
returns. -/
def hasty (ops : List (Op Unit Unit)) (polled : Polled Unit Unit) :
    Future ℕ Unit Unit Unit Unit :=
  scripted [(.setInfo ⟨1, 1, 0, ()⟩ :: .setOutputDescriptor () :: ops, polled),
    ([], .ready ⟨1, 1, ()⟩)]

theorem delivered_once_pixel :
    ∃ earlier,
      (call (plainSink false) (fun _ => ()) (hasty [.writeRows (pixelRows 1)] .pending)
        (Runs.final
          (call (plainSink false) (fun _ => ()) (hasty [.writeRows (pixelRows 1)] .pending))
          (Machine.new false (.new 8) 0 ()) [.step ⟨0, [], none⟩]) (.step ⟨0, [], none⟩)).2.log =
        .done :: earlier ∧
      Delivers (handedItems earlier) (delivered earlier) := by
  refine (delivered_once (plainSink false) (fun _ => ()) (hasty [.writeRows (pixelRows 1)] .pending)
    false (.new 8) 0 () [.step ⟨0, [], none⟩] (.step ⟨0, [], none⟩) ?_ ?_).2 0 ⟨1, 1, ()⟩
    (by decide +kernel)
  · have hone : Runs.outputs
        (call (plainSink false) (fun _ => ()) (hasty [.writeRows (pixelRows 1)] .pending))
        (Machine.new false (.new 8) 0 ()) [.step ⟨0, [], none⟩] =
        [.progress ⟨0, .rows ⟨0, 0, true⟩ 1⟩] := by decide +kernel
    rw [hone]
    intro a ha
    rw [List.mem_singleton.mp ha]
    exact id
  · have hlog : (call (plainSink false) (fun _ => ()) (hasty [.writeRows (pixelRows 1)] .pending)
        (Runs.final
          (call (plainSink false) (fun _ => ()) (hasty [.writeRows (pixelRows 1)] .pending))
          (Machine.new false (.new 8) 0 ()) [.step ⟨0, [], none⟩]) (.step ⟨0, [], none⟩)).2.log =
        [.done, .sink .finish, .returned ⟨false, false⟩, .polled, (pixelRows 1).strip 0 1 2,
          .sink (.nextBuffer 0 1 1 ()), .sink .maxBufferRows, .sink .acceptsProvisional,
          .sink (.begin 1 1 ()), .handed (.rows (pixelRows 1)) ⟨false, false⟩, .polled] := by
      decide +kernel
    rw [hlog]
    simp [Orderly, Entry.Orderly, PendingRows.strip]

/-- The calls of a driver until the end. -/
def hastyRun (ops : List (Op Unit Unit)) (polled : Polled Unit Unit) :
    Machine ℕ Unit Unit Unit Unit :=
  Runs.final (call (plainSink false) (fun _ => ()) (hasty ops polled))
    (Machine.new false (.new 8) 0 ()) (.replicate 3 (.step ⟨0, [], none⟩))

/-- The end is reported, but not every item was delivered once and in order. -/
def Unfaithful (log : List (Entry δ)) : Prop :=
  .done ∈ log ∧ ¬ Delivers (handedItems log) (delivered log)

/-- Two batches in one poll: the first is overwritten. Rows while an update waits: they go first. An
update and rows left at the end: the update is dropped. -/
theorem delivered_not_once :
    Unfaithful (hastyRun [.writeRows (pixelRows 1), .writeRows (pixelRows 1)] .pending).log ∧
    Unfaithful (hastyRun [.announce .updated, .writeRows (pixelRows 1)] .pending).log ∧
    Unfaithful
      (hastyRun [.writeRows (pixelRows 1), .announce .updated] (.ready ⟨1, 1, ()⟩)).log := by
  have hshort : ∀ log : List (Entry Unit), (handedItems log).all Item.isVisible →
      (delivered log).length < (handedItems log).length →
      ¬ Delivers (handedItems log) (delivered log) :=
    fun log hvisible hless h => Nat.not_lt_of_le (h.length_le hvisible) hless
  refine ⟨⟨by decide +kernel, hshort _ (by decide +kernel) (by decide +kernel)⟩,
    ⟨by decide +kernel, fun h => ?_⟩,
    ⟨by decide +kernel, hshort _ (by decide +kernel) (by decide +kernel)⟩⟩
  have hitems : handedItems (hastyRun [.announce .updated, .writeRows (pixelRows 1)] .pending).log =
      [.rows (pixelRows 1), .update .updated] := by decide +kernel
  have hout : delivered (hastyRun [.announce .updated, .writeRows (pixelRows 1)] .pending).log =
      [.update .updated, (pixelRows 1).strip 0 1 2] := by decide +kernel
  rw [hitems, hout] at h
  obtain ⟨_, _, _, hstrip⟩ := h.newest Nat.one_pos
  cases hstrip

end Zencodec.Coroutine
