/-
Driving a stage, whatever the input comes from.

A driver offers input to a stage, takes what the stage consumed and serves what it needs next;
`next` is the loop that every driver runs. What it is for is said by `Fed`: a stage that is fed
from the bytes of a source sees what it did not consume again, and after it asked for more sees a
part of the source that meets one of its requests.

* `next_fed` — a driver with the invariant of `Feeds` feeds its stage, for any stage;
* `consumed_start` — a stage that asks for what comes next consumes the source from its start,
  nothing twice and nothing left out.
-/
import Zencodec.Io.Faithful
import Zencodec.Lib.Runs
import Mathlib.Logic.Relation

namespace Zencodec

/-- The input without its first `n` bytes. -/
def Incremental.Input.drop (input : Incremental.Input) (n : ℕ) : Incremental.Input :=
  ⟨input.offset + min n input.bytes.length, input.bytes.drop n, input.totalLen⟩

namespace Io

open Incremental (ByteRange Input InputRequest u64Max)

/-- What a window offers after some of it was consumed. -/
theorem Window.input_consume {w : Window} (h : w.InBuf) (n : ℕ) :
    (w.consume n).input = w.input.drop n := by
  unfold Window.input Input.drop
  dsimp only
  rw [base_consume, bytes_consume, total_consume, ← length_bytes h, ← List.drop_eq_drop_min]

variable {σ τ ε E O : Type}

/-! ### Stages and drivers -/

/-- What a step produced. -/
inductive Step (O : Type) where
  | need
  | output (o : O)
  | finished (o : O)
  deriving DecidableEq, Repr

/-- The result of one step. -/
structure Stepped (O : Type) where
  consumed : ℕ
  step : Step O

/-- A stage that consumes bytes. -/
structure ByteStepper (τ ε O : Type) where
  step : Input → τ → Except ε (Stepped O) × τ
  requested : τ → List InputRequest

/-- What a driver's `next` returns. -/
inductive Yield (O : Type) where
  | output (o : O)
  | finished (o : O)
  deriving DecidableEq, Repr

/-- The parts of a driver: what it offers, how it drops what was consumed, and how it gets what is
needed. One driver drops before it checks the request of the stage, the others after. -/
structure Driver (σ ε E : Type) where
  offer : Act σ E Input
  take : ℕ → σ → σ
  serve : List InputRequest → Act σ E Unit
  takesFirst : Bool
  onStep : ε → E
  onProtocol : ProtocolViolation → E

namespace Driver

variable (d : Driver σ ε E) (stage : ByteStepper τ ε O)

/-- Check what the stage asks for, if it does. -/
def check (input : Input) (p : Stepped O) : Act (σ × τ) E Unit := do
  let t ← Act.get
  match p.step with
  | .need => Act.lift ((checkNeed (stage.requested t.2) input p.consumed).mapError d.onProtocol)
  | .output _ => pure ()
  | .finished _ => pure ()

/-- Check the step and drop what was consumed. -/
def settle (input : Input) (p : Stepped O) : Act (σ × τ) E Unit :=
  if d.takesFirst then do
    Act.modify fun t => (d.take p.consumed t.1, t.2)
    d.check stage input p
  else do
    d.check stage input p
    Act.modify fun t => (d.take p.consumed t.1, t.2)

/-- Step the stage until it produces an output, in at most so many steps. -/
def next : ℕ → Act (σ × τ) E (Option (Yield O))
  | 0 => pure none
  | fuel + 1 => do
    let input ← Act.focus Prod.fst (fun s t => (s, t.2)) d.offer
    let p ← Act.foreign fun t =>
      ((stage.step input t.2).1.mapError d.onStep, (t.1, (stage.step input t.2).2))
    d.settle stage input p
    match p.step with
    | .output o => pure (some (.output o))
    | .finished o => pure (some (.finished o))
    | .need => do
      let t ← Act.get
      Act.focus Prod.fst (fun s t => (s, t.2)) (d.serve (stage.requested t.2))
      next fuel

end Driver

/-! ### What a driver is for -/

/-- The request is satisfied, or the source is known to end before it. -/
def Met (src : List UInt8) (request : InputRequest) (input : Input) : Prop :=
  request.isSatisfiedBy input = true ∨
    input.totalLen = some src.length ∧ ∀ offset ∈ request.offset, src.length < offset

/-- The numbers of a request are `u64`s. -/
def IsU64 : InputRequest → Prop
  | .atLeast offset minLen => offset ≤ u64Max ∧ minLen ≤ u64Max
  | .range r => r.IsU64
  | .len => True

/-- A stage that is fed from `src`, and the input that it is offered next. -/
inductive Fed (src : List UInt8) (stage : ByteStepper τ ε O) : τ × Input → τ × Input → Prop
  | yielded {s t : τ} {i : Input} {p : Stepped O} (hstep : stage.step i s = (.ok p, t))
      (hyield : p.step ≠ .need) : Fed src stage (s, i) (t, i.drop p.consumed)
  | served {s t : τ} {i i' : Input} {p : Stepped O} {r : InputRequest}
      (hstep : stage.step i s = (.ok p, t)) (hneed : p.step = .need)
      (hcheck : checkNeed (stage.requested t) i p.consumed = .ok ())
      (hr : r ∈ stage.requested t) (hmet : Met src r i') (hshows : Shows src i'.offset i'.bytes) :
      Fed src stage (s, i) (t, i')

/-- How a driver feeds: in a state with the invariant `I` it offers a part of the source, and
after it did, which is `J`, it keeps what was not consumed and meets a request that passed the
check. `Kept` are the failures after which the invariant is still there. -/
structure Feeds (d : Driver σ ε E) (src : List UInt8) (I J : σ → Prop) (offered : σ → Input)
    (Kept : E → Prop) : Prop where
  before : ∀ s, J s → I s
  shows : ∀ s, I s → Shows src (offered s).offset (offered s).bytes
  offer : ∀ s, I s → Act.Spec d.offer (fun input s' => input = offered s ∧ J s' ∧
    offered s' = offered s) (fun _ _ => False) s
  take : ∀ s n, J s → J (d.take n s) ∧ offered (d.take n s) = (offered s).drop n
  serve : ∀ s i consumed requests, J s → (∀ r ∈ requests, IsU64 r) → offered s = i.drop consumed →
    checkNeed requests i consumed = .ok () →
    Act.Spec (d.serve requests) (fun _ s' => J s' ∧ ∃ r ∈ requests, Met src r (offered s'))
      (fun e s' => Kept e → I s') s

section Feeding

variable {d : Driver σ ε E} {stage : ByteStepper τ ε O} {src : List UInt8} {I J : σ → Prop}
  {offered : σ → Input} {Kept : E → Prop}

theorem check_spec (input : Input) (p : Stepped O) (t : σ × τ) :
    Act.Spec (d.check stage input p)
      (fun _ t' => t' = t ∧
        (p.step = .need → checkNeed (stage.requested t.2) input p.consumed = .ok ()))
      (fun _ t' => t' = t) t := by
  unfold Driver.check
  rw [Act.spec_bind, Act.spec_get]
  cases p.step with
  | need =>
    rw [Act.spec_lift]
    exact ⟨fun _ hok => ⟨rfl, fun _ => mapError_eq_ok.mp hok⟩, fun _ _ => rfl⟩
  | output o => exact ⟨rfl, fun hneed => (by cases hneed)⟩
  | finished o => exact ⟨rfl, fun hneed => (by cases hneed)⟩

theorem settle_spec (h : Feeds d src I J offered Kept) (input : Input) (p : Stepped O) {t : σ × τ}
    (hJ : J t.1) :
    Act.Spec (d.settle stage input p)
      (fun _ t' => t' = (d.take p.consumed t.1, t.2) ∧
        (p.step = .need → checkNeed (stage.requested t.2) input p.consumed = .ok ()))
      (fun _ t' => I t'.1) t := by
  have htake := h.before _ (h.take t.1 p.consumed hJ).1
  unfold Driver.settle
  rw [Act.spec_ite, Act.spec_bind, Act.spec_bind, Act.spec_modify]
  refine ⟨fun _ => ?_, fun _ => ?_⟩
  · exact (check_spec input p _).mono (fun _ _ ht' => ht') fun _ _ ht' => ht' ▸ htake
  · refine (check_spec input p t).mono (fun _ t' ht' => ?_) fun _ _ ht' => ht' ▸ h.before _ hJ
    obtain ⟨rfl, hcheck⟩ := ht'
    exact ⟨rfl, hcheck⟩

/-- **A driver feeds its stage.** Whatever the stage does, and whether `next` succeeds or fails. -/
theorem next_fed (h : Feeds d src I J offered Kept)
    (hu64 : ∀ t, ∀ r ∈ stage.requested t, IsU64 r) (fuel : ℕ) :
    ∀ {t : σ × τ}, I t.1 →
    Act.Spec (d.next stage fuel)
      (fun _ t' => I t'.1 ∧ Relation.ReflTransGen (Fed src stage) (t.2, offered t.1)
        (t'.2, offered t'.1))
      (fun e t' => Kept e → I t'.1) t := by
  induction fuel with
  | zero => exact fun hI => ⟨hI, .refl⟩
  | succ fuel ih =>
    intro t hI
    unfold Driver.next
    simp only [Act.spec_bind, Act.spec_focus]
    refine (h.offer t.1 hI).mono (fun input s hs => ?_) fun _ _ hs => hs.elim
    obtain ⟨rfl, hs, hsame⟩ := hs
    refine spec_foreign (fun p hp => ?_) fun e _ _ => h.before _ hs
    have hstep : stage.step (offered t.1) t.2 = (.ok p, (stage.step (offered t.1) t.2).2) :=
      Prod.ext (mapError_eq_ok.mp hp) rfl
    refine (settle_spec h (offered t.1) p (t := (s, _)) hs).mono (fun _ t' ht' => ?_)
      fun _ _ ht' _ => ht'
    obtain ⟨rfl, hcheck⟩ := ht'
    obtain ⟨htake, hdrop⟩ := h.take s p.consumed hs
    have hdrop' : offered (d.take p.consumed s) = (offered t.1).drop p.consumed := hsame ▸ hdrop
    cases hp' : p.step with
    | output o | finished o =>
      have hfed := @Fed.yielded τ ε O src stage _ _ _ _ hstep (by rw [hp']; simp)
      exact ⟨h.before _ htake, .single (hdrop' ▸ hfed)⟩
    | need =>
      -- The requests passed the check, so that what is served meets one of them.
      simp only [Act.spec_bind, Act.spec_get, Act.spec_focus]
      refine (h.serve _ (offered t.1) p.consumed _ htake (hu64 _) hdrop' (hcheck hp')).mono
        (fun _ s' hs' => ?_) fun _ _ hs' => hs'
      obtain ⟨hJ', r, hr, hmet⟩ := hs'
      have hI' := h.before s' hJ'
      have hfed := Fed.served hstep hp' (hcheck hp') hr hmet (h.shows s' hI')
      refine (ih (t := (s', _)) hI').mono (fun _ u hu => ⟨hu.1, .head hfed hu.2⟩) fun _ _ hu => hu

theorem exists_of_isOk {α β : Type} {r : Except α β} (h : r.isOk = true) : ∃ b, r = .ok b := by
  cases r with
  | ok b => exact ⟨b, rfl⟩
  | error e => cases h

/-- One call of `next`, with its result. -/
def Driver.nextStep (d : Driver σ ε E) (stage : ByteStepper τ ε O) (t : σ × τ) (fuel : ℕ) :
    Except E (Option (Yield O)) × (σ × τ) :=
  d.next stage fuel t

/-- Calls that succeed feed the stage one after the other. -/
theorem run_fed (h : Feeds d src I J offered Kept)
    (hu64 : ∀ t, ∀ r ∈ stage.requested t, IsU64 r) {t : σ × τ} (hI : I t.1) {fuels : List ℕ}
    (hok : ∀ o ∈ Runs.outputs (d.nextStep stage) t fuels, o.isOk = true) :
    I (Runs.final (d.nextStep stage) t fuels).1 ∧
      Relation.ReflTransGen (Fed src stage) (t.2, offered t.1)
        ((Runs.final (d.nextStep stage) t fuels).2,
          offered (Runs.final (d.nextStep stage) t fuels).1) := by
  refine Runs.final_of_outputs (P := fun t' => I t'.1 ∧ Relation.ReflTransGen (Fed src stage)
    (t.2, offered t.1) (t'.2, offered t'.1)) ?_ ⟨hI, .refl⟩ hok
  rintro t' fuel ⟨hI', hfed⟩ hy
  obtain ⟨y, hy⟩ := exists_of_isOk hy
  obtain ⟨hnext, hrest⟩ := (next_fed h hu64 fuel hI').run.1 y hy
  exact ⟨hnext, hfed.trans hrest⟩

/-- Calls that fail keep what is offered a part of the source. -/
theorem run_kept (h : Feeds d src I J offered Kept)
    (hu64 : ∀ t, ∀ r ∈ stage.requested t, IsU64 r) {t : σ × τ} (hI : I t.1) {fuels : List ℕ}
    (hkept : ∀ o ∈ Runs.outputs (d.nextStep stage) t fuels, ∀ e, o = .error e → Kept e) :
    I (Runs.final (d.nextStep stage) t fuels).1 := by
  refine Runs.final_of_outputs (P := fun t' => I t'.1) (fun t' fuel hI' hkept' => ?_) hI hkept
  have hrun := (next_fed h hu64 fuel hI').run
  cases hr : (d.next stage fuel t').1 with
  | ok y => exact (hrun.1 y hr).1
  | error e => exact hrun.2 e hr (hkept' e hr)

/-! ### Keeping -/

theorem keeps_fst {α : Type} {P : σ → Prop} {x : Act σ E α} (h : Act.Keeps x P) :
    Act.Keeps (Act.focus Prod.fst (fun s (t : σ × τ) => (s, t.2)) x) (fun t => P t.1) :=
  fun t ht => (Act.spec_focus _ _ _).mpr (h t.1 ht)

/-- What the parts of a driver keep, `next` keeps: whatever the stage does, and however it ends. -/
theorem keeps_next (d : Driver σ ε E) (stage : ByteStepper τ ε O) (P : σ → Prop)
    (hoffer : Act.Keeps d.offer P) (htake : ∀ s n, P s → P (d.take n s))
    (hserve : ∀ requests, Act.Keeps (d.serve requests) P) (fuel : ℕ) :
    Act.Keeps (d.next stage fuel) (fun t => P t.1) := by
  have hcheck : ∀ input p, Act.Keeps (d.check stage input p) (fun t : σ × τ => P t.1) :=
    fun input p t ht => (check_spec input p t).mono (fun _ _ ht' => ht'.1 ▸ ht)
      fun _ _ ht' => ht' ▸ ht
  have hsettle : ∀ input p, Act.Keeps (d.settle stage input p) (fun t : σ × τ => P t.1) := by
    intro input p
    have hmodify : Act.Keeps (Act.modify fun t : σ × τ => (d.take p.consumed t.1, t.2) :
        Act (σ × τ) E Unit) (fun t => P t.1) := Act.keeps_modify fun t ht => htake t.1 _ ht
    exact Act.keeps_ite _ (hmodify.bind fun _ => hcheck input p)
      ((hcheck input p).bind fun _ => hmodify)
  induction fuel with
  | zero => exact Act.keeps_pure none
  | succ fuel ih =>
    unfold Driver.next
    refine (keeps_fst hoffer).bind fun input => ?_
    refine Act.Keeps.bind (fun t ht => spec_foreign (fun _ _ => ht) fun _ _ => ht) fun p => ?_
    refine (hsettle input p).bind fun _ => ?_
    cases p.step with
    | output o => exact Act.keeps_pure _
    | finished o => exact Act.keeps_pure _
    | need => exact Act.keeps_get.bind fun t => (keeps_fst (hserve _)).bind fun _ => ih

/-- The same over calls of `next`, whether they succeed or fail. -/
theorem keeps_run (P : σ → Prop) (next : σ × τ → ℕ → Except E (Option (Yield O)) × (σ × τ))
    (hnext : ∀ fuel, Act.Keeps (fun t : σ × τ => next t fuel) (fun t => P t.1)) (t : σ × τ)
    (hP : P t.1) (fuels : List ℕ) : P (Runs.final next t fuels).1 := by
  have hpreserved : Runs.Preserved next (fun _ => True) (fun t => P t.1) :=
    fun t fuel _ ht => (hnext fuel t ht).state
  exact Runs.final_of_preserved hpreserved (fun _ _ => trivial) hP

end Feeding

/-! ### Reading in order -/

/-- A stage that knows what it consumed, and asks for what comes after it. -/
structure Sequential (stage : ByteStepper τ ε O) (consumed : τ → List UInt8) : Prop where
  consumes : ∀ i s p t, stage.step i s = (.ok p, t) →
    consumed t = consumed s ++ i.bytes.take p.consumed
  asks : ∀ i s p t, stage.step i s = (.ok p, t) → p.step = .need →
    ∀ r ∈ stage.requested t, r.offset = some (consumed t).length

theorem Shows.drop_input {src : List UInt8} {i : Input} (h : Shows src i.offset i.bytes) (n : ℕ) :
    Shows src (i.drop n).offset (i.drop n).bytes := by
  have hdrop := h.drop (min n i.bytes.length)
  rwa [← List.drop_eq_drop_min] at hdrop

theorem offset_of_satisfied {r : InputRequest} {i : Input} {offset : ℕ}
    (h : r.isSatisfiedBy i = true) (hr : r.offset = some offset) : i.offset = offset := by
  cases r with
  | atLeast o n =>
    rw [InputRequest.isSatisfiedBy, Bool.and_eq_true, beq_iff_eq] at h
    exact h.1.trans (Option.some_inj.mp hr)
  | range r =>
    rw [InputRequest.isSatisfiedBy, Bool.and_eq_true, beq_iff_eq] at h
    exact h.1.trans (Option.some_inj.mp hr)
  | len => cases hr

/-- What was consumed after a step, and where the rest of the input starts. -/
theorem Sequential.read {src : List UInt8} {stage : ByteStepper τ ε O} {consumed : τ → List UInt8}
    (hseq : Sequential stage consumed) {s t : τ} {i : Input} {p : Stepped O}
    (hstep : stage.step i s = (.ok p, t)) (hconsumed : Shows src 0 (consumed s))
    (hoffset : i.offset = (consumed s).length) (hshows : Shows src i.offset i.bytes) :
    Shows src 0 (consumed t) ∧ (i.drop p.consumed).offset = (consumed t).length := by
  rw [hseq.consumes _ _ _ _ hstep]
  refine ⟨hconsumed.append ?_, ?_⟩
  · rw [Nat.zero_add, ← hoffset]
    exact hshows.take _
  · rw [List.length_append, List.length_take, ← hoffset]
    rfl

/-- **Nothing is lost and nothing comes twice.** What a stage consumes that reads in order is the
start of the source. -/
theorem consumed_start {src : List UInt8} {stage : ByteStepper τ ε O} {consumed : τ → List UInt8}
    (hseq : Sequential stage consumed) {a b : τ × Input}
    (h : Relation.ReflTransGen (Fed src stage) a b) (hconsumed : Shows src 0 (consumed a.1))
    (hoffset : a.2.offset = (consumed a.1).length) (hshows : Shows src a.2.offset a.2.bytes) :
    Shows src 0 (consumed b.1) ∧ b.2.offset = (consumed b.1).length ∧
      Shows src b.2.offset b.2.bytes := by
  induction h with
  | refl => exact ⟨hconsumed, hoffset, hshows⟩
  | tail _ hfed ih =>
    obtain ⟨hconsumed, hoffset, hshows⟩ := ih
    cases hfed with
    | yielded hstep hyield =>
      obtain ⟨hread, hnext⟩ := hseq.read hstep hconsumed hoffset hshows
      exact ⟨hread, hnext, hshows.drop_input _⟩
    | served hstep hneed hcheck hr hmet hshows' =>
      have hask := hseq.asks _ _ _ _ hstep hneed _ hr
      have hread := (hseq.read hstep hconsumed hoffset hshows).1
      refine ⟨hread, ?_, hshows'⟩
      rcases hmet with hsat | ⟨-, hbeyond⟩
      · exact offset_of_satisfied hsat hask
      · -- What was consumed is not longer than the source.
        have hlen := hread.length_le
        rw [List.drop_zero] at hlen
        exact absurd hlen (not_le.mpr (hbeyond _ hask))

end Io

end Zencodec
