/-
Rules for the computations of the decoder.

One rule for each primitive, with the foreign code arbitrary: a call of the sink may answer
anything and change the world in any way, and the pulse may find a cancellation at any check.
-/
import Zencodec.Coroutine.Decoder

namespace Zencodec.Coroutine

open Act
open Zencodec.Operation (Fault)

variable {γ δ χ ρ ε Ω α ι : Type} {m : Machine γ δ χ ρ Ω}
  {Q : α → Machine γ δ χ ρ Ω → Prop} {E : Fault (StepError ρ ε) → Machine γ δ χ ρ Ω → Prop}

@[simp] theorem spec_stop (e : StepError ρ ε) :
    Spec (stop e : Step γ δ χ ρ ε Ω α) Q E m ↔ E (.failed e) m := Iff.rfl

@[simp] theorem spec_update (f : Decoder γ δ χ ρ → Decoder γ δ χ ρ)
    {Q : Unit → Machine γ δ χ ρ Ω → Prop} :
    Spec (update f : Step γ δ χ ρ ε Ω Unit) Q E m ↔ Q () { m with decoder := f m.decoder } :=
  Iff.rfl

@[simp] theorem spec_setState (state : State δ) {Q : Unit → Machine γ δ χ ρ Ω → Prop} :
    Spec (setState state : Step γ δ χ ρ ε Ω Unit) Q E m ↔
      Q () { m with decoder.state := state } :=
  Iff.rfl

@[simp] theorem spec_note (entry : Entry δ) {Q : Unit → Machine γ δ χ ρ Ω → Prop} :
    Spec (note entry : Step γ δ χ ρ ε Ω Unit) Q E m ↔ Q () { m with log := entry :: m.log } :=
  Iff.rfl

@[simp] theorem spec_refuse (e : StepError ρ ε) :
    Spec (refuse e : Step γ δ χ ρ ε Ω α) Q E m ↔
      E (.failed e) { m with decoder.state := .failed } :=
  Iff.rfl

theorem spec_orRefuse {x : Step γ δ χ ρ ε Ω α}
    (h : Spec x Q (fun e m =>
      match e with
      | .failed e => E (.failed e) { m with decoder.state := .failed }
      | .unwound => E .unwound m) m) :
    Spec (orRefuse x) Q E m := by
  unfold Spec orRefuse at *
  generalize x m = p at h
  obtain ⟨r, m'⟩ := p
  cases r with
  | ok a => exact h
  | error e => cases e <;> exact h

/-- A call of the sink is noted, and may do anything to the world. -/
theorem spec_onSink {call : SinkCall δ} {err : ι → StepError ρ ε} {x : Act Ω (Fault ι) α}
    (hQ : ∀ a w, Q a ⟨m.decoder, w, .sink call :: m.log⟩)
    (hE : ∀ e w, E (.failed (err e)) ⟨m.decoder, w, .sink call :: m.log⟩)
    (hunwound : ∀ w, E .unwound ⟨m.decoder, w, .unwound call :: .sink call :: m.log⟩) :
    Spec (onSink call err x) Q E m := by
  unfold onSink
  rw [spec_bind, spec_note, spec_bind, spec_attempt, spec_focus]
  refine spec_of_run (fun a _ => hQ a _) (fun e _ => ?_)
  cases e with
  | failed e => exact hE e _
  | unwound => exact hunwound _

/-- An entry of a call that is one of `P`, or of its unwinding. -/
def Entry.Of (P : SinkCall δ → Prop) : Entry δ → Prop
  | .sink c | .unwound c => P c
  | _ => False

theorem Entry.Of.mono {P P' : SinkCall δ → Prop} {a : Entry δ} (h : a.Of P)
    (hP : ∀ c, P c → P' c) : a.Of P' := by
  cases a with
  | sink c | unwound c => exact hP c h
  | _ => exact h.elim

/-- A check of the pulse may find anything. -/
theorem spec_checkPulse {host : Host δ ρ Ω} {Q : Option ρ → Machine γ δ χ ρ Ω → Prop}
    (hQ : ∀ r w, Q r { m with world := w }) :
    Spec (checkPulse host : Step γ δ χ ρ ε Ω (Option ρ)) Q E m :=
  hQ _ _

theorem spec_checkStop {host : Host δ ρ Ω} {Q : Unit → Machine γ δ χ ρ Ω → Prop}
    (hQ : ∀ w, Q () { m with world := w })
    (hE : ∀ r w, E (.failed (.cancelled r)) { m with world := w }) :
    Spec (checkStop host : Step γ δ χ ρ ε Ω Unit) Q E m := by
  unfold checkStop
  rw [spec_bind]
  refine spec_checkPulse fun r w => ?_
  cases r with
  | none => exact hQ w
  | some r => exact hE r w

/-- What must hold before the sink is called. -/
structure Cleared (s : Shared δ χ ρ) : Prop where
  failure : s.controlFailure = none
  boundary : s.controlled = true → s.boundary = none
  adopted : s.controlled = true → ∃ facts, s.adopted = some facts

theorem cleared_of_not {s : Shared δ χ ρ} (hfailure : s.controlFailure = none)
    (h : ¬(s.controlled && (s.boundary.isSome || s.adopted.isNone)) = true) : Cleared s := by
  rw [Bool.and_eq_true, Bool.or_eq_true, not_and_or, not_or] at h
  refine ⟨hfailure, fun hc => ?_, fun hc => ?_⟩
  · rcases h with h | ⟨h, -⟩
    · exact absurd hc h
    · cases hb : s.boundary with
      | none => rfl
      | some b => rw [hb] at h; exact absurd rfl h
  · rcases h with h | ⟨-, h⟩
    · exact absurd hc h
    · cases ha : s.adopted with
      | none => rw [ha] at h; exact absurd rfl h
      | some facts => exact ⟨facts, rfl⟩

theorem spec_checkInterpretation {Q : Unit → Machine γ δ χ ρ Ω → Prop}
    (hQ : Cleared m.decoder.shared → Q () m) (hE : ∀ e, E (.failed (.control e)) m) :
    Spec (checkInterpretation : Step γ δ χ ρ ε Ω Unit) Q E m := by
  unfold checkInterpretation
  rw [spec_bind, spec_get]
  generalize hs : m.decoder.shared = s at *
  obtain ⟨e, hfailure⟩ | hfailure : (∃ e, s.controlFailure = some e) ∨ s.controlFailure = none := by
    cases s.controlFailure with
    | none => exact .inr rfl
    | some e => exact .inl ⟨e, rfl⟩
  · simp only [hfailure]
    exact hE e
  · simp only [hfailure]
    rw [spec_ite]
    exact ⟨fun _ => hE _, fun h => hQ (cleared_of_not hfailure h)⟩

/-! ### The functions that call the sink -/

/-- `begin` may be made: nothing was begun, and the header is there. -/
structure Ready (d : Decoder γ δ χ ρ) (info : ImageInfo χ) (descriptor : δ) : Prop where
  begun : d.begun = false
  info : d.shared.info = some info
  descriptor : d.shared.descriptor = some descriptor

/-- The calls of `begin` and at the end. -/
inductive HeaderCall (d : Decoder γ δ χ ρ) : SinkCall δ → Prop
  | begin (info : ImageInfo χ) (descriptor : δ) (h : Ready d info descriptor) :
      HeaderCall d (.begin info.width info.height descriptor)
  | acceptsProvisional : HeaderCall d .acceptsProvisional
  | finish : HeaderCall d .finish

/-- A call that begins the output. -/
def SinkCall.Begins : SinkCall δ → Prop
  | .begin _ _ _ | .acceptsProvisional => True
  | _ => False

/-- `begin_if_ready`: nothing, or the calls `begin` and `accepts_provisional`. -/
theorem spec_beginIfReady {host : Host δ ρ Ω} {Q : Unit → Machine γ δ χ ρ Ω → Prop}
    (hcontrol : ∀ e, E (.failed (.control e)) m)
    (hE : ∀ e w (entries : List (Entry δ)), Cleared m.decoder.shared →
      (∀ a ∈ entries, a.Of (HeaderCall m.decoder)) →
      (e = .unwound → ∃ c, .unwound c ∈ entries ∧ c.Begins) →
      E e ⟨m.decoder, w, entries ++ m.log⟩)
    (hQ : ∀ w (entries : List (Entry δ)) (begun accepts accepts' : Bool),
      Cleared m.decoder.shared → (∀ a ∈ entries, a.Of (HeaderCall m.decoder)) →
      Q () ⟨{ m.decoder with
          shared.acceptsProvisional := accepts, acceptsProvisional := accepts', begun := begun }, w,
        entries ++ m.log⟩) :
    Spec (beginIfReady host : Step γ δ χ ρ ε Ω Unit) Q E m := by
  unfold beginIfReady
  rw [spec_bind]
  refine spec_checkInterpretation (fun hcleared => ?_) hcontrol
  have hskip : Q () m := hQ m.world [] _ _ _ hcleared (by simp)
  rw [spec_bind, spec_get, spec_ite]
  refine ⟨fun _ => hskip, fun hbegun => ?_⟩
  cases hinfo : m.decoder.shared.info with
  | none => exact hskip
  | some info =>
    cases hdescriptor : m.decoder.shared.descriptor with
    | none => exact hskip
    | some descriptor =>
      have hready : Ready m.decoder info descriptor := ⟨by simpa using hbegun, hinfo, hdescriptor⟩
      have hbegin : HeaderCall m.decoder (.begin info.width info.height descriptor) :=
        .begin info descriptor hready
      have hone : ∀ a ∈ [Entry.sink (.begin info.width info.height descriptor)],
          a.Of (HeaderCall m.decoder) := by
        simpa [Entry.Of] using hbegin
      have hboth : ∀ a ∈ [Entry.sink .acceptsProvisional,
          .sink (.begin info.width info.height descriptor)], a.Of (HeaderCall m.decoder) := by
        simpa [Entry.Of] using ⟨HeaderCall.acceptsProvisional, hbegin⟩
      show Spec (_ >>= _) Q E m
      rw [spec_bind]
      refine spec_onSink (fun _ w => ?_) (fun _ w => hE _ w [_] hcleared hone fun h => by cases h)
        (fun w => hE _ w [.unwound _, _] hcleared
          (by simpa [Entry.Of] using hbegin) fun _ => ⟨_, List.mem_cons_self, trivial⟩)
      rw [spec_bind]
      refine spec_onSink (fun accepts w' => ?_) (fun e => e.elim)
        (fun w' => hE _ w' [.unwound _, _, _] hcleared
          (by simpa [Entry.Of] using ⟨HeaderCall.acceptsProvisional, hbegin⟩)
          fun _ => ⟨_, List.mem_cons_self, trivial⟩)
      exact hQ w' [_, _] true accepts accepts hcleared hboth

/-- The calls for one strip: the limit, and one buffer. -/
inductive StripCall (rows : PendingRows δ) (offset : ℕ) : SinkCall δ → Prop
  | maxBufferRows : StripCall rows offset .maxBufferRows
  | nextBuffer (count : ℕ) (hpos : 0 < count) (hcount : offset + count ≤ rows.rows) :
      StripCall rows offset
        (.nextBuffer (rows.batch.y + offset) count rows.width rows.descriptor)
  | passBuffer (count : ℕ) (hpos : 0 < count) (hcount : offset + count ≤ rows.rows) :
      StripCall rows offset
        (.passBuffer { rows.batch with y := rows.batch.y + offset } count rows.width
          rows.descriptor)

/-- The strip of a batch from `offset` on. -/
def PendingRows.strip (rows : PendingRows δ) (offset count limit : ℕ) : Entry δ :=
  .strip { rows.batch with y := rows.batch.y + offset } ((rows.lines.drop offset).take count) limit

/-! ### What one operation of the future can do -/

section operations

variable {s : Shared δ χ ρ}

theorem pollRead_frame (reads : Reads) (s : Shared δ χ ρ) :
    ∃ store need, (pollRead reads s).2 = { s with input := store, need := need } := by
  unfold pollRead
  dsimp only
  split
  · exact ⟨_, _, rfl⟩
  · split
    · exact ⟨_, _, rfl⟩
    · split
      · split <;> exact ⟨_, _, rfl⟩
      · exact ⟨_, _, rfl⟩

theorem pollLen_frame (s : Shared δ χ ρ) : ∃ need, (pollLen s).2 = { s with need := need } := by
  unfold pollLen
  split
  · exact ⟨_, rfl⟩
  · split <;> exact ⟨_, rfl⟩

/-- `WriteRows` fills the slot if it waits, in a controlled decoder after the adoption only. -/
theorem pollRows_cases (rows : PendingRows δ) (s : Shared δ χ ρ) :
    ((pollRows rows s).1.isPending = false ∧ (pollRows rows s).2 = s) ∨
    ((pollRows rows s).1.isPending = true ∧ (pollRows rows s).2 = { s with rows := some rows } ∧
      Cleared s) := by
  unfold pollRows
  cases hfailure : s.controlFailure with
  | some e => exact .inl ⟨rfl, rfl⟩
  | none =>
    dsimp only
    split
    · exact .inl ⟨rfl, rfl⟩
    · next hoff =>
      cases s.cancelled with
      | some reason => exact .inl ⟨rfl, rfl⟩
      | none => exact .inr ⟨rfl, rfl, cleared_of_not hfailure (by rwa [Bool.or_comm])⟩

theorem pollAnnounce_cases (u : MetadataUpdate) (s : Shared δ χ ρ) :
    ((pollAnnounce u s).1.isPending = false ∧ (pollAnnounce u s).2 = s) ∨
    ((pollAnnounce u s).1.isPending = true ∧
      (pollAnnounce u s).2 = { s with metadata := some u }) := by
  unfold pollAnnounce
  cases s.cancelled with
  | some reason => exact .inl ⟨rfl, rfl⟩
  | none => exact .inr ⟨rfl, rfl⟩

/-- `Interpret` leaves a boundary only while nothing is adopted. -/
theorem pollInterpret_cases [DecidableEq δ] (facts : InterpretationFacts δ)
    (fresh : Option BoundaryId) (s : Shared δ χ ρ) :
    (pollInterpret facts fresh s).2 = s ∨
    (s.adopted = none ∧
      ∃ id, (pollInterpret facts fresh s).2 = { s with boundary := some ⟨id, facts⟩ }) := by
  unfold pollInterpret
  cases s.cancelled with
  | some reason => exact .inl rfl
  | none =>
    cases s.controlFailure with
    | some e => exact .inl rfl
    | none =>
      dsimp only
      split
      · exact .inl rfl
      · split
        · exact .inl rfl
        · cases hadopted : s.adopted with
          | some adopted =>
            dsimp only
            split <;> exact .inl rfl
          | none =>
            dsimp only
            split
            · exact .inl rfl
            · cases fresh with
              | none => exact .inl rfl
              | some id => exact .inr ⟨rfl, id, rfl⟩

theorem pollReply_frame (id : Option BoundaryId) (s : Shared δ χ ρ) :
    ∃ reply, (pollReply id s).2 = { s with reply := reply } := by
  unfold pollReply
  split
  · exact ⟨s.reply, rfl⟩
  · split
    · exact ⟨s.reply, rfl⟩
    · split
      · exact ⟨s.reply, rfl⟩
      · split
        · split <;> exact ⟨none, rfl⟩
        · exact ⟨s.reply, rfl⟩

end operations

/-! ### Between input and output -/

/-- `absorb` changes the store and the needs. -/
theorem absorb_frame (s : Shared δ χ ρ) (input : Input) (start : ℕ) :
    ∃ store need, (absorb s input start).2 = { s with input := store, need := need } := by
  unfold absorb
  dsimp only
  cases checkedEnd input.offset start with
  | error e => exact ⟨_, s.need, rfl⟩
  | ok front =>
    cases checkedEnd input.offset input.bytes.length with
    | error e => exact ⟨_, s.need, rfl⟩
    | ok stop =>
      dsimp only
      split
      · exact ⟨_, s.need, rfl⟩
      · generalize feedNeeds input front s.need front (s.input.learnTotal input.totalLen) = fed
        obtain ⟨r, store⟩ := fed
        cases r with
        | error e => exact ⟨store, [], rfl⟩
        | ok n => exact ⟨store, s.need, rfl⟩

theorem spec_absorbInput {fromInput : CoroutineError → ε} {input : Input} {start : ℕ}
    {Q : ℕ → Machine γ δ χ ρ Ω → Prop}
    (hE : ∀ e store need, E (.failed (.codec e))
      { m with
        decoder.state := .failed
        decoder.shared := { m.decoder.shared with input := store, need := need } })
    (hQ : ∀ n store need, Q n
      { m with
        decoder.state := .running
        decoder.shared := { m.decoder.shared with input := store, need := need } }) :
    Spec (absorbInput fromInput input start : Step γ δ χ ρ ε Ω ℕ) Q E m := by
  unfold absorbInput
  rw [spec_bind, spec_setState, spec_bind, spec_get]
  obtain ⟨store, need, hframe⟩ := absorb_frame m.decoder.shared input start
  generalize absorb m.decoder.shared input start = absorbed at hframe
  obtain ⟨r, shared⟩ := absorbed
  obtain rfl : shared = _ := hframe
  dsimp only
  rw [spec_bind, spec_update]
  cases r with
  | error e => exact hE _ store need
  | ok n => exact hQ n store need

/-- What the future left: a violation; a boundary without rows; rows; an update; or neither. -/
theorem spec_takeEvent {Q : Pending δ → Machine γ δ χ ρ Ω → Prop}
    (hcontrol : ∀ e, E (.failed (.control e)) { m with decoder.state := .failed })
    (hboundary : ∀ b, m.decoder.shared.controlFailure = none →
      m.decoder.shared.boundary = some b → m.decoder.shared.rows = none → Q (.boundary b) m)
    (hrows : ∀ r, m.decoder.shared.controlFailure = none → m.decoder.shared.boundary = none →
      m.decoder.shared.rows = some r → Q (.rows r) { m with decoder.shared.rows := none })
    (hmetadata : ∀ u, m.decoder.shared.controlFailure = none →
      m.decoder.shared.boundary = none → m.decoder.shared.rows = none →
      m.decoder.shared.metadata = some u →
      Q (.metadata u) { m with decoder.shared.metadata := none })
    (hidle : m.decoder.shared.controlFailure = none → m.decoder.shared.boundary = none →
      m.decoder.shared.rows = none → m.decoder.shared.metadata = none → Q .stalled m ∧ Q .need m) :
    Spec (takeEvent : Step γ δ χ ρ ε Ω (Pending δ)) Q E m := by
  unfold takeEvent
  rw [spec_bind, spec_get]
  dsimp only
  cases hfailure : m.decoder.shared.controlFailure with
  | some e => exact hcontrol e
  | none =>
    cases hb : m.decoder.shared.boundary with
    | some b =>
      cases hr : m.decoder.shared.rows with
      | some r => exact hcontrol _
      | none => exact hboundary b hfailure hb hr
    | none =>
      cases hr : m.decoder.shared.rows with
      | some r => exact hrows r hfailure hb hr
      | none =>
        cases hu : m.decoder.shared.metadata with
        | some u => exact hmetadata u hfailure hb hr hu
        | none =>
          rw [spec_pure]
          split
          · exact (hidle hfailure hb hr hu).1
          · exact (hidle hfailure hb hr hu).2

/-! ### The end of a call -/

@[simp] theorem spec_withDetailsCleanup (x : Step γ δ χ ρ ε Ω α) :
    Spec (withDetailsCleanup x) Q E m ↔
      Spec x (fun a m => Q a m.cleanup) (fun e m => E e m.cleanup) m := by
  unfold Spec withDetailsCleanup
  obtain ⟨r, m'⟩ := x m
  cases r <;> exact Iff.rfl

theorem cleanup_log (m : Machine γ δ χ ρ Ω) : m.cleanup.log = m.log := by
  unfold Machine.cleanup
  split <;> rfl

theorem cleanup_state (m : Machine γ δ χ ρ Ω) : m.cleanup.decoder.state = m.decoder.state := by
  unfold Machine.cleanup
  split <;> rfl

theorem cleanup_controlled (m : Machine γ δ χ ρ Ω) :
    m.cleanup.decoder.shared.controlled = m.decoder.shared.controlled := by
  unfold Machine.cleanup
  split <;> rfl

/-- Only a failed decoder is cleaned up. -/
theorem cleanup_of_ne (h : m.decoder.state ≠ .failed) : m.cleanup = m := by
  unfold Machine.cleanup
  split
  · exact absurd ‹_› h
  · rfl

/-! ### Strips -/

variable [DecidableEq δ]

/-- `copy_rows`: at most one buffer, and the strip where there are rows. -/
theorem spec_copyRows {host : Host δ ρ Ω} {rows : PendingRows δ} {offset count limit : ℕ}
    {Q : Unit → Machine γ δ χ ρ Ω → Prop} (hcount : count = 0 ∨ offset + count ≤ rows.rows)
    (hskip : count = 0 → Q () m)
    (hcopy : ∀ c w, 0 < count → StripCall rows offset c →
      Q () ⟨m.decoder, w, rows.strip offset count limit :: .sink c :: m.log⟩)
    (hE : ∀ e w (entries : List (Entry δ)), (∀ a ∈ entries, a.Of (StripCall rows offset)) →
      E e ⟨m.decoder, w, entries ++ m.log⟩) :
    Spec (copyRows host rows offset count limit : Step γ δ χ ρ ε Ω Unit) Q E m := by
  have hsink : E (.failed .sink) m := hE _ m.world [] (by simp)
  unfold copyRows
  rw [spec_bind, spec_get]
  simp only [spec_ite]
  refine ⟨fun _ => hsink, fun _ => ⟨fun _ => hsink, fun _ => ⟨fun _ => hsink, fun _ =>
    ⟨hskip, fun hzero => ?_⟩⟩⟩⟩
  have hpos : 0 < count := Nat.pos_of_ne_zero hzero
  have hle : offset + count ≤ rows.rows := hcount.resolve_left hzero
  have hone : ∀ c, StripCall rows offset c → ∀ e w, E e ⟨m.decoder, w, .sink c :: m.log⟩ := by
    intro c hc e w
    exact hE e w [.sink c] (by simpa [Entry.Of] using hc)
  have htwo : ∀ c, StripCall rows offset c →
      ∀ e w, E e ⟨m.decoder, w, .unwound c :: .sink c :: m.log⟩ := by
    intro c hc e w
    exact hE e w [.unwound c, .sink c] (by simpa [Entry.Of] using hc)
  -- whichever buffer it is, what follows is the same
  have hafter : ∀ (c : SinkCall δ) (g : Geometry δ) (w : Ω), StripCall rows offset c →
      Spec (if g ≠ ⟨rows.width, count, rows.descriptor⟩ then stop .sink
          else note (rows.strip offset count limit) : Step γ δ χ ρ ε Ω Unit) Q E
        ⟨m.decoder, w, .sink c :: m.log⟩ := by
    intro c g w hc
    rw [spec_ite]
    exact ⟨fun _ => hone c hc _ w, fun _ => hcopy c w hpos hc⟩
  refine ⟨fun _ => ?_, fun _ => ?_⟩
  · have hc : StripCall rows offset _ := .nextBuffer count hpos hle
    rw [spec_bind]
    exact spec_onSink (fun g w => hafter _ g w hc) (fun _ w => hone _ hc _ w)
      (fun w => htwo _ hc _ w)
  · have hc : StripCall rows offset _ := .passBuffer count hpos hle
    rw [spec_bind]
    exact spec_onSink (fun g w => hafter _ g w hc) (fun _ w => hone _ hc _ w)
      (fun w => htwo _ hc _ w)

/-- `deliver_rows`: one strip, or failed for good. -/
theorem spec_deliverRows {host : Host δ ρ Ω} {rows : PendingRows δ} {offset consumed : ℕ}
    {Q : Progress δ → Machine γ δ χ ρ Ω → Prop}
    (hcontrol : ∀ e, E (.failed (.control e)) { m with decoder.state := .failed })
    (hE : ∀ e w (entries : List (Entry δ)), Cleared m.decoder.shared →
      (∀ a ∈ entries, a.Of (StripCall rows offset)) →
      E e ⟨{ m.decoder with state := .failed }, w, entries ++ m.log⟩)
    (hQ : ∀ limit count w (entries : List (Entry δ)), Cleared m.decoder.shared →
      (∀ a ∈ entries, a.Of (StripCall rows offset)) → 0 < limit →
      count = min limit (rows.rows - offset) →
      Q ⟨consumed, .rows { rows.batch with y := rows.batch.y + offset } count⟩
        ⟨{ m.decoder with
            pendingRows := if offset + count < rows.rows then some (rows, offset + count) else none
            need := [] }, w,
          (if count = 0 then [] else [rows.strip offset count limit]) ++ entries ++ m.log⟩) :
    Spec (deliverRows host rows offset consumed : Step γ δ χ ρ ε Ω (Progress δ)) Q E m := by
  unfold deliverRows
  rw [spec_bind, spec_get, spec_bind, spec_setState, spec_bind]
  refine spec_checkInterpretation (fun hcleared => ?_) hcontrol
  rw [spec_bind]
  have hmax : ∀ a ∈ [Entry.sink SinkCall.maxBufferRows], a.Of (StripCall rows offset) := by
    simpa [Entry.Of] using StripCall.maxBufferRows
  refine spec_onSink (fun limit w => ?_) (fun e => e.elim)
    (fun w => hE _ w [.unwound _, _] hcleared (by simpa [Entry.Of] using StripCall.maxBufferRows))
  rw [spec_bind]
  have hcount : min limit.1 (rows.rows - offset) = 0 ∨
      offset + min limit.1 (rows.rows - offset) ≤ rows.rows := by
    omega
  refine spec_copyRows hcount (fun hzero => ?_) (fun c w' hpos hc => ?_)
    (fun e w' entries hentries => ?_)
  · have h := hQ limit.1 _ w _ hcleared hmax limit.2 rfl
    rw [if_pos hzero] at h
    exact h
  · have hboth : ∀ a ∈ [Entry.sink c, .sink .maxBufferRows], a.Of (StripCall rows offset) := by
      simpa [Entry.Of] using ⟨hc, StripCall.maxBufferRows⟩
    have h := hQ limit.1 _ w' _ hcleared hboth limit.2 rfl
    rw [if_neg (Nat.pos_iff_ne_zero.mp hpos)] at h
    exact h
  · rw [show ∀ l : List (Entry δ), entries ++ .sink .maxBufferRows :: l =
        (entries ++ [.sink .maxBufferRows]) ++ l from fun l => by simp]
    exact hE e w' _ hcleared fun a ha => (List.mem_append.mp ha).elim (hentries a) (hmax a)

/-! ### Replies -/

/-- A reply to the outstanding boundary that its facts permit. -/
structure Permitted (s : Shared δ χ ρ) (id : BoundaryId) (action : BoundaryAction)
    (b : DecodeBoundary δ) : Prop where
  outstanding : s.boundary = some b
  same : b.id = id
  permits : action.permits b.facts = true

/-- The state after an accepted reply. -/
def Shared.replied (s : Shared δ χ ρ) (id : BoundaryId) (action : BoundaryAction)
    (facts : InterpretationFacts δ) : Shared δ χ ρ :=
  { s with
    boundary := none
    adopted := if action = .adoptInterpretation then some facts else s.adopted
    reply := some (id, action) }

/-- `resume`: failed for good, or a permitted reply to facts that still agree. -/
theorem spec_resume {host : Host δ ρ Ω} {id : BoundaryId} {action : BoundaryAction}
    {Q : Unit → Machine γ δ χ ρ Ω → Prop}
    (hE : ∀ e w boundary, E (.failed e) (Machine.cleanup
      ⟨{ m.decoder with
          state := .failed, shared := { m.decoder.shared with boundary := boundary } }, w, m.log⟩))
    (hQ : ∀ b w, m.decoder.state = .running → m.decoder.shared.controlFailure = none →
      Permitted m.decoder.shared id action b → m.decoder.shared.agrees b.facts = true →
      Q () (Machine.cleanup ⟨{ m.decoder with
          state := .running, shared := m.decoder.shared.replied id action b.facts }, w,
        if action = .adoptInterpretation then .adopted b.facts :: m.log else m.log⟩)) :
    Spec (resume host id action : Step γ δ χ ρ ε Ω Unit) Q E m := by
  unfold resume
  rw [spec_withDetailsCleanup, spec_bind, spec_get, spec_bind, spec_setState]
  cases hstate : m.decoder.state with
  | finishing info => exact hE _ m.world m.decoder.shared.boundary
  | done info => exact hE _ m.world m.decoder.shared.boundary
  | failed => exact hE _ m.world m.decoder.shared.boundary
  | running =>
    dsimp only
    rw [spec_bind]
    refine spec_checkStop (fun w => ?_) (fun r w => hE _ w m.decoder.shared.boundary)
    rw [spec_bind, spec_get, spec_ite]
    refine ⟨fun _ => hE _ w m.decoder.shared.boundary, fun _ => ?_⟩
    dsimp only
    cases hfailure : m.decoder.shared.controlFailure with
    | some e => exact hE _ w m.decoder.shared.boundary
    | none =>
      cases hb : m.decoder.shared.boundary with
      | none => exact hE (.control .invalidReply) w m.decoder.shared.boundary
      | some b =>
        dsimp only
        rw [spec_bind, spec_update, spec_ite]
        refine ⟨fun _ => hE _ w none, fun hpermits => ?_⟩
        rw [spec_ite]
        refine ⟨fun _ => hE _ w none, fun hagrees => ?_⟩
        simp only [Bool.or_eq_true, not_or, decide_eq_true_eq, ne_eq, Decidable.not_not,
          Bool.not_eq_true', Bool.not_eq_false] at hpermits hagrees
        obtain ⟨⟨hid, haction⟩, -⟩ := hpermits
        have hreply := hQ b w hstate hfailure ⟨hb, hid, haction⟩ hagrees
        rw [spec_bind, spec_ite]
        -- only the adoption leaves a trace of its own
        refine ⟨fun hadopt => ?_, fun hother => ?_⟩
        · rw [if_pos hadopt, Shared.replied, if_pos hadopt] at hreply
          exact hreply
        · rw [if_neg hother, Shared.replied, if_neg hother] at hreply
          exact hreply

/-! ### The end -/

variable [DecidableEq χ]

/-- The decoder of a `finish` that has not come to its end. -/
def Decoder.unfinished (d : Decoder γ δ χ ρ) (begun accepts accepts' : Bool) : Decoder γ δ χ ρ :=
  { d with
    state := .failed, shared.acceptsProvisional := accepts, acceptsProvisional := accepts'
    begun := begun }

/-- `finish`: the end of the decode, or failed for good. -/
theorem spec_finish {host : Host δ ρ Ω} {info : OutputInfo δ} {consumed : ℕ}
    {Q : Progress δ → Machine γ δ χ ρ Ω → Prop}
    (hcontrol : ∀ e, E (.failed (.control e)) { m with decoder.state := .failed })
    (hE : ∀ e w (entries : List (Entry δ)) begun accepts accepts', Cleared m.decoder.shared →
      (∀ a ∈ entries, a.Of (HeaderCall m.decoder)) →
      E e ⟨m.decoder.unfinished begun accepts accepts', w, entries ++ m.log⟩)
    (hQ : ∀ w (entries : List (Entry δ)) begun accepts accepts', Cleared m.decoder.shared →
      (∀ a ∈ entries, a.Of (HeaderCall m.decoder)) →
      inconsistent m.decoder.shared info = false →
      Q ⟨consumed, .done info⟩
        ⟨(m.decoder.unfinished begun accepts accepts').complete info, w,
          .done :: (entries ++ m.log)⟩) :
    Spec (finish host info consumed : Step γ δ χ ρ ε Ω (Progress δ)) Q E m := by
  unfold finish
  rw [spec_bind, spec_setState, spec_bind, spec_get, spec_ite]
  refine ⟨fun _ => hcontrol _, fun hconsistent => ?_⟩
  rw [Bool.not_eq_true] at hconsistent
  have hheader : ∀ a : Entry δ, a.Of (HeaderCall { m.decoder with state := .failed }) →
      a.Of (HeaderCall m.decoder) := by
    intro a ha
    refine ha.mono fun c hc => ?_
    cases hc with
    | begin i d h => exact .begin i d ⟨h.begun, h.info, h.descriptor⟩
    | acceptsProvisional => exact .acceptsProvisional
    | finish => exact .finish
  rw [spec_bind]
  refine spec_beginIfReady hcontrol (fun e w entries hcleared hentries _ => ?_)
    (fun w entries begun accepts accepts' hcleared hentries => ?_)
  · exact hE e w entries _ _ _ hcleared fun a ha => hheader a (hentries a ha)
  have hbefore : ∀ a ∈ entries, a.Of (HeaderCall m.decoder) := fun a ha =>
    hheader a (hentries a ha)
  rw [spec_bind]
  refine spec_checkStop (fun w => ?_) (fun r w => hE _ w entries _ _ _ hcleared hbefore)
  -- the end, after whatever calls were made
  have hend : ∀ (w : Ω) (entries : List (Entry δ)), (∀ a ∈ entries, a.Of (HeaderCall m.decoder)) →
      Spec (do
        checkStop host
        update (Decoder.complete info)
        note .done
        return ⟨consumed, .done info⟩ : Step γ δ χ ρ ε Ω (Progress δ)) Q E
        ⟨m.decoder.unfinished begun accepts accepts', w, entries ++ m.log⟩ := by
    intro w entries hentries
    rw [spec_bind]
    refine spec_checkStop (fun w => ?_) (fun r w => hE _ w entries _ _ _ hcleared hentries)
    exact hQ w entries begun accepts accepts' hcleared hentries hconsistent
  rw [spec_bind]
  unfold finishSink
  rw [spec_bind, spec_get, spec_ite]
  refine ⟨fun _ => ?_, fun _ => hend w entries hbefore⟩
  have hfinish : ∀ a ∈ .sink .finish :: entries, a.Of (HeaderCall m.decoder) := by
    intro a ha
    rcases List.mem_cons.mp ha with rfl | ha
    · exact HeaderCall.finish
    · exact hbefore a ha
  have hunwound : ∀ a ∈ .unwound .finish :: .sink .finish :: entries,
      a.Of (HeaderCall m.decoder) := by
    intro a ha
    rcases List.mem_cons.mp ha with rfl | ha
    · exact HeaderCall.finish
    · exact hfinish a ha
  exact spec_onSink (fun _ w => hend w _ hfinish) (fun _ w => hE _ w _ _ _ _ hcleared hfinish)
    (fun w => hE _ w _ _ _ _ hcleared hunwound)

/-! ### The loop -/

/-- One poll: the operations that it makes, and what they hand over. -/
theorem spec_pollFuture {co : Future γ δ χ ρ ε} {Q : Polled δ ε → Machine γ δ χ ρ Ω → Prop}
    {ops : List (Op δ χ)} {polled : Polled δ ε} {future : γ}
    (hpoll : co.poll m.decoder.future m.decoder.shared = (ops, polled, future))
    (hE : polled = .unwound → E .unwound
      ⟨{ m.decoder with
          state := .failed, shared := (runOps ops m.decoder.shared).1, future := future }, m.world,
        polled.noted (runOps ops m.decoder.shared).1 ++ (runOps ops m.decoder.shared).2 ++
          .polled :: m.log⟩)
    (hQ : polled ≠ .unwound → Q polled
      ⟨{ m.decoder with
          state := .failed, shared := (runOps ops m.decoder.shared).1, future := future }, m.world,
        polled.noted (runOps ops m.decoder.shared).1 ++ (runOps ops m.decoder.shared).2 ++
          .polled :: m.log⟩) :
    Spec (pollFuture co : Step γ δ χ ρ ε Ω (Polled δ ε)) Q E m := by
  unfold pollFuture
  rw [spec_bind, spec_setState, spec_bind, spec_get]
  simp only [hpoll]
  rw [spec_bind, spec_update, spec_bind, spec_modify]
  cases polled with
  | unwound => exact hE rfl
  | pending => exact hQ (fun h => by cases h)
  | ready info => exact hQ (fun h => by cases h)
  | failed e => exact hQ (fun h => by cases h)

end Zencodec.Coroutine
