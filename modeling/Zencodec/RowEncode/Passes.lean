/-
What an encoder is lent over a whole run.

Whatever an encoder does with the filler while it is pulled, the strips that it is lent stay a
`Ledger`, and a fill that was refused ends the run (`play_spec`, `turn_spec`, `loop_spec`).
-/
import Zencodec.RowEncode.Ledger

namespace Zencodec.RowEncode

open Act

variable {ω κ φ ε : Type}

/-! ### Events -/

def Event.strip? : Event → Option Strip
  | .lent s => some s
  | _ => none

/-- The strips that were lent, in order. -/
def lentStrips (events : List Event) : List Strip := events.filterMap Event.strip?

theorem lentStrips_lent (events : List Event) (s : Strip) :
    lentStrips (events ++ [.lent s]) = lentStrips events ++ [s] := by
  rw [lentStrips, List.filterMap_append]
  rfl

theorem lentStrips_refused (events : List Event) :
    lentStrips (events ++ [.refused]) = lentStrips events := by
  rw [lentStrips, List.filterMap_append]
  exact List.append_nil _

theorem lentStrips_offered (events : List Event) (output : List UInt8) :
    lentStrips (events ++ [.offered output]) = lentStrips events := by
  rw [lentStrips, List.filterMap_append]
  exact List.append_nil _

/-- Output is offered only after a strip of the final pass. -/
def Held (events : List Event) : Prop :=
  ∀ before output after, events = before ++ .offered output :: after → output ≠ [] →
    ∃ s ∈ lentStrips before, s.finalPass = true

theorem Held.append {events : List Event} {event : Event} (h : Held events)
    (hevent : ∀ output, event = .offered output → output ≠ [] →
      ∃ s ∈ lentStrips events, s.finalPass = true) : Held (events ++ [event]) := by
  intro before output after heq hne
  rcases List.eq_nil_or_concat after with rfl | ⟨rest, last, rfl⟩
  · obtain ⟨rfl, hlast⟩ := List.append_inj' heq rfl
    exact hevent output (List.cons.inj hlast).1 hne
  · rw [List.concat_eq_append, ← List.cons_append, ← List.append_assoc] at heq
    exact h before output rest (List.append_inj' heq rfl).1 hne

/-! ### What a run keeps -/

/-- What a filler is from its start. -/
structure Filler.Kind (f g : Filler κ) : Prop where
  store : g.store.isNone = f.store.isNone
  memory : g.store.isMemory = f.store.isMemory
  hashed : g.hashes.isSome = f.hashes.isSome
  declared : g.declared = f.declared

/-- The filler has not failed, and the strips are its own. -/
structure Good (desc : Description φ κ) (input : Input) (f₀ f : Filler κ) (events : List Event) :
    Prop where
  ledger : Ledger desc input f (lentStrips events)
  kind : f₀.Kind f
  clean : f.failure = none
  answered : .refused ∉ events

/-- The strips are those of some filler. -/
def Sound (desc : Description φ κ) (input : Input) (f₀ : Filler κ) (events : List Event) : Prop :=
  ∃ f : Filler κ, Ledger desc input f (lentStrips events) ∧ f₀.Kind f

section Keeping

variable {desc : Description φ κ} {input : Input} {f₀ f : Filler κ} {events : List Event}

theorem Good.sound (h : Good desc input f₀ f events) : Sound desc input f₀ events :=
  ⟨f, h.ledger, h.kind⟩

/-- The count of the fills and the stage are no part of a ledger. -/
theorem Ledger.touched {strips : List Strip} (h : Ledger desc input f strips) (fills : ℕ)
    (failure : Option (Stage × Cause κ)) (boundary : Stage) :
    Ledger desc input { f with fills, failure, boundary } strips :=
  ⟨⟨h.sized.store, h.sized.hashes⟩, h.fresh, h.order, h.passes, h.nonempty, h.nextRow, h.max, h.min,
    h.final, h.last, h.shown, h.agrees, h.raster⟩

theorem Good.touched (h : Good desc input f₀ f events) (fills : ℕ) :
    Good desc input f₀ { f with fills } events :=
  ⟨h.ledger.touched fills f.failure f.boundary, ⟨h.kind.store, h.kind.memory, h.kind.hashed,
    h.kind.declared⟩, h.clean, h.answered⟩

theorem Good.offered (h : Good desc input f₀ f events) (output : List UInt8) :
    Good desc input f₀ f (events ++ [.offered output]) := by
  refine ⟨?_, h.kind, h.clean, fun hmem => ?_⟩
  · rw [lentStrips_offered]
    exact h.ledger
  · rcases List.mem_append.mp hmem with hmem | hmem
    · exact h.answered hmem
    · cases List.mem_singleton.mp hmem

theorem Sound.refused (h : Sound desc input f₀ events) :
    Sound desc input f₀ (events ++ [.refused]) := by
  rw [Sound, lentStrips_refused]
  exact h

theorem Good.filled {d : Demand φ} {s t : Desk ω κ} (h : Good desc input f₀ s.filler events)
    (hf : Filled desc input d s t) :
    Good desc input f₀ t.filler (events ++ [.lent ⟨d.pass, d.first, d.finalPass, t.rows⟩]) := by
  refine ⟨?_, ?_, hf.same.failure.trans h.clean, fun hmem => ?_⟩
  · rw [lentStrips_lent]
    exact h.ledger.filled hf
  · exact ⟨hf.same.store.trans h.kind.store, hf.same.memory.trans h.kind.memory,
      hf.same.hashed.trans h.kind.hashed, hf.same.declared.trans h.kind.declared⟩
  · rcases List.mem_append.mp hmem with hmem | hmem
    · exact h.answered hmem
    · cases List.mem_singleton.mp hmem

end Keeping

/-! ### A fill -/

section Answers

variable [DecidableEq φ] {e : Env ω κ} {desc : Description φ κ} {input : Input} {d : Demand φ}
  {s : Desk ω κ}

/-- A fill that is not refused is the first of its round, and fills the strip. -/
theorem fill_ok (hsized : s.filler.Sized desc.height) (h : (fill e desc input d s).1 = true) :
    s.filler.failure = none ∧ s.filler.fills = 0 ∧ (fill e desc input d s).2.filler.fills = 1 ∧
      Filled desc input d (s.counted d) (fill e desc input d s).2 := by
  have hspec : Spec (fillInner e desc input d) (fun _ => Filled desc input d (s.counted d))
      (fun _ _ => True) (s.counted d) := fillInner_spec ⟨hsized.store, hsized.hashes⟩
  unfold fill at h ⊢
  split at h
  · cases h
  · next hfailure =>
    split at h
    · cases h
    · next hfills =>
      rw [if_neg hfailure, if_neg hfills]
      have hone : (s.counted d).filler.fills = 1 := Decidable.of_not_not hfills
      unfold Spec at hspec
      generalize fillInner e desc input d (s.counted d) = run at h hspec
      obtain ⟨result, t⟩ := run
      cases result with
      | error cause => cases h
      | ok _ =>
        have hcount : min (s.filler.fills + 1) 255 = 1 := hone
        have hfilled : Filled desc input d (s.counted d) t := hspec
        refine ⟨Option.not_isSome_iff_eq_none.mp hfailure, by omega, ?_, hspec⟩
        exact hfilled.same.fills.trans hone

/-- A refusal stays. -/
theorem fill_refused (h : (fill e desc input d s).1 = false) :
    (fill e desc input d s).2.filler.failure.isSome = true := by
  unfold fill at h ⊢
  split
  · next hfailure => exact hfailure
  · next hfailure =>
    rw [if_neg hfailure] at h
    split
    · rfl
    · next hfills =>
      rw [if_neg hfills] at h
      generalize fillInner e desc input d (s.counted d) = run at h
      obtain ⟨result, t⟩ := run
      cases result with
      | error cause => rfl
      | ok _ => cases h

/-! ### A dialogue -/

/-- What holds while an encoder is pulled, since when `n` strips had been lent; `P` says whether
output is held back. -/
structure Amid (desc : Description φ κ) (input : Input) (f₀ : Filler κ) (P : Prop) (n : ℕ)
    (s : Desk ω κ × List Event) : Prop where
  sound : Sound desc input f₀ s.2
  held : P → Held s.2
  good : s.1.filler.failure = none →
    Good desc input f₀ s.1.filler s.2 ∧ (lentStrips s.2).length = n + s.1.filler.fills

theorem answer_spec {f₀ : Filler κ} {P : Prop} {n : ℕ} (request : Request ω φ)
    (s : Desk ω κ × List Event) (h : Amid desc input f₀ P n s) :
    Amid desc input f₀ P n (answer e desc input request s).2 := by
  cases request with
  | touch f => exact ⟨h.sound, h.held, h.good⟩
  | fill d =>
    cases hfill : (fill e desc input d s.1).1 with
    | false =>
      have hevents : (answer e desc input (.fill d) s).2 =
          ((fill e desc input d s.1).2, s.2 ++ [.refused]) := by
        simp [answer, hfill]
      rw [hevents]
      refine ⟨h.sound.refused, fun hP => (h.held hP).append fun _ hno => (by cases hno),
        fun hnone => ?_⟩
      have hsome := fill_refused hfill
      rw [hnone] at hsome
      cases hsome
    | true =>
      have hevents : (answer e desc input (.fill d) s).2 = ((fill e desc input d s.1).2,
          s.2 ++ [.lent ⟨d.pass, d.first, d.finalPass, (fill e desc input d s.1).2.rows⟩]) := by
        simp [answer, hfill]
      rw [hevents]
      have hnone : s.1.filler.failure = none := by
        refine Decidable.byContradiction fun hsome => ?_
        rw [fill, if_pos (Option.isSome_iff_ne_none.mpr hsome)] at hfill
        cases hfill
      obtain ⟨hgood, hcount⟩ := h.good hnone
      obtain ⟨_, hzero, hone, hfilled⟩ := fill_ok hgood.ledger.sized hfill
      have hgood' : Good desc input f₀ (s.1.counted d).filler s.2 := hgood.touched _
      have hnext := hgood'.filled hfilled
      refine ⟨hnext.sound, fun hP => (h.held hP).append fun _ hno => (by cases hno),
        fun _ => ⟨hnext, ?_⟩⟩
      rw [lentStrips_lent, List.length_append, hcount, hzero, hone]
      rfl

/-- Whatever an encoder does with the filler. -/
theorem play_spec {f₀ : Filler κ} {P : Prop} {n : ℕ} {β : Type}
    (d : Dialogue (Request ω φ) (Answer ω) β) {s : Desk ω κ × List Event}
    (h : Amid desc input f₀ P n s) :
    Amid desc input f₀ P n (d.play (answer e desc input) s).2 :=
  d.play_keeps (answer_spec (e := e)) h

end Answers

/-! ### The loop -/

section Rounds

variable {e : Env ω κ} {desc : Description φ κ} {input : Input}
  {encoder : Encoder ω φ κ ε} {deliver : List UInt8 → Act ω κ Unit} {plan : Plan} {f₀ : Filler κ}

/-- Output waits for the final pass. -/
def Plan.HoldsBack (plan : Plan) : Prop := plan.input = .replay ∧ plan.finalPhase = true

/-- What holds of the events of any run. -/
structure Stopped (desc : Description φ κ) (input : Input) (f₀ : Filler κ) (plan : Plan)
    (events : List Event) : Prop where
  sound : Sound desc input f₀ events
  held : plan.HoldsBack → Held events

/-- What holds of a run that goes on, after `n` strips. -/
structure Going (desc : Description φ κ) (input : Input) (f₀ : Filler κ) (plan : Plan) (n : ℕ)
    (job : Job ω κ ε) : Prop where
  good : Good desc input f₀ job.desk.filler job.events
  held : plan.HoldsBack → Held job.events
  count : (lentStrips job.events).length = n
  once : plan.input = .rows → ∀ pass, job.desk.filler.pass = some pass →
    pass = 0 ∧ job.desk.filler.finalStarted = true

theorem Going.stopped {n : ℕ} {job : Job ω κ ε} (h : Going desc input f₀ plan n job) :
    Stopped desc input f₀ plan job.events := ⟨h.good.sound, h.held⟩

section AtDesk

variable {α : Type} {x : Act (Desk ω κ) (Cause κ) α} {Q : α → Job ω κ ε → Prop} {job : Job ω κ ε}

/-- What happens on the desk adds no event. -/
theorem spec_atDesk (hstopped : Stopped desc input f₀ plan job.events)
    (h : Spec x (fun a desk => Q a { job with desk }) (fun _ _ => True) job.desk) :
    Spec (atDesk x) Q (fun _ t => Stopped desc input f₀ plan t.events) job := by
  rw [atDesk, spec_focus]
  exact h.mono (fun _ _ hQ => hQ) fun _ _ _ => hstopped

end AtDesk

theorem complete_spec {s : Desk ω κ} {Q : Unit → Desk ω κ → Prop}
    (h : (∃ pass, s.filler.pass = some pass ∧ s.filler.declared.min ≤ pass + 1) →
      s.filler.nextRow = desc.height → s.filler.finalStarted = true →
      ∀ world, Q () { s with world }) :
    Spec (complete e desc) Q (fun _ _ => True) s := by
  simp only [complete, spec_bind, spec_get]
  refine spec_demand fun hcomplete => spec_validate fun world => ?_
  simp only [Bool.and_eq_true, decide_eq_true_eq] at hcomplete
  obtain ⟨⟨⟨hmin, _⟩, hrow⟩, hstarted⟩ := hcomplete
  refine h ?_ hrow hstarted world
  cases hpass : s.filler.pass with
  | none =>
    rw [hpass] at hmin
    exact absurd (Nat.le_zero.mp hmin) (Nat.pos_iff_ne_zero.mp s.filler.declared.min_pos)
  | some pass =>
    refine ⟨pass, rfl, Nat.le_trans hmin ?_⟩
    rw [hpass, Option.bind_some, checkedAdd]
    split
    · exact Nat.le_refl _
    · exact Nat.zero_le _

theorem takeFailure_spec {job : Job ω κ ε} {Q : Unit → Job ω κ ε → Prop}
    (hstopped : Stopped desc input f₀ plan job.events)
    (h : job.desk.filler.failure = none → Q () job) :
    Spec takeFailure Q (fun _ t => Stopped desc input f₀ plan t.events) job := by
  simp only [takeFailure, spec_bind, spec_get]
  cases hfailure : job.desk.filler.failure with
  | none => exact h hfailure
  | some failure =>
    obtain ⟨stage, cause⟩ := failure
    dsimp only
    rw [spec_bind]
    exact spec_atDesk hstopped hstopped

/-- A push changes the encoder and the world. -/
theorem push_spec {rows : List Row} {job : Job ω κ ε} {Q : Unit → Job ω κ ε → Prop}
    (hstopped : Stopped desc input f₀ plan job.events)
    (h : ∀ world next, Q () { job with desk := { job.desk with world }, encoder := next }) :
    Spec (push encoder rows) Q (fun _ t => Stopped desc input f₀ plan t.events) job := by
  simp only [push, spec_bind, spec_get]
  refine spec_atDesk hstopped (spec_onWorld fun next world => ?_)
  rw [spec_modify]
  exact h world next

theorem drain_spec {n : ℕ} {job : Job ω κ ε} {Q : Unit → Job ω κ ε → Prop}
    (h : Going desc input f₀ plan n job) (hearly : early encoder plan job = false)
    (hQ : ∀ world next output,
      Going desc input f₀ plan n ⟨{ job.desk with world }, next, job.buffer,
        job.events ++ [.offered output]⟩ →
      Q () ⟨{ job.desk with world }, next, job.buffer, job.events ++ [.offered output]⟩) :
    Spec (drain encoder deliver) Q (fun _ t => Stopped desc input f₀ plan t.events) job := by
  simp only [drain, spec_bind, spec_get, note, spec_modify]
  have hheld : plan.HoldsBack →
      Held (job.events ++ [.offered (encoder.pendingOutput job.encoder)]) := by
    intro hback
    refine (h.held hback).append fun output heq hne => h.good.ledger.shown ?_
    cases heq
    rw [early, hback.1, hback.2] at hearly
    simpa [hne] using hearly
  have hgood := h.good.offered (encoder.pendingOutput job.encoder)
  have hcount := h.count
  rw [← lentStrips_offered _ (encoder.pendingOutput job.encoder)] at hcount
  refine spec_atDesk ⟨hgood.sound, hheld⟩ (spec_onWorld fun _ world => ?_)
  exact hQ _ _ _ ⟨⟨hgood.ledger, hgood.kind, hgood.clean, hgood.answered⟩, hheld, hcount, h.once⟩

/-! ### Rows that are borrowed -/

/-- Nothing is kept of the rows. -/
structure Filler.Bare (f : Filler κ) : Prop where
  store : ∀ kept, f.store ≠ .memory kept
  hashes : ∀ hashes, f.hashes ≠ some hashes

theorem Filler.Bare.agrees {f : Filler κ} (h : f.Bare) (place : ℕ) (row : Row) :
    f.Agrees place row :=
  ⟨fun kept hkept => absurd hkept (h.store kept), fun hashes hh => absurd hh (h.hashes hashes)⟩

theorem Filler.Bare.sized {f : Filler κ} (h : f.Bare) (height : ℕ) : f.Sized height :=
  ⟨fun kept hkept => absurd hkept (h.store kept), fun hashes hh => absurd hh (h.hashes hashes)⟩

theorem Filler.Kind.bare {f g : Filler κ} (h : f.Kind g) (hmemory : f.store.isMemory = false)
    (hhashes : f.hashes.isSome = false) : g.Bare := by
  constructor
  · intro kept hkept
    have hkind := h.memory
    rw [hkept, hmemory] at hkind
    cases hkind
  · intro hashes hh
    have hkind := h.hashed
    rw [hh, hhashes] at hkind
    cases hkind

theorem Continues.touched {f : Filler κ} {d : Demand φ} {boundary : Stage}
    (h : Continues desc { f with boundary } d) : Continues desc f d :=
  h.imp_right fun ⟨hbegins, hfirst⟩ => ⟨⟨hbegins.order, hbegins.notFinal, hbegins.max, hbegins.min,
    hbegins.fits⟩, hfirst⟩

/-- The push of a batch opens the only pass, or goes on with it. -/
theorem openPass_spec {s : Desk ω κ} {Q : Unit → Desk ω κ → Prop}
    (hfresh : s.filler.pass = none → s.filler.nextRow = 0)
    (honce : ∀ pass, s.filler.pass = some pass → pass = 0 ∧ s.filler.finalStarted = true)
    (h : (∀ d : Demand φ, d.pass = 0 → d.finalPass = true → d.first = s.filler.nextRow →
        Continues desc s.filler d) →
      ∀ world, Q () { s with
        filler := { s.filler with pass := some 0, finalStarted := true }, world }) :
    Spec (openPass e desc) Q (fun _ _ => True) s := by
  simp only [openPass, spec_bind, spec_get]
  rw [spec_ite]
  constructor
  · intro hnone
    have hnone := Option.isNone_iff_eq_none.mp hnone
    refine beginPass_spec fun hbegins world => ?_
    have hQ := h (fun d hpass hfinal hfirst => ?_) world
    · have hrow : { s.filler with pass := some 0, finalStarted := true, nextRow := 0 } =
          ({ s.filler with pass := some 0, finalStarted := true } : Filler κ) :=
        congrArg (fun nextRow => { s.filler with pass := some 0, finalStarted := true, nextRow })
          (hfresh hnone).symm
      exact Eq.mpr (congrArg (fun filler => Q () { s with filler, world }) hrow) hQ
    · refine .inr ⟨?_, hfirst.trans (hfresh hnone)⟩
      rw [hpass, hfinal]
      exact hbegins
  · intro hsome
    obtain ⟨pass, hpass⟩ := Option.ne_none_iff_exists'.mp fun h =>
      hsome (Option.isNone_iff_eq_none.mpr h)
    obtain ⟨rfl, hfinal⟩ := honce pass hpass
    have hQ := h (fun d hd hdfinal hfirst => ?_) s.world
    · rw [← hpass, ← hfinal] at hQ
      exact hQ
    · refine .inl ⟨?_, ?_, hfirst⟩
      · rw [hpass, hd]
      · rw [hfinal, hdfinal]

theorem checkRow_spec {first y : ℕ} {s : Desk ω κ} {Q : Unit → Desk ω κ → Prop}
    (h : ∀ boundary world, Q () { s with filler := { s.filler with boundary }, world }) :
    Spec (checkRow e desc first y) Q (fun _ _ => True) s := by
  simp only [checkRow, spec_bind, updateFiller, spec_modify]
  exact spec_onWorld fun _ world => checkExact_spec (h _ world)

theorem getD_map_range {count i : ℕ} (g : ℕ → Row) (hi : i < count) :
    ((List.range count).map g).getD i [] = g i := by
  rw [List.getD_eq_getElem?_getD, List.getElem?_map, List.getElem?_range hi]
  rfl

/-- A batch of borrowed rows is a strip that is filled. -/
theorem borrowStrip_spec {pixels : List Row} {count : ℕ} {s : Desk ω κ}
    (hbare : s.filler.Bare)
    (hfresh : s.filler.pass = none → s.filler.nextRow = 0)
    (honce : ∀ pass, s.filler.pass = some pass → pass = 0 ∧ s.filler.finalStarted = true) :
    Spec (borrowStrip e desc pixels count)
      (fun _ t => ∃ rows : List Row, Filled desc (.raster pixels)
        (⟨0, true, s.filler.nextRow, desc.width, desc.format, []⟩ : Demand φ) { s with rows } t)
      (fun _ _ => True) s := by
  simp only [borrowStrip, spec_bind, updateFiller, touchWorld, spec_modify]
  refine spec_onWorld fun _ _ => openPass_spec hfresh honce fun hcontinues _ => ?_
  rw [spec_get]
  refine spec_demand fun hfits => spec_validate fun world => ?_
  simp only [Bool.and_eq_true, decide_eq_true_eq, Option.any_eq_true] at hfits
  obtain ⟨hcount, last, hlast, hheight⟩ := hfits
  obtain ⟨_, rfl⟩ := checkedAdd_eq_some.mp hlast
  generalize hrows : (List.range count).map
    (fun y => pixels.getD (s.filler.nextRow + y) []) = rows
  have hlength : rows.length = count := by rw [← hrows, List.length_map, List.length_range]
  have hloop := spec_each_range (f := checkRow e desc s.filler.nextRow) (n := count)
    (E := fun _ _ => True)
    (s := ⟨{ s.filler with boundary := .read, pass := some 0, finalStarted := true }, rows, world⟩)
    (fun _ t => t.rows = rows ∧ t.filler = { s.filler with
      boundary := t.filler.boundary, pass := some 0, finalStarted := true }) ?_ ⟨rfl, rfl⟩
  · refine hloop.mono (fun _ t ht => ?_) fun _ _ h => h
    refine spec_onWorld fun _ _ => spec_validate fun _ => spec_onWorld fun _ _ =>
      spec_validate fun _ => ⟨rows, ?_⟩
    obtain ⟨htrows, htfiller⟩ := ht
    rw [htfiller, htrows]
    constructor
    case continues => exact (hcontinues _ rfl rfl rfl).touched
    case nonempty => exact hlength ▸ Nat.pos_of_ne_zero hcount
    case fits => exact hlength ▸ hheight
    case same => exact ⟨rfl, rfl, rfl, rfl, rfl, rfl, by rw [hlength], rfl, rfl⟩
    case sized => exact ⟨(hbare.sized _).store, (hbare.sized _).hashes⟩
    case length => rfl
    case agrees => exact fun i _ => hbare.agrees _ _
    case keeps => exact fun place row _ _ => hbare.agrees _ _
    case raster =>
      intro pixels' hpixels _ i hi
      cases hpixels
      rw [← hrows]
      exact getD_map_range _ (hlength ▸ hi)
  · intro i _ t ht
    refine checkRow_spec fun boundary world' => ⟨ht.1, ?_⟩
    rw [ht.2]

/-! ### Rounds -/

variable [DecidableEq φ]

/-- A call of an encoder that pulls, when no fill has been counted. -/
theorem pull_spec {n : ℕ} {job : Job ω κ ε} (h : Going desc input f₀ plan n job)
    (hreplay : plan.input = .replay) (hfills : job.desk.filler.fills = 0) :
    Spec (pull e desc input encoder)
      (fun go t => Going desc input f₀ plan (if go then n + 1 else n) t)
      (fun _ t => Stopped desc input f₀ plan t.events) job := by
  have hamid : Amid desc input f₀ plan.HoldsBack n (job.desk, job.events) :=
    ⟨h.good.sound, h.held, fun _ => ⟨h.good, by rw [hfills]; exact h.count⟩⟩
  have hplayed := play_spec (e := e) (encoder.pullRows job.encoder) hamid
  simp only [pull, spec_bind, consult]
  show Spec takeFailure _ _ _
  generalize (encoder.pullRows job.encoder).play (answer e desc input) (job.desk, job.events) =
    played at hplayed ⊢
  obtain ⟨answered, desk, events⟩ := played
  have hstopped : Stopped desc input f₀ plan events := ⟨hplayed.sound, hplayed.held⟩
  refine takeFailure_spec hstopped fun hclean => ?_
  obtain ⟨hgood, hcount⟩ := hplayed.good hclean
  rw [spec_lift]
  refine ⟨fun progress _ => ?_, fun _ _ => hstopped⟩
  simp only [spec_modify, spec_get]
  have hgoing : ∀ m, m = n + desk.filler.fills →
      Going desc input f₀ plan m (⟨desk, answered.2, job.buffer, events⟩ : Job ω κ ε) := by
    intro m hm
    refine ⟨hgood, hplayed.held, hcount.trans hm.symm, fun hrows => ?_⟩
    rw [hreplay] at hrows
    cases hrows
  rw [spec_ite]
  refine ⟨fun hfilled => ?_, fun _ => ?_⟩
  · have hone : desk.filler.fills = 1 := hfilled.2
    exact hgoing _ (by rw [hone]; rfl)
  · rw [spec_ite]
    refine ⟨fun hdone => ?_, fun _ => hstopped⟩
    have hzero : desk.filler.fills = 0 := hdone.2
    rw [spec_bind]
    refine spec_atDesk hstopped (complete_spec fun _ _ _ world => ?_)
    have hlast := hgoing n (by rw [hzero]; rfl)
    exact ⟨hlast.good, hlast.held, hlast.count, hlast.once⟩

theorem pushBatch_spec {n : ℕ} {job : Job ω κ ε}
    (hraster : input.isRaster = true → f₀.store.isMemory = false ∧ f₀.hashes.isSome = false)
    (h : Going desc input f₀ plan n job) (hrows : plan.input = .rows)
    (hfills : job.desk.filler.fills = 0) :
    Spec (pushBatch e desc input encoder plan) (fun _ t => Going desc input f₀ plan (n + 1) t)
      (fun _ t => Stopped desc input f₀ plan t.events) job := by
  simp only [pushBatch, spec_bind, spec_get]
  have hheld : ∀ events, plan.HoldsBack → Held events := by
    intro events hback
    have hreplay := hback.1
    rw [hrows] at hreplay
    cases hreplay
  cases input with
  | raster pixels =>
    obtain ⟨hmemory, hhashes⟩ := hraster rfl
    simp only [spec_bind, spec_get, note, spec_modify]
    refine spec_atDesk h.stopped ?_
    refine (borrowStrip_spec (h.good.kind.bare hmemory hhashes)
      (fun hnone => (h.good.ledger.fresh hnone).2.2) (h.once hrows)).mono (fun _ desk hdesk => ?_)
      fun _ _ h => h
    obtain ⟨rows, hfilled⟩ := hdesk
    have hgood : Good desc (.raster pixels) f₀ ({ job.desk with rows } : Desk ω κ).filler
        job.events := h.good
    have hnext := hgood.filled hfilled
    refine push_spec ⟨hnext.sound, hheld _⟩ fun world next => ?_
    refine ⟨hnext, hheld _, ?_, fun _ pass hpass => ?_⟩
    · rw [lentStrips_lent, List.length_append, h.count]
      rfl
    · rw [hfilled.same.pass] at hpass
      exact ⟨(Option.some.inj hpass).symm, hfilled.same.finalStarted⟩
  | source =>
    rw [spec_bind, spec_getOr]
    refine ⟨fun _ _ => ?_, fun _ => h.stopped⟩
    simp only [spec_bind, spec_modify]
    have hamid : Amid desc .source f₀ plan.HoldsBack n (job.desk, job.events) :=
      ⟨h.good.sound, h.held, fun _ => ⟨h.good, by rw [hfills]; exact h.count⟩⟩
    generalize hd : (⟨0, true, job.desk.filler.nextRow, desc.width, desc.format,
      job.buffer.take (min plan.batchRows (desc.height - job.desk.filler.nextRow))⟩ : Demand φ) = d
    have hanswer := answer_spec (e := e) (.fill d) _ hamid
    refine takeFailure_spec ⟨hanswer.sound, hanswer.held⟩ fun hclean => ?_
    rw [spec_get]
    refine push_spec ⟨hanswer.sound, hanswer.held⟩ fun world next => ?_
    obtain ⟨hgood, hcount⟩ := hanswer.good hclean
    have hfill : (fill e desc .source d job.desk).1 = true := by
      refine Decidable.byContradiction fun hrefused => ?_
      have hsome := fill_refused (Bool.eq_false_iff.mpr hrefused)
      have hnone : (fill e desc .source d job.desk).2.filler.failure = none := hclean
      rw [hnone] at hsome
      cases hsome
    obtain ⟨_, _, hone, hfilled⟩ := fill_ok h.good.ledger.sized hfill
    refine ⟨⟨hgood.ledger, hgood.kind, hgood.clean, hgood.answered⟩, hheld _, ?_,
      fun _ pass hpass => ?_⟩
    · have hone' :
          (answer e desc .source (.fill d) (job.desk, job.events)).2.1.filler.fills = 1 := hone
      rw [hone'] at hcount
      exact hcount
    · have hpass' : (fill e desc .source d job.desk).2.filler.pass = some pass := hpass
      have hfinal : (fill e desc .source d job.desk).2.filler.finalStarted = true := by
        rw [hfilled.same.finalStarted, ← hd]
      rw [hfilled.same.pass, ← hd] at hpass'
      exact ⟨(Option.some.inj hpass').symm, hfinal⟩

/-- One round lends one strip, or is the last. -/
theorem turn_spec {n : ℕ} {job : Job ω κ ε}
    (hraster : input.isRaster = true → f₀.store.isMemory = false ∧ f₀.hashes.isSome = false)
    (h : Going desc input f₀ plan n job) :
    Spec (turn e desc input encoder deliver plan)
      (fun go t => Going desc input f₀ plan (if go then n + 1 else n) t)
      (fun _ t => Stopped desc input f₀ plan t.events) job := by
  simp only [turn, spec_bind, spec_get]
  refine spec_atDesk h.stopped (spec_onWorld fun _ _ => ?_)
  refine spec_atDesk h.stopped (spec_validate fun world => ?_)
  rw [spec_ite]
  have hgoing : Going desc input f₀ plan n { job with desk := { job.desk with world } } :=
    ⟨h.good, h.held, h.count, h.once⟩
  refine ⟨fun _ => hgoing, fun _ => ?_⟩
  simp only [spec_bind]
  refine spec_atDesk h.stopped (spec_demand fun hearly => ?_)
  refine drain_spec hgoing ((Bool.not_eq_true' _).mp hearly) fun world next output hgoing => ?_
  refine spec_atDesk hgoing.stopped ?_
  rw [updateFiller, spec_modify, feed]
  have hgoing' := hgoing.good.touched 0
  split
  · next hrows =>
    rw [spec_bind]
    exact pushBatch_spec hraster ⟨hgoing', hgoing.held, hgoing.count, hgoing.once⟩ hrows rfl
  · next hreplay =>
    exact pull_spec ⟨hgoing', hgoing.held, hgoing.count, hgoing.once⟩ hreplay rfl

/-- After some rounds the loop was left, or each of them lent a strip. -/
theorem loop_spec (rounds : ℕ)
    (hraster : input.isRaster = true → f₀.store.isMemory = false ∧ f₀.hashes.isSome = false) :
    ∀ (n : ℕ) {job : Job ω κ ε}, Going desc input f₀ plan n job →
      Spec (loop e desc input encoder deliver plan rounds)
        (fun left t => ∃ m, Going desc input f₀ plan m t ∧ (left = false → m = n + rounds))
        (fun _ t => Stopped desc input f₀ plan t.events) job := by
  induction rounds with
  | zero => exact fun _ _ h => ⟨_, h, fun _ => rfl⟩
  | succ rounds ih =>
    intro n job h
    rw [loop, spec_bind]
    refine (turn_spec hraster h).mono (fun go t ht => ?_) fun _ _ h => h
    cases go with
    | false => exact ⟨n, ht, fun hleft => by cases hleft⟩
    | true =>
      refine (ih _ ht).mono (fun left u hu => ?_) fun _ _ h => h
      obtain ⟨m, hm, hleft⟩ := hu
      exact ⟨m, hm, fun h => by rw [hleft h]; show n + 1 + rounds = _; omega⟩

end Rounds

end Zencodec.RowEncode
