/-
What a controlled decode does to its sink, and what becomes of a decoder that fails.

* `Authorized` — every call of the sink comes after the adoption of facts that it matches;
* `Held` — the facts that were adopted are those of the image and the descriptor, and of the rows
  that wait for delivery;
* `Live`, `Failed`, `Complete` — what a decoder is between its actions, for a future that hands over
  rows inside the image (`RowsInside`) and a sink that returns from beginning (`BeginReturned`).
-/
import Zencodec.Coroutine.Rules

namespace Zencodec.Coroutine

open Act
open Zencodec.Operation (Fault)

variable {γ δ χ ρ ε Ω α : Type}

/-! ### What is authorized -/

/-- A call of the sink is for the image of the facts. -/
def SinkCall.Matches (facts : InterpretationFacts δ) : SinkCall δ → Prop
  | .begin width height descriptor =>
    width = facts.width ∧ height = facts.height ∧ facts.descriptor = some descriptor
  | .nextBuffer y count width descriptor =>
    width = facts.width ∧ facts.descriptor = some descriptor ∧ y + count ≤ facts.height
  | .passBuffer batch count width descriptor =>
    width = facts.width ∧ facts.descriptor = some descriptor ∧ batch.y + count ≤ facts.height
  | .maxBufferRows | .acceptsProvisional | .finish => True

/-- Every call of the sink was made after an adoption, and for the image that was adopted. -/
def Authorized : List (Entry δ) → Prop
  | [] => True
  | .sink c :: earlier =>
    (∃ facts, .adopted facts ∈ earlier) ∧ (∀ facts, .adopted facts ∈ earlier → c.Matches facts) ∧
      Authorized earlier
  | _ :: earlier => Authorized earlier

/-- An entry that is neither a call of the sink nor an adoption. -/
def Entry.Quiet : Entry δ → Prop
  | .sink _ | .adopted _ => False
  | _ => True

theorem Authorized.quiet {log entries : List (Entry δ)} (h : Authorized log)
    (hquiet : ∀ e ∈ entries, e.Quiet) : Authorized (entries ++ log) := by
  induction entries with
  | nil => exact h
  | cons e entries ih =>
    have hrest := ih fun e' he' => hquiet e' (List.mem_cons_of_mem e he')
    cases e with
    | sink c => exact (hquiet _ List.mem_cons_self).elim
    | _ => exact hrest

/-- Quiet entries adopt nothing. -/
theorem mem_adopted_quiet {log entries : List (Entry δ)} (hquiet : ∀ e ∈ entries, e.Quiet)
    (facts : InterpretationFacts δ) :
    .adopted facts ∈ entries ++ log ↔ .adopted facts ∈ log := by
  rw [List.mem_append]
  exact ⟨fun h => h.resolve_left fun hmem => hquiet _ hmem, .inr⟩

theorem quiet_noted (polled : Polled δ ε) (s : Shared δ χ ρ) : ∀ a ∈ polled.noted s, a.Quiet := by
  intro a ha
  cases polled with
  | ready info =>
    rw [List.mem_singleton.mp ha]
    trivial
  | pending | failed | unwound => cases ha

/-- Rows lie inside the image of the facts. -/
def PendingRows.Within (facts : InterpretationFacts δ) (r : PendingRows δ) : Prop :=
  r.batch.y + r.rows ≤ facts.height

/-- Rows are rows of the image of the facts. -/
structure PendingRows.Fits (facts : InterpretationFacts δ) (r : PendingRows δ) : Prop where
  width : r.width = facts.width
  descriptor : facts.descriptor = some r.descriptor
  within : r.Within facts

/-- The rows that the future handed over lie inside the image that was adopted. -/
def RowsInside (log : List (Entry δ)) : Prop :=
  ∀ r found facts, .handed (.rows r) found ∈ log → .adopted facts ∈ log → r.Within facts

/-- No call that begins the output unwound. -/
def BeginReturned (log : List (Entry δ)) : Prop := ∀ c, .unwound c ∈ log → ¬ c.Begins

theorem RowsInside.of_append {entries log : List (Entry δ)} (h : RowsInside (entries ++ log)) :
    RowsInside log := fun r found facts hr hfacts =>
  h r found facts (List.mem_append_right _ hr) (List.mem_append_right _ hfacts)

theorem RowsInside.of_cons {a : Entry δ} {log : List (Entry δ)} (h : RowsInside (a :: log)) :
    RowsInside log := fun r found facts hr hfacts =>
  h r found facts (List.mem_cons_of_mem a hr) (List.mem_cons_of_mem a hfacts)

theorem StripCall.matches {facts : InterpretationFacts δ} {rows : PendingRows δ} {offset : ℕ}
    {c : SinkCall δ} (h : rows.Fits facts) (hc : StripCall rows offset c) : c.Matches facts := by
  have hwithin : rows.batch.y + rows.rows ≤ facts.height := h.within
  cases hc with
  | maxBufferRows => trivial
  | nextBuffer count hpos hcount =>
    refine ⟨h.width, h.descriptor, ?_⟩
    omega
  | passBuffer count hpos hcount =>
    refine ⟨h.width, h.descriptor, ?_⟩
    show rows.batch.y + offset + count ≤ facts.height
    omega

/-! ### How a call ends -/

variable {m : Machine γ δ χ ρ Ω}

/-- Whatever became of the decoder, its calls of the sink were authorized. -/
def Logged (mode : Bool) (m : Machine γ δ χ ρ Ω) : Prop :=
  (mode = true → RowsInside m.log → Authorized m.log) ∧ m.decoder.shared.controlled = mode

/-- The decode is over, and reported. -/
def Complete (mode : Bool) (m : Machine γ δ χ ρ Ω) : Prop :=
  Logged mode m ∧ (∃ info, m.decoder.state = .done info) ∧ .done ∈ m.log

/-! ### What holds between the actions -/

variable [DecidableEq δ]

/-- What holds of a controlled decoder between its actions. -/
structure Held (s : Shared δ χ ρ) (q : Option (PendingRows δ × ℕ)) (log : List (Entry δ)) :
    Prop where
  authorized : Authorized log
  noted : ∀ facts, .adopted facts ∈ log ↔ s.adopted = some facts
  agreed : ∀ facts, s.adopted = some facts → s.controlFailure = none →
    s.agrees facts = true ∧ s.boundary = none
  slot : ∀ r, s.rows = some r → ∃ facts, s.adopted = some facts ∧ r.Within facts
  queued : ∀ r n, q = some (r, n) → ∃ facts, s.adopted = some facts ∧ r.Fits facts

def Inv (d : Decoder γ δ χ ρ) (log : List (Entry δ)) : Prop :=
  d.shared.controlled = true → RowsInside log → Held d.shared d.pendingRows log

variable {d : Decoder γ δ χ ρ} {log : List (Entry δ)}

/-- A call is for the image that was adopted. -/
def Adopts (s : Shared δ χ ρ) (c : SinkCall δ) : Prop :=
  ∃ facts, s.adopted = some facts ∧ c.Matches facts

theorem Held.sinks {s : Shared δ χ ρ} {q : Option (PendingRows δ × ℕ)}
    (h : Held s q log) {entries : List (Entry δ)} (hentries : ∀ a ∈ entries, a.Of (Adopts s)) :
    Held s q (entries ++ log) := by
  induction entries with
  | nil => exact h
  | cons a entries ih =>
    have hrest := ih fun a' ha' => hentries a' (List.mem_cons_of_mem a ha')
    have hone := hentries a List.mem_cons_self
    -- neither a call nor its unwinding adopts
    have hnoted : ∀ f, .adopted f ∈ a :: (entries ++ log) ↔ s.adopted = some f := by
      intro f
      rw [← hrest.noted f, List.mem_cons]
      refine ⟨fun hf => hf.resolve_left ?_, .inr⟩
      rintro rfl
      exact hone
    refine ⟨?_, hnoted, h.agreed, h.slot, h.queued⟩
    cases a with
    | sink c =>
      obtain ⟨facts, hfacts, hmatches⟩ := hone
      refine ⟨⟨facts, (hrest.noted facts).mpr hfacts⟩, fun f hf => ?_, hrest.authorized⟩
      -- there is only one adoption
      obtain rfl : facts = f := Option.some.inj (hfacts.symm.trans ((hrest.noted f).mp hf))
      exact hmatches
    | unwound c => exact hrest.authorized
    | polled | handed | returned | adopted | strip | update | done => exact hone.elim

/-- What is not a call of the sink adds nothing to be authorized. -/
theorem Held.quiet {s : Shared δ χ ρ} {q q' : Option (PendingRows δ × ℕ)}
    (h : Held s q log) {entries : List (Entry δ)} (hquiet : ∀ e ∈ entries, e.Quiet)
    (hq : ∀ r n, q' = some (r, n) → ∃ facts, s.adopted = some facts ∧ r.Fits facts) :
    Held s q' (entries ++ log) :=
  ⟨h.authorized.quiet hquiet, fun f => (mem_adopted_quiet hquiet f).trans (h.noted f), h.agreed,
    h.slot, hq⟩

theorem Inv.sinks (h : Inv d log) {entries : List (Entry δ)}
    (hentries : d.shared.controlled = true → RowsInside log →
      ∀ a ∈ entries, a.Of (Adopts d.shared)) : Inv d (entries ++ log) :=
  fun hc hrows => (h hc hrows.of_append).sinks (hentries hc hrows.of_append)

theorem HeaderCall.adopts {c : SinkCall δ} (h : Inv d log) (hcleared : Cleared d.shared)
    (hcontrolled : d.shared.controlled = true) (hrows : RowsInside log) (hc : HeaderCall d c) :
    Adopts d.shared c := by
  obtain ⟨facts, hfacts⟩ := hcleared.adopted hcontrolled
  refine ⟨facts, hfacts, ?_⟩
  cases hc with
  | acceptsProvisional | finish => trivial
  | begin info descriptor hready =>
    -- what was adopted is still what the header says
    have hagrees := ((h hcontrolled hrows).agreed facts hfacts hcleared.failure).1
    rw [Shared.agrees, Bool.and_eq_true, decide_eq_true_eq, hready.descriptor, hready.info]
      at hagrees
    obtain ⟨hdescriptor, hinfo⟩ := hagrees
    simp only [Option.any_some, Bool.and_eq_true, decide_eq_true_eq] at hinfo
    exact ⟨hinfo.1, hinfo.2, hdescriptor⟩

/-! ### Delivery and the end -/

/-- A decoder that works, controlled or not. -/
structure Live (mode : Bool) (m : Machine γ δ χ ρ Ω) : Prop where
  inv : Inv m.decoder m.log
  working : ∀ info, m.decoder.state ≠ .done info
  mode : m.decoder.shared.controlled = mode

variable {mode : Bool}

theorem Inv.authorized (h : Inv d log) (hmode : d.shared.controlled = mode) :
    mode = true → RowsInside log → Authorized log :=
  fun hc hrows => (h (hmode.trans hc) hrows).authorized

theorem Live.logged (h : Live mode m) : Logged mode m := ⟨h.inv.authorized h.mode, h.mode⟩

/-- Failed for good, unless a call that begins the output unwound. -/
def Failed (mode : Bool) (m : Machine γ δ χ ρ Ω) : Prop :=
  Logged mode m ∧ (m.decoder.state = .failed ∨ (Live mode m ∧ ¬ BeginReturned m.log))

theorem Logged.failed (h : Logged mode m) (hstate : m.decoder.state = .failed) : Failed mode m :=
  ⟨h, .inl hstate⟩

/-- The calls of the header are for the image that was adopted. -/
theorem Live.header (h : Live mode m) (hcleared : Cleared m.decoder.shared)
    {entries : List (Entry δ)} (hentries : ∀ a ∈ entries, a.Of (HeaderCall m.decoder)) :
    Inv m.decoder (entries ++ m.log) :=
  h.inv.sinks fun hc hrows a ha =>
    (hentries a ha).mono fun _ => HeaderCall.adopts h.inv hcleared hc hrows

/-- Whether rows may be delivered. -/
def Deliverable (m : Machine γ δ χ ρ Ω) (rows : PendingRows δ) : Prop :=
  m.decoder.shared.controlled = true → RowsInside m.log →
    ∃ facts, m.decoder.shared.adopted = some facts ∧ rows.Fits facts

theorem live_deliverRows {host : Host δ ρ Ω} {rows : PendingRows δ} {offset consumed : ℕ}
    (h : Live mode m) (hrows : Deliverable m rows) :
    Spec (deliverRows host rows offset consumed : Step γ δ χ ρ ε Ω (Progress δ))
      (fun _ => Live mode) (fun _ => Failed mode) m := by
  have hstrip : ∀ entries : List (Entry δ), (∀ a ∈ entries, a.Of (StripCall rows offset)) →
      Inv m.decoder (entries ++ m.log) := by
    intro entries hentries
    refine h.inv.sinks fun hc hinside a ha => (hentries a ha).mono fun c hcall => ?_
    obtain ⟨facts, hfacts, hfits⟩ := hrows hc hinside
    exact ⟨facts, hfacts, hcall.matches hfits⟩
  refine spec_deliverRows (fun _ => Logged.failed h.logged rfl) (fun e w entries _ hentries => ?_)
    (fun limit count w entries _ hentries _ _ => ?_)
  · exact Logged.failed ⟨(hstrip entries hentries).authorized h.mode, h.mode⟩ rfl
  · refine ⟨fun hcontrolled hinside => ?_, h.working, h.mode⟩
    rw [List.append_assoc] at hinside ⊢
    have hheld := hstrip entries hentries hcontrolled hinside.of_append
    have hqueued : ∀ r n, (if offset + count < rows.rows then some (rows, offset + count) else none)
        = some (r, n) → ∃ facts, m.decoder.shared.adopted = some facts ∧ r.Fits facts := by
      intro r n hr
      split at hr
      · obtain ⟨rfl, -⟩ := Prod.mk.inj (Option.some.inj hr)
        exact hrows hcontrolled hinside.of_append.of_append
      · cases hr
    have hquiet : ∀ a ∈ (if count = 0 then [] else [rows.strip offset count limit]), a.Quiet := by
      intro a ha
      split at ha
      · cases ha
      · rw [List.mem_singleton.mp ha]
        trivial
    exact hheld.quiet hquiet hqueued

/-- Beginning leaves the image as it is. -/
theorem live_begin {host : Host δ ρ Ω} (h : Live mode m) :
    Spec (orRefuse (beginIfReady host) : Step γ δ χ ρ ε Ω Unit)
      (fun _ m' => Live mode m' ∧ Cleared m.decoder.shared ∧
        (∃ entries, m'.log = entries ++ m.log) ∧
        ∃ a, m'.decoder.shared = { m.decoder.shared with acceptsProvisional := a })
      (fun _ => Failed mode) m := by
  refine spec_orRefuse (spec_beginIfReady (fun _ => Logged.failed h.logged rfl)
    (fun e w entries hcleared hentries hunwound => ?_)
    (fun w entries _ accepts _ hcleared hentries => ?_))
  · have hinv := h.header hcleared hentries
    cases e with
    | failed e => exact Logged.failed ⟨hinv.authorized h.mode, h.mode⟩ rfl
    | unwound =>
      -- the state is still what it was
      obtain ⟨c, hc, hbegins⟩ := hunwound rfl
      refine ⟨⟨hinv.authorized h.mode, h.mode⟩, .inr ⟨⟨hinv, h.working, h.mode⟩, ?_⟩⟩
      exact fun hreturned => hreturned c (List.mem_append_left _ hc) hbegins
  · refine ⟨⟨fun hc hinside => ?_, h.working, h.mode⟩, hcleared, ⟨entries, rfl⟩, accepts, rfl⟩
    obtain ⟨hauthorized, hnoted, hagreed, hslot, hqueued⟩ := h.header hcleared hentries hc hinside
    exact ⟨hauthorized, hnoted, hagreed, hslot, hqueued⟩

theorem live_finish [DecidableEq χ] {host : Host δ ρ Ω} {info : OutputInfo δ} {consumed : ℕ}
    (h : Live mode m) :
    Spec (finish host info consumed : Step γ δ χ ρ ε Ω (Progress δ))
      (fun _ => Complete mode) (fun _ => Failed mode) m := by
  refine spec_finish (fun _ => Logged.failed h.logged rfl)
    (fun e w entries _ _ _ hcleared hentries => ?_)
    (fun w entries _ _ _ hcleared hentries _ => ?_)
  · exact Logged.failed ⟨(h.header hcleared hentries).authorized h.mode, h.mode⟩ rfl
  · refine ⟨⟨fun hc hinside => ?_, h.mode⟩, ⟨info, rfl⟩, List.mem_cons_self⟩
    have hbefore : RowsInside (entries ++ m.log) := hinside.of_cons
    exact (h.header hcleared hentries).authorized h.mode hc hbefore

theorem live_publishRows {host : Host δ ρ Ω} {fromInput : CoroutineError → ε}
    {rows : PendingRows δ} {consumed : ℕ} (h : Live mode m)
    (hrows : m.decoder.shared.controlled = true → RowsInside m.log →
      ∃ facts, m.decoder.shared.adopted = some facts ∧ rows.Within facts) :
    Spec (publishRows host fromInput rows consumed : Step γ δ χ ρ ε Ω (Progress δ))
      (fun _ => Live mode) (fun _ => Failed mode) m := by
  unfold publishRows
  rw [spec_bind, spec_get, spec_ite]
  refine ⟨fun _ => Logged.failed h.logged rfl, fun himage => ?_⟩
  rw [spec_bind]
  refine (live_begin h).mono (fun _ m' hm' => ?_) (fun _ _ hm' => hm')
  obtain ⟨hlive, hcleared, ⟨entries, hlog⟩, a, hshared⟩ := hm'
  rw [spec_bind, spec_get, spec_ite]
  refine ⟨fun _ => Logged.failed hlive.logged rfl, fun _ => ?_⟩
  refine live_deliverRows hlive fun hc hinside => ?_
  -- the rows are of the image, and the image is the adopted one
  rw [hshared] at hc ⊢
  rw [hlog] at hinside
  obtain ⟨facts, hfacts, hwithin⟩ := hrows hc hinside.of_append
  obtain ⟨hagrees, -⟩ := (h.inv hc hinside.of_append).agreed facts hfacts hcleared.failure
  rw [Bool.and_eq_true, not_and, Bool.or_eq_true, not_or] at himage
  obtain ⟨hdescriptor, hwidth⟩ := himage hc
  rw [Shared.agrees, Bool.and_eq_true, decide_eq_true_eq] at hagrees
  refine ⟨facts, hfacts, ?_, ?_, hwithin⟩
  · obtain ⟨info, hinfo, hsame⟩ := (Option.any_eq_true _ _).mp hagrees.2
    simp only [hinfo, Option.any_some, Bool.not_eq_true', decide_eq_false_iff_not,
      Decidable.not_not] at hwidth
    simp only [Bool.and_eq_true, decide_eq_true_eq] at hsame
    exact hwidth.symm.trans hsame.1
  · simp only [decide_eq_true_eq, ne_eq, Decidable.not_not] at hdescriptor
    exact hagrees.1.trans hdescriptor

theorem live_publishUpdate {host : Host δ ρ Ω} {u : MetadataUpdate} {consumed : ℕ}
    (h : Live mode m) :
    Spec (publishUpdate host u consumed : Step γ δ χ ρ ε Ω (Progress δ))
      (fun _ => Live mode) (fun _ => Failed mode) m := by
  unfold publishUpdate
  have hnote : ∀ m' : Machine γ δ χ ρ Ω, Live mode m' →
      Live mode { m' with log := .update u :: m'.log } := by
    intro m' hm'
    have hquiet : ∀ a ∈ [Entry.update u], a.Quiet (δ := δ) := fun a ha => by
      rw [List.mem_singleton.mp ha]
      trivial
    refine ⟨fun hc hinside => ?_, hm'.working, hm'.mode⟩
    have hheld := hm'.inv hc (hinside.of_cons)
    exact hheld.quiet hquiet hheld.queued
  rw [spec_bind, spec_get, spec_bind, spec_ite]
  refine ⟨fun _ => ?_, fun _ => hnote m h⟩
  exact (live_begin h).mono (fun _ m' hm' => hnote m' hm'.1) (fun _ _ hm' => hm')

/-! ### The operations of the future -/

section operations

variable [DecidableEq χ] {s : Shared δ χ ρ} {q : Option (PendingRows δ × ℕ)}

/-- An operation changes neither the mode nor what was adopted. -/
theorem apply_frame (op : Op δ χ) :
    (op.apply s).controlled = s.controlled ∧ (op.apply s).adopted = s.adopted := by
  cases op with
  | read reads =>
    obtain ⟨_, _, h⟩ := pollRead_frame reads s
    simp only [Op.apply, h, and_self]
  | len =>
    obtain ⟨_, h⟩ := pollLen_frame s
    simp only [Op.apply, h, and_self]
  | writeRows rows =>
    rcases pollRows_cases rows s with ⟨-, h⟩ | ⟨-, h, -⟩ <;> simp only [Op.apply, h, and_self]
  | announce u =>
    rcases pollAnnounce_cases u s with ⟨-, h⟩ | ⟨-, h⟩ <;> simp only [Op.apply, h, and_self]
  | interpretation facts fresh =>
    rcases pollInterpret_cases facts fresh s with h | ⟨-, id, h⟩ <;>
      simp only [Op.apply, h, and_self]
  | reply id =>
    obtain ⟨_, h⟩ := pollReply_frame id s
    simp only [Op.apply, h, and_self]
  | seek | setInfo | setDetails | setOutputDescriptor => exact ⟨rfl, rfl⟩

/-- An operation keeps what holds, if the rows that it hands over lie inside the image. -/
theorem Held.apply (h : Held s q log) (hc : s.controlled = true) (op : Op δ χ)
    (hop : ∀ r facts, .rows r ∈ op.handed s → s.adopted = some facts → r.Within facts) :
    Held (op.apply s) q log := by
  cases op with
  | read reads =>
    obtain ⟨_, _, hs⟩ := pollRead_frame reads s
    rw [Op.apply, hs]
    exact ⟨h.authorized, h.noted, h.agreed, h.slot, h.queued⟩
  | seek offset => exact ⟨h.authorized, h.noted, h.agreed, h.slot, h.queued⟩
  | len =>
    obtain ⟨_, hs⟩ := pollLen_frame s
    rw [Op.apply, hs]
    exact ⟨h.authorized, h.noted, h.agreed, h.slot, h.queued⟩
  | writeRows rows =>
    rcases pollRows_cases rows s with ⟨-, hs⟩ | ⟨hpending, hs, hcleared⟩
    · rw [Op.apply, hs]
      exact h
    · obtain ⟨facts, hfacts⟩ := hcleared.adopted hc
      rw [Op.apply, hs]
      refine ⟨h.authorized, h.noted, h.agreed, fun r hr => ⟨facts, hfacts, ?_⟩, h.queued⟩
      obtain rfl : rows = r := Option.some.inj hr
      refine hop rows facts ?_ hfacts
      rw [Op.handed, if_pos hpending]
      exact List.mem_singleton_self _
  | announce u =>
    rcases pollAnnounce_cases u s with ⟨-, hs⟩ | ⟨-, hs⟩
    · rw [Op.apply, hs]
      exact h
    · rw [Op.apply, hs]
      exact ⟨h.authorized, h.noted, h.agreed, h.slot, h.queued⟩
  | setInfo info =>
    refine ⟨h.authorized, h.noted, fun facts hfacts hfailure => ?_, h.slot, h.queued⟩
    -- without a violation, the information is what it was
    have hfailure' : (if changesInfo s info then some .finalInterpretationChanged
      else s.controlFailure) = none := hfailure
    split at hfailure'
    · cases hfailure'
    · next hsame =>
      obtain ⟨hagrees, hboundary⟩ := h.agreed facts hfacts hfailure'
      refine ⟨?_, hboundary⟩
      have hadopted : s.adopted = some facts := hfacts
      rw [Shared.agrees, Bool.and_eq_true] at hagrees
      obtain ⟨old, hold, hgeometry⟩ := (Option.any_eq_true _ _).mp hagrees.2
      rw [changesInfo, hadopted, hold] at hsame
      simp only [Option.isSome_some, Option.any_some, Bool.true_and, decide_eq_true_eq, ne_eq,
        Decidable.not_not] at hsame
      subst hsame
      show (_ && _) = true
      rw [Bool.and_eq_true]
      exact ⟨hagrees.1, hgeometry⟩
  | setDetails details =>
    refine ⟨h.authorized, h.noted, fun facts hfacts hfailure => ?_, h.slot, h.queued⟩
    have hfailure' : (if changesInfo s details.info then some .finalInterpretationChanged
      else s.controlFailure) = none := hfailure
    split at hfailure'
    · cases hfailure'
    · exact h.agreed facts hfacts hfailure'
  | setOutputDescriptor descriptor =>
    refine ⟨h.authorized, h.noted, fun facts hfacts hfailure => ?_, h.slot, h.queued⟩
    have hadopted : s.adopted = some facts := hfacts
    have hfailure' : (if s.adopted.isSome && s.descriptor ≠ some descriptor then
      some ControlError.finalInterpretationChanged else s.controlFailure) = none := hfailure
    split at hfailure'
    · cases hfailure'
    · next hsame =>
      obtain ⟨hagrees, hboundary⟩ := h.agreed facts hfacts hfailure'
      refine ⟨?_, hboundary⟩
      simp only [hadopted, Option.isSome_some, Bool.true_and, decide_eq_true_eq, ne_eq,
        Decidable.not_not] at hsame
      rw [Shared.agrees, Bool.and_eq_true, decide_eq_true_eq, hsame] at hagrees
      show (_ && _) = true
      rw [Bool.and_eq_true, decide_eq_true_eq]
      exact hagrees
  | interpretation facts fresh =>
    rcases pollInterpret_cases facts fresh s with hs | ⟨hnone, id, hs⟩
    · rw [Op.apply, hs]
      exact h
    · rw [Op.apply, hs]
      refine ⟨h.authorized, h.noted, fun facts' hfacts' _ => ?_, h.slot, h.queued⟩
      rw [show s.adopted = some facts' from hfacts'] at hnone
      cases hnone
  | reply id =>
    obtain ⟨_, hs⟩ := pollReply_frame id s
    rw [Op.apply, hs]
    exact ⟨h.authorized, h.noted, h.agreed, h.slot, h.queued⟩

theorem runOps_frame (ops : List (Op δ χ)) (s : Shared δ χ ρ) :
    (runOps ops s).1.controlled = s.controlled ∧ (runOps ops s).1.adopted = s.adopted := by
  induction ops generalizing s with
  | nil => exact ⟨rfl, rfl⟩
  | cons op ops ih =>
    obtain ⟨hc, ha⟩ := apply_frame (s := s) op
    rw [runOps]
    exact ⟨(ih _).1.trans hc, (ih _).2.trans ha⟩

theorem quiet_runOps (ops : List (Op δ χ)) (s : Shared δ χ ρ) :
    ∀ a ∈ (runOps ops s).2, a.Quiet := by
  induction ops generalizing s with
  | nil => exact fun a ha => by cases ha
  | cons op ops ih =>
    intro a ha
    rcases List.mem_append.mp ha with ha | ha
    · exact ih _ a ha
    · obtain ⟨item, -, rfl⟩ := List.mem_map.mp ha
      trivial

theorem Held.runOps (h : Held s q log) (hc : s.controlled = true) (ops : List (Op δ χ))
    (hops : ∀ r found facts, .handed (.rows r) found ∈ (Coroutine.runOps ops s).2 →
      s.adopted = some facts → r.Within facts) :
    Held (runOps ops s).1 q log := by
  induction ops generalizing s with
  | nil => exact h
  | cons op ops ih =>
    obtain ⟨hc', ha'⟩ := apply_frame (s := s) op
    rw [Coroutine.runOps] at hops ⊢
    refine ih (h.apply hc op fun r facts hr ha => ?_) (hc'.trans hc) fun r found facts hr ha => ?_
    · exact hops r s.slots facts (List.mem_append_right _ (List.mem_map_of_mem hr)) ha
    · exact hops r found facts (List.mem_append_left _ hr) (ha' ▸ ha)

end operations

/-! ### The loop -/

/-- The rows of an event lie inside the image that was adopted. -/
def Slotted (event : Pending δ) (m : Machine γ δ χ ρ Ω) : Prop :=
  ∀ r, event = .rows r → m.decoder.shared.controlled = true → RowsInside m.log →
    ∃ facts, m.decoder.shared.adopted = some facts ∧ r.Within facts

theorem live_absorbInput {fromInput : CoroutineError → ε} {input : Input} {start : ℕ}
    (h : Live mode m) : Spec (absorbInput fromInput input start : Step γ δ χ ρ ε Ω ℕ)
      (fun _ => Live mode) (fun _ => Failed mode) m := by
  refine spec_absorbInput (fun e store need => Logged.failed h.logged rfl)
    (fun n store need => ⟨fun hc hinside => ?_, fun info hinfo => (by cases hinfo), h.mode⟩)
  obtain ⟨hauthorized, hnoted, hagreed, hslot, hqueued⟩ := h.inv hc hinside
  exact ⟨hauthorized, hnoted, hagreed, hslot, hqueued⟩

theorem live_pollFuture [DecidableEq χ] {co : Future γ δ χ ρ ε} (h : Live mode m) :
    Spec (pollFuture co : Step γ δ χ ρ ε Ω (Polled δ ε))
      (fun _ m' => Live mode m' ∧ m'.decoder.state = .failed) (fun _ => Failed mode) m := by
  rcases hpoll : co.poll m.decoder.future m.decoder.shared with ⟨ops, polled, future⟩
  have hlive : Live mode (⟨{ m.decoder with
      state := .failed, shared := (runOps ops m.decoder.shared).1, future := future }, m.world,
      polled.noted (runOps ops m.decoder.shared).1 ++ (runOps ops m.decoder.shared).2 ++
        .polled :: m.log⟩ : Machine γ δ χ ρ Ω) := by
    refine ⟨fun hc hinside => ?_, fun info hinfo => (by cases hinfo),
      (runOps_frame ops _).1.trans h.mode⟩
    have hc' : m.decoder.shared.controlled = true := (runOps_frame ops _).1 ▸ hc
    have hheld := h.inv hc' hinside.of_append.of_cons
    have hheld := hheld.runOps hc' ops fun r found facts hr ha => by
      refine hinside r found facts ?_ (List.mem_append_right _ ?_)
      · exact List.mem_append_left _ (List.mem_append_right _ hr)
      · exact List.mem_cons_of_mem _ ((hheld.noted facts).mpr ha)
    rw [show ∀ l : List (Entry δ), l ++ .polled :: m.log = (l ++ [.polled]) ++ m.log from
      fun l => by rw [List.append_assoc]; rfl]
    refine hheld.quiet (fun a ha => ?_) hheld.queued
    -- the poll itself is neither a call nor an adoption
    rcases List.mem_append.mp ha with ha | ha
    · rcases List.mem_append.mp ha with ha | ha
      · exact quiet_noted polled _ a ha
      · exact quiet_runOps ops _ a ha
    · rw [List.mem_singleton.mp ha]
      trivial
  exact spec_pollFuture hpoll (fun _ => Logged.failed hlive.logged rfl) (fun _ => ⟨hlive, rfl⟩)

/-- The rows that the future left lie inside the image. -/
theorem live_takeEvent (h : Live mode m) :
    Spec (takeEvent : Step γ δ χ ρ ε Ω (Pending δ))
      (fun event m' => Live mode m' ∧ m'.decoder.state = m.decoder.state ∧ Slotted event m')
      (fun _ => Failed mode) m := by
  have hno : ∀ (event : Pending δ) (m' : Machine γ δ χ ρ Ω), (∀ r, event ≠ .rows r) →
      Slotted event m' :=
    fun _ _ hevent r hr => absurd hr (hevent r)
  refine spec_takeEvent (fun _ => Logged.failed h.logged rfl)
    (fun b _ _ _ => ⟨h, rfl, hno _ _ fun r hr => by cases hr⟩) (fun r _ _ hr => ?_)
    (fun u _ _ _ _ => ⟨⟨fun hc hinside => ?_, h.working, h.mode⟩, rfl,
      hno _ _ fun r hr => by cases hr⟩)
    (fun _ _ _ _ => ⟨⟨h, rfl, hno _ _ fun r hr => by cases hr⟩, h, rfl,
      hno _ _ fun r hr => by cases hr⟩)
  · refine ⟨⟨fun hc hinside => ?_, h.working, h.mode⟩, rfl, fun r' hr' hc hinside => ?_⟩
    · obtain ⟨hauthorized, hnoted, hagreed, -, hqueued⟩ := h.inv hc hinside
      exact ⟨hauthorized, hnoted, hagreed, fun r' hr' => (by cases hr'), hqueued⟩
    · obtain rfl := Pending.rows.inj hr'
      exact (h.inv hc hinside).slot r hr
  · obtain ⟨hauthorized, hnoted, hagreed, hslot, hqueued⟩ := h.inv hc hinside
    exact ⟨hauthorized, hnoted, hagreed, hslot, hqueued⟩

/-- Working on, or at the end. -/
def Sound (mode : Bool) (m : Machine γ δ χ ρ Ω) : Prop := Live mode m ∨ Complete mode m

theorem live_checkPolled {host : Host δ ρ Ω} {polled : Polled δ ε} {event : Pending δ}
    (h : Live mode m) (hfailed : m.decoder.state = .failed) (hslotted : Slotted event m) :
    Spec (checkPolled host polled : Step γ δ χ ρ ε Ω Unit)
      (fun _ m' => Live mode m' ∧ Slotted event m') (fun _ => Failed mode) m := by
  cases polled with
  | failed e => exact Logged.failed h.logged hfailed
  | pending | ready | unwound =>
    show Spec (_ >>= _) _ _ _
    rw [spec_bind]
    refine spec_checkPulse fun r w => ?_
    cases r with
    | some reason => exact Logged.failed h.logged hfailed
    | none => exact ⟨⟨h.inv, fun info hinfo => (by cases hinfo), h.mode⟩, hslotted⟩

variable [DecidableEq χ]

theorem sound_completePoll {host : Host δ ρ Ω} {fromInput : CoroutineError → ε}
    {info : OutputInfo δ} {consumed : ℕ} {event : Pending δ} (h : Live mode m)
    (hslotted : Slotted event m) :
    Spec (completePoll host fromInput info consumed event : Step γ δ χ ρ ε Ω (Progress δ))
      (fun _ => Sound mode) (fun _ => Failed mode) m := by
  have hfinishing : Live mode { m with
      decoder := { m.decoder with state := .finishing info, need := [] } } :=
    ⟨h.inv, fun info hinfo => (by cases hinfo), h.mode⟩
  cases event with
  | boundary b => exact Logged.failed h.logged rfl
  | rows r =>
    exact (live_publishRows hfinishing (hslotted r rfl)).mono (fun _ _ hm => .inl hm)
      (fun _ _ hm => hm)
  | metadata u =>
    exact (live_publishUpdate hfinishing).mono (fun _ _ hm => .inl hm) (fun _ _ hm => hm)
  | need | stalled => exact (live_finish h).mono (fun _ _ hm => .inr hm) (fun _ _ hm => hm)

theorem sound_drive {host : Host δ ρ Ω} {fromInput : CoroutineError → ε}
    {co : Future γ δ χ ρ ε} {input : Input} (turns consumed : ℕ) (h : Live mode m) :
    Spec (drive host fromInput co input turns consumed : Step γ δ χ ρ ε Ω (Progress δ))
      (fun _ => Sound mode) (fun _ => Failed mode) m := by
  induction turns generalizing consumed m with
  | zero => exact Logged.failed h.logged rfl
  | succ turns ih =>
    unfold drive
    rw [spec_bind]
    refine (live_pollFuture h).mono (fun polled m₁ h₁ => ?_) (fun _ _ hm => hm)
    rw [spec_bind]
    refine (live_takeEvent h₁.1).mono (fun event m₂ h₂ => ?_) (fun _ _ hm => hm)
    obtain ⟨hlive, hstate, hslotted⟩ := h₂
    rw [spec_bind]
    refine (live_checkPolled hlive (hstate.trans h₁.2) hslotted).mono (fun _ m₃ h₃ => ?_)
      (fun _ _ hm => hm)
    obtain ⟨hlive₃, hslotted₃⟩ := h₃
    cases polled with
    | ready info => exact sound_completePoll hlive₃ hslotted₃
    | pending | failed | unwound =>
      -- the future waits: what it left decides
      cases event with
      | boundary b => exact .inl ⟨hlive₃.inv, hlive₃.working, hlive₃.mode⟩
      | rows r =>
        exact (live_publishRows hlive₃ (hslotted₃ r rfl)).mono (fun _ _ hm => .inl hm)
          (fun _ _ hm => hm)
      | metadata u =>
        exact (live_publishUpdate hlive₃).mono (fun _ _ hm => .inl hm) (fun _ _ hm => hm)
      | need =>
        show Spec (_ >>= _) _ _ _
        rw [spec_bind]
        refine (live_absorbInput hlive₃).mono (fun more m₄ h₄ => ?_) (fun _ _ hm => hm)
        rw [spec_ite]
        exact ⟨fun _ => ih more h₄, fun _ => .inl ⟨h₄.inv, h₄.working, h₄.mode⟩⟩
      | stalled => exact Logged.failed hlive₃.logged rfl

end Zencodec.Coroutine
