/-
What a decode delivers, and when.

* `Strips`, `Delivers` — the strips of a batch, and the deliveries of a sequence of items;
* `Orderly` — what the future hands over finds the slots free, and so does its end;
* `Queue` — what was handed over is what waits in the slots, then what is on its way, then what was
  delivered;
* `delivered_once` — the deliveries of any run of an orderly future.

Logs and sequences have the newest first.
-/
import Zencodec.Coroutine.Rules

namespace Zencodec.Coroutine

open Act
open Zencodec.Operation (Fault)

variable {γ δ χ ρ ε Ω α : Type}

/-! ### Items and deliveries -/

def Entry.item : Entry δ → Option (Item δ)
  | .handed item _ => some item
  | _ => none

/-- What was handed over. -/
def handedItems (log : List (Entry δ)) : List (Item δ) := log.filterMap Entry.item

def Entry.isOutput : Entry δ → Bool
  | .strip _ _ _ | .update _ => true
  | _ => false

/-- The strips that the sink took, and the updates that the driver was told. -/
def delivered (log : List (Entry δ)) : List (Entry δ) := log.filter Entry.isOutput

/-- The strips that make up the first rows of a batch. -/
inductive Strips (rows : PendingRows δ) : ℕ → List (Entry δ) → Prop
  | nil : Strips rows 0 []
  | cons {n count limit : ℕ} {strips : List (Entry δ)} (h : Strips rows n strips)
      (hpos : 0 < count) (hlimit : count ≤ limit) (hcount : n + count ≤ rows.rows) :
      Strips rows (n + count) (rows.strip n count limit :: strips)

/-- Each item once, in order, a batch as its strips. -/
inductive Delivers : List (Item δ) → List (Entry δ) → Prop
  | nil : Delivers [] []
  | rows {rows : PendingRows δ} {strips : List (Entry δ)} {items : List (Item δ)}
      {out : List (Entry δ)} (hstrips : Strips rows rows.rows strips) (h : Delivers items out) :
      Delivers (.rows rows :: items) (strips ++ out)
  | update {u : MetadataUpdate} {items : List (Item δ)} {out : List (Entry δ)}
      (h : Delivers items out) : Delivers (.update u :: items) (.update u :: out)

/-- The item on its way. -/
inductive Owed (δ : Type) where
  | nothing
  /-- Rows of which the first `n` are delivered. -/
  | rows (rows : PendingRows δ) (n : ℕ)
  | update (update : MetadataUpdate)

/-- The rows of a batch that is delivered in part. -/
def Owed.of : Option (PendingRows δ × ℕ) → Owed δ
  | none => .nothing
  | some (r, n) => .rows r n

/-- What is owed once the decoder has taken it. -/
def Pending.owed : Pending δ → Owed δ
  | .rows r => .rows r 0
  | .metadata u => .update u
  | .boundary _ | .need | .stalled => .nothing

/-- Deliveries of all items but what is owed of the newest. -/
def Reaches : Owed δ → List (Item δ) → List (Entry δ) → Prop
  | .nothing, items, out => Delivers items out
  | .rows rows n, items, out =>
    ∃ old strips before, items = .rows rows :: old ∧ out = strips ++ before ∧
      Strips rows n strips ∧ n ≤ rows.rows ∧ Delivers old before
  | .update u, items, out => ∃ old, items = .update u :: old ∧ Delivers old out

/-- What is delivered is the first of what was handed over, the newest of it perhaps in part. -/
def InOrder (log : List (Entry δ)) : Prop :=
  ∃ waiting reached owed, handedItems log = waiting ++ reached ∧
    Reaches owed reached (delivered log)

/-- Rows find both slots free, an update finds that of updates free, and the future does not return
with both full. -/
def Entry.Orderly : Entry δ → Prop
  | .handed (.rows _) found => found.rows = false ∧ found.update = false
  | .handed (.update _) found => found.update = false
  | .returned left => left.rows = false ∨ left.update = false
  | _ => True

def Orderly (log : List (Entry δ)) : Prop := ∀ a ∈ log, a.Orderly

theorem Orderly.of_append {entries log : List (Entry δ)} (h : Orderly (entries ++ log)) :
    Orderly log := fun a ha => h a (List.mem_append_right _ ha)

theorem Orderly.of_cons {a : Entry δ} {log : List (Entry δ)} (h : Orderly (a :: log)) :
    Orderly log := fun b hb => h b (List.mem_cons_of_mem a hb)

/-- If the end is reported, it is so last, and after every item. -/
def Reported (log : List (Entry δ)) : Prop :=
  .done ∈ log → ∃ earlier, log = .done :: earlier ∧
    Delivers (handedItems earlier) (delivered earlier)

def Settled (log : List (Entry δ)) : Prop := Orderly log → InOrder log ∧ Reported log

/-! ### What adds nothing -/

/-- An entry that says nothing of items, deliveries or the end. -/
structure Entry.Silent (a : Entry δ) : Prop where
  item : a.item = none
  output : a.isOutput = false
  done : a ≠ .done

theorem Entry.Of.silent {P : SinkCall δ → Prop} {a : Entry δ} (h : a.Of P) : a.Silent := by
  cases a with
  | sink c | unwound c => exact ⟨rfl, rfl, fun he => by cases he⟩
  | polled | handed | returned | adopted | strip | update | done => exact h.elim

variable {entries log : List (Entry δ)}

theorem handedItems_silent (h : ∀ a ∈ entries, a.Silent) :
    handedItems (entries ++ log) = handedItems log := by
  rw [handedItems, List.filterMap_append, List.filterMap_eq_nil_iff.mpr fun a ha => (h a ha).item]
  rfl

theorem delivered_silent (h : ∀ a ∈ entries, a.Silent) :
    delivered (entries ++ log) = delivered log := by
  rw [delivered, List.filter_append, List.filter_eq_nil_iff.mpr fun a ha => ?_]
  · rfl
  · rw [(h a ha).output]
    exact Bool.false_ne_true

theorem done_silent (h : ∀ a ∈ entries, a.Silent) (hlog : .done ∉ log) :
    .done ∉ entries ++ log := by
  intro hmem
  rcases List.mem_append.mp hmem with hmem | hmem
  · exact (h _ hmem).done rfl
  · exact hlog hmem

/-! ### The queue -/

/-- What waits in the slots. -/
def Shared.waiting (s : Shared δ χ ρ) : List (Item δ) :=
  s.metadata.toList.map .update ++ s.rows.toList.map .rows

/-- What was handed over waits, is on its way, or was delivered. -/
def Queue (s : Shared δ χ ρ) (owed : Owed δ) (log : List (Entry δ)) : Prop :=
  ∃ reached, handedItems log = s.waiting ++ reached ∧ Reaches owed reached (delivered log)

@[simp] theorem handedItems_handed (item : Item δ) (found : Slots) :
    handedItems (.handed item found :: log) = item :: handedItems log := rfl

variable {s : Shared δ χ ρ} {owed : Owed δ}

theorem slots_rows : s.slots.rows = false ↔ s.rows = none := Option.isSome_eq_false_iff.trans
  Option.isNone_iff_eq_none

theorem slots_update : s.slots.update = false ↔ s.metadata = none :=
  Option.isSome_eq_false_iff.trans Option.isNone_iff_eq_none

theorem Queue.inOrder (h : Queue s owed log) : InOrder log := by
  obtain ⟨reached, hitems, hreaches⟩ := h
  exact ⟨s.waiting, reached, owed, hitems, hreaches⟩

theorem Queue.silent (h : Queue s owed log) (hentries : ∀ a ∈ entries, a.Silent) :
    Queue s owed (entries ++ log) := by
  unfold Queue
  rw [handedItems_silent hentries, delivered_silent hentries]
  exact h

/-- A strip takes what is owed of the rows further. -/
theorem Queue.strip {rows : PendingRows δ} {n count limit : ℕ} (h : Queue s (.rows rows n) log)
    (hpos : 0 < count) (hlimit : count ≤ limit) (hcount : n + count ≤ rows.rows) :
    Queue s (.rows rows (n + count)) (rows.strip n count limit :: log) := by
  obtain ⟨reached, hitems, old, strips, before, hold, hout, hstrips, -, hbefore⟩ := h
  refine ⟨reached, hitems, old, rows.strip n count limit :: strips, before, hold, ?_,
    hstrips.cons hpos hlimit hcount, hcount, hbefore⟩
  rw [delivered, PendingRows.strip, List.filter_cons_of_pos rfl, List.cons_append]
  exact congrArg _ hout

/-- Nothing is owed of rows that are delivered to the last. -/
theorem Queue.whole {rows : PendingRows δ} {n : ℕ} (h : Queue s (.rows rows n) log)
    (hn : n = rows.rows) : Queue s .nothing log := by
  obtain ⟨reached, hitems, old, strips, before, rfl, hout, hstrips, -, hbefore⟩ := h
  subst hn
  refine ⟨_, hitems, ?_⟩
  rw [hout]
  exact .rows hstrips hbefore

theorem Queue.told {u : MetadataUpdate} (h : Queue s (.update u) log) :
    Queue s .nothing (.update u :: log) := by
  obtain ⟨reached, hitems, old, rfl, hbefore⟩ := h
  exact ⟨_, hitems, hbefore.update⟩

/-- Rows that are handed over into free slots wait. -/
theorem Queue.handRows {rows : PendingRows δ} {found : Slots} (h : Queue s owed log)
    (hrows : s.rows = none) (hmetadata : s.metadata = none) :
    Queue { s with rows := some rows } owed (.handed (.rows rows) found :: log) := by
  obtain ⟨reached, hitems, hreaches⟩ := h
  refine ⟨reached, ?_, hreaches⟩
  rw [Shared.waiting, hrows, hmetadata] at hitems
  rw [Shared.waiting, hmetadata, handedItems_handed, hitems]
  rfl

theorem Queue.handUpdate {u : MetadataUpdate} {found : Slots} (h : Queue s owed log)
    (hmetadata : s.metadata = none) :
    Queue { s with metadata := some u } owed (.handed (.update u) found :: log) := by
  obtain ⟨reached, hitems, hreaches⟩ := h
  refine ⟨reached, ?_, hreaches⟩
  rw [Shared.waiting, hmetadata] at hitems
  rw [Shared.waiting, handedItems_handed, hitems]
  rfl

/-- Rows that are taken from their slot are on their way. -/
theorem Queue.takeRows {rows : PendingRows δ} (h : Queue s .nothing log)
    (hrows : s.rows = some rows) : Queue { s with rows := none } (.rows rows 0) log := by
  obtain ⟨reached, hitems, hreaches⟩ := h
  refine ⟨.rows rows :: reached, ?_, reached, [], delivered log, rfl, rfl, .nil, Nat.zero_le _,
    hreaches⟩
  rw [hitems, Shared.waiting, Shared.waiting, hrows, List.append_assoc, List.append_assoc]
  rfl

theorem Queue.takeUpdate {u : MetadataUpdate} (h : Queue s .nothing log) (hrows : s.rows = none)
    (hmetadata : s.metadata = some u) : Queue { s with metadata := none } (.update u) log := by
  obtain ⟨reached, hitems, hreaches⟩ := h
  refine ⟨.update u :: reached, ?_, reached, rfl, hreaches⟩
  rw [hitems, Shared.waiting, Shared.waiting, hrows, hmetadata]
  rfl

/-! ### The operations of the future -/

section operations

variable [DecidableEq δ] [DecidableEq χ]

/-- An operation keeps the queue, if what it hands over finds the slots free. -/
theorem Queue.apply (h : Queue s owed log) (op : Op δ χ)
    (horderly : Orderly ((op.handed s).map fun item => Entry.handed item s.slots)) :
    Queue (op.apply s) owed
      (((op.handed s).map fun item => Entry.handed item s.slots) ++ log) := by
  cases op with
  | read reads =>
    obtain ⟨_, _, hs⟩ := pollRead_frame reads s
    rw [Op.apply, hs]
    exact h
  | len =>
    obtain ⟨_, hs⟩ := pollLen_frame s
    rw [Op.apply, hs]
    exact h
  | writeRows rows =>
    rcases pollRows_cases rows s with ⟨hready, hs⟩ | ⟨hpending, hs, -⟩
    · rw [Op.apply, hs, Op.handed, if_neg (by rw [hready]; exact Bool.false_ne_true)]
      exact h
    · rw [Op.handed, if_pos hpending] at horderly ⊢
      rw [Op.apply, hs]
      have hfree := horderly _ List.mem_cons_self
      exact h.handRows (slots_rows.mp hfree.1) (slots_update.mp hfree.2)
  | announce u =>
    rcases pollAnnounce_cases u s with ⟨hready, hs⟩ | ⟨hpending, hs⟩
    · rw [Op.apply, hs, Op.handed, if_neg (by rw [hready]; exact Bool.false_ne_true)]
      exact h
    · rw [Op.handed, if_pos hpending] at horderly ⊢
      rw [Op.apply, hs]
      have hfree := horderly _ List.mem_cons_self
      exact h.handUpdate (slots_update.mp hfree)
  | interpretation facts fresh =>
    rcases pollInterpret_cases facts fresh s with hs | ⟨-, _, hs⟩
    · rw [Op.apply, hs]
      exact h
    · rw [Op.apply, hs]
      exact h
  | reply id =>
    obtain ⟨_, hs⟩ := pollReply_frame id s
    rw [Op.apply, hs]
    exact h
  | seek | setInfo | setDetails | setOutputDescriptor => exact h

theorem Queue.runOps (h : Queue s owed log) (ops : List (Op δ χ))
    (horderly : Orderly (runOps ops s).2) :
    Queue (runOps ops s).1 owed ((runOps ops s).2 ++ log) := by
  induction ops generalizing s log with
  | nil => exact h
  | cons op ops ih =>
    rw [Coroutine.runOps] at horderly ⊢
    dsimp only at horderly ⊢
    rw [List.append_assoc]
    exact ih (h.apply op horderly.of_append) fun a ha => horderly a (List.mem_append_left _ ha)

theorem done_runOps (ops : List (Op δ χ)) (s : Shared δ χ ρ) : .done ∉ (runOps ops s).2 := by
  induction ops generalizing s with
  | nil => exact fun hmem => by cases hmem
  | cons op ops ih =>
    intro hmem
    rcases List.mem_append.mp hmem with hmem | hmem
    · exact ih _ hmem
    · obtain ⟨item, -, hitem⟩ := List.mem_map.mp hmem
      cases hitem

end operations

/-! ### A decoder at work -/

/-- What holds of a decoder at work that owes an item. -/
structure Steady (owed : Owed δ) (m : Machine γ δ χ ρ Ω) : Prop where
  queue : Orderly m.log → Queue m.decoder.shared owed m.log
  unfinished : .done ∉ m.log
  finishing : ∀ info, m.decoder.state = .finishing info → Orderly m.log →
    m.decoder.shared.waiting = []
  working : ∀ info, m.decoder.state ≠ .done info

/-- After progress that is not the end. -/
structure Working (p : Progress δ) (m : Machine γ δ χ ρ Ω) : Prop where
  steady : Steady (Owed.of m.decoder.pendingRows) m
  event : ∀ info, p.event ≠ .done info

/-- The end is reported. -/
structure Finished (m : Machine γ δ χ ρ Ω) : Prop where
  settled : Settled m.log
  reported : .done ∈ m.log
  state : ∃ info, m.decoder.state = .done info

variable {m : Machine γ δ χ ρ Ω}

theorem Steady.settled (h : Steady owed m) : Settled m.log := fun horderly =>
  ⟨(h.queue horderly).inOrder, fun hdone => absurd hdone h.unfinished⟩

/-- A call of the sink changes nothing. -/
theorem Steady.silent (h : Steady owed m) (hentries : ∀ a ∈ entries, a.Silent) (w : Ω) :
    Steady owed ⟨m.decoder, w, entries ++ m.log⟩ :=
  ⟨fun horderly => (h.queue horderly.of_append).silent hentries, done_silent hentries h.unfinished,
    fun info hinfo horderly => h.finishing info hinfo horderly.of_append, h.working⟩

theorem steady_deliverRows [DecidableEq δ] {host : Host δ ρ Ω} {rows : PendingRows δ}
    {offset consumed : ℕ} (h : Steady (.rows rows offset) m) :
    Spec (deliverRows host rows offset consumed : Step γ δ χ ρ ε Ω (Progress δ))
      Working (fun _ m' => Settled m'.log) m := by
  refine spec_deliverRows (fun _ => h.settled)
    (fun e w entries _ hentries => (h.silent (fun a ha => (hentries a ha).silent) w).settled)
    (fun limit count w entries _ hentries hlimit hcount => ?_)
  have hbefore := h.silent (fun a ha => (hentries a ha).silent) w
  have hqueue : Orderly (entries ++ m.log) → Queue m.decoder.shared (.rows rows (offset + count))
      ((if count = 0 then [] else [rows.strip offset count limit]) ++ (entries ++ m.log)) := by
    intro horderly
    have hq := hbefore.queue horderly
    split
    · next hzero =>
      subst hzero
      exact hq
    · next hpos =>
      exact hq.strip (Nat.pos_of_ne_zero hpos) (by omega) (by omega)
  have hdone : .done ∉ (if count = 0 then [] else [rows.strip offset count limit]) := by
    split
    · exact fun hmem => by cases hmem
    · exact fun hmem => by cases List.mem_singleton.mp hmem
  rw [List.append_assoc]
  refine ⟨⟨fun horderly => ?_, fun hmem => ?_, fun info hinfo horderly => ?_, h.working⟩,
    fun info he => by cases he⟩
  · have hq := hqueue horderly.of_append
    show Queue m.decoder.shared (Owed.of (if offset + count < rows.rows then
      some (rows, offset + count) else none)) _
    split
    · exact hq
    · next hlast =>
      -- the strip was the last
      obtain ⟨-, -, -, -, -, -, -, -, hle, -⟩ := hq
      exact (hqueue horderly.of_append).whole (by omega)
  · rcases List.mem_append.mp hmem with hmem | hmem
    · exact hdone hmem
    · exact hbefore.unfinished hmem
  · exact h.finishing info hinfo horderly.of_append.of_append

/-- `begin_if_ready` owes what it owed. -/
theorem steady_begin {host : Host δ ρ Ω} (h : Steady owed m) :
    Spec (orRefuse (beginIfReady host) : Step γ δ χ ρ ε Ω Unit)
      (fun _ m' => Steady owed m' ∧ m'.decoder.pendingRows = m.decoder.pendingRows)
      (fun _ m' => Settled m'.log) m := by
  refine spec_orRefuse (spec_beginIfReady (fun _ => h.settled)
    (fun e w entries _ hentries _ => ?_) (fun w entries _ _ _ _ hentries => ?_))
  · have hsettled := (h.silent (fun a ha => (hentries a ha).silent) w).settled
    cases e with
    | failed e => exact hsettled
    | unwound => exact hsettled
  · obtain ⟨hqueue, hunfinished, hfinishing, hworking⟩ :=
      h.silent (fun a ha => (hentries a ha).silent) w
    exact ⟨⟨hqueue, hunfinished, hfinishing, hworking⟩, rfl⟩

theorem finished_finish [DecidableEq δ] [DecidableEq χ] {host : Host δ ρ Ω} {info : OutputInfo δ}
    {consumed : ℕ} (h : Steady .nothing m)
    (hwaiting : Orderly m.log → m.decoder.shared.waiting = []) :
    Spec (finish host info consumed : Step γ δ χ ρ ε Ω (Progress δ))
      (fun _ => Finished) (fun _ m' => Settled m'.log) m := by
  refine spec_finish (fun _ => h.settled)
    (fun e w entries _ _ _ _ hentries => (h.silent (fun a ha => (hentries a ha).silent) w).settled)
    (fun w entries _ _ _ _ hentries _ =>
      ⟨fun horderly => ?_, List.mem_cons_self, info, rfl⟩)
  have hlog : Orderly (entries ++ m.log) := horderly.of_cons
  obtain ⟨reached, hitems, hreaches⟩ :=
    (h.silent (fun a ha => (hentries a ha).silent) w).queue hlog
  -- nothing waits any more
  rw [hwaiting hlog.of_append] at hitems
  obtain rfl : handedItems (entries ++ m.log) = reached := hitems
  exact ⟨⟨[], _, .nothing, rfl, hreaches⟩, fun _ => ⟨_, rfl, hreaches⟩⟩

theorem steady_publishRows [DecidableEq δ] {host : Host δ ρ Ω} {fromInput : CoroutineError → ε}
    {rows : PendingRows δ} {consumed : ℕ} (h : Steady (.rows rows 0) m) :
    Spec (publishRows host fromInput rows consumed : Step γ δ χ ρ ε Ω (Progress δ))
      Working (fun _ m' => Settled m'.log) m := by
  unfold publishRows
  rw [spec_bind, spec_get, spec_ite]
  refine ⟨fun _ => h.settled, fun _ => ?_⟩
  rw [spec_bind]
  refine (steady_begin h).mono (fun _ m' hm' => ?_) (fun _ _ hm' => hm')
  rw [spec_bind, spec_get, spec_ite]
  exact ⟨fun _ => hm'.1.settled, fun _ => steady_deliverRows hm'.1⟩

theorem steady_publishUpdate {host : Host δ ρ Ω} {u : MetadataUpdate} {consumed : ℕ}
    (h : Steady (.update u) m) (hpending : m.decoder.pendingRows = none) :
    Spec (publishUpdate host u consumed : Step γ δ χ ρ ε Ω (Progress δ))
      Working (fun _ m' => Settled m'.log) m := by
  unfold publishUpdate
  have hnote : ∀ m' : Machine γ δ χ ρ Ω, Steady (.update u) m' → m'.decoder.pendingRows = none →
      Working ⟨consumed, .metadata u⟩ { m' with log := .update u :: m'.log } := by
    intro m' hm' hp
    refine ⟨?_, fun info he => by cases he⟩
    dsimp only
    rw [hp]
    refine ⟨fun horderly => (hm'.queue horderly.of_cons).told, fun hmem => ?_,
      fun info hinfo horderly => hm'.finishing info hinfo horderly.of_cons, hm'.working⟩
    exact hm'.unfinished ((List.mem_cons.mp hmem).resolve_left fun he => by cases he)
  rw [spec_bind, spec_get, spec_bind, spec_ite]
  refine ⟨fun _ => ?_, fun _ => hnote m h hpending⟩
  exact (steady_begin h).mono (fun _ m' hm' => hnote m' hm'.1 (hm'.2.trans hpending))
    (fun _ _ hm' => hm')

/-! ### The loop -/

/-- Between the actions of the loop. -/
structure Turning (owed : Owed δ) (m : Machine γ δ χ ρ Ω) : Prop where
  steady : Steady owed m
  pending : m.decoder.pendingRows = none

/-- The future returned, and one slot is free. -/
def Free (polled : Polled δ ε) (m : Machine γ δ χ ρ Ω) : Prop :=
  ∀ info, polled = .ready info → Orderly m.log →
    m.decoder.shared.rows = none ∨ m.decoder.shared.metadata = none

/-- The future returned, and nothing waits, or a boundary does. -/
def Drained (polled : Polled δ ε) (event : Pending δ) (m : Machine γ δ χ ρ Ω) : Prop :=
  ∀ info, polled = .ready info → Orderly m.log → (∀ b, event ≠ .boundary b) →
    m.decoder.shared.waiting = []

theorem turning_absorbInput {fromInput : CoroutineError → ε} {input : Input} {start : ℕ}
    (h : Turning owed m) :
    Spec (absorbInput fromInput input start : Step γ δ χ ρ ε Ω ℕ)
      (fun _ => Turning owed) (fun _ m' => Settled m'.log) m := by
  refine spec_absorbInput (fun e store need => h.steady.settled) (fun n store need => ?_)
  exact ⟨⟨h.steady.queue, h.steady.unfinished, fun info hinfo => (by cases hinfo),
    fun info hinfo => by cases hinfo⟩, h.pending⟩

theorem turning_pollFuture [DecidableEq δ] [DecidableEq χ] {co : Future γ δ χ ρ ε}
    (h : Turning owed m) :
    Spec (pollFuture co : Step γ δ χ ρ ε Ω (Polled δ ε))
      (fun polled m' => Turning owed m' ∧ Free polled m') (fun _ m' => Settled m'.log) m := by
  rcases hpoll : co.poll m.decoder.future m.decoder.shared with ⟨ops, polled, future⟩
  have hsilent : ∀ a ∈ polled.noted (δ := δ) (runOps ops m.decoder.shared).1, a.Silent := by
    intro a ha
    cases polled with
    | ready info =>
      rw [List.mem_singleton.mp ha]
      exact ⟨rfl, rfl, fun he => by cases he⟩
    | pending | failed | unwound => cases ha
  have hturning : Turning owed (⟨{ m.decoder with
      state := .failed, shared := (runOps ops m.decoder.shared).1, future := future }, m.world,
      polled.noted (runOps ops m.decoder.shared).1 ++ (runOps ops m.decoder.shared).2 ++
        .polled :: m.log⟩ : Machine γ δ χ ρ Ω) := by
    refine ⟨⟨fun horderly => ?_, ?_, fun info hinfo => (by cases hinfo),
      fun info hinfo => by cases hinfo⟩, h.pending⟩
    · dsimp only at horderly ⊢
      rw [List.append_assoc] at horderly ⊢
      have hrun : Queue (runOps ops m.decoder.shared).1 owed
          ((runOps ops m.decoder.shared).2 ++ .polled :: m.log) := by
        refine Queue.runOps ?_ ops fun a ha => horderly a (List.mem_append_right _
          (List.mem_append_left _ ha))
        exact h.steady.queue horderly.of_append.of_append.of_cons
      exact hrun.silent hsilent
    · dsimp only
      rw [List.append_assoc]
      refine done_silent hsilent fun hmem => ?_
      rcases List.mem_append.mp hmem with hmem | hmem
      · exact done_runOps ops _ hmem
      · exact h.steady.unfinished ((List.mem_cons.mp hmem).resolve_left fun he => by cases he)
  refine spec_pollFuture hpoll (fun _ => hturning.steady.settled) (fun _ => ⟨hturning, ?_⟩)
  intro info hready horderly
  subst hready
  -- what the end of the poll noted
  have hleft := horderly _ (List.mem_append_left _ (List.mem_append_left _ List.mem_cons_self))
  exact hleft.imp slots_rows.mp slots_update.mp

theorem turning_takeEvent {polled : Polled δ ε} (h : Turning .nothing m) (hfree : Free polled m) :
    Spec (takeEvent : Step γ δ χ ρ ε Ω (Pending δ))
      (fun event m' => Turning event.owed m' ∧ Drained polled event m')
      (fun _ m' => Settled m'.log) m := by
  have hidle : m.decoder.shared.rows = none → m.decoder.shared.metadata = none →
      m.decoder.shared.waiting = [] := by
    intro hrows hmetadata
    rw [Shared.waiting, hrows, hmetadata]
    rfl
  refine spec_takeEvent (fun _ => h.steady.settled)
    (fun b _ _ _ => ⟨h, fun info _ _ hb => absurd rfl (hb b)⟩) (fun r _ _ hr => ?_)
    (fun u _ _ hr hu => ?_) (fun _ _ hr hu => ?_)
  · refine ⟨⟨⟨fun horderly => (h.steady.queue horderly).takeRows hr, h.steady.unfinished,
      fun info hinfo horderly => ?_, h.steady.working⟩, h.pending⟩,
      fun info hready horderly _ => ?_⟩
    · have hnone := h.steady.finishing info hinfo horderly
      rw [Shared.waiting, hr] at hnone
      exact absurd (List.append_eq_nil_iff.mp hnone).2 (List.cons_ne_nil _ _)
    · have hmetadata : m.decoder.shared.metadata = none :=
        (hfree info hready horderly).resolve_left (by rw [hr]; exact Option.some_ne_none r)
      rw [Shared.waiting]
      dsimp only
      rw [hmetadata]
      rfl
  · have hnone : Shared.waiting { m.decoder.shared with metadata := none } = [] := by
      rw [Shared.waiting]
      dsimp only
      rw [hr]
      rfl
    exact ⟨⟨⟨fun horderly => (h.steady.queue horderly).takeUpdate hr hu, h.steady.unfinished,
      fun _ _ _ => hnone, h.steady.working⟩, h.pending⟩, fun _ _ _ _ => hnone⟩
  · exact ⟨⟨h, fun _ _ _ _ => hidle hr hu⟩, h, fun _ _ _ _ => hidle hr hu⟩

theorem turning_checkPolled {host : Host δ ρ Ω} {polled : Polled δ ε} {event : Pending δ}
    (h : Turning owed m) (hdrained : Drained polled event m) :
    Spec (checkPolled host polled : Step γ δ χ ρ ε Ω Unit)
      (fun _ m' => Turning owed m' ∧ Drained polled event m') (fun _ m' => Settled m'.log) m := by
  cases polled with
  | failed e => exact h.steady.settled
  | pending | ready | unwound =>
    show Spec (_ >>= _) _ _ _
    rw [spec_bind]
    refine spec_checkPulse fun r w => ?_
    cases r with
    | some reason => exact h.steady.settled
    | none =>
      exact ⟨⟨⟨h.steady.queue, h.steady.unfinished, fun info hinfo => (by cases hinfo),
        fun info hinfo => by cases hinfo⟩, h.pending⟩, hdrained⟩

/-- At work and owing what is left of rows, or at the end. -/
def Sure (p : Progress δ) (m : Machine γ δ χ ρ Ω) : Prop := Working p m ∨ Finished m

/-- What the decoder needs is of no concern. -/
theorem Turning.sure (h : Turning .nothing m) {p : Progress δ} (hp : ∀ info, p.event ≠ .done info)
    (need : List InputRequest) :
    Sure p { m with decoder := { m.decoder with need := need } } := by
  refine .inl ⟨?_, hp⟩
  dsimp only
  rw [h.pending]
  exact ⟨h.steady.queue, h.steady.unfinished, h.steady.finishing, h.steady.working⟩

variable [DecidableEq δ] [DecidableEq χ]

theorem sure_completePoll {host : Host δ ρ Ω} {fromInput : CoroutineError → ε}
    {info : OutputInfo δ} {consumed : ℕ} {event : Pending δ} (h : Turning event.owed m)
    (hdrained : Drained (.ready info : Polled δ ε) event m) :
    Spec (completePoll host fromInput info consumed event : Step γ δ χ ρ ε Ω (Progress δ))
      Sure (fun _ m' => Settled m'.log) m := by
  have hfinishing : (∀ b, event ≠ .boundary b) → Turning event.owed { m with
      decoder := { m.decoder with state := .finishing info, need := [] } } := by
    intro hb
    exact ⟨⟨h.steady.queue, h.steady.unfinished, fun _ _ horderly => hdrained info rfl horderly hb,
      fun info hinfo => by cases hinfo⟩, h.pending⟩
  cases event with
  | boundary b => exact h.steady.settled
  | rows r =>
    exact (steady_publishRows (hfinishing fun b hb => by cases hb).steady).mono
      (fun _ _ hm => .inl hm) (fun _ _ hm => hm)
  | metadata u =>
    exact (steady_publishUpdate (hfinishing fun b hb => by cases hb).steady h.pending).mono
      (fun _ _ hm => .inl hm) (fun _ _ hm => hm)
  | need | stalled =>
    exact (finished_finish h.steady fun horderly =>
      hdrained info rfl horderly fun b hb => by cases hb).mono
      (fun _ _ hm => .inr hm) (fun _ _ hm => hm)

theorem sure_drive {host : Host δ ρ Ω} {fromInput : CoroutineError → ε}
    {co : Future γ δ χ ρ ε} {input : Input} (turns consumed : ℕ) (h : Turning .nothing m) :
    Spec (drive host fromInput co input turns consumed : Step γ δ χ ρ ε Ω (Progress δ))
      Sure (fun _ m' => Settled m'.log) m := by
  induction turns generalizing consumed m with
  | zero => exact h.steady.settled
  | succ turns ih =>
    unfold drive
    rw [spec_bind]
    refine (turning_pollFuture h).mono (fun polled m₁ h₁ => ?_) (fun _ _ hm => hm)
    rw [spec_bind]
    refine (turning_takeEvent h₁.1 h₁.2).mono (fun event m₂ h₂ => ?_) (fun _ _ hm => hm)
    rw [spec_bind]
    refine (turning_checkPolled h₂.1 h₂.2).mono (fun _ m₃ h₃ => ?_) (fun _ _ hm => hm)
    obtain ⟨hturning, hdrained⟩ := h₃
    cases polled with
    | ready info => exact sure_completePoll hturning hdrained
    | pending | failed | unwound =>
      -- the future waits: what it left decides
      cases event with
      | boundary b =>
        exact hturning.sure (p := ⟨consumed, .suspended b⟩) (fun info he => by cases he) []
      | rows r =>
        exact (steady_publishRows hturning.steady).mono (fun _ _ hm => .inl hm) (fun _ _ hm => hm)
      | metadata u =>
        exact (steady_publishUpdate hturning.steady hturning.pending).mono (fun _ _ hm => .inl hm)
          (fun _ _ hm => hm)
      | need =>
        show Spec (_ >>= _) _ _ _
        rw [spec_bind]
        refine (turning_absorbInput hturning).mono (fun more m₄ h₄ => ?_) (fun _ _ hm => hm)
        rw [spec_ite]
        refine ⟨fun _ => ih more h₄, fun _ => ?_⟩
        exact h₄.sure (p := ⟨consumed, .need⟩) (fun info he => by cases he) m₄.decoder.shared.need
      | stalled => exact hturning.steady.settled

end Zencodec.Coroutine
