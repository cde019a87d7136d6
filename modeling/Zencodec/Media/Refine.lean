/-
Runs of a staging, and two stagings side by side.

`Moves q call answer q'` is staging as a queue of packets: what a call may answer and leave
when it finds the packets `q`. Every run of a staging moves this way (`step_moves`), in
memory and on disk. Two stagings that end the same calls alike therefore hand back the same
packets (`disk_refines_memory`).
-/
import Zencodec.Lib.Runs
import Zencodec.Media.Replay

open Zencodec.Incremental Zencodec.Storage

namespace Zencodec.Media

variable {Ω Ω' ε ε' : Type}

/-! ### Calls -/

inductive Call where
  | push (packet : Packet PacketPayload)
  | next
  | beginReplay
  deriving DecidableEq, Repr

/-- A call with its pulse. Before it the world moves on its own: other owners of the budget
reserve and release. -/
structure Op (Ω : Type) where
  call : Call
  pulse : Pulse Ω
  outside : Ω → Ω

inductive Answer (ε : Type) where
  | done (r : Except (Cause ε) Unit)
  | handed (r : Except (Cause ε) (Option (Packet PacketPayload)))

/-- The answer of a call, and how many packets are held after it. -/
structure Report (ε : Type) where
  answer : Answer ε
  held : ℕ

def Answer.isOk : Answer ε → Bool
  | .done (.ok _) => true
  | .handed (.ok _) => true
  | _ => false

/-- The contents of the packet that was handed back. -/
def Answer.packet : Answer ε → Option (Packet (List UInt8))
  | .handed (.ok r) => r.map Packet.contents
  | _ => none

/-- What a caller can tell of a call without looking at packets. -/
def Report.outcome (r : Report ε) : Bool × ℕ := (r.answer.isOk, r.held)

/-- The packets handed back in a run. -/
def handed (l : List (Report ε)) : List (Packet (List UInt8)) := l.filterMap (·.answer.packet)

def Call.pushed : Call → Option (Packet (List UInt8))
  | .push packet => some packet.contents
  | _ => none

/-- The packets given to `push` in a run. -/
def pushed (l : List Call) : List (Packet (List UInt8)) := l.filterMap Call.pushed

/-- Number of packets in the store. -/
def Staging.held (s : Staging Ω ε) : ℕ :=
  match s.store with
  | .memory _ packets => packets.length
  | .disk d => d.entries.length

def step (host : Host Ω) (t : Staging Ω ε × Ω) (op : Op Ω) : Report ε × (Staging Ω ε × Ω) :=
  let t := (t.1, op.outside t.2)
  match op.call with
  | .push packet =>
    let (r, t) := Staging.push host packet op.pulse t
    (⟨.done r, t.1.held⟩, t)
  | .next =>
    let (r, t) := Staging.next op.pulse t
    (⟨.handed r, t.1.held⟩, t)
  | .beginReplay =>
    let (r, t) := Staging.beginReplay op.pulse t
    (⟨.done r, t.1.held⟩, t)

/-! ### Staging as a queue -/

/-- What a call may answer and leave when it finds the packets `q`. -/
inductive Moves (q : List (Packet (List UInt8))) :
    Call → Answer ε → List (Packet (List UInt8)) → Prop where
  | staged (packet : Packet PacketPayload) (r : Except (Cause ε) Unit) :
    Moves q (.push packet) (.done r) (q ++ [packet.contents])
  | refused (packet : Packet PacketPayload) (e : Cause ε) :
    Moves q (.push packet) (.done (.error e)) q
  | handed (r : Option (Packet PacketPayload)) (h : r.map Packet.contents = q.head?) :
    Moves q .next (.handed (.ok r)) q.tail
  | kept (e : Cause ε) : Moves q .next (.handed (.error e)) q
  | lost (e : Cause ε) (h : q ≠ []) : Moves q .next (.handed (.error e)) q.tail
  | ready (r : Except (Cause ε) Unit) : Moves q .beginReplay (.done r) q

theorem Staging.Holds.held {s : Staging Ω ε} {q : List (Packet (List UInt8))} (h : s.Holds q) :
    s.held = q.length := by
  obtain ⟨store, staged⟩ := s
  cases store with
  | memory budget packets =>
    obtain rfl : packets.map Packet.contents = q := h
    exact (List.length_map _).symm
  | disk d => exact (show d.Holds staged q from h).entries.length_eq

/-- Every call moves the packets as a queue. -/
theorem step_moves (host : Host Ω) {t : Staging Ω ε × Ω} {q : List (Packet (List UInt8))}
    (h : t.1.Holds q) (op : Op Ω) :
    ∃ q', (step host t op).2.1.Holds q' ∧ Moves q op.call (step host t op).1.answer q' ∧
      (step host t op).1.held = q'.length := by
  obtain ⟨s, w⟩ := t
  obtain ⟨call, pulse, outside⟩ := op
  cases call with
  | push packet =>
    obtain ⟨hok, herr⟩ := (Staging.spec_push (w := outside w) h host packet pulse).run
    show ∃ q', (Staging.push host packet pulse (s, outside w)).2.1.Holds q' ∧
      Moves q (.push packet) (.done (Staging.push host packet pulse (s, outside w)).1) q' ∧
      (Staging.push host packet pulse (s, outside w)).2.1.held = q'.length
    cases hr : (Staging.push host packet pulse (s, outside w)).1 with
    | ok u =>
      have hq := hok u hr
      exact ⟨_, hq, .staged packet _, hq.held⟩
    | error e =>
      rcases (herr e hr).1 with hq | hq
      · exact ⟨_, hq, .refused packet e, hq.held⟩
      · exact ⟨_, hq, .staged packet _, hq.held⟩
  | next =>
    obtain ⟨hok, herr⟩ := (Staging.spec_next (w := outside w) h pulse).run
    show ∃ q', (Staging.next pulse (s, outside w)).2.1.Holds q' ∧
      Moves q .next (.handed (Staging.next pulse (s, outside w)).1) q' ∧
      (Staging.next pulse (s, outside w)).2.1.held = q'.length
    cases hr : (Staging.next pulse (s, outside w)).1 with
    | ok r =>
      obtain ⟨hq, hhead⟩ := hok r hr
      exact ⟨_, hq, .handed r hhead, hq.held⟩
    | error e =>
      rcases herr e hr with hq | ⟨hq, hne⟩
      · exact ⟨_, hq, .kept e, hq.held⟩
      · exact ⟨_, hq, .lost e hne, hq.held⟩
  | beginReplay =>
    obtain ⟨hok, herr⟩ := (Staging.spec_beginReplay (w := outside w) h pulse).run
    show ∃ q', (Staging.beginReplay pulse (s, outside w)).2.1.Holds q' ∧
      Moves q .beginReplay (.done (Staging.beginReplay pulse (s, outside w)).1) q' ∧
      (Staging.beginReplay pulse (s, outside w)).2.1.held = q'.length
    have hq : (Staging.beginReplay pulse (s, outside w)).2.1.Holds q := by
      cases hr : (Staging.beginReplay pulse (s, outside w)).1 with
      | ok u => exact hok u hr
      | error e => exact herr e hr
    exact ⟨q, hq, .ready _, hq.held⟩

/-- A call hands back the oldest packet or none, and adds the pushed one or none. -/
theorem Moves.sublist {q q' : List (Packet (List UInt8))} {call : Call} {answer : Answer ε}
    (h : Moves q call answer q') :
    (answer.packet.toList ++ q').Sublist (q ++ call.pushed.toList) := by
  cases h with
  | staged packet r => cases r <;> exact List.Sublist.refl _
  | refused packet e => exact List.sublist_append_left _ _
  | handed r h =>
    show ((r.map Packet.contents).toList ++ q.tail).Sublist (q ++ [])
    rw [h, List.append_nil]
    cases q <;> exact List.Sublist.refl _
  | kept e => exact List.sublist_append_left _ _
  | lost e h =>
    rw [show (Call.next.pushed).toList = ([] : List (Packet (List UInt8))) from rfl, List.append_nil]
    exact List.tail_sublist q
  | ready r => cases r <;> exact List.sublist_append_left _ _

/-- Two queues that end a call alike and hold as many packets after it hold the same ones,
and handed back the same. -/
theorem Moves.eq {q q₁ q₂ : List (Packet (List UInt8))} {call : Call} {a₁ : Answer ε}
    {a₂ : Answer ε'} (h₁ : Moves q call a₁ q₁) (h₂ : Moves q call a₂ q₂)
    (hok : a₁.isOk = a₂.isOk) (hlen : q₁.length = q₂.length) :
    q₁ = q₂ ∧ a₁.packet = a₂.packet := by
  have hgrown : ∀ {p : Packet (List UInt8)}, q.length ≠ (q ++ [p]).length := by simp
  have hshrunk : q ≠ [] → q.length ≠ q.tail.length := by
    intro hne
    have := List.length_pos_of_ne_nil hne
    rw [List.length_tail]
    omega
  cases h₁ with
  | staged packet r =>
    cases h₂ with
    | staged packet r' => cases r <;> cases r' <;> exact ⟨rfl, rfl⟩
    | refused packet e => exact absurd hlen.symm hgrown
  | refused packet e =>
    cases h₂ with
    | staged packet r' => exact absurd hlen hgrown
    | refused packet e' => exact ⟨rfl, rfl⟩
  | handed r h =>
    cases h₂ with
    | handed r' h' => exact ⟨rfl, h.trans h'.symm⟩
    | kept e => cases hok
    | lost e hne => cases hok
  | kept e =>
    cases h₂ with
    | handed r' h' => cases hok
    | kept e' => exact ⟨rfl, rfl⟩
    | lost e' hne => exact absurd hlen (hshrunk hne)
  | lost e hne =>
    cases h₂ with
    | handed r' h' => cases hok
    | kept e' => exact absurd hlen.symm (hshrunk hne)
    | lost e' hne' => exact ⟨rfl, rfl⟩
  | ready r =>
    cases h₂ with
    | ready r' => cases r <;> cases r' <;> exact ⟨rfl, rfl⟩

/-! ### Runs -/

/-- What a run hands back is, in order, part of what was there and what was pushed. -/
theorem run_handed (host : Host Ω) {t : Staging Ω ε × Ω} {q : List (Packet (List UInt8))}
    (h : t.1.Holds q) (ops : List (Op Ω)) :
    (handed (Runs.outputs (step host) t ops)).Sublist (q ++ pushed (ops.map Op.call)) := by
  induction ops generalizing t q with
  | nil => exact List.nil_sublist _
  | cons op ops ih =>
    obtain ⟨q', hq', hmoves, _⟩ := step_moves host h op
    have hrest := ih hq'
    have hhanded : handed (Runs.outputs (step host) t (op :: ops))
        = (step host t op).1.answer.packet.toList
          ++ handed (Runs.outputs (step host) (step host t op).2 ops) := by
      cases hp : (step host t op).1.answer.packet <;>
        simp [handed, hp]
    have hpushed : pushed ((op :: ops).map Op.call)
        = op.call.pushed.toList ++ pushed (ops.map Op.call) := by
      cases hp : op.call.pushed <;> simp [pushed, hp]
    rw [hhanded, hpushed, ← List.append_assoc]
    refine ((List.Sublist.refl _).append hrest).trans ?_
    rw [← List.append_assoc]
    exact hmoves.sublist.append (List.Sublist.refl _)

/-- The packets of a staging are a queue in every state of a run. -/
theorem run_holds (host : Host Ω) {t : Staging Ω ε × Ω} {q : List (Packet (List UInt8))}
    (h : t.1.Holds q) (ops : List (Op Ω)) : ∃ q', (Runs.final (step host) t ops).1.Holds q' := by
  have hstep : Runs.Preserved (step host) (fun _ => True)
      (fun t : Staging Ω ε × Ω => ∃ q, t.1.Holds q) := by
    intro t op _ hq
    obtain ⟨q, hq⟩ := hq
    obtain ⟨q', hq', _⟩ := step_moves host hq op
    exact ⟨q', hq'⟩
  exact Runs.final_of_preserved hstep (fun _ _ => trivial) ⟨q, h⟩

/-- Two runs of the same calls that end them alike hand back the same packets. -/
theorem runs_handed_eq (host : Host Ω) (host' : Host Ω') {t : Staging Ω ε × Ω}
    {t' : Staging Ω' ε' × Ω'} {q : List (Packet (List UInt8))} (h : t.1.Holds q)
    (h' : t'.1.Holds q) {ops : List (Op Ω)} {ops' : List (Op Ω')}
    (hcalls : ops.map Op.call = ops'.map Op.call)
    (hout : (Runs.outputs (step host) t ops).map Report.outcome
      = (Runs.outputs (step host') t' ops').map Report.outcome) :
    handed (Runs.outputs (step host) t ops) = handed (Runs.outputs (step host') t' ops') := by
  induction ops generalizing t t' q ops' with
  | nil =>
    obtain rfl : ops' = [] := List.map_eq_nil_iff.mp hcalls.symm
    rfl
  | cons op ops ih =>
    cases ops' with
    | nil => cases hcalls
    | cons op' ops' =>
      obtain ⟨hcall, hcalls⟩ := List.cons.inj hcalls
      obtain ⟨hhead, htail⟩ := List.cons.inj hout
      obtain ⟨q₁, hq₁, hm₁, hl₁⟩ := step_moves host h op
      obtain ⟨q₂, hq₂, hm₂, hl₂⟩ := step_moves host' h' op'
      rw [show op'.call = op.call from hcall.symm] at hm₂
      obtain ⟨hok, hheld⟩ := Prod.mk.inj hhead
      obtain ⟨rfl, hpacket⟩ := hm₁.eq hm₂ hok (by rw [← hl₁, ← hl₂]; exact hheld)
      have hrest := ih hq₁ hq₂ hcalls htail
      simp only [handed, Runs.outputs_cons, List.filterMap_cons] at hrest ⊢
      rw [hpacket, hrest]

/-! ### Refused pushes -/

/-- Counters of objects and bytes, with `k` objects of `n` bytes more. -/
def gain (c : ℕ × ℕ) (k n : ℕ) : ℕ × ℕ := (c.1 + k, c.2 + n)

/-- With `k` objects of `n` bytes less. -/
def giveBack (c : ℕ × ℕ) (k n : ℕ) : ℕ × ℕ := (c.1 - k, c.2 - n)

/-- `counters` are the objects and bytes that the budget has reserved. -/
structure StorageBudget.Counts (budget : StorageBudget Ω) (counters : Ω → ℕ × ℕ) : Prop where
  admitted : ∀ n w, (budget.bytes n w).1 = .ok () →
    counters (budget.bytes n w).2 = gain (counters w) 1 n
  refused : ∀ n w e, (budget.bytes n w).1 = .error e → counters (budget.bytes n w).2 = counters w
  released : ∀ n w, counters (budget.release n w) = giveBack (counters w) 1 n

/-- The budget that a staging admits from. -/
def Staging.budget (s : Staging Ω ε) : StorageBudget Ω :=
  match s.store with
  | .memory budget _ => budget
  | .disk d => d.replay

/-- A push that a limit refuses leaves the staging as it is, and the counters of its budget
unless the pulse or the allocator move them. -/
def RefusalKeeps (host : Host Ω) (s : Staging Ω ε) : Prop :=
  ∀ packet pulse w e t, Staging.push host packet pulse (s, w) = (.error e, t) →
    e.isLimit = true → t.1 = s ∧
      ∀ counters, s.budget.Counts counters → (∀ w, counters (host.tryReserve w).2 = counters w) →
        (∀ w, counters (pulse.check w).2 = counters w) → counters t.2 = counters w

/-- Dropping the copies of a failed `accounted` gives back what they had taken. -/
theorem releases_counters {budget : StorageBudget Ω} {counters : Ω → ℕ × ℕ}
    (hb : budget.Counts counters) (charges : List ℕ) (w : Ω) :
    counters (charges.foldl (fun w c => budget.release c w) w)
      = giveBack (counters w) charges.length charges.sum := by
  induction charges generalizing w with
  | nil => rfl
  | cons c charges ih =>
    rw [List.foldl_cons, ih, hb.released, List.length_cons, List.sum_cons]
    simp only [giveBack, Prod.mk.injEq]
    omega

theorem spec_accounted_counters {budget : StorageBudget Ω} {counters : Ω → ℕ × ℕ}
    (hb : budget.Counts counters) (p : Packet PacketPayload) {w : Ω} :
    Act.Spec (p.accounted (ε := ε) budget) (fun _ _ => True)
      (fun _ w' => counters w' = counters w) w := by
  simp only [Packet.accounted, Act.spec_bind, Act.spec_withLocal, Act.spec_onError, Act.spec_pure]
  -- the charges at hand are what the counters have gained
  let I : List PacketPayload → List PacketPayload → List ℕ × Ω → Prop := fun _ _ t =>
    counters t.2 = gain (counters w) t.1.length t.1.sum
  have hmap := Packet.spec_mapPayloads (f := accountedCopy (ε := ε) budget)
    (E := fun _ t => counters t.2 = gain (counters w) t.1.length t.1.sum) I
    (by
      intro a todo done t ht
      simp only [accountedCopy, Act.spec_bind, spec_onWorld, Act.spec_mapError, Act.spec_modify,
        Act.spec_pure]
      refine Act.spec_of_run (fun u hu => ?_) (fun e he => ?_)
      · show counters (budget.bytes a.len t.2).2
          = gain (counters w) (t.1 ++ [a.len]).length (t.1 ++ [a.len]).sum
        rw [hb.admitted _ _ hu, show counters t.2 = _ from ht]
        simp only [gain, List.length_append, List.length_singleton, List.sum_append,
          List.sum_singleton, Prod.mk.injEq]
        omega
      · rw [hb.refused _ _ e he]
        exact ht)
    (p := p) (s := (([] : List ℕ), w)) rfl
  refine hmap.mono (fun _ _ _ => trivial) (fun e t ht => ?_)
  show counters (t.1.foldl (fun w c => budget.release c w) t.2) = counters w
  rw [releases_counters hb, ht]
  simp [gain, giveBack]

theorem spec_push_counters {s : Staging Ω ε} {w : Ω} {q : List (Packet (List UInt8))}
    (h : s.Holds q) {host : Host Ω} (packet : Packet PacketPayload) {pulse : Pulse Ω}
    {counters : Ω → ℕ × ℕ} (hb : s.budget.Counts counters)
    (hhost : ∀ w, counters (host.tryReserve w).2 = counters w)
    (hpulse : ∀ w, counters (pulse.check w).2 = counters w) :
    Act.Spec (Staging.push host packet pulse) (fun _ _ => True)
      (fun e t => e.isLimit = true → counters t.2 = counters w) (s, w) := by
  obtain ⟨store, staged⟩ := s
  have hcheck : Act.Spec (check pulse : Act Ω (Cause ε) Unit)
      (fun _ w' => counters w' = counters w) (fun e _ => e.isLimit = false) w := by
    unfold check
    rw [Act.spec_mapError]
    exact Act.spec_of_run (fun _ _ => hpulse w) (fun _ _ => rfl)
  -- what ends after the staging has changed is no limit
  have hend : ∀ w', Act.Spec (check pulse : Act Ω (Cause ε) Unit) (fun _ _ => True)
      (fun e w'' => e.isLimit = true → counters w'' = counters w) w' := fun w' =>
    spec_check (fun _ => trivial) (fun e _ he => by cases he)
  cases store with
  | memory budget packets =>
    simp only [Staging.push, Act.spec_bind, Act.spec_get, Act.spec_getOr, Act.spec_modify,
      spec_onWorld]
    refine hcheck.mono (fun _ w₁ h₁ => ⟨fun bytes _ => ⟨fun total _ => ?_, fun _ _ => h₁⟩,
      fun _ _ => h₁⟩) (fun e _ he hlim => by rw [he] at hlim; cases hlim)
    refine Host.spec_reserve ?_ (fun he => by cases he)
    have h₂ : counters (host.tryReserve w₁).2 = counters w := (hhost w₁).trans h₁
    refine (spec_accounted_counters (show budget.Counts counters from hb) packet).mono
      (fun _ w₃ _ => hend w₃) (fun e w₃ h₃ _ => h₃.trans h₂)
  | disk d =>
    simp only [Staging.push, Act.spec_bind, Act.spec_get, Act.spec_getOr, Act.spec_modify,
      spec_onWorld, onDisk, Act.spec_focus]
    refine hcheck.mono (fun _ w₁ h₁ => ⟨fun bytes hbytes => ⟨fun total htotal => ?_, fun _ _ => h₁⟩,
      fun _ _ => h₁⟩) (fun e _ he hlim => by rw [he] at hlim; cases hlim)
    refine (Disk.spec_push (show d.Holds staged q from h) host (Packet.stagedLen_eq hbytes)
      (checkedAdd_eq htotal) pulse).mono (fun _ t _ => hend t.2) (fun e t ht hlim => ?_)
    rw [ht.2 hlim]
    exact h₁

theorem Staging.Holds.refusalKeeps {s : Staging Ω ε} {q : List (Packet (List UInt8))}
    (h : s.Holds q) (host : Host Ω) : RefusalKeeps host s := by
  intro packet pulse w e t hrun hlim
  have herr : (Staging.push host packet pulse (s, w)).1 = .error e := by rw [hrun]
  have hend : (Staging.push host packet pulse (s, w)).2 = t := by rw [hrun]
  refine ⟨?_, fun counters hb hhost hpulse => ?_⟩
  · have := (Staging.spec_push (w := w) h host packet pulse).run.2 e herr
    rw [hend] at this
    exact this.2 hlim
  · have := (spec_push_counters (w := w) h packet hb hhost hpulse).run.2 e herr hlim
    rwa [hend] at this

/-! ### The two stores -/

/-- **Disk staging refines memory staging.** A staging in memory and one on disk get the same
calls, each in its own world. In both runs, whatever fails, the packets handed back are in
order among those pushed, and in the state reached a push that a limit refuses changes
nothing. If every call ends alike in both, with a value or an error and with as many packets
held after it, then both hand back the same packets: metadata, additions and payload bytes. -/
theorem disk_refines_memory (host : Host Ω) (budget : StorageBudget Ω) (w : Ω)
    (ops : List (Op Ω)) (host' : Host Ω') (file : File Ω' ε') (limits : DiskLimits)
    (replay : StorageBudget Ω') (w₀ w' : Ω') (s' : Staging Ω' ε') (ops' : List (Op Ω'))
    (hdisk : Staging.disk file limits replay w₀ = (.ok s', w'))
    (hcalls : ops.map Op.call = ops'.map Op.call) :
    let s : Staging Ω ε := Staging.memory budget
    let memory := Runs.outputs (step host) (s, w) ops
    let disk := Runs.outputs (step host') (s', w') ops'
    (memory.map Report.outcome = disk.map Report.outcome → handed memory = handed disk) ∧
    (handed memory).Sublist (pushed (ops.map Op.call)) ∧
    (handed disk).Sublist (pushed (ops.map Op.call)) ∧
    RefusalKeeps host (Runs.final (step host) (s, w) ops).1 ∧
    RefusalKeeps host' (Runs.final (step host') (s', w') ops').1 := by
  intro s memory disk
  have hs : s.Holds [] := Staging.memory_holds budget
  have hs' : s'.Holds [] := Staging.disk_holds hdisk
  refine ⟨fun hout => runs_handed_eq host host' (t := (s, w)) hs
      (show (s', w').1.Holds [] from hs') hcalls hout,
    run_handed host (t := (s, w)) hs ops, ?_, ?_, ?_⟩
  · have hrun := run_handed host' (t := (s', w')) hs' ops'
    rw [← hcalls] at hrun
    exact hrun
  · obtain ⟨q, hq⟩ := run_holds host (t := (s, w)) hs ops
    exact hq.refusalKeeps host
  · obtain ⟨q, hq⟩ := run_holds host' (t := (s', w')) hs' ops'
    exact hq.refusalKeeps host'

/-! ### A lost packet

A world that is only the two counters of a budget. -/

/-- A `StorageBudget` that nobody else uses, over its counters of objects and bytes. -/
def StorageBudget.sequential (limits : Limits) : StorageBudget (ℕ × ℕ) where
  maxBytes := limits.maxBytes
  reservedBytes := fun c => c.2
  bytes := fun n c =>
    if 2 ^ (limits.bits - 1) - 1 < n then (.error .sizeOverflow, c)
    else if limits.maxObjects < c.1 + 1 then (.error (.objects limits.maxObjects), c)
    else if limits.maxBytes < c.2 + n then (.error (.bytes n limits.maxBytes), c)
    else (.ok (), gain c 1 n)
  release := fun n c => giveBack c 1 n

theorem StorageBudget.sequential_counts (limits : Limits) :
    (StorageBudget.sequential limits).Counts id where
  admitted := by
    intro n c h
    unfold StorageBudget.sequential at h ⊢
    simp only at h ⊢
    split_ifs at h ⊢
    rfl
  refused := by
    intro n c e h
    unfold StorageBudget.sequential at h ⊢
    simp only at h ⊢
    split_ifs at h ⊢ <;> rfl
  released := fun _ _ => rfl

def calmHost : Host (ℕ × ℕ) := ⟨2 ^ 64 - 1, fun w => (true, w)⟩

def calmPulse : Pulse (ℕ × ℕ) := ⟨fun w => (.ok (), w)⟩

/-- A device that never fails. -/
def calmDevice : Device (ℕ × ℕ) Unit where
  seek := fun _ w => (.ok (), w)
  write := fun _ w => (none, w)
  read := fun _ w => (none, w)
  flush := fun w => (.ok (), w)
  unexpectedEof := ()

/-- A budget of `n` bytes and two objects. -/
def smallBudget (n : Fin 16) : StorageBudget (ℕ × ℕ) :=
  .sequential ⟨64, n, 2, lt_of_lt_of_le n.isLt (by decide), by decide⟩

/-- A scratch file with six bytes, at its end. -/
def scratchFile : File (ℕ × ℕ) Unit := ⟨calmDevice, [112, 114, 101, 102, 105, 120], 6⟩

/-- A packet of five bytes, then one of a single byte, then two requests. -/
def twoPackets : List (Op (ℕ × ℕ)) :=
  [.push ⟨some (.owned [1, 2, 3, 4, 5]), 0, none, none, none, .yes, 0, some 0, none, none, []⟩,
    .push ⟨some (.owned [6]), 0, none, none, none, .no, 0, some 1, none, none, []⟩,
    .next, .next].map fun call => ⟨call, calmPulse, id⟩

/-- The disk store whose entries are replayed under an allowance of `n` bytes. -/
def smallDisk (n : Fin 16) : Staging (ℕ × ℕ) Unit :=
  ⟨.disk ⟨scratchFile, ⟨100, 100, 100⟩, smallBudget n, 6, []⟩, 0⟩

theorem smallDisk_eq (n : Fin 16) :
    Staging.disk scratchFile ⟨100, 100, 100⟩ (smallBudget n) (0, 0)
      = (.ok (smallDisk n), (0, 0)) := rfl

/-- With a replay allowance of four bytes every push is accepted, but `next` takes the first
entry and then cannot admit its five bytes: the packet is lost, and the request after it
hands back the second packet. Memory hands back both. -/
theorem disk_next_loses_packet :
    let memory := Runs.outputs (step calmHost)
      ((Staging.memory (smallBudget 10) : Staging (ℕ × ℕ) Unit), (0, 0)) twoPackets
    let disk := Runs.outputs (step calmHost) (smallDisk 4, (0, 0)) twoPackets
    memory.map Report.outcome = [(true, 1), (true, 2), (true, 1), (true, 0)] ∧
    disk.map Report.outcome = [(true, 1), (true, 2), (false, 1), (true, 0)] ∧
    handed memory = pushed (twoPackets.map Op.call) ∧
    handed disk = (pushed (twoPackets.map Op.call)).tail ∧
    handed memory ≠ handed disk := by
  decide +kernel

theorem disk_refines_memory_twoPackets :
    handed (Runs.outputs (step calmHost)
        ((Staging.memory (smallBudget 10) : Staging (ℕ × ℕ) Unit), (0, 0)) twoPackets)
      = handed (Runs.outputs (step calmHost) (smallDisk 10, (0, 0)) twoPackets) :=
  (disk_refines_memory calmHost (smallBudget 10) (0, 0) twoPackets calmHost scratchFile
    ⟨100, 100, 100⟩ (smallBudget 10) (0, 0) (0, 0) (smallDisk 10) twoPackets (smallDisk_eq 10)
    rfl).1 (by decide +kernel)

end Zencodec.Media
