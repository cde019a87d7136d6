/-
What reaches the muxer and the destination.

Every operation of an output only adds to the trace. `Delivers calls added` says that the
muxer got exactly `calls`, that no packet was emitted meanwhile, and that the destination
took all the bytes that the muxer handed out, in order. `spec_publishRun` states it for the
whole publication.
-/
import Zencodec.Media.Replay
import Zencodec.Media.Staged

open Zencodec.Incremental Zencodec.Session

namespace Zencodec.Media

variable {Ω σ ε δ α : Type}

/-! ### Traces -/

/-- A call that takes something into the muxer. -/
inductive MuxCall where
  | packet (p : Packet (List UInt8))
  | finish
  deriving DecidableEq, Repr

def Event.mux : Event → Option MuxCall
  | .muxed p => some (.packet p)
  | .muxFinished _ => some .finish
  | _ => none

/-- The packet that the encoder emitted. -/
def Event.source : Event → Option (Packet (List UInt8))
  | .emitted p => some p
  | _ => none

/-- Bytes that the muxer handed out. -/
def Event.handedOut : Event → List UInt8
  | .pending bytes => bytes
  | .muxFinished tail => tail
  | _ => []

/-- Bytes that the destination took. -/
def Event.taken : Event → List UInt8
  | .write bytes n => bytes.take n
  | _ => []

/-- Calls on the destination only. -/
def Quiet (added : List Event) : Prop :=
  ∀ e ∈ added, e.mux = none ∧ e.source = none ∧ e.handedOut = []

/-- The muxer got `calls`, and the destination took what the muxer handed out. -/
def Delivers (calls : List MuxCall) (added : List Event) : Prop :=
  added.filterMap Event.mux = calls ∧ added.filterMap Event.source = [] ∧
    added.flatMap Event.taken = added.flatMap Event.handedOut

theorem Quiet.nil : Quiet [] := fun _ he => by cases he

theorem Quiet.append {l m : List Event} (hl : Quiet l) (hm : Quiet m) : Quiet (l ++ m) := by
  intro e he
  rcases List.mem_append.mp he with he | he
  · exact hl e he
  · exact hm e he

theorem Quiet.singleton {e : Event} (hmux : e.mux = none) (hsource : e.source = none)
    (hout : e.handedOut = []) : Quiet [e] := by
  intro e' he
  obtain rfl := List.mem_singleton.mp he
  exact ⟨hmux, hsource, hout⟩

theorem Quiet.filterMap_mux {l : List Event} (h : Quiet l) : l.filterMap Event.mux = [] :=
  List.filterMap_eq_nil_iff.mpr fun e he => (h e he).1

theorem Quiet.filterMap_source {l : List Event} (h : Quiet l) : l.filterMap Event.source = [] :=
  List.filterMap_eq_nil_iff.mpr fun e he => (h e he).2.1

theorem Quiet.flatMap_handedOut {l : List Event} (h : Quiet l) :
    l.flatMap Event.handedOut = [] :=
  List.flatMap_eq_nil_iff.mpr fun e he => (h e he).2.2

theorem Delivers.append {calls calls' : List MuxCall} {l m : List Event} (hl : Delivers calls l)
    (hm : Delivers calls' m) : Delivers (calls ++ calls') (l ++ m) := by
  obtain ⟨h₁, h₂, h₃⟩ := hl
  obtain ⟨h₁', h₂', h₃'⟩ := hm
  refine ⟨?_, ?_, ?_⟩
  · rw [List.filterMap_append, h₁, h₁']
  · rw [List.filterMap_append, h₂, h₂']
    rfl
  · rw [List.flatMap_append, List.flatMap_append, h₃, h₃']

theorem Delivers.nil : Delivers [] [] := ⟨rfl, rfl, rfl⟩

/-! ### Foreign calls -/

/-- A computation that nothing is known of. -/
theorem spec_any {x : Act σ ε α} {Q : α → σ → Prop} {E : ε → σ → Prop} {s : σ}
    (hQ : ∀ a t, Q a t) (hE : ∀ e t, E e t) : Act.Spec x Q E s :=
  Act.spec_of_run (fun _ _ => hQ _ _) (fun _ _ => hE _ _)

@[simp] theorem spec_untraced (x : Act Ω ε α) {Q : α → Traced Ω → Prop} {E : ε → Traced Ω → Prop}
    {t : Traced Ω} : Act.Spec (untraced x) Q E t ↔
      Act.Spec x (fun a w => Q a (w, t.2)) (fun e w => E e (w, t.2)) t.1 :=
  Act.spec_focus _ _ _

theorem spec_traced {event : Except ε α → Event} {x : Act Ω ε α} {Q : α → Traced Ω → Prop}
    {E : ε → Traced Ω → Prop} {t : Traced Ω} (hQ : ∀ a w, Q a (w, t.2 ++ [event (.ok a)]))
    (hE : ∀ e w, E e (w, t.2 ++ [event (.error e)])) : Act.Spec (traced event x) Q E t := by
  refine Act.spec_of_run (fun a ha => ?_) (fun e he => ?_)
  · have hx : (x t.1).1 = .ok a := ha
    have := hQ a (x t.1).2
    rw [← hx] at this
    exact this
  · have hx : (x t.1).1 = .error e := he
    have := hE e (x t.1).2
    rw [← hx] at this
    exact this

@[simp] theorem spec_failing {stage : OutputStage}
    {x : Act (Output Ω ε × Traced Ω) (OutputCause ε) α} {Q : α → Output Ω ε × Traced Ω → Prop}
    {E : OutputFailure ε → Output Ω ε × Traced Ω → Prop} {t : Output Ω ε × Traced Ω} :
    Act.Spec (Output.failing stage x) Q E t ↔
      Act.Spec x Q (fun cause t => E ⟨stage, t.1.stats.emitted, cause⟩ t) t := by
  unfold Act.Spec Output.failing
  obtain ⟨r, u⟩ := x t
  cases r <;> exact Iff.rfl

/-! ### Output -/

theorem adds_stopped (pulse : Pulse Ω) {Q : Unit → Traced Ω → Prop} {t : Traced Ω}
    (hQ : ∀ w, Q () (w, t.2)) :
    Act.Spec (stopped (ε := ε) pulse) Q (fun _ _ => True) t := by
  simp only [stopped, spec_untraced, Act.spec_mapError]
  exact spec_any (fun _ w => hQ w) (fun _ _ => trivial)

/-- A write that succeeds hands all the bytes to the destination. -/
theorem adds_writeAll (destination : Destination Ω ε) (pulse : Pulse Ω) (fuel : ℕ)
    (bytes : List UInt8) (t : ℕ × Traced Ω) :
    Act.Spec (writeAll destination pulse fuel bytes)
      (fun _ u => ∃ added, u.2.2 = t.2.2 ++ added ∧ Quiet added ∧
        added.flatMap Event.taken = bytes) (fun _ _ => True) t := by
  induction fuel generalizing bytes t with
  | zero => exact trivial
  | succ fuel ih =>
    unfold writeAll
    rw [Act.spec_ite]
    constructor
    · rintro rfl
      rw [spec_onWorld]
      exact adds_stopped pulse fun w => ⟨[], (List.append_nil _).symm, Quiet.nil, rfl⟩
    · intro _
      simp only [Act.spec_bind, spec_onWorld, Act.spec_attempt]
      refine adds_stopped pulse fun w => ?_
      -- one write, and then the rest of the bytes
      refine spec_traced (fun n w => ?_) (fun e w => ?_)
      · cases n with
        | zero => exact trivial
        | succ n =>
          simp only [Act.spec_ite, Act.spec_bind, Act.spec_get, Act.spec_getOr, Act.spec_modify]
          refine ⟨fun hle => ⟨fun count _ => ?_, fun _ => trivial⟩, fun _ => trivial⟩
          refine (ih (bytes.drop (n + 1)) _).mono (fun _ u hu => ?_) (fun _ _ _ => trivial)
          obtain ⟨added, htrace, hquiet, htaken⟩ := hu
          refine ⟨.write bytes (n + 1) :: added, ?_, ?_, ?_⟩
          · rw [htrace]
            simp [Except.toOption]
          · intro e he
            rcases List.mem_cons.mp he with rfl | he
            · exact ⟨rfl, rfl, rfl⟩
            · exact hquiet e he
          · rw [List.flatMap_cons, htaken]
            exact List.take_append_drop _ _
      · simp only [Act.spec_ite]
        refine ⟨fun _ => ?_, fun _ => trivial⟩
        refine (ih bytes _).mono (fun _ u hu => ?_) (fun _ _ _ => trivial)
        obtain ⟨added, htrace, hquiet, htaken⟩ := hu
        refine ⟨.write bytes 0 :: added, ?_, ?_, ?_⟩
        · rw [htrace]
          simp [Except.toOption]
        · intro e' he
          rcases List.mem_cons.mp he with rfl | he
          · exact ⟨rfl, rfl, rfl⟩
          · exact hquiet e' he
        · rw [List.flatMap_cons, htaken]
          rfl

theorem adds_append (destination : Destination Ω ε) (pulse : Pulse Ω) (fuel : ℕ)
    (bytes : List UInt8) (t : Output Ω ε × Traced Ω) :
    Act.Spec (Output.append destination pulse fuel bytes)
      (fun _ u => ∃ added, u.2.2 = t.2.2 ++ added ∧ Quiet added ∧
        added.flatMap Event.taken = bytes) (fun _ _ => True) t := by
  simp only [Output.append, Act.spec_focus]
  exact (adds_writeAll destination pulse fuel bytes _).mono (fun _ _ h => h) (fun _ _ _ => trivial)

/-- A drain hands what is pending to the destination. -/
theorem delivers_drain (mux : Muxer Ω ε) (pulse : Pulse Ω) (fuel : ℕ)
    (t : Output Ω ε × Traced Ω) :
    Act.Spec (Output.drain mux pulse fuel)
      (fun _ u => ∃ added, u.2.2 = t.2.2 ++ added ∧ Delivers [] added) (fun _ _ => True) t := by
  obtain ⟨o, w, trace⟩ := t
  simp only [Output.drain, Output.sawPending, Act.spec_bind, Act.spec_get, Act.spec_modify]
  refine (adds_append _ _ _ _ _).mono (fun _ u hu => ?_) (fun _ _ _ => trivial)
  obtain ⟨added, htrace, hquiet, htaken⟩ := hu
  refine ⟨.pending (mux.pendingOutput w) :: added, ?_, ?_, ?_, ?_⟩
  · rw [htrace]
    simp
  · exact hquiet.filterMap_mux
  · exact hquiet.filterMap_source
  · rw [List.flatMap_cons, List.flatMap_cons, htaken, hquiet.flatMap_handedOut]
    exact (List.append_nil _).symm

theorem spec_takeMux (stage : OutputStage) {t : Output Ω ε × Traced Ω}
    {Q : Muxer Ω ε → Output Ω ε × Traced Ω → Prop}
    (hQ : ∀ mux o, Q mux (o, t.2)) :
    Act.Spec (Output.takeMux stage) Q (fun _ _ => True) t := by
  obtain ⟨o, w⟩ := t
  simp only [Output.takeMux, Act.spec_bind, Act.spec_get, Act.spec_modify, spec_failing,
    Act.spec_getOr]
  exact ⟨fun mux _ => hQ mux _, fun _ => trivial⟩

/-- A packet that is sent reaches the muxer once, and what the muxer then hands out reaches
the destination. -/
theorem delivers_send (packet : Packet PacketPayload) (pulse : Option (Pulse Ω))
    (noPulse : Pulse Ω) (fuel : ℕ) (t : Output Ω ε × Traced Ω) :
    Act.Spec (Output.send packet pulse noPulse fuel)
      (fun _ u => ∃ added, u.2.2 = t.2.2 ++ added ∧ Delivers [.packet packet.contents] added)
      (fun _ _ => True) t := by
  obtain ⟨o, w, trace⟩ := t
  simp only [Output.send, Act.spec_bind]
  refine spec_takeMux _ fun mux o => ?_
  simp only [spec_failing, Act.spec_bind, spec_onWorld, Act.spec_get, Act.spec_lift,
    Act.spec_mapError, Act.spec_modify]
  refine adds_stopped _ fun w => ⟨fun _ _ => ?_, fun _ _ => trivial⟩
  refine spec_traced (fun _ w => ?_) (fun _ _ => trivial)
  refine (delivers_drain mux _ fuel _).mono (fun _ u hu => ?_) (fun _ _ _ => trivial)
  obtain ⟨added, htrace, hdel⟩ := hu
  have hmuxed : Delivers [.packet packet.contents] [.muxed packet.contents] := ⟨rfl, rfl, rfl⟩
  exact ⟨_, by rw [htrace, List.append_assoc], hmuxed.append hdel⟩

theorem quiet_applyPatches (pulse : Pulse Ω) (fuel : ℕ) (patches : List Patch)
    (t : Output Ω ε × Traced Ω) :
    Act.Spec (Output.applyPatches pulse fuel patches)
      (fun _ u => ∃ added, u.2.2 = t.2.2 ++ added ∧ Quiet added) (fun _ _ => True) t := by
  induction patches generalizing t with
  | nil => exact ⟨[], (List.append_nil _).symm, Quiet.nil⟩
  | cons patch patches ih =>
    obtain ⟨o, w, trace⟩ := t
    simp only [Output.applyPatches, Act.spec_bind, Act.spec_get, spec_failing, spec_onWorld,
      Act.spec_mapError, Act.spec_withLocal, Act.spec_pure, Act.spec_modify]
    refine spec_traced (fun _ w => ?_) (fun _ _ => trivial)
    refine (adds_writeAll _ _ _ _ _).mono (fun _ u hu => ?_) (fun _ _ _ => trivial)
    obtain ⟨written, hwritten, hquiet, _⟩ := hu
    refine (ih _).mono (fun _ v hv => ?_) (fun _ _ _ => trivial)
    obtain ⟨added, htrace, hadded⟩ := hv
    refine ⟨[.position patch.offset] ++ written ++ added, ?_, ?_⟩
    · rw [htrace, hwritten]
      simp
    · exact ((Quiet.singleton rfl rfl rfl).append hquiet).append hadded

theorem quiet_close (patched : Bool) (total : ℕ) (pulse : Pulse Ω) (t : Output Ω ε × Traced Ω) :
    Act.Spec (Output.close patched total pulse)
      (fun _ u => ∃ added, u.2.2 = t.2.2 ++ added ∧ Quiet added) (fun _ _ => True) t := by
  obtain ⟨o, w, trace⟩ := t
  -- what follows the last seek
  have hflush : ∀ (w : Ω) (added : List Event), Quiet added →
      Act.Spec (stopped (ε := ε) pulse)
        (fun _ v => Act.Spec (traced (fun _ => .flush) o.destination.flush)
          (fun _ v => Act.Spec (stopped (ε := ε) pulse)
            (fun _ v => ∃ added, v.2 = trace ++ added ∧ Quiet added) (fun _ _ => True) v)
          (fun _ _ => True) v) (fun _ _ => True) (w, trace ++ added) := by
    intro w added hadded
    refine adds_stopped _ fun w => spec_traced (fun _ w => ?_) (fun _ _ => trivial)
    refine adds_stopped _ fun w => ?_
    exact ⟨added ++ [.flush], List.append_assoc _ _ _, hadded.append (Quiet.singleton rfl rfl rfl)⟩
  simp only [Output.close, Act.spec_bind, Act.spec_get, spec_failing, spec_onWorld,
    Act.spec_mapError, Act.spec_pure, Act.spec_ite]
  refine ⟨fun _ => ?_, fun _ => ?_⟩
  · refine spec_traced (fun _ w => ?_) (fun _ _ => trivial)
    exact hflush w [.position total] (Quiet.singleton rfl rfl rfl)
  · have := hflush w [] Quiet.nil
    rwa [List.append_nil] at this

/-- The end of the stream reaches the muxer once and its tail the destination; the patches,
the final position and the flush follow. -/
theorem delivers_finish (pulse : Option (Pulse Ω)) (noPulse : Pulse Ω) (fuel : ℕ)
    (t : Output Ω ε × Traced Ω) :
    Act.Spec (Output.finish pulse noPulse fuel)
      (fun _ u => ∃ added last, u.2.2 = t.2.2 ++ added ++ last ∧ Delivers [.finish] added ∧
        Quiet last) (fun _ _ => True) t := by
  obtain ⟨o, w, trace⟩ := t
  simp only [Output.finish, Act.spec_bind]
  refine spec_takeMux _ fun mux o => ?_
  simp only [spec_failing, spec_onWorld, Act.spec_get, Act.spec_lift, Act.spec_mapError,
    Act.spec_modify, Act.spec_require, Output.sawPending]
  refine adds_stopped _ fun w => ?_
  refine spec_traced (fun f w => ?_) (fun _ _ => trivial)
  refine ⟨fun total _ => ⟨fun _ => ?_, fun _ => trivial⟩, fun _ _ => trivial⟩
  refine (adds_append _ _ _ _ _).mono (fun _ u hu => ?_) (fun _ _ _ => trivial)
  obtain ⟨tail, htail, hquiet, htaken⟩ := hu
  have hdel : Delivers [.finish] (.muxFinished f.tail :: tail) := by
    refine ⟨?_, ?_, ?_⟩
    · rw [List.filterMap_cons, hquiet.filterMap_mux]
      rfl
    · exact hquiet.filterMap_source
    · rw [List.flatMap_cons, List.flatMap_cons, htaken, hquiet.flatMap_handedOut]
      exact (List.append_nil _).symm
  have htrace : u.2.2 = trace ++ .muxFinished f.tail :: tail := by
    rw [htail]
    simp [Except.toOption]
  refine (quiet_applyPatches _ _ _ _).mono (fun _ v hv => ?_) (fun _ _ _ => trivial)
  obtain ⟨patched, hpatched, hqp⟩ := hv
  refine (quiet_close _ _ _ _).mono (fun _ x hx => ?_) (fun _ _ _ => trivial)
  obtain ⟨last, hlast, hql⟩ := hx
  refine ⟨_, patched ++ last, ?_, hdel, hqp.append hql⟩
  rw [hlast, hpatched, htrace, List.append_assoc]

/-! ### Publication -/

theorem spec_nextPacket {packets : Staging Ω ε} {q : List (Packet (List UInt8))}
    (h : packets.Holds q) (pulse : Pulse Ω) (n : ℕ) (o : Output Ω ε) (w : Ω)
    (trace : List Event) :
    Act.Spec (nextPacket pulse)
      (fun r u => u.1.Holds q.tail ∧ r.map Packet.contents = q.head? ∧ u.2.2.2.2 = trace)
      (fun _ _ => True) (packets, n, o, w, trace) := by
  simp only [nextPacket, Act.spec_focus, Act.spec_mapError]
  exact (Staging.spec_next h pulse).mono (fun r t ht => ⟨ht.1, ht.2, trivial⟩) (fun _ _ _ => trivial)

/-- The loop delivers the packet at hand and those that are still staged. -/
theorem delivers_publishLoop (pulse : Option (Pulse Ω)) (noPulse : Pulse Ω) (outputFuel fuel : ℕ)
    {r : Option (Packet PacketPayload)} {packets : Staging Ω ε}
    {q : List (Packet (List UInt8))} (h : packets.Holds q.tail)
    (hr : r.map Packet.contents = q.head?) (n : ℕ) (o : Output Ω ε) (w : Ω)
    (trace : List Event) :
    Act.Spec (publishLoop pulse noPulse outputFuel fuel r)
      (fun _ u => ∃ added, u.2.2.2.2 = trace ++ added ∧ Delivers (q.map MuxCall.packet) added)
      (fun _ _ => True) (packets, n, o, w, trace) := by
  induction fuel generalizing r packets q n o w trace with
  | zero =>
    cases r with
    | none =>
      obtain rfl : q = [] := List.head?_eq_none_iff.mp hr.symm
      exact ⟨[], (List.append_nil _).symm, Delivers.nil⟩
    | some held => exact trivial
  | succ fuel ih =>
    cases r with
    | none =>
      obtain rfl : q = [] := List.head?_eq_none_iff.mp hr.symm
      exact ⟨[], (List.append_nil _).symm, Delivers.nil⟩
    | some held =>
      obtain ⟨q', rfl⟩ : ∃ q', q = held.contents :: q' := by
        cases q with
        | nil => cases hr
        | cons p q' => exact ⟨q', by rw [Option.some.inj hr]⟩
      simp only [publishLoop, publishing, Act.spec_bind, Act.spec_focus, Act.spec_mapError,
        Act.spec_modify]
      refine (delivers_send held pulse noPulse outputFuel _).mono (fun _ u hu => ?_)
        (fun _ _ _ => trivial)
      obtain ⟨sent, hsent, hdel⟩ := hu
      refine (spec_nextPacket (show packets.Holds q' from h) _ _ _ _ _).mono (fun r v hv => ?_)
        (fun _ _ _ => trivial)
      obtain ⟨hheld, hnext, htrace⟩ := hv
      obtain ⟨packets', n', o', w', trace'⟩ := v
      obtain rfl : trace' = u.2.2 := htrace
      refine (ih hheld hnext n' o' w' u.2.2).mono (fun _ x hx => ?_) (fun _ _ _ => trivial)
      obtain ⟨added, hadded, hrest⟩ := hx
      refine ⟨sent ++ added, ?_, hdel.append hrest⟩
      rw [hadded, hsent, List.append_assoc]

/-- The publication delivers the staged packets in order and then the end of the stream. -/
theorem delivers_publishRun (pulse : Option (Pulse Ω)) (noPulse : Pulse Ω) (fuel : ℕ)
    {packets : Staging Ω ε} {q : List (Packet (List UInt8))} (h : packets.Holds q) (n : ℕ)
    (o : Output Ω ε) (w : Ω) (trace : List Event) :
    Act.Spec (publishRun pulse noPulse fuel)
      (fun _ u => ∃ added last, u.2.2.2.2 = trace ++ added ++ last ∧
        Delivers (q.map MuxCall.packet ++ [.finish]) added ∧ Quiet last)
      (fun _ _ => True) (packets, n, o, w, trace) := by
  simp only [publishRun, publishing, Act.spec_bind, Act.spec_focus, Act.spec_mapError,
    Act.spec_modify]
  refine (Staging.spec_beginReplay h _).mono (fun _ t ht => ?_) (fun _ _ _ => trivial)
  obtain ⟨packets, w⟩ := t
  refine (spec_nextPacket ht _ _ _ _ _).mono (fun r v hv => ?_) (fun _ _ _ => trivial)
  obtain ⟨hheld, hnext, htrace⟩ := hv
  obtain ⟨packets', n', o', w', trace'⟩ := v
  obtain rfl : trace' = trace := htrace
  -- the header
  simp only [PreparedOutput.publish, Act.spec_bind, spec_failing, Act.spec_modify]
  refine spec_takeMux _ fun mux o => ?_
  refine (delivers_drain mux _ fuel _).mono (fun _ u hu => ?_) (fun _ _ _ => trivial)
  obtain ⟨header, hheader, hdelh⟩ := hu
  -- the packets
  refine (delivers_publishLoop pulse noPulse fuel fuel hheld hnext _ _ _ _).mono (fun _ x hx => ?_)
    (fun _ _ _ => trivial)
  obtain ⟨body, hbody, hdelb⟩ := hx
  -- the end of the stream
  refine (delivers_finish pulse noPulse fuel _).mono (fun _ y hy => ?_) (fun _ _ _ => trivial)
  obtain ⟨tail, last, hlast, hdelt, hquiet⟩ := hy
  refine ⟨header ++ body ++ tail, last, ?_, ?_, hquiet⟩
  · show y.2.2 = _
    rw [hlast, hbody, hheader]
    simp
  · exact (hdelh.append hdelb).append hdelt

end Zencodec.Media
