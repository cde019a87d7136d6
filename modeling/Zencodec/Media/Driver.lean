/-
Runs of the output driver.

An output is prepared, published, sent packets and finished. `output_run` follows any such
run: preparation writes nothing, every failure is final and reports what was appended, and
a run that succeeds leaves the old file, what the muxer handed out and its tail, patched.

The count of appended bytes has 64 bits: a write that would leave them fails, and that last
write is not in the count (`output_overflow`).
-/
import Zencodec.Media.Written

open Zencodec.Incremental Zencodec.Session Slices

namespace Zencodec.Media

variable {Ω ε : Type}

/-- `Output::prepare_unpublished`, where `beginMux` is the `begin` of the caller. -/
def PreparedOutput.prepare (beginMux : List TrackInfo → MuxHint → Act Ω (SessionError ε) MuxTiming)
    (exactTiming : Bool) (mux : Muxer Ω ε) (destination : Destination Ω ε)
    (tracks : List TrackInfo) (pulse : Pulse Ω) :
    Act (Traced Ω) (OutputFailure ε) (PreparedOutput Ω ε) :=
  Act.mapError (fun cause => ⟨.prepare, 0, cause⟩) do
    stopped pulse
    let timing ← untraced (Act.mapError .session (beginMux tracks ⟨!destination.canPatch⟩))
    Act.require (!timing.patchesAtFinish || destination.canPatch)
      (.session (.unsupported .forwardOnlyLayout))
    stopped pulse
    pure ⟨⟨some mux, destination, tracks, timing, exactTiming, {}⟩⟩

/-- `PreparedOutput::new` begins with exact timing. -/
theorem PreparedOutput.new_eq (mux : Muxer Ω ε) (destination : Destination Ω ε)
    (tracks : List TrackInfo) (pulse : Pulse Ω) :
    PreparedOutput.new mux destination tracks pulse =
      PreparedOutput.prepare mux.beginExactTiming true mux destination tracks pulse := rfl

/-- Preparation makes no recorded call, and what it prepares has written nothing. -/
theorem prepare_writes_nothing
    (beginMux : List TrackInfo → MuxHint → Act Ω (SessionError ε) MuxTiming) (exactTiming : Bool)
    (mux : Muxer Ω ε) (destination : Destination Ω ε) (tracks : List TrackInfo) (pulse : Pulse Ω)
    (t : Traced Ω) :
    Act.Spec (PreparedOutput.prepare beginMux exactTiming mux destination tracks pulse)
      (fun p u => u.2 = t.2 ∧ ∃ timing,
        p.output = ⟨some mux, destination, tracks, timing, exactTiming, {}⟩)
      (fun e u => u.2 = t.2 ∧ e.emitted = 0) t := by
  simp only [PreparedOutput.prepare, Act.spec_mapError, Act.spec_bind, spec_untraced,
    Act.spec_require, Act.spec_pure]
  refine spec_stopped _ (fun w => ?_) (fun _ w => ⟨rfl, trivial⟩)
  refine spec_any (fun timing w => ⟨fun _ => ?_, fun _ => ⟨rfl, trivial⟩⟩) (fun _ w => ⟨rfl, trivial⟩)
  exact spec_stopped _ (fun w => ⟨rfl, timing, rfl⟩) (fun _ w => ⟨rfl, trivial⟩)

/-- What a caller may do with a published output; `outside` is the world moving on its own. -/
inductive OutputOp (Ω : Type) where
  | send (packet : Packet PacketPayload) (pulse : Option (Pulse Ω))
  | outside (f : Ω → Ω)

/-- One operation; a packet answers how it ended. -/
def outputStep (noPulse : Pulse Ω) (fuel : ℕ) (t : Output Ω ε × Traced Ω) :
    OutputOp Ω → Option (Except (OutputFailure ε) Unit) × (Output Ω ε × Traced Ω)
  | .send packet pulse =>
    let (r, t) := Output.send packet pulse noPulse fuel t
    (some r, t)
  | .outside f => (none, t.1, f t.2.1, t.2.2)

section Steps

variable {base : Output Ω ε} (noPulse : Pulse Ω) (fuel : ℕ)

/-- A step keeps the invariant, and one that fails ends the driver. -/
theorem sending_step (hhonest : base.destination.Honest) {t : Output Ω ε × Traced Ω}
    (h : Sending base t.1 t.2.2) (op : OutputOp Ω) :
    Sending base (outputStep noPulse fuel t op).2.1 (outputStep noPulse fuel t op).2.2.2 ∧
      ∀ e, (outputStep noPulse fuel t op).1 = some (.error e) →
        Ends e (outputStep noPulse fuel t op).2.1 := by
  obtain ⟨o, w, trace⟩ := t
  cases op with
  | send packet pulse =>
    have hrun := (sending_send hhonest packet pulse noPulse fuel (w := w) h).run
    refine ⟨?_, fun e he => (hrun.2 e (Option.some.inj he)).2⟩
    cases hr : (Output.send packet pulse noPulse fuel (o, w, trace)).1 with
    | ok u => exact hrun.1 u hr
    | error e => exact (hrun.2 e hr).1
  | outside f => exact ⟨h, fun e he => by cases he⟩

/-- Nothing is sent once the driver has failed. -/
theorem dead_step {t : Output Ω ε × Traced Ω} (h : t.1.mux = none) (op : OutputOp Ω) :
    (outputStep noPulse fuel t op).2.1.mux = none ∧
      (outputStep noPulse fuel t op).2.2.2 = t.2.2 ∧
      ∀ r, (outputStep noPulse fuel t op).1 = some r → ∃ e, r = .error e := by
  obtain ⟨o, w, trace⟩ := t
  cases op with
  | send packet pulse =>
    have hdead : Act.Spec (Output.send packet pulse noPulse fuel) (fun _ _ => False)
        (fun _ u => u = (o, w, trace)) (o, w, trace) := send_dead packet pulse noPulse fuel h
    have hrun := hdead.run
    cases hr : (Output.send packet pulse noPulse fuel (o, w, trace)).1 with
    | ok u => exact (hrun.1 u hr).elim
    | error e =>
      have hstate := hrun.2 e hr
      refine ⟨?_, ?_, fun r hr' => ⟨e, (Option.some.inj hr').symm.trans hr⟩⟩
      · exact (congrArg (fun u => u.1.mux) hstate).trans h
      · exact congrArg (fun u => u.2.2) hstate
  | outside f => exact ⟨h, rfl, fun r hr => by cases hr⟩

/-- The run lemma. -/
theorem sending_final (hhonest : base.destination.Honest) {t : Output Ω ε × Traced Ω}
    (h : Sending base t.1 t.2.2) (ops : List (OutputOp Ω)) :
    Sending base (Runs.final (outputStep noPulse fuel) t ops).1
      (Runs.final (outputStep noPulse fuel) t ops).2.2 :=
  Runs.final_of_preserved (A := fun _ => True) (P := fun (t : Output Ω ε × Traced Ω) => Sending base t.1 t.2.2)
    (fun _ op _ h => (sending_step noPulse fuel hhonest h op).1) (fun _ _ => trivial) h

end Steps

/-- A finish without a muxer fails and does nothing. -/
theorem finish_dead {o : Output Ω ε} {trace : List Event} (pulse : Option (Pulse Ω))
    (noPulse : Pulse Ω) (fuel : ℕ) {w : Ω} (hnone : o.mux = none) :
    Act.Spec (Output.finish pulse noPulse fuel) (fun _ _ => False)
      (fun _ u => u = (o, w, trace)) (o, w, trace) := by
  simp only [Output.finish, Act.spec_bind]
  refine spec_takeMux_run _ (fun mux hmux => ?_) (fun _ => rfl)
  cases hnone.symm.trans hmux

/-- Every run of an output driver on a destination that holds `old`: nothing is written before
the publication; every failure ends the driver and reports the appended bytes; only packets
on configured tracks reach the muxer, and a destination that cannot patch is never
positioned; a run that succeeds leaves `old`, what the muxer handed out and its tail, with
the patches written in order. -/
theorem output_run (beginMux : List TrackInfo → MuxHint → Act Ω (SessionError ε) MuxTiming)
    (exactTiming : Bool) (mux : Muxer Ω ε) (destination : Destination Ω ε)
    (hhonest : destination.Honest) (tracks : List TrackInfo) (pulse₀ pulse₁ noPulse : Pulse Ω)
    (fuel : ℕ) (old : List UInt8) (w : Ω) :
    let prepared := PreparedOutput.prepare beginMux exactTiming mux destination tracks pulse₀ (w, [])
    prepared.2.2 = [] ∧ (∀ e, prepared.1 = .error e → e.emitted = 0) ∧
    ∀ p, prepared.1 = .ok p →
      p.output.destination = destination ∧ p.output.tracks = tracks ∧
      ∀ (w₁ : Ω) (ops : List (OutputOp Ω)),
        let published := PreparedOutput.publish pulse₁ fuel (p.output, w₁, [])
        let t := Runs.final (outputStep noPulse fuel) published.2 ops
        (∀ e, published.1 = .error e →
          published.2.1.mux = none ∧ Failed p.output old e published.2.2.2) ∧
        (∀ op, let r := outputStep noPulse fuel t op
          Kept p.output r.2.2.2 ∧
          (∀ e, r.1 = some (.error e) → r.2.1.mux = none ∧ Failed p.output old e r.2.2.2) ∧
          (t.1.mux = none → r.2.1.mux = none ∧ r.2.2.2 = t.2.2 ∧
            ∀ answer, r.1 = some answer → ∃ e, answer = .error e)) ∧
        ∀ pulse, let r := Output.finish pulse noPulse fuel t
          (∀ stats, r.1 = .ok stats → Finished p.output old t.1 pulse t.2.2 stats r.2.2.2) ∧
          (∀ e, r.1 = .error e → Failed p.output old e r.2.2.2) ∧
          (t.1.mux = none → (∃ e, r.1 = .error e) ∧ r.2.2.2 = t.2.2) := by
  intro prepared
  have hprepare := (prepare_writes_nothing beginMux exactTiming mux destination tracks pulse₀
    (w, [])).run
  refine ⟨?_, fun e he => (hprepare.2 e he).2, fun p hp => ?_⟩
  · cases hr : prepared.1 with
    | ok p => exact (hprepare.1 p hr).1
    | error e => exact (hprepare.2 e hr).1
  obtain ⟨-, timing, houtput⟩ := hprepare.1 p hp
  have hdestination : p.output.destination = destination := by rw [houtput]
  have htracks : p.output.tracks = tracks := by rw [houtput]
  refine ⟨hdestination, htracks, fun w₁ ops => ?_⟩
  intro published t
  have hhonest' : p.output.destination.Honest := hdestination ▸ hhonest
  -- a prepared output has written nothing
  have hstart : Sending p.output p.output [] := by
    have hnone : Unpositioned [] := fun e he => by cases he
    refine ⟨rfl, rfl, rfl, by rw [houtput], by rw [houtput], hnone, ?_, ?_, fun m _ => ⟨?_, rfl⟩⟩
    · intro q hq
      cases hq
    · rw [houtput]
      exact Counted.refl 0
    · rw [houtput]
      rfl
  have hpublish := (sending_publish hhonest' pulse₁ fuel (w := w₁) hstart).run
  have hpublished : Sending p.output published.2.1 published.2.2.2 := by
    cases hr : published.1 with
    | ok u => exact hpublish.1 u hr
    | error e => exact (hpublish.2 e hr).1
  have ht : Sending p.output t.1 t.2.2 := sending_final noPulse fuel hhonest' hpublished ops
  refine ⟨fun e he => ?_, fun op => ?_, fun pulse => ?_⟩
  · obtain ⟨hsending, hnone, hemitted⟩ := hpublish.2 e he
    exact ⟨hnone, hsending.failed old hemitted⟩
  · obtain ⟨hsending, hends⟩ := sending_step noPulse fuel hhonest' ht op
    refine ⟨hsending.kept, fun e he => ?_, fun hnone => dead_step noPulse fuel hnone op⟩
    obtain ⟨hnone, hemitted⟩ := hends e he
    exact ⟨hnone, hsending.failed old hemitted⟩
  · intro r
    have hfinish := (written_finish hhonest' pulse noPulse fuel old (w := t.2.1) ht).run
    refine ⟨hfinish.1, hfinish.2, fun hnone => ?_⟩
    have hdead : Act.Spec (Output.finish pulse noPulse fuel) (fun _ _ => False)
        (fun _ u => u = (t.1, t.2.1, t.2.2)) (t.1, t.2.1, t.2.2) :=
      finish_dead pulse noPulse fuel hnone
    cases hr : r.1 with
    | ok stats => exact (hdead.run.1 stats hr).elim
    | error e => exact ⟨⟨e, rfl⟩, congrArg (fun u => u.2.2) (hdead.run.2 e hr)⟩

/-! ### Samples -/

def noStop : Pulse Unit := ⟨fun _ => (.ok (), ())⟩

/-- A destination that takes every write whole. -/
def greedy : Destination Unit Unit where
  canPatch := true
  write bytes := Act.pure bytes.length
  position _ := Act.pure ()
  flush := Act.pure ()
  interrupted _ := false
  writeZero := ()
  invalidData := ()

def sampleTrack : TrackInfo := ⟨0, .av1, ⟨1, 1000⟩, none, 0, none⟩

def samplePacket : Packet PacketPayload := { payload := some (.owned [1]) }

theorem greedy_honest : greedy.Honest := by
  intro bytes w n h
  obtain rfl := Except.ok.inj (show Except.ok bytes.length = Except.ok n from h)
  exact Nat.le_refl _

/-- A muxer that hands out two bytes each time, and one byte and a patch at the end. -/
def sampleMux : Muxer Unit Unit where
  beginExactTiming _ _ := Act.pure ⟨true, true⟩
  writePacket _ _ := Act.pure ()
  pendingOutput _ := [1, 2]
  consumeOutput _ w := w
  finish _ := Act.pure ⟨[3], [⟨1, [9, 9]⟩]⟩

def sampleOutput : Output Unit Unit :=
  ⟨some sampleMux, greedy, [sampleTrack], ⟨true, true⟩, true, {}⟩

/-- The state before the finish of a run with one packet. -/
def sampleRun : Output Unit Unit × Traced Unit :=
  Runs.final (outputStep noStop 2) (PreparedOutput.publish noStop 2 (sampleOutput, (), [])).2
    [.send samplePacket none]

theorem output_run_sample :
    (∃ stats, Finished sampleOutput [7] sampleRun.1 none sampleRun.2.2 stats
      (Output.finish none noStop 2 sampleRun).2.2.2) ∧
    fileAfter [7] (Output.finish none noStop 2 sampleRun).2.2.2 = .atEnd [7, 1, 9, 9, 2, 3] := by
  have h := (output_run sampleMux.beginExactTiming true sampleMux greedy greedy_honest
    [sampleTrack] noStop noStop noStop 2 [7] ()).2.2 ⟨sampleOutput⟩ rfl
  have hrun : ∀ stats, (Output.finish none noStop 2 sampleRun).1 = .ok stats →
      Finished sampleOutput [7] sampleRun.1 none sampleRun.2.2 stats
        (Output.finish none noStop 2 sampleRun).2.2.2 := by
    unfold sampleRun
    dsimp only at h
    obtain ⟨-, -, hops⟩ := h
    obtain ⟨-, -, hfinish⟩ := hops () [.send samplePacket none]
    obtain ⟨hok, -⟩ := hfinish none
    exact hok
  have hok : (Output.finish none noStop 2 sampleRun).1.toOption = some ⟨5, 1, 2, 2⟩ := by
    decide +kernel
  have hfile : fileAfter [7] (Output.finish none noStop 2 sampleRun).2.2.2 =
      .atEnd [7, 1, 9, 9, 2, 3] := by
    decide +kernel
  cases hr : (Output.finish none noStop 2 sampleRun).1 with
  | ok stats => exact ⟨⟨stats, hrun stats hr⟩, hfile⟩
  | error e =>
    rw [hr] at hok
    cases hok

/-! ### A count that overflows -/

/-- A muxer that always has `bytes` to hand out. -/
def flood (bytes : List UInt8) : Muxer Unit Unit where
  beginExactTiming _ _ := Act.pure ⟨true, false⟩
  writePacket _ _ := Act.pure ()
  pendingOutput _ := bytes
  consumeOutput _ w := w
  finish _ := Act.pure ⟨[], []⟩

theorem spec_stopped_noStop {Q : Unit → Traced Unit → Prop}
    {E : OutputCause Unit → Traced Unit → Prop} {t : Traced Unit} :
    Act.Spec (stopped noStop) Q E t ↔ Q () t := Iff.rfl

theorem spec_greedy {bytes : List UInt8} {Q : ℕ → Traced Unit → Prop}
    {E : Unit → Traced Unit → Prop} {t : Traced Unit} :
    Act.Spec (traced (fun r => .write bytes (r.toOption.getD 0)) (greedy.write bytes)) Q E t ↔
      Q bytes.length (t.1, t.2 ++ [.write bytes bytes.length]) := Iff.rfl

theorem writeAll_greedy (fuel : ℕ) {bytes : List UInt8} (hne : bytes ≠ []) (count : ℕ)
    (trace : List Event) :
    Act.Spec (writeAll greedy noStop (fuel + 2) bytes)
      (fun _ u => count + bytes.length ≤ u64Max ∧
        u = (count + bytes.length, (), trace ++ [.write bytes bytes.length]))
      (fun _ u => u64Max < count + bytes.length ∧
        u = (count, (), trace ++ [.write bytes bytes.length])) (count, (), trace) := by
  have hlen : bytes.length ≠ 0 := fun h => hne (List.length_eq_zero_iff.mp h)
  rw [writeAll, if_neg hne]
  simp only [Act.spec_bind, spec_onWorld, Act.spec_attempt, spec_stopped_noStop, spec_greedy]
  generalize hn : bytes.length = n at *
  cases n with
  | zero => exact absurd rfl hlen
  | succ n =>
    have hrest : bytes.drop (n + 1) = [] := List.drop_eq_nil_of_le (by omega)
    simp only [Act.spec_ite, Act.spec_bind, Act.spec_get, Act.spec_getOr, Act.spec_modify, hrest]
    refine ⟨fun _ => ⟨fun count' hcount => ?_, fun hnone => ?_⟩, fun h => absurd (Nat.le_refl _) h⟩
    · unfold checkedAdd at hcount
      split at hcount
      · next h =>
        obtain rfl := Option.some.inj hcount
        exact ⟨h, rfl⟩
      · cases hcount
    · unfold checkedAdd at hnone
      split at hnone
      · cases hnone
      · next h => exact ⟨by omega, trivial⟩

/-- The flood was drained `k` times. -/
structure Flooded (bytes : List UInt8) (k : ℕ) (t : Output Unit Unit × Traced Unit) : Prop where
  mux : t.1.mux = some (flood bytes)
  destination : t.1.destination = greedy
  tracks : t.1.tracks = [sampleTrack]
  emitted : t.1.stats.emitted = k * bytes.length
  unpositioned : Unpositioned t.2.2
  taken : (takenBytes t.2.2).length = k * bytes.length

section Flood

variable {bytes : List UInt8} {k : ℕ} {t : Output Unit Unit × Traced Unit}

/-- One more drain counts, or leaves the range and does not. -/
theorem drain_flood (hne : bytes ≠ []) (h : Flooded bytes k t) :
    Act.Spec (Output.drain (flood bytes) noStop 2)
      (fun _ u => (k + 1) * bytes.length ≤ u64Max ∧
        Flooded bytes (k + 1) ({ u.1 with mux := some (flood bytes) }, u.2))
      (fun _ u => u64Max < (k + 1) * bytes.length ∧ u.1.stats.emitted = k * bytes.length ∧
        Unpositioned u.2.2 ∧ (takenBytes u.2.2).length = (k + 1) * bytes.length)
      ({ t.1 with mux := none }, t.2) := by
  obtain ⟨o, w, trace⟩ := t
  have hdestination : o.destination = greedy := h.destination
  have hemitted : o.stats.emitted = k * bytes.length := h.emitted
  have hsum : (k + 1) * bytes.length = k * bytes.length + bytes.length := Nat.succ_mul _ _
  have htrace : Unpositioned (trace ++ [.pending bytes] ++ [.write bytes bytes.length]) :=
    (h.unpositioned.append (Unpositioned.singleton rfl)).append (Unpositioned.singleton rfl)
  have htaken : (takenBytes (trace ++ [.pending bytes] ++ [.write bytes bytes.length])).length =
      k * bytes.length + bytes.length := by
    have hwritten : takenBytes [.write bytes bytes.length] = bytes :=
      (List.append_nil _).trans List.take_length
    rw [takenBytes_append, takenBytes_append, List.length_append, List.length_append, hwritten,
      ← h.taken]
    rfl
  simp only [Output.drain, Output.sawPending, Output.append, Act.spec_bind, Act.spec_get,
    Act.spec_modify, Act.spec_focus]
  rw [hdestination]
  refine (writeAll_greedy 0 hne _ _).mono (fun _ u hu => ?_) (fun _ u hu => ?_)
  · obtain ⟨hle, rfl⟩ := hu
    refine ⟨?_, rfl, rfl, h.tracks, ?_, htrace, ?_⟩
    · rw [hsum, ← hemitted]
      exact hle
    · rw [hsum, ← hemitted]
    · rw [hsum]
      exact htaken
  · obtain ⟨hgt, rfl⟩ := hu
    refine ⟨?_, h.emitted, htrace, ?_⟩
    · rw [hsum, ← hemitted]
      exact hgt
    · rw [hsum]
      exact htaken

theorem spec_flood_packet {event : Except (SessionError Unit) Unit → Event}
    {Q : Unit → Traced Unit → Prop} {E : SessionError Unit → Traced Unit → Prop}
    {w : Traced Unit} :
    Act.Spec (traced event ((flood bytes).writePacket samplePacket none)) Q E w ↔
      Q () (w.1, w.2 ++ [event (.ok ())]) := Iff.rfl

/-- One more packet, likewise. -/
theorem send_flood (hne : bytes ≠ []) (h : Flooded bytes k t) :
    Act.Spec (Output.send samplePacket none noStop 2)
      (fun _ u => (k + 1) * bytes.length ≤ u64Max ∧ Flooded bytes (k + 1) u)
      (fun e u => u64Max < (k + 1) * bytes.length ∧ e.emitted = k * bytes.length ∧
        Unpositioned u.2.2 ∧ (takenBytes u.2.2).length = (k + 1) * bytes.length) t := by
  obtain ⟨o, w, trace⟩ := t
  have htracks : o.tracks = [sampleTrack] := h.tracks
  simp only [Output.send, Act.spec_bind]
  refine spec_takeMux_run _ (fun mux hmux => ?_) (fun hnone => by cases hnone.symm.trans h.mux)
  obtain rfl := Option.some.inj (hmux.symm.trans h.mux)
  simp only [spec_failing, Act.spec_bind, spec_onWorld, Act.spec_get, Act.spec_lift,
    Act.spec_mapError, Act.spec_modify]
  show Act.Spec (stopped noStop) _ _ _
  rw [spec_stopped_noStop]
  have hvalid : Output.validatePacket { o with mux := none } samplePacket = .ok () := by
    unfold Output.validatePacket
    rw [htracks]
    rfl
  refine ⟨fun _ _ => ?_, fun e he => by rw [hvalid] at he; cases he⟩
  -- the packet itself writes nothing
  rw [spec_flood_packet]
  have hmuxed : Flooded bytes k (o, (), trace ++ [.muxed samplePacket.contents]) := by
    refine ⟨h.mux, h.destination, h.tracks, h.emitted,
      h.unpositioned.append (Unpositioned.singleton rfl), ?_⟩
    rw [takenBytes_append, List.length_append]
    exact h.taken
  refine (drain_flood hne hmuxed).mono (fun _ u hu => hu) (fun _ u hu => ?_)
  obtain ⟨hgt, hemitted, hrest⟩ := hu
  exact ⟨hgt, hemitted, hrest⟩

theorem publish_flood (hne : bytes ≠ []) (h : Flooded bytes k t) :
    Act.Spec (PreparedOutput.publish noStop 2)
      (fun _ u => (k + 1) * bytes.length ≤ u64Max ∧ Flooded bytes (k + 1) u)
      (fun _ _ => u64Max < (k + 1) * bytes.length) t := by
  obtain ⟨o, w, trace⟩ := t
  simp only [PreparedOutput.publish, Act.spec_bind, spec_failing, Act.spec_modify]
  refine spec_takeMux_run _ (fun mux hmux => ?_) (fun hnone => by cases hnone.symm.trans h.mux)
  obtain rfl := Option.some.inj (hmux.symm.trans h.mux)
  exact (drain_flood hne h).mono (fun _ u hu => hu) (fun _ u hu => hu.1)

end Flood

/-- The prepared output of a flood. -/
def floodOutput (bytes : List UInt8) : Output Unit Unit :=
  ⟨some (flood bytes), greedy, [sampleTrack], ⟨true, false⟩, true, {}⟩

/-- The failure of the second packet reports fewer bytes than were appended. -/
def Overflows (bytes : List UInt8) : Prop :=
  (PreparedOutput.new (flood bytes) greedy [sampleTrack] noStop ((), [])).1 =
    .ok ⟨floodOutput bytes⟩ ∧
  (PreparedOutput.publish noStop 2 (floodOutput bytes, (), [])).1 = .ok () ∧
  ∃ e,
    (outputStep noStop 2 (Runs.final (outputStep noStop 2)
      (PreparedOutput.publish noStop 2 (floodOutput bytes, (), [])).2 [.send samplePacket none])
      (.send samplePacket none)).1 = some (.error e) ∧
    e.emitted ≠ (fileAfter []
      (outputStep noStop 2 (Runs.final (outputStep noStop 2)
        (PreparedOutput.publish noStop 2 (floodOutput bytes, (), [])).2 [.send samplePacket none])
        (.send samplePacket none)).2.2.2).content.length

theorem overflows {bytes : List UInt8} (hlen : bytes.length = 2 ^ 63 - 1) : Overflows bytes := by
  have hne : bytes ≠ [] := List.ne_nil_of_length_pos (by omega)
  have hmax : u64Max = 2 ^ 64 - 1 := rfl
  have hstart : Flooded bytes 0 (floodOutput bytes, (), []) :=
    ⟨rfl, rfl, rfl, (Nat.zero_mul _).symm, fun e he => (by cases he), (Nat.zero_mul _).symm⟩
  unfold Overflows
  show _ ∧ _ ∧ ∃ e : OutputFailure Unit, some (Output.send samplePacket none noStop 2
    (Output.send samplePacket none noStop 2
      (PreparedOutput.publish noStop 2 (floodOutput bytes, (), [])).2).2).1 = _ ∧
    e.emitted ≠ (fileAfter [] (Output.send samplePacket none noStop 2
      (Output.send samplePacket none noStop 2
        (PreparedOutput.publish noStop 2 (floodOutput bytes, (), [])).2).2).2.2.2).content.length
  -- the header fits
  have hpublish := (publish_flood hne hstart).run
  generalize PreparedOutput.publish noStop 2 (floodOutput bytes, (), []) = published at *
  obtain ⟨answer, t₁⟩ := published
  have hpublished : answer = .ok () ∧ Flooded bytes 1 t₁ := by
    cases answer with
    | ok u => exact ⟨rfl, (hpublish.1 u rfl).2⟩
    | error e => exact absurd (hpublish.2 e rfl) (by omega)
  -- so does the first packet
  have hfirst := (send_flood hne hpublished.2).run
  generalize Output.send samplePacket none noStop 2 t₁ = first at *
  obtain ⟨answer₁, t₂⟩ := first
  have ht : Flooded bytes 2 t₂ := by
    cases answer₁ with
    | ok u => exact (hfirst.1 u rfl).2
    | error e => exact absurd (hfirst.2 e rfl).1 (by omega)
  -- the second does not
  have hsecond := (send_flood hne ht).run
  generalize Output.send samplePacket none noStop 2 t₂ = second at *
  obtain ⟨answer₂, o, w, trace⟩ := second
  refine ⟨rfl, hpublished.1, ?_⟩
  cases answer₂ with
  | ok u => exact absurd (hsecond.1 u rfl).1 (by omega)
  | error e =>
    obtain ⟨-, hemitted, hunpos, htaken⟩ := hsecond.2 e rfl
    refine ⟨e, rfl, ?_⟩
    have hcontent : (fileAfter [] trace).content = takenBytes trace := by
      rw [fileAfter_of_unpositioned hunpos]
      rfl
    have hlength : (takenBytes trace).length = (2 + 1) * bytes.length := htaken
    show e.emitted ≠ (fileAfter [] trace).content.length
    rw [hcontent, hlength, hemitted]
    omega

/-- Three drains of the longest slice leave the 64 bits of the count. -/
theorem output_overflow : Overflows (List.replicate (2 ^ 63 - 1) 0) :=
  overflows List.length_replicate

end Zencodec.Media
