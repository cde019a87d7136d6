/-
What is in the file behind a destination.

`fileAfter old trace` replays the calls of a trace on a file that ends where the output
starts. Until `finish` an output only appends (`Sending`), so the file is the old one and
the bytes that were taken, and these are all that the muxer handed out as long as nothing
failed. `finish` appends the tail and writes the patches over what stands there.
-/
import Zencodec.Lib.ByteFile
import Zencodec.Lib.Runs
import Zencodec.Media.Publish

open Zencodec.Incremental Zencodec.Session Slices

namespace Zencodec.Media

variable {Ω ε α : Type}

/-! ### The file -/

/-- What a call does to the file, where the output starts at `origin`. A call that fails has
taken nothing. -/
def Event.onFile (origin : ℕ) (d : ByteFile) : Event → ByteFile
  | .write bytes n => d.overwrite (bytes.take n)
  | .position offset => d.seek (origin + offset)
  | _ => d

/-- The file after a trace that starts at the end of `old`. -/
def fileAfter (old : List UInt8) (trace : List Event) : ByteFile :=
  trace.foldl (Event.onFile old.length) (ByteFile.atEnd old)

/-- The bytes that were taken. -/
def takenBytes (trace : List Event) : List UInt8 := trace.flatMap Event.taken

/-- The bytes that the muxer handed out. -/
def handedOut (trace : List Event) : List UInt8 := trace.flatMap Event.handedOut

def Event.positions : Event → Bool
  | .position _ => true
  | _ => false

/-- Nothing was written anywhere but at the end. -/
def Unpositioned (trace : List Event) : Prop := ∀ e ∈ trace, e.positions = false

def OnlyWrites (trace : List Event) : Prop := ∀ e ∈ trace, ∃ bytes n, e = .write bytes n

theorem takenBytes_append (l m : List Event) : takenBytes (l ++ m) = takenBytes l ++ takenBytes m :=
  List.flatMap_append

theorem handedOut_append (l m : List Event) : handedOut (l ++ m) = handedOut l ++ handedOut m :=
  List.flatMap_append

theorem Unpositioned.append {l m : List Event} (hl : Unpositioned l) (hm : Unpositioned m) :
    Unpositioned (l ++ m) := by
  intro e he
  rcases List.mem_append.mp he with he | he
  · exact hl e he
  · exact hm e he

theorem Unpositioned.singleton {e : Event} (h : e.positions = false) : Unpositioned [e] := by
  intro e' he
  obtain rfl := List.mem_singleton.mp he
  exact h

theorem OnlyWrites.nil : OnlyWrites [] := fun _ he => by cases he

/-- One more write in front. -/
theorem OnlyWrites.cons {l : List Event} (h : OnlyWrites l) (bytes : List UInt8) (n : ℕ) :
    OnlyWrites (.write bytes n :: l) := by
  intro e he
  rcases List.mem_cons.mp he with rfl | he
  · exact ⟨bytes, n, rfl⟩
  · exact h e he

theorem OnlyWrites.unpositioned {l : List Event} (h : OnlyWrites l) : Unpositioned l := by
  intro e he
  obtain ⟨bytes, n, rfl⟩ := h e he
  rfl

theorem OnlyWrites.handedOut {l : List Event} (h : OnlyWrites l) : handedOut l = [] := by
  refine List.flatMap_eq_nil_iff.mpr fun e he => ?_
  obtain ⟨bytes, n, rfl⟩ := h e he
  rfl

theorem OnlyWrites.not_muxed {l : List Event} (h : OnlyWrites l) (p : Packet (List UInt8)) :
    .muxed p ∉ l := by
  intro he
  obtain ⟨bytes, n, heq⟩ := h _ he
  cases heq

/-- Writes in a row are one write. -/
theorem foldl_onlyWrites {l : List Event} (h : OnlyWrites l) (origin : ℕ) {d : ByteFile}
    (hd : d.cursor ≤ d.content.length) :
    l.foldl (Event.onFile origin) d = d.overwrite (takenBytes l) := by
  induction l generalizing d with
  | nil => exact (ByteFile.overwrite_nil hd).symm
  | cons e l ih =>
    obtain ⟨bytes, n, rfl⟩ := h e List.mem_cons_self
    have htail : OnlyWrites l := fun e he => h e (List.mem_cons_of_mem _ he)
    show l.foldl _ (d.overwrite (bytes.take n)) = _
    rw [ih htail (ByteFile.cursor_overwrite_le hd _), ByteFile.overwrite_overwrite hd]
    rfl

/-- A trace without seeks appends. -/
theorem fileAfter_of_unpositioned {old : List UInt8} {trace : List Event}
    (h : Unpositioned trace) : fileAfter old trace = ByteFile.atEnd (old ++ takenBytes trace) := by
  -- from any point on, the rest of the trace appends
  have hrest : ∀ (l : List Event) (content : List UInt8), Unpositioned l →
      l.foldl (Event.onFile old.length) (ByteFile.atEnd content) =
        ByteFile.atEnd (content ++ takenBytes l) := by
    intro l
    induction l with
    | nil =>
      intro content _
      rw [takenBytes, List.flatMap_nil, List.append_nil]
      rfl
    | cons e l ih =>
      intro content hl
      have htail : Unpositioned l := fun e he => hl e (List.mem_cons_of_mem _ he)
      have hstep : Event.onFile old.length (ByteFile.atEnd content) e =
          ByteFile.atEnd (content ++ e.taken) := by
        cases e with
        | write bytes n => exact ByteFile.overwrite_end content _
        | position offset => cases hl _ List.mem_cons_self
        | emitted p => exact congrArg ByteFile.atEnd (List.append_nil content).symm
        | muxed p => exact congrArg ByteFile.atEnd (List.append_nil content).symm
        | muxFinished tail => exact congrArg ByteFile.atEnd (List.append_nil content).symm
        | pending bytes => exact congrArg ByteFile.atEnd (List.append_nil content).symm
        | flush => exact congrArg ByteFile.atEnd (List.append_nil content).symm
      rw [List.foldl_cons, hstep, ih _ htail, List.append_assoc]
      rfl
  exact hrest trace old h

theorem fileAfter_append (old : List UInt8) (l m : List Event) :
    fileAfter old (l ++ m) = m.foldl (Event.onFile old.length) (fileAfter old l) :=
  List.foldl_append

/-! ### Writing -/

/-- `Write::write` answers at most what it was given. -/
def Destination.Honest (destination : Destination Ω ε) : Prop :=
  ∀ bytes w n, (destination.write bytes w).1 = .ok n → n ≤ bytes.length

/-- A count of appended bytes: exact unless it would leave its 64 bits. -/
def Counted (emitted appended : ℕ) : Prop :=
  emitted ≤ appended ∧ (appended ≤ u64Max → emitted = appended)

theorem Counted.refl (n : ℕ) : Counted n n := ⟨Nat.le_refl n, fun _ => rfl⟩

/-- A recorded foreign call, with what it answered. -/
theorem spec_traced_run {event : Except ε α → Event} {x : Act Ω ε α} {Q : α → Traced Ω → Prop}
    {E : ε → Traced Ω → Prop} {t : Traced Ω}
    (hQ : ∀ a, (x t.1).1 = .ok a → ∀ w, Q a (w, t.2 ++ [event (.ok a)]))
    (hE : ∀ e w, E e (w, t.2 ++ [event (.error e)])) : Act.Spec (traced event x) Q E t := by
  refine Act.spec_of_run (fun a ha => ?_) (fun e he => ?_)
  · have hx : (x t.1).1 = .ok a := ha
    have := hQ a hx (x t.1).2
    rw [← hx] at this
    exact this
  · have hx : (x t.1).1 = .error e := he
    have := hE e (x t.1).2
    rw [← hx] at this
    exact this

theorem spec_stopped (pulse : Pulse Ω) {Q : Unit → Traced Ω → Prop}
    {E : OutputCause ε → Traced Ω → Prop} {t : Traced Ω} (hQ : ∀ w, Q () (w, t.2))
    (hE : ∀ e w, E e (w, t.2)) : Act.Spec (stopped (ε := ε) pulse) Q E t := by
  simp only [stopped, spec_untraced, Act.spec_mapError]
  exact spec_any (fun _ w => hQ w) (fun _ w => hE _ w)

/-- What `writeAll` does, however it ends: it takes the bytes, or some of them. -/
theorem writes_writeAll {destination : Destination Ω ε} (hhonest : destination.Honest)
    (pulse : Pulse Ω) (fuel : ℕ) (bytes : List UInt8) (t : ℕ × Traced Ω) :
    Act.Spec (writeAll destination pulse fuel bytes)
      (fun _ u => ∃ added, u.2.2 = t.2.2 ++ added ∧ OnlyWrites added ∧
        takenBytes added = bytes ∧ u.1 = t.1 + bytes.length)
      (fun _ u => ∃ added, u.2.2 = t.2.2 ++ added ∧ OnlyWrites added ∧
        takenBytes added <+: bytes ∧ Counted u.1 (t.1 + (takenBytes added).length)) t := by
  -- a stop before anything is written
  have hnone : ∀ (t : ℕ × Traced Ω) (bytes : List UInt8), ∃ added, t.2.2 = t.2.2 ++ added ∧
      OnlyWrites added ∧ takenBytes added <+: bytes ∧
        Counted t.1 (t.1 + (takenBytes added).length) :=
    fun t bytes => ⟨[], (List.append_nil _).symm, OnlyWrites.nil, List.nil_prefix,
      Counted.refl _⟩
  induction fuel generalizing bytes t with
  | zero => exact hnone t bytes
  | succ fuel ih =>
    unfold writeAll
    rw [Act.spec_ite]
    constructor
    · rintro rfl
      rw [spec_onWorld]
      refine spec_stopped pulse (fun w => ?_) (fun _ w => hnone (t.1, w, t.2.2) [])
      exact ⟨[], (List.append_nil _).symm, OnlyWrites.nil, rfl, rfl⟩
    · intro hne
      simp only [Act.spec_bind, spec_onWorld, Act.spec_attempt]
      refine spec_stopped pulse (fun w => ?_) (fun _ w => hnone (t.1, w, t.2.2) bytes)
      -- one write, and then the rest of the bytes
      refine spec_traced_run (fun n hn w' => ?_) (fun e w' => ?_)
      · have hle := hhonest bytes w n hn
        cases n with
        | zero =>
          exact ⟨[.write bytes 0], rfl, OnlyWrites.nil.cons bytes 0, List.nil_prefix,
            Counted.refl _⟩
        | succ n =>
          have htake : takenBytes [.write bytes (n + 1)] = bytes.take (n + 1) :=
            List.append_nil _
          have hlen : (bytes.take (n + 1)).length = n + 1 := by
            rw [List.length_take]
            omega
          simp only [Act.spec_ite, Act.spec_bind, Act.spec_get, Act.spec_getOr, Act.spec_modify]
          refine ⟨fun _ => ⟨fun count hcount => ?_, fun hover => ?_⟩, fun hgt => absurd hle hgt⟩
          · have hsum : count = t.1 + (n + 1) := by
              unfold checkedAdd at hcount
              split at hcount
              · exact (Option.some.inj hcount).symm
              · cases hcount
            refine (ih (bytes.drop (n + 1)) _).mono (fun _ u hu => ?_) (fun _ u hu => ?_)
            · obtain ⟨added, htrace, honly, htaken, hcounted⟩ := hu
              refine ⟨[.write bytes (n + 1)] ++ added, ?_, ?_, ?_, ?_⟩
              · rw [htrace]
                simp [Except.toOption]
              · exact honly.cons bytes (n + 1)
              · rw [takenBytes_append, htake, htaken, List.take_append_drop]
              · rw [hcounted, hsum, List.length_drop]
                omega
            · obtain ⟨added, htrace, honly, htaken, hcounted⟩ := hu
              refine ⟨[.write bytes (n + 1)] ++ added, ?_, ?_, ?_, ?_⟩
              · rw [htrace]
                simp [Except.toOption]
              · exact honly.cons bytes (n + 1)
              · rw [takenBytes_append, htake]
                obtain ⟨rest, hrest⟩ := htaken
                exact ⟨rest, by rw [List.append_assoc, hrest, List.take_append_drop]⟩
              · rw [takenBytes_append, htake, List.length_append, hlen]
                rw [hsum, Nat.add_assoc] at hcounted
                exact hcounted
          · -- the count would leave its range: the last write is not in it
            refine ⟨[.write bytes (n + 1)], rfl, OnlyWrites.nil.cons bytes (n + 1), ?_, ?_⟩
            · rw [htake]
              exact List.take_prefix _ _
            · have hgt : u64Max < t.1 + (n + 1) := by
                unfold checkedAdd at hover
                split at hover
                · cases hover
                · omega
              rw [htake, hlen]
              exact ⟨Nat.le_add_right _ _, fun hle => absurd hle (by omega)⟩
      · simp only [Act.spec_ite, Act.spec_fail]
        refine ⟨fun _ => ?_, fun _ => ?_⟩
        · refine (ih bytes _).mono (fun _ u hu => ?_) (fun _ u hu => ?_)
          · obtain ⟨added, htrace, honly, htaken, hcounted⟩ := hu
            refine ⟨[.write bytes 0] ++ added, ?_, ?_, htaken, hcounted⟩
            · rw [htrace]
              simp [Except.toOption]
            · exact honly.cons bytes 0
          · obtain ⟨added, htrace, honly, htaken, hcounted⟩ := hu
            refine ⟨[.write bytes 0] ++ added, ?_, ?_, htaken, hcounted⟩
            · rw [htrace]
              simp [Except.toOption]
            · exact honly.cons bytes 0
        · exact ⟨[.write bytes 0], rfl, OnlyWrites.nil.cons bytes 0, List.nil_prefix,
            Counted.refl _⟩

/-! ### Sending -/

/-- A packet on a track that is configured, of its epoch and on its clock. -/
def Configured (tracks : List TrackInfo) {π : Type} (packet : Packet π) : Prop :=
  ∃ track, tracks.find? (fun track => track.index == packet.track) = some track ∧
    packet.configEpoch = track.configEpoch ∧
    ∀ t, packet.pts = some t ∨ packet.dts = some t → t.base = track.timeBase

/-- What holds between the calls before `finish`; `live` is lost with the first failure. -/
structure Sending (base o : Output Ω ε) (trace : List Event) : Prop where
  destination : o.destination = base.destination
  tracks : o.tracks = base.tracks
  timing : o.timing = base.timing
  patches : o.stats.patches = 0
  patchBytes : o.stats.patchBytes = 0
  unpositioned : Unpositioned trace
  configured : ∀ p, .muxed p ∈ trace → Configured base.tracks p
  counted : Counted o.stats.emitted (takenBytes trace).length
  live : ∀ mux, o.mux = some mux →
    o.stats.emitted = (takenBytes trace).length ∧ takenBytes trace = handedOut trace

variable {base o : Output Ω ε} {trace : List Event}

theorem validatePacket_ok {packet : Packet PacketPayload}
    (h : o.validatePacket packet = .ok ()) : Configured o.tracks packet := by
  unfold Output.validatePacket at h
  cases hfind : o.tracks.find? (fun track => track.index == packet.track) with
  | none =>
    rw [hfind] at h
    cases h
  | some track =>
    rw [hfind] at h
    simp only at h
    split at h
    · cases h
    · next hepoch =>
      split at h
      · cases h
      · next hclock =>
        refine ⟨track, hfind, Decidable.not_not.mp hepoch, fun t ht => ?_⟩
        by_contra hbase
        refine hclock (List.any_eq_true.mpr ⟨t, ?_, bne_iff_ne.mpr hbase⟩)
        rcases ht with ht | ht
        · exact List.reduceOption_mem_iff.mpr (by rw [ht]; exact List.mem_cons_self)
        · exact List.reduceOption_mem_iff.mpr (by
            rw [ht]
            exact List.mem_cons_of_mem _ List.mem_cons_self)

theorem Configured.contents {tracks : List TrackInfo} {packet : Packet PacketPayload}
    (h : Configured tracks packet) : Configured tracks packet.contents := h

/-- Draining a muxer that was taken out keeps the file the old one and what was taken; a drain
that succeeds takes all that is pending. -/
theorem sending_drain (hhonest : base.destination.Honest) (mux : Muxer Ω ε) (pulse : Pulse Ω)
    (fuel : ℕ) {w : Ω} (h : Sending base o trace) (hmux : o.mux = none)
    (hcount : o.stats.emitted = (takenBytes trace).length)
    (hall : takenBytes trace = handedOut trace) :
    Act.Spec (Output.drain mux pulse fuel)
      (fun _ u => Sending base { u.1 with mux := some mux } u.2.2 ∧ u.1.mux = none)
      (fun _ u => Sending base u.1 u.2.2 ∧ u.1.mux = none) (o, w, trace) := by
  have hhonest' : o.destination.Honest := by
    rw [h.destination]
    exact hhonest
  simp only [Output.drain, Output.sawPending, Output.append, Act.spec_bind, Act.spec_get,
    Act.spec_modify, Act.spec_focus]
  generalize hbytes : mux.pendingOutput w = bytes
  have hpending : Unpositioned (trace ++ [.pending bytes]) :=
    h.unpositioned.append (Unpositioned.singleton rfl)
  have hmuxed : ∀ (added : List Event) (p : Packet (List UInt8)), OnlyWrites added →
      .muxed p ∈ trace ++ [.pending bytes] ++ added → Configured base.tracks p := by
    intro added p honly hp
    rcases List.mem_append.mp hp with hp | hp
    · rcases List.mem_append.mp hp with hp | hp
      · exact h.configured p hp
      · cases List.mem_singleton.mp hp
    · exact absurd hp (honly.not_muxed p)
  have hbefore : takenBytes (trace ++ [.pending bytes]) = takenBytes trace := by
    rw [takenBytes_append]
    exact List.append_nil _
  refine (writes_writeAll hhonest' pulse fuel bytes _).mono (fun _ u hu => ?_) (fun _ u hu => ?_)
  · obtain ⟨added, htrace, honly, htaken, hcounted⟩ := hu
    have htotal : takenBytes u.2.2 = takenBytes trace ++ bytes := by
      rw [htrace, takenBytes_append, htaken, hbefore]
    have hexact : u.1 = (takenBytes u.2.2).length := by
      rw [hcounted, htotal, List.length_append, ← hcount]
    refine ⟨⟨h.destination, h.tracks, h.timing, h.patches, h.patchBytes, ?_, ?_, ?_, ?_⟩, hmux⟩
    · show Unpositioned u.2.2
      rw [htrace]
      exact hpending.append honly.unpositioned
    · intro p hp
      exact hmuxed added p honly (htrace ▸ hp)
    · show Counted u.1 _
      rw [hexact]
      exact Counted.refl _
    · intro mux' _
      refine ⟨hexact, ?_⟩
      show takenBytes u.2.2 = handedOut u.2.2
      rw [htotal, htrace, handedOut_append, handedOut_append, honly.handedOut, hall,
        List.append_nil]
      exact congrArg _ (List.append_nil _).symm
  · obtain ⟨added, htrace, honly, htaken, hcounted⟩ := hu
    refine ⟨⟨h.destination, h.tracks, h.timing, h.patches, h.patchBytes, ?_, ?_, ?_, ?_⟩, hmux⟩
    · show Unpositioned u.2.2
      rw [htrace]
      exact hpending.append honly.unpositioned
    · intro p hp
      exact hmuxed added p honly (htrace ▸ hp)
    · show Counted u.1 (takenBytes u.2.2).length
      rw [htrace, takenBytes_append, hbefore, List.length_append, ← hcount]
      exact hcounted
    · intro mux' hmux'
      cases hmux.symm.trans hmux'

/-- The muxer is there and taken out, or there is none and nothing changes. -/
theorem spec_takeMux_run (stage : OutputStage) {w : Traced Ω}
    {Q : Muxer Ω ε → Output Ω ε × Traced Ω → Prop}
    {E : OutputFailure ε → Output Ω ε × Traced Ω → Prop}
    (hQ : ∀ mux, o.mux = some mux → Q mux ({ o with mux := none }, w))
    (hE : o.mux = none → E ⟨stage, o.stats.emitted, .session .finished⟩ (o, w)) :
    Act.Spec (Output.takeMux stage) Q E (o, w) := by
  simp only [Output.takeMux, Act.spec_bind, Act.spec_get, Act.spec_modify, spec_failing,
    Act.spec_getOr]
  refine ⟨hQ, fun hnone => ?_⟩
  have hsame : { o with mux := none } = o := by
    obtain ⟨mux, destination, tracks, timing, exact, stats⟩ := o
    obtain rfl : mux = none := hnone
    rfl
  rw [hsame]
  exact hE hnone

/-- The invariant without a muxer. -/
theorem Sending.taken (h : Sending base o trace) : Sending base { o with mux := none } trace :=
  ⟨h.destination, h.tracks, h.timing, h.patches, h.patchBytes, h.unpositioned, h.configured,
    h.counted, fun _ hmux => by cases hmux⟩

/-- Every failure ends the driver and reports the bytes it counted. -/
def Ends (e : OutputFailure ε) (o : Output Ω ε) : Prop :=
  o.mux = none ∧ e.emitted = o.stats.emitted

/-- Publication. -/
theorem sending_publish (hhonest : base.destination.Honest) (pulse : Pulse Ω) (fuel : ℕ) {w : Ω}
    (h : Sending base o trace) :
    Act.Spec (PreparedOutput.publish pulse fuel) (fun _ u => Sending base u.1 u.2.2)
      (fun e u => Sending base u.1 u.2.2 ∧ Ends e u.1) (o, w, trace) := by
  simp only [PreparedOutput.publish, Act.spec_bind, spec_failing, Act.spec_modify]
  refine spec_takeMux_run _ (fun mux hmux => ?_) (fun hnone => ⟨h, hnone, rfl⟩)
  obtain ⟨hcount, hall⟩ := h.live mux hmux
  exact (sending_drain hhonest mux pulse fuel h.taken rfl hcount hall).mono
    (fun _ u hu => hu.1) (fun _ u hu => ⟨hu.1, hu.2, rfl⟩)

/-- Sending a packet. -/
theorem sending_send (hhonest : base.destination.Honest) (packet : Packet PacketPayload)
    (pulse : Option (Pulse Ω)) (noPulse : Pulse Ω) (fuel : ℕ) {w : Ω} (h : Sending base o trace) :
    Act.Spec (Output.send packet pulse noPulse fuel) (fun _ u => Sending base u.1 u.2.2)
      (fun e u => Sending base u.1 u.2.2 ∧ Ends e u.1) (o, w, trace) := by
  simp only [Output.send, Act.spec_bind]
  refine spec_takeMux_run _ (fun mux hmux => ?_) (fun hnone => ⟨h, hnone, rfl⟩)
  obtain ⟨hcount, hall⟩ := h.live mux hmux
  simp only [spec_failing, Act.spec_bind, spec_onWorld, Act.spec_get, Act.spec_lift,
    Act.spec_mapError, Act.spec_modify]
  refine spec_stopped _ (fun w => ⟨fun _ hvalid => ?_, fun _ _ => ⟨h.taken, rfl, rfl⟩⟩)
    (fun _ w => ⟨h.taken, rfl, rfl⟩)
  -- the packet was valid when it reached the muxer
  have hpacket : Configured base.tracks packet.contents := by
    have hconfigured := validatePacket_ok hvalid
    rw [← h.tracks]
    exact hconfigured.contents
  have hmuxed : Sending base { o with mux := none } (trace ++ [.muxed packet.contents]) := by
    have htaken : takenBytes (trace ++ [.muxed packet.contents]) = takenBytes trace := by
      rw [takenBytes_append]
      exact List.append_nil _
    refine ⟨h.destination, h.tracks, h.timing, h.patches, h.patchBytes,
      h.unpositioned.append (Unpositioned.singleton rfl), fun p hp => ?_, ?_,
      fun _ hmux => by cases hmux⟩
    · rcases List.mem_append.mp hp with hp | hp
      · exact h.configured p hp
      · obtain rfl := Event.muxed.inj (List.mem_singleton.mp hp)
        exact hpacket
    · rw [htaken]
      exact h.counted
  refine spec_traced (fun _ w => ?_) (fun _ w => ⟨hmuxed, rfl, rfl⟩)
  have hcount' : o.stats.emitted = (takenBytes (trace ++ [.muxed packet.contents])).length := by
    rw [hcount, takenBytes_append]
    exact congrArg List.length (List.append_nil _).symm
  have hall' : takenBytes (trace ++ [.muxed packet.contents]) =
      handedOut (trace ++ [.muxed packet.contents]) := by
    rw [takenBytes_append, handedOut_append, hall]
    rfl
  exact (sending_drain hhonest mux _ fuel hmuxed rfl hcount' hall').mono
    (fun _ u hu => hu.1) (fun _ u hu => ⟨hu.1, hu.2, rfl⟩)

/-- A driver that has failed does nothing. -/
theorem send_dead (packet : Packet PacketPayload) (pulse : Option (Pulse Ω)) (noPulse : Pulse Ω)
    (fuel : ℕ) {w : Ω} (hnone : o.mux = none) :
    Act.Spec (Output.send packet pulse noPulse fuel) (fun _ _ => False)
      (fun _ u => u = (o, w, trace)) (o, w, trace) := by
  simp only [Output.send, Act.spec_bind]
  refine spec_takeMux_run _ (fun mux hmux => ?_) (fun _ => rfl)
  cases hnone.symm.trans hmux

/-! ### The finish -/

/-- The file where the output is `s`. -/
def Shows (old s : List UInt8) (trace : List Event) : Prop :=
  (fileAfter old trace).content = old ++ s

theorem shows_of_unpositioned (old : List UInt8) (h : Unpositioned trace) :
    Shows old (takenBytes trace) trace := by
  unfold Shows
  rw [fileAfter_of_unpositioned h]
  rfl

/-- A trace that seeks nowhere and writes nothing leaves the file. -/
theorem Shows.append_position {old s : List UInt8} (h : Shows old s trace) (offset : ℕ) :
    Shows old s (trace ++ [.position offset]) := by
  unfold Shows
  rw [fileAfter_append]
  exact h

/-- Patches written one after the other. -/
def patched (patches : List Patch) (s : List UInt8) : Option (List UInt8) :=
  patches.foldlM (fun s patch => splice s patch.offset patch.bytes) s

/-- Writes at an offset replace what stands there. -/
theorem shows_writes {old s : List UInt8} {added : List Event} (h : Shows old s trace)
    (honly : OnlyWrites added) (offset : ℕ)
    (hfit : offset + (takenBytes added).length ≤ s.length) :
    ∃ s', splice s offset (takenBytes added) = some s' ∧
      Shows old s' (trace ++ [.position offset] ++ added) := by
  refine ⟨_, if_pos hfit, ?_⟩
  have hfile : fileAfter old (trace ++ [.position offset]) =
      ⟨old ++ s, old.length + offset⟩ := by
    rw [fileAfter_append, ← show (fileAfter old trace).content = old ++ s from h]
    rfl
  unfold Shows
  rw [fileAfter_append, hfile, foldl_onlyWrites honly, ByteFile.overwrite_splice (if_pos hfit)]
  show old.length + offset ≤ (old ++ s).length
  rw [List.length_append]
  omega

/-- What the end of an output adds to a trace: no packets, and seeks only where `seeks`. -/
def Closing (seeks : Bool) (trace trace' : List Event) : Prop :=
  (∀ p, .muxed p ∈ trace' → .muxed p ∈ trace) ∧
    (seeks = false → Unpositioned trace → Unpositioned trace')

theorem Closing.refl (seeks : Bool) (trace : List Event) : Closing seeks trace trace :=
  ⟨fun _ hp => hp, fun _ h => h⟩

theorem Closing.trans {seeks : Bool} {l m n : List Event} (hl : Closing seeks l m)
    (hm : Closing seeks m n) : Closing seeks l n :=
  ⟨fun p hp => hl.1 p (hm.1 p hp), fun hseeks h => hm.2 hseeks (hl.2 hseeks h)⟩

theorem Closing.writes {added : List Event} (h : OnlyWrites added) (seeks : Bool) :
    Closing seeks trace (trace ++ added) := by
  refine ⟨fun p hp => ?_, fun _ ht => ht.append h.unpositioned⟩
  rcases List.mem_append.mp hp with hp | hp
  · exact hp
  · exact absurd hp (h.not_muxed p)

theorem Closing.event {e : Event} (hmux : e.mux = none) {seeks : Bool}
    (hpos : seeks = false → e.positions = false) : Closing seeks trace (trace ++ [e]) := by
  refine ⟨fun p hp => ?_, fun hseeks ht => ht.append (Unpositioned.singleton (hpos hseeks))⟩
  rcases List.mem_append.mp hp with hp | hp
  · exact hp
  · obtain rfl := List.mem_singleton.mp hp
    cases hmux

theorem Closing.of_true {l m : List Event} (h : Closing true l m) (seeks : Bool)
    (hseeks : seeks = true) : Closing seeks l m := hseeks ▸ h

/-- A failure behind the tail: as much is there as before, and so many bytes are reported. -/
def LeavesLength (old s : List UInt8) (n : ℕ) (seeks : Bool) (trace : List Event)
    (e : OutputFailure ε) (trace' : List Event) : Prop :=
  (∃ s', s'.length = s.length ∧ Shows old s' trace') ∧ e.emitted = n ∧ Closing seeks trace trace'

/-- The patches replace what stands at their offsets; a failure leaves the length. -/
theorem spec_applyPatches (pulse : Pulse Ω) (fuel : ℕ) {old s : List UInt8} {patches : List Patch}
    (hhonest : o.destination.Honest) {w : Ω} (h : Shows old s trace)
    (hfit : ∀ patch ∈ patches, patch.offset + patch.bytes.length ≤ s.length) :
    Act.Spec (Output.applyPatches pulse fuel patches)
      (fun _ u => (∃ s', patched patches s = some s' ∧ Shows old s' u.2.2) ∧
        u.1 = { o with stats := { o.stats with patchBytes := o.stats.patchBytes +
          (patches.map fun patch => patch.bytes.length).sum } } ∧
        Closing (decide (0 < patches.length)) trace u.2.2)
      (fun e u => LeavesLength old s o.stats.emitted (decide (0 < patches.length)) trace e u.2.2)
      (o, w, trace) := by
  induction patches generalizing o w trace s with
  | nil => exact ⟨⟨s, rfl, h⟩, rfl, Closing.refl _ _⟩
  | cons patch patches ih =>
    have hpatch := hfit patch List.mem_cons_self
    have hseeks : decide (0 < (patch :: patches).length) = true := decide_eq_true (by simp)
    rw [hseeks]
    simp only [Output.applyPatches, Act.spec_bind, Act.spec_get, spec_failing, spec_onWorld,
      Act.spec_mapError, Act.spec_withLocal, Act.spec_pure, Act.spec_modify]
    have hposition : Closing true trace (trace ++ [.position patch.offset]) :=
      Closing.event rfl fun hseeks => by cases hseeks
    refine spec_traced (fun _ w => ?_) (fun _ w =>
      ⟨⟨s, rfl, h.append_position _⟩, rfl, hposition⟩)
    refine (writes_writeAll hhonest pulse fuel patch.bytes _).mono (fun _ u hu => ?_)
      (fun _ u hu => ?_)
    · obtain ⟨written, hwritten, honly, htaken, -⟩ := hu
      obtain ⟨s', hsplice, hshows⟩ := shows_writes h honly patch.offset (by rw [htaken]; exact hpatch)
      rw [htaken] at hsplice
      have hclosing : Closing true trace u.2.2 := by
        rw [hwritten]
        exact hposition.trans (Closing.writes honly true)
      have hlen := length_splice hsplice
      rw [← show u.2.2 = trace ++ [.position patch.offset] ++ written from hwritten] at hshows
      have hrest : ∀ p ∈ patches, p.offset + p.bytes.length ≤ s'.length := by
        intro p hp
        rw [hlen]
        exact hfit p (List.mem_cons_of_mem _ hp)
      refine (ih (o := { o with stats := { o.stats with
        patchBytes := o.stats.patchBytes + patch.bytes.length } }) hhonest hshows hrest).mono
        (fun _ v hv => ?_) (fun _ v hv => ?_)
      · obtain ⟨⟨s'', hpatched, hshows'⟩, hstats, hclosed⟩ := hv
        refine ⟨⟨s'', ?_, hshows'⟩, ?_, hclosing.trans ⟨hclosed.1, fun hfalse => by cases hfalse⟩⟩
        · unfold patched at hpatched ⊢
          rw [List.foldlM_cons, hsplice]
          exact hpatched
        · rw [hstats, List.map_cons, List.sum_cons, ← Nat.add_assoc]
      · obtain ⟨⟨s'', hlen', hshows'⟩, hemitted, hclosed⟩ := hv
        exact ⟨⟨s'', hlen'.trans hlen, hshows'⟩, hemitted,
          hclosing.trans ⟨hclosed.1, fun hfalse => by cases hfalse⟩⟩
    · obtain ⟨written, hwritten, honly, htaken, -⟩ := hu
      have hle := htaken.length_le
      obtain ⟨s', hsplice, hshows⟩ := shows_writes h honly patch.offset (by omega)
      refine ⟨⟨s', length_splice hsplice, ?_⟩, rfl, ?_⟩
      · show Shows old s' u.2.2
        rw [hwritten]
        exact hshows
      · show Closing true trace u.2.2
        rw [hwritten]
        exact hposition.trans (Closing.writes honly true)

/-- A finished output: the statistics, the file and the trace. -/
def ClosesAt (old : List UInt8) (total : ℕ) (seeks : Bool) (trace : List Event) (s stats : Stats)
    (trace' : List Event) : Prop :=
  stats = s ∧ fileAfter old trace' =
    (if seeks then (fileAfter old trace).seek (old.length + total) else fileAfter old trace) ∧
    Closing seeks trace trace'

/-- A failure that leaves the file. -/
def LeavesFile (old : List UInt8) (n : ℕ) (seeks : Bool) (trace : List Event)
    (e : OutputFailure ε) (trace' : List Event) : Prop :=
  (fileAfter old trace').content = (fileAfter old trace).content ∧ e.emitted = n ∧
    Closing seeks trace trace'

/-- The end of `finish` moves the position only. -/
theorem spec_close (old : List UInt8) (seeks : Bool) (total : ℕ) (pulse : Pulse Ω) {w : Ω} :
    Act.Spec (Output.close seeks total pulse)
      (fun stats u => ClosesAt old total seeks trace o.stats stats u.2.2)
      (fun e u => LeavesFile old o.stats.emitted seeks trace e u.2.2) (o, w, trace) := by
  -- what follows the last seek
  have hflush : ∀ (w : Ω) (trace' : List Event), Closing seeks trace trace' →
      (fileAfter old trace').content = (fileAfter old trace).content →
      fileAfter old trace' =
        (if seeks then (fileAfter old trace).seek (old.length + total) else fileAfter old trace) →
      Act.Spec (stopped (ε := ε) pulse)
        (fun _ v => Act.Spec (traced (fun _ => .flush) o.destination.flush)
          (fun _ v => Act.Spec (stopped (ε := ε) pulse)
            (fun _ v => ClosesAt old total seeks trace o.stats o.stats v.2)
            (fun e v => LeavesFile old o.stats.emitted seeks trace
              ⟨.finish, o.stats.emitted, e⟩ v.2) v)
          (fun e v => LeavesFile old o.stats.emitted seeks trace
            ⟨.finish, o.stats.emitted, .io e⟩ v.2) v)
        (fun e v => LeavesFile old o.stats.emitted seeks trace ⟨.finish, o.stats.emitted, e⟩ v.2)
        (w, trace') := by
    intro w trace' hclosing hcontent hfile
    have hclosed : Closing seeks trace (trace' ++ [.flush]) :=
      hclosing.trans (Closing.event rfl fun _ => rfl)
    have hsame : fileAfter old (trace' ++ [.flush]) = fileAfter old trace' := by
      rw [fileAfter_append]
      rfl
    refine spec_stopped _ (fun w => ?_) (fun _ w => ⟨hcontent, rfl, hclosing⟩)
    refine spec_traced (fun _ w => ?_) (fun _ w => ⟨by rw [hsame]; exact hcontent, rfl, hclosed⟩)
    exact spec_stopped _ (fun w => ⟨rfl, by rw [hsame]; exact hfile, hclosed⟩)
      (fun _ w => ⟨by rw [hsame]; exact hcontent, rfl, hclosed⟩)
  simp only [Output.close, Act.spec_bind, Act.spec_get, spec_failing, spec_onWorld,
    Act.spec_mapError, Act.spec_pure, Act.spec_ite]
  have hsought : fileAfter old (trace ++ [.position total]) =
      (fileAfter old trace).seek (old.length + total) := by
    rw [fileAfter_append]
    rfl
  refine ⟨fun hseeks => ?_, fun hseeks => ?_⟩
  · have hclosing : Closing seeks trace (trace ++ [.position total]) :=
      Closing.event rfl fun hfalse => by rw [hseeks] at hfalse; cases hfalse
    refine spec_traced (fun _ w => ?_) (fun _ w => ⟨by rw [hsought]; rfl, rfl, hclosing⟩)
    refine hflush w (trace ++ [.position total]) hclosing (by rw [hsought]; rfl) ?_
    rw [hsought, if_pos hseeks]
  · exact hflush w trace (Closing.refl _ _) rfl (if_neg hseeks).symm

theorem length_patched {patches : List Patch} {s s' : List UInt8}
    (h : patched patches s = some s') : s'.length = s.length := by
  unfold patched at h
  induction patches generalizing s with
  | nil =>
    obtain rfl := Option.some.inj h
    rfl
  | cons patch patches ih =>
    rw [List.foldlM_cons] at h
    obtain ⟨t, ht, hrest⟩ := Option.bind_eq_some_iff.mp h
    exact (ih hrest).trans (length_splice ht)

theorem validate_ok {f : MuxFinish} {emitted total : ℕ} (h : f.validate emitted = .ok total) :
    total = emitted + f.tail.length ∧
      ∀ patch ∈ f.patches, patch.offset + patch.bytes.length ≤ total := by
  have hadd : ∀ {a b c : ℕ}, checkedAdd a b = some c → c = a + b := by
    intro a b c hc
    unfold checkedAdd at hc
    split at hc
    · exact (Option.some.inj hc).symm
    · cases hc
  unfold MuxFinish.validate at h
  split at h
  · cases h
  · next sum hsum =>
    split at h
    · next hall =>
      obtain rfl := Except.ok.inj h
      refine ⟨hadd hsum, fun patch hpatch => ?_⟩
      have hcheck := List.all_eq_true.mp hall patch hpatch
      cases hstop : checkedAdd patch.offset patch.bytes.length with
      | none =>
        rw [hstop] at hcheck
        cases hcheck
      | some stop =>
        rw [hstop] at hcheck
        rw [← hadd hstop]
        exact of_decide_eq_true hcheck
    · cases h

/-- Only configured packets reached the muxer, and only a destination that can patch was
positioned. -/
def Kept (base : Output Ω ε) (trace : List Event) : Prop :=
  (∀ p, .muxed p ∈ trace → Configured base.tracks p) ∧
    (base.destination.canPatch = false → Unpositioned trace)

theorem Sending.kept (h : Sending base o trace) : Kept base trace :=
  ⟨h.configured, fun _ => h.unpositioned⟩

theorem Kept.closing {trace' : List Event} (h : Kept base trace) {seeks : Bool}
    (hclosing : Closing seeks trace trace')
    (hseeks : base.destination.canPatch = false → seeks = false) : Kept base trace' :=
  ⟨fun p hp => h.1 p (hclosing.1 p hp), fun hpatch => hclosing.2 (hseeks hpatch) (h.2 hpatch)⟩

/-- A failure reports what it counted of the bytes that were appended to `old`. -/
def Failed (base : Output Ω ε) (old : List UInt8) (e : OutputFailure ε) (trace : List Event) :
    Prop :=
  (∃ s, Shows old s trace ∧ Counted e.emitted s.length) ∧ Kept base trace

theorem Sending.failed (h : Sending base o trace) (old : List UInt8) {e : OutputFailure ε}
    (he : e.emitted = o.stats.emitted) : Failed base old e trace :=
  ⟨⟨takenBytes trace, shows_of_unpositioned old h.unpositioned, he ▸ h.counted⟩, h.kept⟩

/-- A success: what the muxer handed out and its tail, patched, behind `old`. -/
def Finished (base : Output Ω ε) (old : List UInt8) (o : Output Ω ε) (pulse : Option (Pulse Ω))
    (trace : List Event) (stats : Stats) (trace' : List Event) : Prop :=
  ∃ mux w f s, o.mux = some mux ∧ (mux.finish pulse w).1 = .ok f ∧
    patched f.patches (handedOut trace ++ f.tail) = some s ∧
    fileAfter old trace' = ByteFile.atEnd (old ++ s) ∧
    stats.emitted = s.length ∧ stats.patches = f.patches.length ∧
    stats.patchBytes = (f.patches.map fun patch => patch.bytes.length).sum ∧ Kept base trace'

/-- The finish of an output. -/
theorem written_finish (hhonest : base.destination.Honest) (pulse : Option (Pulse Ω))
    (noPulse : Pulse Ω) (fuel : ℕ) (old : List UInt8) {w : Ω} (h : Sending base o trace) :
    Act.Spec (Output.finish pulse noPulse fuel)
      (fun stats u => Finished base old o pulse trace stats u.2.2)
      (fun e u => Failed base old e u.2.2) (o, w, trace) := by
  have hhonest' : o.destination.Honest := by
    rw [h.destination]
    exact hhonest
  simp only [Output.finish, Act.spec_bind]
  refine spec_takeMux_run _ (fun mux hmux => ?_) (fun _ => h.failed old rfl)
  obtain ⟨hcount, hall⟩ := h.live mux hmux
  simp only [spec_failing, spec_onWorld, Act.spec_get, Act.spec_lift, Act.spec_mapError,
    Act.spec_modify, Act.spec_require, Output.sawPending, Output.append, Act.spec_focus]
  refine spec_stopped _ (fun w => ?_) (fun _ w => h.failed old rfl)
  -- the muxer has no more to say than its tail and its patches
  have hafter : ∀ tail, Sending base { o with mux := none } (trace ++ [.muxFinished tail]) := by
    intro tail
    have htaken : takenBytes (trace ++ [.muxFinished tail]) = takenBytes trace := by
      rw [takenBytes_append]
      exact List.append_nil _
    refine ⟨h.destination, h.tracks, h.timing, h.patches, h.patchBytes,
      h.unpositioned.append (Unpositioned.singleton rfl), fun p hp => ?_, ?_,
      fun _ hmux => by cases hmux⟩
    · rcases List.mem_append.mp hp with hp | hp
      · exact h.configured p hp
      · cases List.mem_singleton.mp hp
    · rw [htaken]
      exact h.counted
  refine spec_traced_run (fun f hf w' => ?_) (fun _ w => (hafter []).failed old rfl)
  have hsending := hafter f.tail
  refine ⟨fun total htotal => ⟨fun hlayout => ?_, fun _ => hsending.failed old rfl⟩,
    fun _ _ => hsending.failed old rfl⟩
  have htotal' : f.validate o.stats.emitted = .ok total := by
    cases hvalid : f.validate o.stats.emitted with
    | error e =>
      rw [hvalid] at htotal
      cases htotal
    | ok n =>
      rw [hvalid] at htotal
      exact congrArg Except.ok (Except.ok.inj htotal)
  obtain ⟨hsum, hfit⟩ := validate_ok htotal'
  have hseeks : base.destination.canPatch = false → decide (0 < f.patches.length) = false := by
    intro hpatch
    rw [← h.destination] at hpatch
    have hempty : f.patches.isEmpty = true := by
      rw [hpatch, Bool.false_and, Bool.or_false] at hlayout
      exact hlayout
    rw [List.isEmpty_iff.mp hempty]
    rfl
  have htaken : takenBytes (trace ++ [.muxFinished f.tail]) = takenBytes trace :=
    (takenBytes_append _ _).trans (List.append_nil _)
  -- the tail
  refine (writes_writeAll hhonest' _ fuel f.tail _).mono (fun _ u hu => ?_) (fun _ u hu => ?_)
  · obtain ⟨added, htrace, honly, hadded, hcounted⟩ := hu
    have hunpos : Unpositioned u.2.2 := by
      rw [htrace]
      exact hsending.unpositioned.append honly.unpositioned
    have hstream : takenBytes u.2.2 = handedOut trace ++ f.tail := by
      rw [htrace, takenBytes_append, hadded, ← hall]
      exact congrArg (· ++ f.tail) htaken
    have hshows : Shows old (handedOut trace ++ f.tail) u.2.2 := by
      rw [← hstream]
      exact shows_of_unpositioned old hunpos
    have hemitted : u.1 = (handedOut trace ++ f.tail).length := by
      rw [hcounted, List.length_append, ← hall, ← hcount]
    have hlength : total = (handedOut trace ++ f.tail).length := by
      rw [hsum, List.length_append, ← hall, ← hcount]
    have hkept : Kept base u.2.2 := by
      rw [htrace]
      exact hsending.kept.closing (Closing.writes honly false) fun _ => rfl
    have hfit' : ∀ patch ∈ f.patches,
        patch.offset + patch.bytes.length ≤ (handedOut trace ++ f.tail).length := by
      rw [← hlength]
      exact hfit
    refine (spec_applyPatches _ fuel (by exact hhonest') hshows hfit').mono (fun _ v hv => ?_)
      (fun e v hv => ?_)
    · obtain ⟨⟨s, hpatched, hpshows⟩, hv, hclosing⟩ := hv
      have hlen := length_patched hpatched
      refine (spec_close old _ total _).mono (fun stats x hx => ?_) (fun e x hx => ?_)
      · obtain ⟨hstats, hfile, hclosed⟩ := hx
        refine ⟨mux, _, f, s, hmux, hf, hpatched, ?_, ?_, ?_, ?_,
          (hkept.closing hclosing hseeks).closing hclosed hseeks⟩
        · rw [hfile]
          split
          · -- the last seek goes to the end
            have hcontent : (fileAfter old v.2.2).content = old ++ s := hpshows
            unfold ByteFile.seek ByteFile.atEnd
            rw [hcontent, List.length_append, hlen, hlength]
          · next hnone =>
            have hempty : f.patches = [] := by
              cases hpatches : f.patches with
              | nil => rfl
              | cons patch patches =>
                rw [hpatches] at hnone
                exact absurd (decide_eq_true (by simp)) hnone
            have hsame : s = handedOut trace ++ f.tail := by
              rw [hempty] at hpatched
              exact (Option.some.inj hpatched).symm
            have hunpos' : Unpositioned v.2.2 := hclosing.2 (by rw [hempty]; rfl) hunpos
            have hcontent : (fileAfter old v.2.2).content = old ++ s := hpshows
            rw [fileAfter_of_unpositioned hunpos'] at hcontent ⊢
            exact congrArg ByteFile.atEnd hcontent
        · rw [hstats, hv, hlen]
          exact hemitted
        · rw [hstats, hv]
        · rw [hstats, hv]
          exact (congrArg (· + _) h.patchBytes).trans (Nat.zero_add _)
      · obtain ⟨hcontent, hreported, hclosed⟩ := hx
        refine ⟨⟨s, ?_, ?_⟩, (hkept.closing hclosing hseeks).closing hclosed hseeks⟩
        · exact hcontent.trans hpshows
        · rw [hreported, hv, hlen]
          exact (show Counted u.1 _ from hemitted ▸ Counted.refl _)
    · obtain ⟨⟨s, hlen, hpshows⟩, hreported, hclosing⟩ := hv
      refine ⟨⟨s, hpshows, ?_⟩, hkept.closing hclosing hseeks⟩
      rw [hreported, hlen]
      exact (show Counted u.1 _ from hemitted ▸ Counted.refl _)
  · obtain ⟨added, htrace, honly, hadded, hcounted⟩ := hu
    have hunpos : Unpositioned u.2.2 := by
      rw [htrace]
      exact hsending.unpositioned.append honly.unpositioned
    refine ⟨⟨takenBytes u.2.2, shows_of_unpositioned old hunpos, ?_⟩, ?_⟩
    · show Counted u.1 _
      rw [htrace, takenBytes_append, List.length_append]
      have hbefore : (takenBytes (trace ++ [.muxFinished f.tail])).length = o.stats.emitted := by
        rw [htaken, hcount]
      have hcounted' : Counted u.1 (o.stats.emitted + (takenBytes added).length) := hcounted
      rw [← hbefore] at hcounted'
      exact hcounted'
    · show Kept base u.2.2
      rw [htrace]
      exact hsending.kept.closing (Closing.writes honly false) fun _ => rfl

end Zencodec.Media
