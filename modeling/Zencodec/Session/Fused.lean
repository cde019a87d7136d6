/-
`FusedDecoder` and `FusedEncoder`: sessions whose errors are terminal.

Both hold the native session and a flag. `guard` is their common entry: it refuses once
the flag is up, raises it for the time of the call and lowers it on success. A decoder's
`reset` goes round the guard and may reopen the session; an encoder has no reset.

* `FusedDecoder.run_failed`, `FusedEncoder.run_failed` — after an error every call is
  refused without a native call, for a decoder until the next reset;
* `adapters_terminal` — the guarantees of all three adapters together.
-/
import Zencodec.Lib.Runs
import Zencodec.Incremental.Terminal
import Zencodec.Session.Protocol

open Runs Zencodec.Incremental

namespace Zencodec.Session

variable {σ χ π φ ε α Ω : Type}

/-- A native session and whether it has failed. -/
structure FusedSession (σ : Type) where
  inner : σ
  failed : Bool

/-- One call through the guard. -/
def guard (pulse : Option (Pulse Ω)) (f : σ → Ω → Except (SessionError ε) α × σ × Ω)
    (self : FusedSession σ) (w : Ω) : Except (SessionError ε) α × FusedSession σ × Ω :=
  if self.failed then (.error .finished, self, w)
  else
    match checkPulse pulse w with
    | (.error reason, w) => (.error (.cancelled reason), { self with failed := true }, w)
    | (.ok _, w) =>
      let (r, inner, w) := f self.inner w
      (r, ⟨inner, !r.isOk⟩, w)

/-! ### The decoder -/

namespace FusedDecoder

variable (dec : NativeVideoDecoder σ χ π φ ε)

def configure (config : χ) (pulse : Option (Pulse Ω)) :
    FusedSession σ → Ω → Except (SessionError ε) Unit × FusedSession σ × Ω :=
  guard pulse (dec.configure config pulse)

def send (packet : π) (pulse : Option (Pulse Ω)) (self : FusedSession σ) (w : Ω) :
    Except (SessionError ε) SendStatus × FusedSession σ × Ω × π :=
  guard (pulse.map Pulse.beside) (dec.send pulse) self (w, packet)

def receive (pulse : Option (Pulse Ω)) :
    FusedSession σ → Ω → Except (SessionError ε) (Receive φ) × FusedSession σ × Ω :=
  guard pulse (dec.receive pulse)

/-- No pulse is polled here. -/
def endInput (self : FusedSession σ) : Except (SessionError ε) Unit × FusedSession σ :=
  if self.failed then (.error .finished, self)
  else
    let (r, inner) := dec.endInput self.inner
    (r, ⟨inner, !r.isOk⟩)

/-- Whatever happened before, the native session is asked to reset. -/
def reset (self : FusedSession σ) : Except (SessionError ε) Unit × FusedSession σ :=
  let (r, inner) := dec.reset self.inner
  (r, ⟨inner, !r.isOk⟩)

end FusedDecoder

inductive DecoderOp (χ π Ω : Type) where
  | configure (config : χ) (pulse : Option (Pulse Ω))
  | send (packet : π) (pulse : Option (Pulse Ω))
  | receive (pulse : Option (Pulse Ω))
  | endInput
  | reset

inductive DecoderReply (π φ ε : Type) where
  | configured (r : Except (SessionError ε) Unit)
  | sent (r : Except (SessionError ε) SendStatus) (packet : π)
  | received (r : Except (SessionError ε) (Receive φ))
  | ended (r : Except (SessionError ε) Unit)
  | reset (r : Except (SessionError ε) Unit)

def DecoderReply.error? : DecoderReply π φ ε → Option (SessionError ε)
  | .configured (.error e) | .sent (.error e) _ | .received (.error e) | .ended (.error e)
  | .reset (.error e) => some e
  | _ => none

/-- Whether a call failed, whatever it returns. -/
def DecoderReply.isOk : DecoderReply π φ ε → Bool
  | .configured r => r.isOk
  | .sent r _ => r.isOk
  | .received r => r.isOk
  | .ended r => r.isOk
  | .reset r => r.isOk

/-- One call on the decoder adapter. -/
def serveDecoder (dec : NativeVideoDecoder σ χ π φ ε) (s : FusedSession σ × Ω) :
    DecoderOp χ π Ω → DecoderReply π φ ε × FusedSession σ × Ω
  | .configure config pulse =>
    let (r, s) := FusedDecoder.configure dec config pulse s.1 s.2
    (.configured r, s)
  | .send packet pulse =>
    let (r, self, w, packet) := FusedDecoder.send dec packet pulse s.1 s.2
    (.sent r packet, self, w)
  | .receive pulse =>
    let (r, s) := FusedDecoder.receive dec pulse s.1 s.2
    (.received r, s)
  | .endInput =>
    let (r, self) := FusedDecoder.endInput dec s.1
    (.ended r, self, s.2)
  | .reset =>
    let (r, self) := FusedDecoder.reset dec s.1
    (.reset r, self, s.2)

/-! ### The encoder -/

namespace FusedEncoder

variable (enc : NativeVideoEncoder σ π φ ε)

def send (frame : φ) (pulse : Option (Pulse Ω)) :
    FusedSession σ → Ω → Except (SessionError ε) SendStatus × FusedSession σ × Ω :=
  guard pulse (enc.send frame pulse)

def receive (pulse : Option (Pulse Ω)) :
    FusedSession σ → Ω → Except (SessionError ε) (Receive π) × FusedSession σ × Ω :=
  guard pulse (enc.receive pulse)

/-- Through the guard, with a pulse that never trips. -/
def endInput : FusedSession σ → Ω → Except (SessionError ε) Unit × FusedSession σ × Ω :=
  guard none fun inner w => let (r, inner) := enc.endInput inner; (r, inner, w)

end FusedEncoder

inductive EncoderOp (φ Ω : Type) where
  | send (frame : φ) (pulse : Option (Pulse Ω))
  | receive (pulse : Option (Pulse Ω))
  | endInput

inductive EncoderReply (π ε : Type) where
  | sent (r : Except (SessionError ε) SendStatus)
  | received (r : Except (SessionError ε) (Receive π))
  | ended (r : Except (SessionError ε) Unit)

def EncoderReply.error? : EncoderReply π ε → Option (SessionError ε)
  | .sent (.error e) | .received (.error e) | .ended (.error e) => some e
  | _ => none

def EncoderReply.isOk : EncoderReply π ε → Bool
  | .sent r => r.isOk
  | .received r => r.isOk
  | .ended r => r.isOk

/-- One call on the encoder adapter. -/
def serveEncoder (enc : NativeVideoEncoder σ π φ ε) (s : FusedSession σ × Ω) :
    EncoderOp φ Ω → EncoderReply π ε × FusedSession σ × Ω
  | .send frame pulse =>
    let (r, s) := FusedEncoder.send enc frame pulse s.1 s.2
    (.sent r, s)
  | .receive pulse =>
    let (r, s) := FusedEncoder.receive enc pulse s.1 s.2
    (.received r, s)
  | .endInput =>
    let (r, s) := FusedEncoder.endInput enc s.1 s.2
    (.ended r, s)

/-! ### Failure is terminal -/

theorem guard_of_failed (pulse : Option (Pulse Ω))
    (f : σ → Ω → Except (SessionError ε) α × σ × Ω) {self : FusedSession σ}
    (h : self.failed = true) (w : Ω) : guard pulse f self w = (.error .finished, self, w) :=
  if_pos h

/-- The flag is up after a call exactly when the call failed. -/
theorem failed_guard (pulse : Option (Pulse Ω)) (f : σ → Ω → Except (SessionError ε) α × σ × Ω)
    (self : FusedSession σ) (w : Ω) :
    (guard pulse f self w).2.1.failed = !(guard pulse f self w).1.isOk := by
  unfold guard
  cases hf : self.failed with
  | true => simpa [Except.isOk, Except.toBool] using hf
  | false =>
    simp only [Bool.false_eq_true, if_false]
    rcases checkPulse pulse w with ⟨reason | ok, w⟩
    · rfl
    · rfl

/-- After a decoder call the flag is up exactly when the call failed. -/
theorem failed_serveDecoder (dec : NativeVideoDecoder σ χ π φ ε) (s : FusedSession σ × Ω)
    (op : DecoderOp χ π Ω) :
    (serveDecoder dec s op).2.1.failed = !(serveDecoder dec s op).1.isOk := by
  cases op with
  | configure config pulse => exact failed_guard pulse (dec.configure config pulse) s.1 s.2
  | send packet pulse =>
    exact failed_guard (pulse.map Pulse.beside) (dec.send pulse) s.1 (s.2, packet)
  | receive pulse => exact failed_guard pulse (dec.receive pulse) s.1 s.2
  | endInput =>
    simp only [serveDecoder, FusedDecoder.endInput]
    cases hf : s.1.failed with
    | true => simp [hf, DecoderReply.isOk, Except.isOk, Except.toBool]
    | false => rfl
  | reset => rfl

theorem serveDecoder_of_failed (dec : NativeVideoDecoder σ χ π φ ε) {s : FusedSession σ × Ω}
    (hs : s.1.failed = true) {op : DecoderOp χ π Ω} (hop : op ≠ .reset) :
    (serveDecoder dec s op).1.error? = some .finished ∧ (serveDecoder dec s op).2 = s := by
  cases op with
  | configure config pulse =>
    simp [serveDecoder, FusedDecoder.configure, guard_of_failed _ _ hs, DecoderReply.error?]
  | send packet pulse =>
    simp [serveDecoder, FusedDecoder.send, guard_of_failed _ _ hs, DecoderReply.error?]
  | receive pulse =>
    simp [serveDecoder, FusedDecoder.receive, guard_of_failed _ _ hs, DecoderReply.error?]
  | endInput => simp [serveDecoder, FusedDecoder.endInput, hs, DecoderReply.error?]
  | reset => exact absurd rfl hop

theorem failed_serveEncoder (enc : NativeVideoEncoder σ π φ ε) (s : FusedSession σ × Ω)
    (op : EncoderOp φ Ω) :
    (serveEncoder enc s op).2.1.failed = !(serveEncoder enc s op).1.isOk := by
  cases op with
  | send frame pulse => exact failed_guard pulse (enc.send frame pulse) s.1 s.2
  | receive pulse => exact failed_guard pulse (enc.receive pulse) s.1 s.2
  | endInput => exact failed_guard none (fun inner w => ((enc.endInput inner).1, (enc.endInput inner).2, w)) s.1 s.2

theorem serveEncoder_of_failed (enc : NativeVideoEncoder σ π φ ε) {s : FusedSession σ × Ω}
    (hs : s.1.failed = true) (op : EncoderOp φ Ω) :
    (serveEncoder enc s op).1.error? = some .finished ∧ (serveEncoder enc s op).2 = s := by
  cases op with
  | send frame pulse =>
    simp [serveEncoder, FusedEncoder.send, guard_of_failed _ _ hs, EncoderReply.error?]
  | receive pulse =>
    simp [serveEncoder, FusedEncoder.receive, guard_of_failed _ _ hs, EncoderReply.error?]
  | endInput => simp [serveEncoder, FusedEncoder.endInput, guard_of_failed _ _ hs, EncoderReply.error?]

/-! ### Runs -/

/-- Between an error and the next reset the decoder adapter does not change: every call is
refused, and the native decoder and the world are left alone. -/
theorem FusedDecoder.run_failed (dec : NativeVideoDecoder σ χ π φ ε) {s : FusedSession σ × Ω}
    {a : DecoderOp χ π Ω} (ha : (serveDecoder dec s a).1.isOk = false)
    {mid : List (DecoderOp χ π Ω)} (hmid : ∀ op ∈ mid, op ≠ .reset) :
    final (serveDecoder dec) (serveDecoder dec s a).2 mid = (serveDecoder dec s a).2 ∧
      ∀ r ∈ outputs (serveDecoder dec) (serveDecoder dec s a).2 mid, r.error? = some .finished := by
  have hflag : (serveDecoder dec s a).2.1.failed = true := by rw [failed_serveDecoder, ha]; rfl
  have hstay : Preserved (serveDecoder dec) (fun op => op ≠ .reset)
      (fun t => t = (serveDecoder dec s a).2) := by
    rintro t op hop rfl
    exact (serveDecoder_of_failed dec hflag hop).2
  refine ⟨final_of_preserved hstay hmid rfl, outputs_of_preserved hstay ?_ hmid rfl⟩
  rintro t op hop rfl
  exact (serveDecoder_of_failed dec hflag hop).1

/-- After an error the encoder adapter does not change. -/
theorem FusedEncoder.run_failed (enc : NativeVideoEncoder σ π φ ε) {s : FusedSession σ × Ω}
    {a : EncoderOp φ Ω} (ha : (serveEncoder enc s a).1.isOk = false)
    (mid : List (EncoderOp φ Ω)) :
    final (serveEncoder enc) (serveEncoder enc s a).2 mid = (serveEncoder enc s a).2 ∧
      ∀ r ∈ outputs (serveEncoder enc) (serveEncoder enc s a).2 mid, r.error? = some .finished := by
  have hflag : (serveEncoder enc s a).2.1.failed = true := by rw [failed_serveEncoder, ha]; rfl
  have hstay : Preserved (serveEncoder enc) (fun _ => True)
      (fun t => t = (serveEncoder enc s a).2) := by
    rintro t op - rfl
    exact (serveEncoder_of_failed enc hflag op).2
  refine ⟨final_of_preserved hstay (fun _ _ => trivial) rfl,
    outputs_of_preserved hstay ?_ (fun _ _ => trivial) rfl⟩
  rintro t op - rfl
  exact (serveEncoder_of_failed enc hflag op).1

/-- The three adapters over a whole run. Of a `Fused` run take any two calls `a` and `b` with
the calls `mid` between them: a reported completion is repeated by `b`, with no byte
consumed and no native call, unless `mid` has a resume; a native completion is reported or
the call fails; after an error `b` is refused, and the native decoder is never called again;
the details are asked for at most once, after a reported completion and no error. A failed
`FusedDecoder` refuses everything and does not change until it is reset, a failed
`FusedEncoder` for ever. -/
theorem adapters_terminal {ς δ τ κ : Type} [DecidableEq δ] :
    (∀ (dec : Incremental.NativeDecoder ς δ τ ε κ) (inner : ς) (controlled : Bool) (w : Ω)
      (pre mid : List (Op δ τ Ω)) (a b : Op δ τ Ω),
      let start : Logged ς δ τ ε κ × Ω := (Fused.new (inner, []) controlled, w)
      let before := final (serve dec.logged) start pre
      let first := serve dec.logged before a
      let later := final (serve dec.logged) first.2 mid
      let last := serve dec.logged later b
      (∀ info, first.1.done? = some info → (∀ op ∈ mid, op.isResume = false) →
        b.isStep = true → last.1 = .progress ⟨0, .done info⟩ ∧ last.2.1.calls = later.1.calls) ∧
      (∀ call info, first.2.1.calls = before.1.calls ++ [call] → call.done? = some info →
        first.1.done? = some info ∨ first.1.isError = true) ∧
      (first.1.isError = true → last.2.1.calls = first.2.1.calls ∧
        (last.1 = .error .finished ∨ b = .takeDetails ∧ last.1 = .details none)) ∧
      first.2.1.calls.countP NativeCall.isTakeDetails ≤ 1 ∧
      (a = .takeDetails → first.2.1.calls ≠ before.1.calls →
        (∃ r ∈ outputs (serve dec.logged) start pre, (r.done?).isSome) ∧
          ∀ r ∈ outputs (serve dec.logged) start pre, r.isError = false)) ∧
    (∀ (dec : NativeVideoDecoder σ χ π φ ε) (s : FusedSession σ × Ω) (a : DecoderOp χ π Ω)
      (mid : List (DecoderOp χ π Ω)), (serveDecoder dec s a).1.isOk = false →
      (∀ op ∈ mid, op ≠ .reset) →
      final (serveDecoder dec) (serveDecoder dec s a).2 mid = (serveDecoder dec s a).2 ∧
        ∀ r ∈ outputs (serveDecoder dec) (serveDecoder dec s a).2 mid,
          r.error? = some .finished) ∧
    (∀ (enc : NativeVideoEncoder σ π φ ε) (s : FusedSession σ × Ω) (a : EncoderOp φ Ω)
      (mid : List (EncoderOp φ Ω)), (serveEncoder enc s a).1.isOk = false →
      final (serveEncoder enc) (serveEncoder enc s a).2 mid = (serveEncoder enc s a).2 ∧
        ∀ r ∈ outputs (serveEncoder enc) (serveEncoder enc s a).2 mid,
          r.error? = some .finished) :=
  ⟨fun dec inner controlled w pre mid a b =>
      run_terminal dec inner controlled w pre mid a b,
    fun dec _ _ _ ha hmid => FusedDecoder.run_failed dec ha hmid,
    fun enc _ _ mid ha => FusedEncoder.run_failed enc ha mid⟩

end Zencodec.Session
