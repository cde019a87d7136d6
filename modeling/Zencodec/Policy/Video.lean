/-
`PolicyDecoder` of video: every decoded frame is put to the policy before it is published.

`run` takes the native decoder out for the time of a call, and only a call that succeeds puts
it back. The native decoder is foreign code on its own state and the world; each of its
methods may fail or unwind. The packet that `send` empties is part of the world.

* `FrameShape` — the ways one call can go: a frame is put to the policy once, before anything
  else happens;
* `VideoSound` — what ties the adapter to what happened so far;
* `serveVideo_law` — what one call does.
-/
import Zencodec.Lib.Runs
import Zencodec.Policy.Resolve
import Zencodec.Session.Protocol

namespace Zencodec.Policy

open Zencodec.Operation Zencodec.Incremental Zencodec.Session Runs

variable {N χ φ ε κ α Ω : Type}

/-! ### The adapter -/

/-- A native decoder with state `N`: configurations `χ` in, frames `φ` out. -/
structure NativeVideo (N χ φ κ Ω : Type) where
  configure : χ → Option (Stop Ω) → Act (N × Ω) (Fault (SessionError κ)) Unit
  send : Option (Stop Ω) → Act (N × Ω) (Fault (SessionError κ)) SendStatus
  receive : Option (Stop Ω) → Act (N × Ω) (Fault (SessionError κ)) (Receive φ)
  endInput : Act (N × Ω) (Fault (SessionError κ)) Unit
  reset : Act (N × Ω) (Fault (SessionError κ)) Unit

/-- Which part of the controlled session failed. -/
inductive Stage where
  | decode | policy
  deriving DecidableEq, Repr

/-- The cause of a failure, boxed in the source. -/
inductive VideoCause (ε κ : Type) where
  | native (e : κ)
  | unmet (u : UnmetRequirements)
  | policy (e : PolicyFailure ε StopReason)

/-- `Error` -/
structure VideoError (ε κ : Type) where
  stage : Stage
  report : OperationReport
  cause : VideoCause ε κ

structure VideoPolicyDecoder (N : Type) where
  decoder : Option N
  preset : PolicySet
  report : OperationReport

def VideoPolicyDecoder.new (native : N) (preset : PolicySet) : VideoPolicyDecoder N :=
  ⟨some native, preset, {}⟩

/-- What the adapter is used with. -/
structure VideoEnv (N χ φ ε κ Ω : Type) where
  usizeMax : ℕ
  native : NativeVideo N χ φ κ Ω
  resolver : Resolver φ ε Ω

/-- What happened during a call: a native call, with the frame it decoded if it did, and an
answer of the policy about a frame. -/
inductive FrameEvent (φ ε : Type) where
  | called (frame : Option φ)
  | resolved (frame : φ) (answer : Except (Fault (PolicyFailure ε StopReason)) DecisionRecord)

abbrev VideoFault (ε κ : Type) : Type := Fault (SessionError (VideoError ε κ))

/-- How the closure of `run` ended, what happened, and what is left. -/
structure VideoEnded (N φ ε κ Ω α : Type) where
  answer : Except (VideoFault ε κ) α
  happened : List (FrameEvent φ ε)
  decoder : N
  report : OperationReport
  world : ℕ × Ω

/-- `native`: a failure of the native decoder, with the report as it is then. -/
def nativeFault (report : OperationReport) : Fault (SessionError κ) → VideoFault ε κ
  | .unwound => .unwound
  | .failed (.codec e) => .failed (.codec ⟨.decode, report, .native e⟩)
  | .failed (.cancelled reason) => .failed (.cancelled reason)
  | .failed .finished => .failed .finished
  | .failed (.protocol kind) => .failed (.protocol kind)
  | .failed (.unsupported what) => .failed (.unsupported what)
  | .failed (.limit e) => .failed (.limit e)

/-- The closure of a call that decodes nothing. -/
def plainWork (x : Act (N × Ω) (Fault (SessionError κ)) α) (report : OperationReport)
    (decoder : N) (w : ℕ × Ω) : VideoEnded N φ ε κ Ω α :=
  let (answer, decoder, v) := x (decoder, w.2)
  ⟨answer.mapError (nativeFault report), [.called none], decoder, report, (w.1, v)⟩

variable (env : VideoEnv N χ φ ε κ Ω)

/-- The closure of `receive`. -/
def receiveWork (preset : PolicySet) (pulse : Option (Stop Ω)) (report : OperationReport)
    (decoder : N) (w : ℕ × Ω) : VideoEnded N φ ε κ Ω (Receive φ) :=
  match env.native.receive pulse (decoder, w.2) with
  | (.error e, decoder, v) =>
    ⟨.error (nativeFault report e), [.called none], decoder, report, (w.1, v)⟩
  | (.ok (.ready frame), decoder, v) =>
    let happened := fun answer => [.called (some frame), .resolved frame answer]
    match resolveFrame env.usizeMax frame env.resolver preset pulse (w.1, v) with
    | (.ok record, w) =>
      ⟨.ok (.ready frame), happened (.ok record), decoder, report.record record, w⟩
    | (.error (.failed e), w) =>
      let report := report.record e.record
      ⟨.error (.failed (.codec ⟨.policy, report, .policy e⟩)), happened (.error (.failed e)),
        decoder, report, w⟩
    | (.error .unwound, w) =>
      ⟨.error .unwound, happened (.error .unwound), decoder, report, w⟩
  | (.ok .needInput, decoder, v) =>
    ⟨.ok .needInput, [.called none], decoder, report, (w.1, v)⟩
  | (.ok .endOfStream, decoder, v) =>
    ⟨.ok .endOfStream, [.called none], decoder, report, (w.1, v)⟩

/-- A reply and what happened before it. -/
structure VideoCall (φ ε κ α : Type) where
  reply : Except (VideoFault ε κ) α
  happened : List (FrameEvent φ ε)

/-- `run` -/
def VideoPolicyDecoder.run (self : VideoPolicyDecoder N) (pulse : Option (Stop Ω))
    (f : OperationReport → N → ℕ × Ω → VideoEnded N φ ε κ Ω α) (w : ℕ × Ω) :
    VideoCall φ ε κ α × VideoPolicyDecoder N × ℕ × Ω :=
  match self.decoder with
  | none => (⟨.error (.failed .finished), []⟩, self, w)
  | some decoder =>
    let taken := { self with decoder := none }
    match Stop.orNone pulse w.2 with
    | (.error .unwound, v) => (⟨.error .unwound, []⟩, taken, w.1, v)
    | (.error (.failed reason), v) =>
      (⟨.error (.failed (.cancelled reason)), []⟩, taken, w.1, v)
    | (.ok _, v) =>
      match admitWorkspace self.preset env.resolver.requirements with
      | .error unmet =>
        (⟨.error (.failed (.codec ⟨.policy, self.report, .unmet unmet⟩)), []⟩, taken, w.1, v)
      | .ok _ =>
        let ended := f self.report decoder (w.1, v)
        let call := ⟨ended.answer, ended.happened⟩
        match ended.answer with
        | .error _ => (call, { taken with report := ended.report }, ended.world)
        | .ok _ =>
          (call, { self with decoder := some ended.decoder, report := ended.report },
            ended.world)

namespace VideoPolicyDecoder

def configure (self : VideoPolicyDecoder N) (config : χ) (pulse : Option (Stop Ω)) :
    ℕ × Ω → VideoCall φ ε κ Unit × VideoPolicyDecoder N × ℕ × Ω :=
  self.run env pulse (plainWork (env.native.configure config pulse))

def send (self : VideoPolicyDecoder N) (pulse : Option (Stop Ω)) :
    ℕ × Ω → VideoCall φ ε κ SendStatus × VideoPolicyDecoder N × ℕ × Ω :=
  self.run env pulse (plainWork (env.native.send pulse))

def receive (self : VideoPolicyDecoder N) (pulse : Option (Stop Ω)) :
    ℕ × Ω → VideoCall φ ε κ (Receive φ) × VideoPolicyDecoder N × ℕ × Ω :=
  self.run env pulse (receiveWork env self.preset pulse)

def endInput (self : VideoPolicyDecoder N) :
    ℕ × Ω → VideoCall φ ε κ Unit × VideoPolicyDecoder N × ℕ × Ω :=
  self.run env none (plainWork env.native.endInput)

def reset (self : VideoPolicyDecoder N) :
    ℕ × Ω → VideoCall φ ε κ Unit × VideoPolicyDecoder N × ℕ × Ω :=
  self.run env none (plainWork env.native.reset)

end VideoPolicyDecoder

/-- One call of the application. -/
inductive VideoOp (χ Ω : Type) where
  | configure (config : χ) (pulse : Option (Stop Ω))
  | send (pulse : Option (Stop Ω))
  | receive (pulse : Option (Stop Ω))
  | endInput
  | reset

inductive VideoReply (φ ε κ : Type) where
  | done (answer : Except (VideoFault ε κ) Unit)
  | sent (answer : Except (VideoFault ε κ) SendStatus)
  | received (answer : Except (VideoFault ε κ) (Receive φ))

/-- The error of a reply. -/
def VideoReply.error? : VideoReply φ ε κ → Option (VideoFault ε κ)
  | .done (.error e) | .sent (.error e) | .received (.error e) => some e
  | _ => none

/-- The frame that a reply publishes. -/
def VideoReply.frame? : VideoReply φ ε κ → Option φ
  | .received (.ok (.ready frame)) => some frame
  | _ => none

/-- A reply and what happened before it. -/
structure VideoServed (φ ε κ : Type) where
  reply : VideoReply φ ε κ
  happened : List (FrameEvent φ ε)

/-- A call with its answer as a reply. -/
def VideoCall.served (wrap : Except (VideoFault ε κ) α → VideoReply φ ε κ)
    (call : VideoCall φ ε κ α) : VideoServed φ ε κ := ⟨wrap call.reply, call.happened⟩

def serveVideo (s : VideoPolicyDecoder N × ℕ × Ω) :
    VideoOp χ Ω → VideoServed φ ε κ × VideoPolicyDecoder N × ℕ × Ω
  | .configure config pulse =>
    let (call, s) := s.1.configure env config pulse s.2
    (call.served .done, s)
  | .send pulse =>
    let (call, s) := s.1.send env pulse s.2
    (call.served .sent, s)
  | .receive pulse =>
    let (call, s) := s.1.receive env pulse s.2
    (call.served .received, s)
  | .endInput =>
    let (call, s) := s.1.endInput env s.2
    (call.served .done, s)
  | .reset =>
    let (call, s) := s.1.reset env s.2
    (call.served .done, s)

/-! ### What happened -/

/-- The decision of an answer. A callback that unwinds has not decided. -/
def FrameEvent.decision : FrameEvent φ ε → Option DecisionRecord
  | .resolved _ (.ok record) => some record
  | .resolved _ (.error (.failed e)) => some e.record
  | _ => none

/-- The ways one call can go, with the frame that it may publish. -/
inductive FrameShape : List (FrameEvent φ ε) → Option φ → Prop
  | idle : FrameShape [] none
  | plain : FrameShape [.called none] none
  | refused (frame : φ) (e : Fault (PolicyFailure ε StopReason)) :
      FrameShape [.called (some frame), .resolved frame (.error e)] none
  | accepted (frame : φ) (record : DecisionRecord) :
      FrameShape [.called (some frame), .resolved frame (.ok record)] (some frame)

/-- What the closure of `run` leaves; `frame` is the one it returns. -/
structure WorkLaw (past : List (FrameEvent φ ε)) (frame : Option φ)
    (ended : VideoEnded N φ ε κ Ω α) : Prop where
  shape : FrameShape ended.happened frame
  report : Holds ended.report ((past ++ ended.happened).filterMap FrameEvent.decision)

/-- The report holds the decisions so far. -/
def VideoSound (past : List (FrameEvent φ ε)) (adapter : VideoPolicyDecoder N) : Prop :=
  Holds adapter.report (past.filterMap FrameEvent.decision)

/-- What one call leaves. -/
structure VideoLaw (past : List (FrameEvent φ ε)) (served : VideoServed φ ε κ)
    (after : VideoPolicyDecoder N) : Prop where
  shape : FrameShape served.happened served.reply.frame?
  sound : VideoSound (past ++ served.happened) after
  dropped : served.reply.error?.isSome = true → after.decoder = none

theorem plainWork_law (x : Act (N × Ω) (Fault (SessionError κ)) α) {past : List (FrameEvent φ ε)}
    {report : OperationReport} (hreport : Holds report (past.filterMap FrameEvent.decision))
    (decoder : N) (w : ℕ × Ω) :
    WorkLaw past none (plainWork x report decoder w : VideoEnded N φ ε κ Ω α) where
  shape := .plain
  report := holds_quiet hreport rfl

/-- The frame of an answer of `receive`. -/
def publishedBy (answer : Except (VideoFault ε κ) (Receive φ)) : Option φ :=
  (VideoReply.received answer).frame?

theorem receiveWork_law (preset : PolicySet) (pulse : Option (Stop Ω))
    {past : List (FrameEvent φ ε)} {report : OperationReport}
    (hreport : Holds report (past.filterMap FrameEvent.decision)) (decoder : N) (w : ℕ × Ω) :
    let ended := receiveWork env preset pulse report decoder w
    WorkLaw past (publishedBy ended.answer) ended := by
  intro ended
  cases hnative : env.native.receive pulse (decoder, w.2) with
  | mk answer rest =>
    obtain ⟨decoder', v⟩ := rest
    cases answer with
    | error e =>
      simp only [ended, receiveWork, hnative]
      exact ⟨.plain, holds_quiet hreport rfl⟩
    | ok received =>
      cases received with
      | needInput =>
        simp only [ended, receiveWork, hnative]
        exact ⟨.plain, holds_quiet hreport rfl⟩
      | endOfStream =>
        simp only [ended, receiveWork, hnative]
        exact ⟨.plain, holds_quiet hreport rfl⟩
      | ready frame =>
        cases hresolve : resolveFrame env.usizeMax frame env.resolver preset pulse (w.1, v) with
        | mk answer w₁ =>
          cases answer with
          | ok record =>
            simp only [ended, receiveWork, hnative, hresolve]
            exact ⟨.accepted frame record, holds_decided hreport rfl⟩
          | error e =>
            cases e with
            | failed e =>
              simp only [ended, receiveWork, hnative, hresolve]
              exact ⟨.refused frame _, holds_decided hreport rfl⟩
            | unwound =>
              simp only [ended, receiveWork, hnative, hresolve]
              exact ⟨.refused frame _, holds_quiet hreport rfl⟩

/-- How the answers of a kind of call become replies: an error stays an error, and a value
is none. -/
structure Wraps (wrap : Except (VideoFault ε κ) α → VideoReply φ ε κ) : Prop where
  error : ∀ e, (wrap (.error e)).error? = some e
  frame : ∀ e, (wrap (.error e)).frame? = none
  value : ∀ a, (wrap (.ok a)).error? = none

theorem wraps_done : Wraps (VideoReply.done (φ := φ) : Except (VideoFault ε κ) Unit → _) :=
  ⟨fun _ => rfl, fun _ => rfl, fun _ => rfl⟩

theorem wraps_sent : Wraps (VideoReply.sent (φ := φ) : Except (VideoFault ε κ) SendStatus → _) :=
  ⟨fun _ => rfl, fun _ => rfl, fun _ => rfl⟩

theorem wraps_received :
    Wraps (VideoReply.received : Except (VideoFault ε κ) (Receive φ) → VideoReply φ ε κ) :=
  ⟨fun _ => rfl, fun _ => rfl, fun _ => rfl⟩

/-- `run` keeps what its closure keeps, and drops the decoder with every failure. -/
theorem run_law {past : List (FrameEvent φ ε)} {self : VideoPolicyDecoder N}
    (h : VideoSound past self) (pulse : Option (Stop Ω))
    {f : OperationReport → N → ℕ × Ω → VideoEnded N φ ε κ Ω α}
    {wrap : Except (VideoFault ε κ) α → VideoReply φ ε κ} (hwrap : Wraps wrap)
    (hf : ∀ decoder w, WorkLaw past (wrap (f self.report decoder w).answer).frame?
      (f self.report decoder w)) (w : ℕ × Ω) :
    let call := self.run env pulse f w
    VideoLaw past (call.1.served wrap) call.2.1 := by
  have hidle : ∀ e (after : VideoPolicyDecoder N), after.report = self.report →
      after.decoder = none →
      VideoLaw past ((⟨.error e, []⟩ : VideoCall φ ε κ α).served wrap) after := by
    intro e after hreport hdecoder
    refine ⟨?_, ?_, fun _ => hdecoder⟩
    · show FrameShape [] (wrap (.error e)).frame?
      rw [hwrap.frame e]
      exact .idle
    · show Holds after.report _
      rw [hreport]
      exact holds_quiet h rfl
  intro call
  cases hdecoder : self.decoder with
  | none =>
    simp only [call, VideoPolicyDecoder.run, hdecoder]
    exact hidle _ self rfl hdecoder
  | some decoder =>
    cases hpulse : Stop.orNone pulse w.2 with
    | mk answer v =>
      cases answer with
      | error e =>
        cases e with
        | unwound =>
          simp only [call, VideoPolicyDecoder.run, hdecoder, hpulse]
          exact hidle _ _ rfl rfl
        | failed reason =>
          simp only [call, VideoPolicyDecoder.run, hdecoder, hpulse]
          exact hidle _ _ rfl rfl
      | ok u =>
        cases hadmit : admitWorkspace self.preset env.resolver.requirements with
        | error unmet =>
          simp only [call, VideoPolicyDecoder.run, hdecoder, hpulse, hadmit]
          exact hidle _ _ rfl rfl
        | ok u' =>
          have law := hf decoder (w.1, v)
          simp only [call, VideoPolicyDecoder.run, hdecoder, hpulse, hadmit]
          generalize f self.report decoder (w.1, v) = ended at law ⊢
          obtain ⟨answer, happened, held, report, after⟩ := ended
          cases answer with
          | error e => exact ⟨law.shape, law.report, fun _ => rfl⟩
          | ok a =>
            refine ⟨law.shape, law.report, fun herror => ?_⟩
            change (wrap (.ok a)).error?.isSome = true at herror
            rw [hwrap.value a] at herror
            cases herror

theorem serveVideo_law {past : List (FrameEvent φ ε)} {s : VideoPolicyDecoder N × ℕ × Ω}
    (h : VideoSound past s.1) (op : VideoOp χ Ω) :
    VideoLaw past (serveVideo env s op).1 (serveVideo env s op).2.1 := by
  cases op with
  | configure config pulse =>
    exact run_law env h pulse wraps_done (fun decoder w => plainWork_law _ h decoder w) s.2
  | send pulse =>
    exact run_law env h pulse wraps_sent (fun decoder w => plainWork_law _ h decoder w) s.2
  | receive pulse =>
    exact run_law env h pulse wraps_received
      (fun decoder w => receiveWork_law env s.1.preset pulse h decoder w) s.2
  | endInput =>
    exact run_law env h none wraps_done (fun decoder w => plainWork_law _ h decoder w) s.2
  | reset =>
    exact run_law env h none wraps_done (fun decoder w => plainWork_law _ h decoder w) s.2

/-! ### Runs -/

/-- All that happened in these calls. -/
def framesOf (calls : List (VideoServed φ ε κ)) : List (FrameEvent φ ε) :=
  calls.flatMap VideoServed.happened

theorem videoSound_run (native : N) (preset : PolicySet) (w : ℕ × Ω) (ops : List (VideoOp χ Ω)) :
    VideoSound (framesOf (outputs (serveVideo env) (VideoPolicyDecoder.new native preset, w) ops))
      (final (serveVideo env) (VideoPolicyDecoder.new native preset, w) ops).1 := by
  have hstep : ∀ (calls : List (VideoServed φ ε κ)) (s : VideoPolicyDecoder N × ℕ × Ω)
      (op : VideoOp χ Ω), VideoSound (framesOf calls) s.1 →
      VideoSound (framesOf (calls ++ [(serveVideo env s op).1])) (serveVideo env s op).2.1 := by
    intro calls s op h
    have hnext := (serveVideo_law env h op).sound
    simpa [framesOf] using hnext
  have hstart : VideoSound (framesOf ([] : List (VideoServed φ ε κ)))
      (VideoPolicyDecoder.new native preset) := rfl
  exact history
    (H := fun calls (s : VideoPolicyDecoder N × ℕ × Ω) => VideoSound (framesOf calls) s.1)
    hstep (s := (VideoPolicyDecoder.new native preset, w)) hstart ops

/-- A call that is refused before anything happens. -/
def VideoServed.Refused (call : VideoServed φ ε κ) : Prop :=
  call.happened = [] ∧ call.reply.error?.isSome = true

theorem run_of_dropped {self : VideoPolicyDecoder N} (h : self.decoder = none)
    (pulse : Option (Stop Ω)) (f : OperationReport → N → ℕ × Ω → VideoEnded N φ ε κ Ω α)
    (w : ℕ × Ω) : self.run env pulse f w = (⟨.error (.failed .finished), []⟩, self, w) := by
  unfold VideoPolicyDecoder.run
  rw [h]

/-- Without a decoder every call is refused. -/
theorem serveVideo_of_dropped {s : VideoPolicyDecoder N × ℕ × Ω} (hs : s.1.decoder = none)
    (op : VideoOp χ Ω) :
    ((serveVideo env s op).1.happened = [] ∧
      (serveVideo env s op).1.reply.error? = some (.failed .finished)) ∧
      (serveVideo env s op).2.1.decoder = none := by
  cases op <;>
    simp only [serveVideo, VideoPolicyDecoder.configure, VideoPolicyDecoder.send,
      VideoPolicyDecoder.receive, VideoPolicyDecoder.endInput, VideoPolicyDecoder.reset,
      run_of_dropped env hs] <;>
    exact ⟨⟨rfl, rfl⟩, hs⟩

/-- With a limit on workspace no call of `run` reaches its closure. -/
theorem run_limited {self : VideoPolicyDecoder N}
    (hlimit : limitsWorkspace self.preset env.resolver.requirements = true)
    (pulse : Option (Stop Ω)) (f : OperationReport → N → ℕ × Ω → VideoEnded N φ ε κ Ω α)
    {wrap : Except (VideoFault ε κ) α → VideoReply φ ε κ} (hwrap : Wraps wrap) (w : ℕ × Ω) :
    let call := self.run env pulse f w
    (call.1.served wrap).Refused ∧ call.2.1.preset = self.preset := by
  obtain ⟨unmet, hunmet⟩ := admitWorkspace_limited hlimit
  have hrefused : ∀ e, ((⟨.error e, []⟩ : VideoCall φ ε κ α).served wrap).Refused := by
    intro e
    refine ⟨rfl, ?_⟩
    show (wrap (.error e)).error?.isSome = true
    rw [hwrap.error e]
    rfl
  intro call
  cases hdecoder : self.decoder with
  | none =>
    simp only [call, VideoPolicyDecoder.run, hdecoder]
    exact ⟨hrefused _, trivial⟩
  | some decoder =>
    cases hpulse : Stop.orNone pulse w.2 with
    | mk answer v =>
      cases answer with
      | error e =>
        cases e with
        | unwound =>
          simp only [call, VideoPolicyDecoder.run, hdecoder, hpulse]
          exact ⟨hrefused _, trivial⟩
        | failed reason =>
          simp only [call, VideoPolicyDecoder.run, hdecoder, hpulse]
          exact ⟨hrefused _, trivial⟩
      | ok u =>
        simp only [call, VideoPolicyDecoder.run, hdecoder, hpulse, hunmet]
        exact ⟨hrefused _, trivial⟩

theorem serveVideo_limited {preset : PolicySet} {s : VideoPolicyDecoder N × ℕ × Ω}
    (hlimit : limitsWorkspace preset env.resolver.requirements = true)
    (hs : s.1.preset = preset) (op : VideoOp χ Ω) :
    (serveVideo env s op).1.Refused ∧ (serveVideo env s op).2.1.preset = preset := by
  subst hs
  cases op with
  | configure config pulse => exact run_limited env hlimit pulse _ wraps_done s.2
  | send pulse => exact run_limited env hlimit pulse _ wraps_sent s.2
  | receive pulse => exact run_limited env hlimit pulse _ wraps_received s.2
  | endInput => exact run_limited env hlimit none _ wraps_done s.2
  | reset => exact run_limited env hlimit none _ wraps_done s.2

end Zencodec.Policy
