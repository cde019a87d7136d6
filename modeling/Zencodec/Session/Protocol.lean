/-
The protocol of codec sessions.

`send` and `receive` answer with `SendStatus` and `Receive`, every failure is a
`SessionError`. A native decoder or encoder is a record of its methods, each a function of
its own state and of the world of the pulse it may poll.
-/
import Zencodec.Incremental.Contract

open Zencodec.Incremental

namespace Zencodec.Session

/-- What `send` did with an input. -/
inductive SendStatus where
  | accepted | receivePending
  deriving DecidableEq, Repr

/-- What `receive` returned. -/
inductive Receive (α : Type) where
  | ready (output : α)
  | needInput
  | endOfStream
  deriving DecidableEq, Repr

inductive ProtocolViolation where
  | sendAfterEnd | emptyPacket | notConfigured | epochMismatch | missingTimestamp
  | clockMismatch | beginTwice | noBegin | noProgress | receivePendingWithoutOutput
  | finishTwice | indexRequired | endOfStreamBeforeEndInput
  deriving DecidableEq, Repr

inductive UnsupportedMedia where
  | seek | configChange | forwardOnlyLayout | codec | container | pixelFormat | exactTiming
  deriving DecidableEq, Repr

/-- The structural limits that media code checks. -/
inductive LimitKind where
  | packetBytes | tracks | headerBytes | tableEntries
  deriving DecidableEq, Repr

structure MediaLimitExceeded where
  kind : LimitKind
  requested : ℕ
  limit : ℕ
  deriving DecidableEq, Repr

/-- Why a session failed; `ε` is the backend's own error type. -/
inductive SessionError (ε : Type) where
  | codec (e : ε)
  | cancelled (reason : StopReason)
  | finished
  | protocol (kind : ProtocolViolation)
  | unsupported (what : UnsupportedMedia)
  | limit (e : MediaLimitExceeded)
  deriving DecidableEq, Repr

variable {σ χ π φ ε Ω : Type}

/-- A native video decoder with state `σ`: configurations `χ` and packets `π` in, frames
`φ` out. `send` may take the payload out of the packet it is given. -/
structure NativeVideoDecoder (σ χ π φ ε : Type) where
  configure : ∀ {Ω : Type}, χ → Option (Pulse Ω) → σ → Ω →
    Except (SessionError ε) Unit × σ × Ω
  send : ∀ {Ω : Type}, Option (Pulse Ω) → σ → Ω × π →
    Except (SessionError ε) SendStatus × σ × Ω × π
  receive : ∀ {Ω : Type}, Option (Pulse Ω) → σ → Ω →
    Except (SessionError ε) (Receive φ) × σ × Ω
  endInput : σ → Except (SessionError ε) Unit × σ
  reset : σ → Except (SessionError ε) Unit × σ

/-- A native video encoder with state `σ`: frames `φ` in, packets `π` out. -/
structure NativeVideoEncoder (σ π φ ε : Type) where
  send : ∀ {Ω : Type}, φ → Option (Pulse Ω) → σ → Ω →
    Except (SessionError ε) SendStatus × σ × Ω
  receive : ∀ {Ω : Type}, Option (Pulse Ω) → σ → Ω →
    Except (SessionError ε) (Receive π) × σ × Ω
  endInput : σ → Except (SessionError ε) Unit × σ

end Zencodec.Session
