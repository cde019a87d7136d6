/-
Any sequence of calls on a buffered source.

`step` makes one call. Whatever the calls, the reader's answers and the allocator, the source
stays in order (`holds_step`), and a read behaves as random access to the stream does
(`buffered_refines`).
-/
import Zencodec.Lib.Runs
import Zencodec.Source.Refine

namespace Zencodec.Source

variable {Ω : Type} {policy : BufferPolicy} {source : List UInt8}

/-- A call of the source. -/
inductive Call where
  | readAt (offset want : ℕ)
  | readExactAt (offset want : ℕ)
  | len
  deriving DecidableEq, Repr

/-- What a call answers. -/
inductive Reply where
  | bytes (r : Except Error (List UInt8))
  | length (r : Except Error ℕ)

def step (host : Host Ω) (t : BufferedReadAt × Stream × Ω) :
    Call → Reply × (BufferedReadAt × Stream × Ω)
  | .readAt offset want =>
    (.bytes (BufferedReadAt.readAt host offset want t).1,
      (BufferedReadAt.readAt host offset want t).2)
  | .readExactAt offset want =>
    (.bytes (BufferedReadAt.readExactAt host offset want t).1,
      (BufferedReadAt.readExactAt host offset want t).2)
  | .len => (.length (BufferedReadAt.len host t).1, (BufferedReadAt.len host t).2)

theorem holds_step (host : Host Ω) : Runs.Preserved (step host) (fun _ => True)
    fun t => Holds policy source t.1 t.2.1 := by
  intro t call _ h
  obtain ⟨b, s, w⟩ := t
  cases call with
  | readAt offset want =>
    exact ((spec_readAt h host offset want).mono (fun _ _ ht => ht.2) (fun _ _ ht => ht.holds)).state
  | readExactAt offset want =>
    exact ((spec_readExactAt h host offset want).mono (fun _ _ ht => ht.2.2) (fun _ _ ht => ht)).state
  | len => exact ((spec_len h host).mono (fun _ _ ht => ht.2) (fun _ _ ht => ht)).state

/-- **A buffered source refines random access.** After any calls: the buffer retains the last
bytes of a window, or the first of a spool, of what was delivered; a read that succeeds hands
back the bytes of the stream at its offset, short only where the stream ends; it is never too
old at or above the oldest retained byte, and below it fails and changes nothing; and once a
spool cap was exceeded every read fails so. -/
theorem buffered_refines (host : Host Ω) (policy : BufferPolicy) (source : List UInt8)
    (answers : List Answer) (w : Ω) (calls : List Call) :
    let t := Runs.final (step host) (.new policy, ⟨source, answers⟩, w) calls
    t.1.watermark ≤ source.length ∧ t.2.1.rest = source.drop t.1.watermark ∧
    t.1.buf = policy.retained (source.take t.1.watermark) ∧
    (t.1.exceeded = none → t.1.bufStart + t.1.buf.length = t.1.watermark) ∧
    (∀ offset want bytes, (BufferedReadAt.readAt host offset want t).1 = .ok bytes →
      bytes = (source.drop offset).take want) ∧
    (∀ offset want o oldest, t.1.bufStart ≤ offset →
      (BufferedReadAt.readAt host offset want t).1 ≠ .error (.beyondWindow o oldest)) ∧
    (∀ offset want, want ≠ 0 → offset < t.1.bufStart →
      BufferedReadAt.readAt host offset want t =
        (.error (if offset + want ≤ u64Max then .beyondWindow offset t.1.bufStart
          else .unexpectedEof offset want t.1.lenHint), t)) ∧
    (∀ offset want needed limit,
      (BufferedReadAt.readAt host offset want t).1 = .error (.beyondLimit needed limit) →
      (BufferedReadAt.readAt host offset want t).2.1.exceeded = some (needed, limit)) ∧
    ∀ p, t.1.exceeded = some p → policy = .spool p.2 ∧ p.1 = p.2 + 1 ∧ p.1 ≤ source.length ∧
      ∀ offset want, want ≠ 0 →
        BufferedReadAt.readAt host offset want t = (.error (.beyondLimit p.1 p.2), t) := by
  intro t
  have h : Holds policy source t.1 t.2.1 :=
    Runs.final_of_preserved (holds_step host) (fun _ _ => trivial)
      (holds_new policy source answers).1
  refine ⟨h.watermark_le, h.rest_eq, h.buf_eq, h.start_eq, fun offset want bytes hok => ?_,
    fun offset want o oldest hstart herr => ?_, fun offset want hwant hold => ?_,
    fun offset want needed limit herr => ?_, fun p hp => ?_⟩
  · exact ((spec_readAt (w := t.2.2) h host offset want).run.1 bytes hok).1
  · have hfailed := (spec_readAt (w := t.2.2) h host offset want).run.2 _ herr
    have := hfailed.old o oldest rfl
    omega
  · exact readAt_dropped h host hwant hold
  · exact ((spec_readAt (w := t.2.2) h host offset want).run.2 _ herr).limit needed limit rfl
  · obtain ⟨hpolicy, hneeded, hwm⟩ := h.terminal p hp
    have hle := h.watermark_le
    exact ⟨hpolicy, hneeded, by omega, fun offset want hwant => readAt_terminal host hp hwant⟩

end Zencodec.Source
