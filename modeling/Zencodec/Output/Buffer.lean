/-
The output buffer of a streaming encoder.

The encoder pushes bytes, and a driver consumes a prefix of the pending ones or takes them all.
Consumed bytes stay at the front of the vector until enough of them can be dropped at once, and
taking swaps vectors instead of copying when nothing is consumed.

* `Accounts` ties a buffer to the bytes pushed and handed out; `Accounts.step` says that every
  operation keeps it;
* `output_accounted` says it of whole runs.
-/
import Mathlib.Algebra.Order.Group.Nat
import Mathlib.Data.List.Basic
import Zencodec.Lib.Runs

namespace Zencodec.Output

abbrev Bytes := List UInt8

structure OutputBuffer where
  buf : Bytes
  /-- Bytes at the front of `buf` already handed out. -/
  start : ℕ
  /-- Bytes handed out and dropped from `buf`. -/
  dropped : UInt64
  deriving DecidableEq, Repr

/-- Drop the consumed prefix once it is at least this large and half the buffer. -/
def compactAt : ℕ := 64 * 1024

namespace OutputBuffer

def new : OutputBuffer := ⟨[], 0, 0⟩

variable (b : OutputBuffer)

def push (bytes : Bytes) : OutputBuffer := { b with buf := b.buf ++ bytes }

/-- Bytes produced and not yet handed out. -/
def pending : Bytes := b.buf.drop b.start

def len : ℕ := b.pending.length

/-- Mark the first `n` pending bytes as handed out, or all if there are fewer. -/
def consume (n : ℕ) : OutputBuffer :=
  let start := b.start + min n b.len
  if b.buf.length ≤ start then
    { buf := [], start := 0, dropped := b.dropped + UInt64.ofNat b.buf.length }
  else if compactAt ≤ start ∧ b.buf.length / 2 ≤ start then
    { buf := b.buf.drop start, start := 0, dropped := b.dropped + UInt64.ofNat start }
  else { b with start := start }

/-- Append every pending byte to `into` and mark it handed out; the vector, and the buffer. -/
def takeInto (into : Bytes) : Bytes × OutputBuffer :=
  if into.isEmpty ∧ b.start = 0 then
    -- The vectors are swapped, and the one that comes back is cleared.
    (b.buf, { b with buf := [], dropped := b.dropped + UInt64.ofNat b.buf.length })
  else (into ++ b.pending, b.consume b.len)

/-- Bytes handed out so far. -/
def handedOut : UInt64 := b.dropped + UInt64.ofNat b.start

/-- Every byte produced so far, handed out or pending. -/
def total : UInt64 := b.dropped + UInt64.ofNat b.buf.length

/-- The bytes not handed out: what `finish` returns. -/
def intoRemaining : Bytes := b.buf.drop (min b.start b.buf.length)

end OutputBuffer

open OutputBuffer

/-! ### Runs -/

inductive Op where
  | push (bytes : Bytes)
  | consume (n : ℕ)
  | takeInto (into : Bytes)

/-- The bytes that an operation puts into the buffer, and those that the driver has of it. -/
structure Moved where
  pushed : Bytes
  handed : Bytes

/-- One operation. A driver that consumes has looked at the pending bytes before. -/
def step (b : OutputBuffer) : Op → Moved × OutputBuffer
  | .push bytes => (⟨bytes, []⟩, b.push bytes)
  | .consume n => (⟨[], b.pending.take n⟩, b.consume n)
  | .takeInto into =>
    (⟨[], (b.takeInto into).1.drop into.length⟩, (b.takeInto into).2)

def pushed (moves : List Moved) : Bytes := moves.flatMap Moved.pushed

def handed (moves : List Moved) : Bytes := moves.flatMap Moved.handed

/-! ### The accounts -/

/-- The bytes handed out, then those pending, are the bytes pushed, and the counter is theirs. -/
structure Accounts (moves : List Moved) (b : OutputBuffer) : Prop where
  bytes : handed moves ++ b.pending = pushed moves
  start_le : b.start ≤ b.buf.length
  handedOut : b.handedOut = UInt64.ofNat (handed moves).length

variable {b : OutputBuffer}

theorem pushed_snoc (moves : List Moved) (m : Moved) :
    pushed (moves ++ [m]) = pushed moves ++ m.pushed := by
  simp [pushed]

theorem handed_snoc (moves : List Moved) (m : Moved) :
    handed (moves ++ [m]) = handed moves ++ m.handed := by
  simp [handed]

theorem length_pending (h : b.start ≤ b.buf.length) : b.start + b.len = b.buf.length := by
  rw [len, pending, List.length_drop]
  omega

theorem pending_push (h : b.start ≤ b.buf.length) (bytes : Bytes) :
    (b.push bytes).pending = b.pending ++ bytes := by
  rw [pending, push, List.drop_append_of_le_length h, pending]

/-- Consuming drops pending bytes, whether the vector is compacted or not. -/
theorem pending_consume (h : b.start ≤ b.buf.length) (n : ℕ) :
    (b.consume n).pending = b.pending.drop n := by
  have hlen := length_pending h
  have hdrop : b.pending.drop n = b.buf.drop (b.start + min n b.len) := by
    rw [pending, List.drop_drop]
    by_cases hn : n ≤ b.len
    · rw [min_eq_left hn]
    · rw [min_eq_right (not_le.mp hn).le, hlen, List.drop_length, List.drop_eq_nil_iff]
      omega
  rw [consume]
  split
  · next hall =>
    rw [hdrop, List.drop_eq_nil_iff.mpr hall]
    rfl
  · split
    · exact hdrop.symm
    · exact hdrop.symm

theorem start_consume (h : b.start ≤ b.buf.length) (n : ℕ) :
    (b.consume n).start ≤ (b.consume n).buf.length := by
  have hlen := length_pending h
  rw [consume]
  split
  · exact le_rfl
  · split
    · exact Nat.zero_le _
    · dsimp only
      omega

theorem handedOut_consume (h : b.start ≤ b.buf.length) (n : ℕ) :
    (b.consume n).handedOut = b.handedOut + UInt64.ofNat (b.pending.take n).length := by
  have hlen := length_pending h
  have htake : (b.pending.take n).length = min n b.len := List.length_take
  rw [htake, consume, OutputBuffer.handedOut, OutputBuffer.handedOut, UInt64.add_assoc,
    ← UInt64.ofNat_add]
  split
  · next hall =>
    have hstart : b.start + min n b.len = b.buf.length := by omega
    rw [hstart]
    exact UInt64.add_zero _
  · split
    · exact UInt64.add_zero _
    · rfl

/-- Taking hands out what is pending, by a swap or by a copy. -/
theorem takeInto_fst (into : Bytes) :
    (b.takeInto into).1 = into ++ b.pending := by
  rw [takeInto]
  split
  · next hswap =>
    rw [List.isEmpty_iff.mp hswap.1, pending, hswap.2]
    rfl
  · rfl

theorem takeInto_snd (h : b.start ≤ b.buf.length) (into : Bytes) :
    (b.takeInto into).2.pending = [] ∧
      (b.takeInto into).2.start ≤ (b.takeInto into).2.buf.length ∧
      (b.takeInto into).2.handedOut = b.handedOut + UInt64.ofNat b.pending.length := by
  rw [takeInto]
  split
  · next hswap =>
    refine ⟨List.drop_nil, hswap.2.le, ?_⟩
    rw [OutputBuffer.handedOut, OutputBuffer.handedOut, pending, hswap.2, List.drop_zero]
    exact (UInt64.add_zero _).trans (congrArg (· + _) (UInt64.add_zero _).symm)
  · refine ⟨?_, start_consume h _, ?_⟩
    · rw [pending_consume h, len, List.drop_length]
    · rw [handedOut_consume h, len, List.take_length]

theorem Accounts.step {moves : List Moved} (h : Accounts moves b) (op : Op) :
    Accounts (moves ++ [(Output.step b op).1]) (Output.step b op).2 := by
  cases op with
  | push bytes =>
    refine ⟨?_, ?_, ?_⟩
    · rw [pushed_snoc, handed_snoc, ← h.bytes]
      show (handed moves ++ []) ++ (b.push bytes).pending = _
      rw [pending_push h.start_le, List.append_nil, List.append_assoc]
      rfl
    · show b.start ≤ (b.buf ++ bytes).length
      rw [List.length_append]
      exact h.start_le.trans (Nat.le_add_right _ _)
    · rw [handed_snoc]
      show b.handedOut = UInt64.ofNat (handed moves ++ []).length
      rw [List.append_nil, h.handedOut]
  | consume n =>
    refine ⟨?_, start_consume h.start_le n, ?_⟩
    · rw [pushed_snoc, handed_snoc, ← h.bytes]
      show (handed moves ++ b.pending.take n) ++ (b.consume n).pending = _ ++ []
      rw [pending_consume h.start_le, List.append_assoc, List.take_append_drop, List.append_nil]
    · rw [handed_snoc]
      show (b.consume n).handedOut = UInt64.ofNat (handed moves ++ b.pending.take n).length
      rw [handedOut_consume h.start_le, h.handedOut, List.length_append, UInt64.ofNat_add]
  | takeInto into =>
    obtain ⟨hpending, hstart, hcount⟩ := takeInto_snd h.start_le into
    have hhanded : (b.takeInto into).1.drop into.length = b.pending := by
      rw [takeInto_fst, List.drop_left]
    refine ⟨?_, hstart, ?_⟩
    · rw [pushed_snoc, handed_snoc, ← h.bytes]
      show (handed moves ++ (b.takeInto into).1.drop into.length) ++ (b.takeInto into).2.pending =
        _ ++ []
      rw [hhanded, hpending, List.append_nil]
    · rw [handed_snoc]
      show (b.takeInto into).2.handedOut =
        UInt64.ofNat (handed moves ++ (b.takeInto into).1.drop into.length).length
      rw [hhanded, hcount, h.handedOut, List.length_append, UInt64.ofNat_add]

theorem accounts_new : Accounts [] new := ⟨rfl, le_rfl, rfl⟩

theorem Accounts.total_eq {moves : List Moved} (h : Accounts moves b) :
    b.handedOut + UInt64.ofNat b.len = b.total ∧
      b.total = UInt64.ofNat (pushed moves).length := by
  have hsum : b.handedOut + UInt64.ofNat b.len = b.total := by
    rw [OutputBuffer.handedOut, UInt64.add_assoc, ← UInt64.ofNat_add, length_pending h.start_le]
    rfl
  refine ⟨hsum, ?_⟩
  rw [← hsum, h.handedOut, ← UInt64.ofNat_add, ← h.bytes, List.length_append]
  rfl

/-- In every run, the bytes handed out and those pending are all bytes pushed, in order, and the
64-bit counters count them; below 2^64 bytes they are exact. -/
theorem output_accounted (ops : List Op) :
    let moves := Runs.outputs step new ops
    let b := Runs.final step new ops
    handed moves ++ b.pending = pushed moves ∧
      b.handedOut + UInt64.ofNat b.len = b.total ∧
      b.total = UInt64.ofNat (pushed moves).length ∧
      (∀ into, (b.takeInto into).1 = into ++ b.pending) ∧
      ((pushed moves).length < 2 ^ 64 →
        b.total.toNat = (pushed moves).length ∧ b.handedOut.toNat + b.len = b.total.toNat) := by
  have h : Accounts (Runs.outputs step new ops) (Runs.final step new ops) :=
    Runs.history (fun _ _ op h => h.step op) accounts_new ops
  obtain ⟨hsum, htotal⟩ := h.total_eq
  refine ⟨h.bytes, hsum, htotal, takeInto_fst, fun hlt => ?_⟩
  have hlen : (handed (Runs.outputs step new ops)).length + (Runs.final step new ops).len =
      (pushed (Runs.outputs step new ops)).length := by
    rw [← h.bytes, List.length_append]
    rfl
  have hle : (handed (Runs.outputs step new ops)).length < 2 ^ 64 := by omega
  rw [htotal, h.handedOut, UInt64.toNat_ofNat_of_lt' hlt, UInt64.toNat_ofNat_of_lt' hle]
  exact ⟨rfl, hlen⟩

end Zencodec.Output
