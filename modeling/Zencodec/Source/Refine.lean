/-
A buffered source is random access to the stream, as far back as it retains.

`Holds policy source` says that the buffer stands at its watermark in `source`: the reader has
the rest, and the buffer retains of the bytes before what its policy says. Every operation
keeps this, whatever the reader answers, and reads what stands in `source`:

* `spec_readMore` — the next bytes of the stream, retained;
* `spec_advanceTo`, `spec_fill` — the loops around it;
* `spec_readAt` — the bytes at an offset.
-/
import Zencodec.Source.Buffered

namespace Zencodec.Source

variable {Ω : Type}

/-! ### The invariant -/

/-- What a policy retains of the bytes delivered so far: the last ones, or the first. -/
def BufferPolicy.retained (policy : BufferPolicy) (delivered : List UInt8) : List UInt8 :=
  match policy with
  | .window windowBytes => delivered.drop (delivered.length - windowBytes)
  | .spool maxBytes => delivered.take maxBytes

/-- The buffer stands at its watermark in `source`. -/
structure Holds (policy : BufferPolicy) (source : List UInt8) (b : BufferedReadAt)
    (s : Stream) : Prop where
  policy_eq : b.policy = policy
  watermark_le : b.watermark ≤ source.length
  rest_eq : s.rest = source.drop b.watermark
  buf_eq : b.buf = policy.retained (source.take b.watermark)
  start_eq : b.exceeded = none → b.bufStart + b.buf.length = b.watermark
  spool_start : ∀ maxBytes, policy = .spool maxBytes → b.bufStart = 0
  atEnd : b.eof = true → b.watermark = source.length
  terminal : ∀ p, b.exceeded = some p →
    policy = .spool p.2 ∧ p.1 = p.2 + 1 ∧ b.watermark = p.2 + 1

/-- The source has not read beyond a spool cap. -/
def Live (policy : BufferPolicy) (source : List UInt8) (b : BufferedReadAt) (s : Stream) : Prop :=
  Holds policy source b s ∧ b.exceeded = none

/-- A failure that leaves the buffer in order. -/
structure Failed (policy : BufferPolicy) (source : List UInt8) (e : Error)
    (t : BufferedReadAt × Stream × Ω) : Prop where
  holds : Holds policy source t.1 t.2.1
  near : ∀ offset oldest, e ≠ .beyondWindow offset oldest
  limit : ∀ needed limit, e = .beyondLimit needed limit → t.1.exceeded = some (needed, limit)

variable {policy : BufferPolicy} {source : List UInt8} {b : BufferedReadAt} {s : Stream} {w : Ω}

theorem holds_new (policy : BufferPolicy) (source : List UInt8) (answers : List Answer) :
    Live policy source (.new policy) ⟨source, answers⟩ := by
  refine ⟨⟨rfl, Nat.zero_le _, rfl, ?_, fun _ => rfl, fun _ _ => rfl, ?_, ?_⟩, rfl⟩
  · cases policy <;> simp [BufferedReadAt.new, BufferPolicy.retained]
  · intro h
    cases h
  · intro p h
    cases h

section Live

theorem Holds.length_take (h : Holds policy source b s) :
    (source.take b.watermark).length = b.watermark := by
  rw [List.length_take, Nat.min_eq_left h.watermark_le]

/-- The retained bytes are those that stand before the watermark. -/
theorem Live.buf_eq (h : Live policy source b s) :
    b.buf = (source.take b.watermark).drop b.bufStart := by
  obtain ⟨h, hlive⟩ := h
  have hstart := h.start_eq hlive
  have hbuf := h.buf_eq
  have hlen := congrArg List.length hbuf
  cases policy with
  | window windowBytes =>
    rw [BufferPolicy.retained, h.length_take] at hbuf hlen
    rw [List.length_drop, h.length_take] at hlen
    rw [hbuf]
    congr 1
    omega
  | spool maxBytes =>
    have hzero := h.spool_start maxBytes rfl
    rw [BufferPolicy.retained] at hbuf hlen
    rw [List.length_take, h.length_take] at hlen
    rw [hbuf, hzero, List.drop_zero, List.take_of_length_le]
    rw [h.length_take]
    omega

/-- A live spool has not passed its cap. -/
theorem Live.watermark_le_cap {maxBytes : ℕ} (h : Live (.spool maxBytes) source b s) :
    b.watermark ≤ maxBytes ∧ b.buf.length = b.watermark := by
  obtain ⟨h, hlive⟩ := h
  have hstart := h.start_eq hlive
  have hzero := h.spool_start maxBytes rfl
  have hlen := congrArg List.length h.buf_eq
  rw [BufferPolicy.retained, List.length_take, h.length_take] at hlen
  omega

/-- A window drops its oldest bytes. -/
theorem retained_window_append (n : ℕ) (delivered bytes : List UInt8) :
    (BufferPolicy.window n).retained (delivered ++ bytes) =
      if n ≤ bytes.length then bytes.drop (bytes.length - n)
      else ((BufferPolicy.window n).retained delivered).drop
        (((BufferPolicy.window n).retained delivered).length + bytes.length - n) ++ bytes := by
  simp only [BufferPolicy.retained, List.length_append]
  split
  · next h =>
    rw [List.drop_append, List.drop_of_length_le (by omega), List.nil_append]
    congr 1
    omega
  · next h =>
    rw [List.drop_drop, List.length_drop, List.drop_append, 
      show delivered.length + bytes.length - n - delivered.length = 0 by omega, List.drop_zero]
    congr 2
    omega

/-- The buffer after the next bytes of the stream. -/
theorem Live.remember (h : Live policy source b s) {bytes : List UInt8}
    (hbytes : source.take (b.watermark + bytes.length) = source.take b.watermark ++ bytes)
    (hle : b.watermark + bytes.length ≤ source.length)
    (hcap : ∀ maxBytes, policy = .spool maxBytes → b.watermark + bytes.length ≤ maxBytes)
    (answers : List Answer) :
    Live policy source
      (({ b with watermark := b.watermark + bytes.length }).remember bytes)
      ⟨source.drop (b.watermark + bytes.length), answers⟩ := by
  have hpolicy := h.1.policy_eq
  have hbuf := h.1.buf_eq
  have hend : b.eof = true → b.watermark + bytes.length = source.length := by
    intro he
    have := h.1.atEnd he
    omega
  have hdead : ∀ p, b.exceeded = some p → policy = .spool p.2 ∧ p.1 = p.2 + 1 ∧
      b.watermark + bytes.length = p.2 + 1 := by
    intro p hp
    rw [h.2] at hp
    cases hp
  cases policy with
  | window windowBytes =>
    have hnew := retained_window_append windowBytes (source.take b.watermark) bytes
    rw [← hbytes, ← hbuf] at hnew
    have hlen := congrArg List.length hnew
    rw [BufferPolicy.retained, List.length_drop, List.length_take, Nat.min_eq_left hle] at hlen
    simp only [BufferedReadAt.remember, hpolicy]
    refine ⟨⟨rfl, hle, rfl, hnew.symm, fun _ => ?_, (fun _ hp => by cases hp), hend, hdead⟩, h.2⟩
    exact Nat.sub_add_cancel (by omega)
  | spool maxBytes =>
    obtain ⟨hwm, hbuflen⟩ := h.watermark_le_cap
    have hfit := hcap maxBytes rfl
    have hnew : (BufferPolicy.spool maxBytes).retained (source.take (b.watermark + bytes.length)) =
        b.buf ++ bytes := by
      rw [BufferPolicy.retained, hbuf, BufferPolicy.retained, List.take_take, Nat.min_eq_right hfit,
        List.take_take, Nat.min_eq_right hwm, hbytes]
    simp only [BufferedReadAt.remember, hpolicy]
    refine ⟨⟨rfl, hle, rfl, hnew.symm, fun _ => ?_, fun _ _ => h.1.spool_start maxBytes rfl,
      hend, hdead⟩, h.2⟩
    show b.bufStart + (b.buf ++ bytes).length = b.watermark + bytes.length
    rw [h.1.spool_start maxBytes rfl, List.length_append, hbuflen, Nat.zero_add]

end Live

/-! ### Reading on -/

/-- A read delivers the next bytes, and none only at the end or into no room. -/
theorem spec_read (want : ℕ) (s : Stream) :
    Act.Spec (Stream.read want)
      (fun bytes t => s.rest = bytes ++ t.rest ∧ bytes.length ≤ want ∧
        (bytes = [] → want = 0 ∨ s.rest = []) ∧ t.answers.length < s.answers.length)
      (fun e t => t.rest = s.rest ∧ (e = .io ∨ e = .blocked)) s := by
  obtain ⟨rest, answers⟩ := s
  show Act.Spec (fun s => readRetry want s.rest s.answers) _ _ _
  induction answers with
  | nil => exact ⟨rfl, .inr rfl⟩
  | cons a answers ih =>
    cases a with
    | interrupted =>
      refine ih.mono (fun bytes t ht => ?_) (fun _ _ ht => ht)
      obtain ⟨hrest, hlen, hnil, hless⟩ := ht
      exact ⟨hrest, hlen, hnil, Nat.lt_succ_of_lt hless⟩
    | failed => exact ⟨rfl, .inl rfl⟩
    | bytes more =>
      refine ⟨(List.take_append_drop _ _).symm, ?_, fun hnil => ?_, Nat.lt_succ_self _⟩
      · show (rest.take (min (more + 1) want)).length ≤ want
        rw [List.length_take]
        omega
      · rcases List.take_eq_nil_iff.mp hnil with hzero | hnil
        · left
          omega
        · exact .inr hnil

/-- What `read_more` hands back: the next bytes, none only at the end. -/
structure Fetched (policy : BufferPolicy) (source : List UInt8) (b : BufferedReadAt) (s : Stream)
    (want : ℕ) (bytes : List UInt8) (t : BufferedReadAt × Stream × Ω) : Prop where
  live : Live policy source t.1 t.2.1
  next : source.take (b.watermark + bytes.length) = source.take b.watermark ++ bytes
  length_le : bytes.length ≤ want
  watermark_eq : t.1.watermark = b.watermark + bytes.length
  atEnd : bytes = [] → want = 0 ∨ t.1.eof = true
  answered : bytes ≠ [] → t.2.1.answers.length < s.answers.length

theorem take_add_of_drop {source bytes rest : List UInt8} {n : ℕ}
    (h : source.drop n = bytes ++ rest) (hn : n ≤ source.length) :
    source.take (n + bytes.length) = source.take n ++ bytes ∧
      source.drop (n + bytes.length) = rest ∧ n + bytes.length ≤ source.length := by
  have hlen := congrArg List.length h
  rw [List.length_drop, List.length_append] at hlen
  refine ⟨?_, ?_, by omega⟩
  · rw [List.take_add, h, List.take_left]
  · rw [← List.drop_drop, h, List.drop_left]

theorem spec_fetch (h : Live policy source b s) (host : Host Ω) {want : ℕ} (hwant : want ≠ 0)
    (hcap : ∀ maxBytes, policy = .spool maxBytes → b.watermark + want ≤ maxBytes) :
    Act.Spec (BufferedReadAt.fetch host want) (Fetched policy source b s want)
      (Failed policy source) (b, s, w) := by
  have hfail : ∀ (e : Error) (s' : Stream) (w' : Ω), s'.rest = s.rest →
      (∀ offset oldest, e ≠ .beyondWindow offset oldest) →
      (∀ needed limit, e ≠ .beyondLimit needed limit) → Failed policy source e (b, s', w') := by
    intro e s' w' hrest hnear hlimit
    exact ⟨{ h.1 with rest_eq := hrest.trans h.1.rest_eq }, hnear,
      fun needed limit he => absurd he (hlimit needed limit)⟩
  simp only [BufferedReadAt.fetch, BufferedReadAt.reserveRetained, onStream, Act.spec_bind,
    Act.spec_get, spec_onWorld, Act.spec_focus, Act.spec_modify, Act.spec_pure]
  refine Host.spec_reserve ?_ (hfail _ _ _ rfl (by simp) (by simp))
  refine (spec_read want s).mono (fun bytes s' hread => ?_) (fun e s' hread => ?_)
  · obtain ⟨hrest, hlen, hnil, hless⟩ := hread
    rw [h.1.rest_eq] at hrest
    obtain ⟨htake, hdrop, hle⟩ := take_add_of_drop hrest h.1.watermark_le
    cases hb : bytes with
    | nil =>
      -- the reader is at the end of the stream
      subst hb
      have hend : b.watermark = source.length := by
        rcases hnil rfl with h0 | hr
        · exact absurd h0 hwant
        · rw [h.1.rest_eq, List.drop_eq_nil_iff] at hr
          have := h.1.watermark_le
          omega
      have hs' : s'.rest = source.drop b.watermark := hdrop.symm
      refine ⟨⟨{ h.1 with rest_eq := hs', atEnd := fun _ => hend }, h.2⟩, ?_, Nat.zero_le _, rfl,
        fun _ => .inr rfl, fun hne => absurd rfl hne⟩
      simp
    | cons a rest =>
      rw [← hb]
      have hne : bytes.isEmpty = false := by rw [hb]; rfl
      rw [hne]
      have hlive := h.remember htake hle
        (fun maxBytes hm => Nat.le_trans (Nat.add_le_add_left hlen _) (hcap maxBytes hm)) s'.answers
      rw [hdrop] at hlive
      refine ⟨hlive, htake, hlen, ?_, fun hnil => ?_, fun _ => hless⟩
      · show (BufferedReadAt.remember _ bytes).watermark = _
        unfold BufferedReadAt.remember
        split <;> rfl
      · rw [hnil] at hb
        cases hb
  · rcases hread with ⟨hrest, rfl | rfl⟩
    · exact hfail _ _ _ hrest (by simp) (by simp)
    · exact hfail _ _ _ hrest (by simp) (by simp)

/-- A source that has read beyond its cap refuses, and changes nothing. -/
theorem spec_checkLive (h : Holds policy source b s) :
    Act.Spec BufferedReadAt.checkLive (fun _ t => t = (b, s, w) ∧ b.exceeded = none)
      (fun e t => t = (b, s, w) ∧ Failed policy source e t) (b, s, w) := by
  simp only [BufferedReadAt.checkLive, Act.spec_bind, Act.spec_get]
  cases hx : b.exceeded with
  | none => exact ⟨rfl, rfl⟩
  | some p =>
    refine ⟨rfl, h, (fun _ _ he => by cases he), fun needed limit he => ?_⟩
    obtain ⟨rfl, rfl⟩ := Error.beyondLimit.inj he
    exact hx

theorem spec_probe {maxBytes : ℕ} (h : Live (.spool maxBytes) source b s)
    (hfull : b.watermark = maxBytes) (want : ℕ) :
    Act.Spec (BufferedReadAt.probe maxBytes) (Fetched (.spool maxBytes) source b s want)
      (Failed (.spool maxBytes) source) (b, s, w) := by
  simp only [BufferedReadAt.probe, onStream, Act.spec_bind, spec_onWorld, Act.spec_focus]
  refine (spec_read 1 s).mono (fun bytes s' hread => ?_) (fun e s' hread => ?_)
  · obtain ⟨hrest, hlen, hnil, -⟩ := hread
    rw [h.1.rest_eq] at hrest
    obtain ⟨htake, hdrop, hle⟩ := take_add_of_drop hrest h.1.watermark_le
    rw [Act.spec_ite]
    refine ⟨fun hempty => ?_, fun hne => ?_⟩
    · obtain rfl := List.isEmpty_iff.mp hempty
      have hend : b.watermark = source.length := by
        rcases hnil rfl with h0 | hr
        · cases h0
        · rw [h.1.rest_eq, List.drop_eq_nil_iff] at hr
          have := h.1.watermark_le
          omega
      have hs' : s'.rest = source.drop b.watermark := hdrop.symm
      refine ⟨⟨{ h.1 with rest_eq := hs', atEnd := fun _ => hend }, h.2⟩, ?_, Nat.zero_le _, rfl,
        fun _ => .inr rfl, fun hne => absurd rfl hne⟩
      simp
    · -- the byte is delivered but not retained
      have hone : bytes.length = 1 := by
        have : bytes.length ≠ 0 := fun h0 => hne (List.isEmpty_iff.mpr (List.length_eq_zero_iff.mp h0))
        omega
      rw [hone] at htake hdrop hle
      have hbuf : b.buf =
          (BufferPolicy.spool maxBytes).retained (source.take (b.watermark + 1)) := by
        rw [htake, h.1.buf_eq, BufferPolicy.retained, BufferPolicy.retained,
          List.take_append_of_le_length (by rw [h.1.length_take]; omega)]
      refine ⟨⟨h.1.policy_eq, hle, hdrop.symm, hbuf, ?_, h.1.spool_start, ?_, ?_⟩,
        (fun _ _ he => by cases he), fun needed limit he => ?_⟩
      · intro hlive
        cases hlive
      · intro heof
        have := h.1.atEnd heof
        omega
      · intro p hp
        obtain rfl := Option.some.inj hp
        exact ⟨rfl, congrArg (· + 1) hfull, congrArg (· + 1) hfull⟩
      · obtain ⟨rfl, rfl⟩ := Error.beyondLimit.inj he
        rfl
  · have hfail : ∀ e : Error, (∀ offset oldest, e ≠ .beyondWindow offset oldest) →
        (∀ needed limit, e ≠ .beyondLimit needed limit) →
        Failed (.spool maxBytes) source e (b, s', w) :=
      fun e hnear hlimit => ⟨{ h.1 with rest_eq := hread.1.trans h.1.rest_eq }, hnear,
        fun needed limit he => absurd he (hlimit needed limit)⟩
    rcases hread.2 with rfl | rfl
    · exact hfail _ (by simp) (by simp)
    · exact hfail _ (by simp) (by simp)

/-- `read_more` hands back the next bytes of the stream, and none only at its end. -/
theorem spec_readMore (h : Live policy source b s) (host : Host Ω) (want : ℕ) :
    Act.Spec (BufferedReadAt.readMore host want) (Fetched policy source b s want)
      (Failed policy source) (b, s, w) := by
  have hskip : (want = 0 ∨ b.eof = true) → Fetched policy source b s want [] (b, s, w) := by
    intro hnone
    refine ⟨h, ?_, Nat.zero_le _, rfl, fun _ => hnone, fun hne => absurd rfl hne⟩
    simp
  simp only [BufferedReadAt.readMore, Act.spec_bind]
  refine (spec_checkLive h.1).mono (fun _ t ht => ?_) (fun e t ht => ht.2)
  obtain ⟨rfl, -⟩ := ht
  rw [Act.spec_get, Act.spec_ite]
  refine ⟨fun hdone => hskip hdone.symm, fun hmore => ?_⟩
  have hwant : want ≠ 0 := fun h0 => hmore (.inr h0)
  have hpolicy := h.1.policy_eq
  cases policy with
  | window windowBytes =>
    simp only [hpolicy]
    exact spec_fetch h host hwant fun _ hp => by cases hp
  | spool maxBytes =>
    simp only [hpolicy]
    obtain ⟨hwm, hlen⟩ := h.watermark_le_cap
    rw [Act.spec_ite, hlen]
    refine ⟨fun hfull => spec_probe h (by omega) want, fun hroom => ?_⟩
    refine (spec_fetch h host hroom fun m hm => ?_).mono (fun bytes t hf => ?_) (fun _ _ hf => hf)
    · obtain rfl := BufferPolicy.spool.inj hm
      omega
    · refine ⟨hf.live, hf.next, Nat.le_trans hf.length_le (Nat.min_le_left _ _),
        hf.watermark_eq, fun hnil => ?_, hf.answered⟩
      exact (hf.atEnd hnil).imp_left fun h0 => absurd h0 hroom

/-! ### The loops -/

/-- Skipping ends at the offset, or at the end of the stream before it. -/
theorem spec_advance (h : Live policy source b s) (host : Host Ω) (offset : ℕ) {turns : ℕ}
    (hturns : offset ≤ b.watermark + turns ∨ b.eof = true) :
    Act.Spec (BufferedReadAt.advance host offset turns)
      (fun _ t => Live policy source t.1 t.2.1 ∧ (offset ≤ t.1.watermark ∨ t.1.eof = true) ∧
        (t.1 = b ∨ t.1.watermark ≤ offset))
      (Failed policy source) (b, s, w) := by
  induction turns generalizing b s w with
  | zero => exact ⟨h, hturns, .inl rfl⟩
  | succ turns ih =>
    simp only [BufferedReadAt.advance, Act.spec_bind, Act.spec_get, Act.spec_ite]
    refine ⟨fun hmore => ?_, fun hdone => ⟨h, ?_, .inl rfl⟩⟩
    · obtain ⟨hlt, hopen⟩ := hmore
      refine (spec_readMore h host _).mono (fun bytes t hf => ?_) (fun _ _ hf => hf)
      obtain ⟨b', s', w'⟩ := t
      have hle := Nat.le_trans hf.length_le (Nat.min_le_left _ _)
      have hwm : b'.watermark = b.watermark + bytes.length := hf.watermark_eq
      -- a turn without bytes has found the end
      have hturns' : offset ≤ b'.watermark + turns ∨ b'.eof = true := by
        cases hb : bytes with
        | nil =>
          right
          rcases hf.atEnd hb with h0 | heof
          · simp only [scratchLen] at h0
            omega
          · exact heof
        | cons a rest =>
          left
          rw [hopen] at hturns
          rw [hb, List.length_cons] at hwm
          have := hturns.resolve_right Bool.false_ne_true
          omega
      refine (ih hf.live hturns').mono (fun _ t ht => ?_) (fun _ _ hf => hf)
      obtain ⟨hlive, hend, hwm'⟩ := ht
      refine ⟨hlive, hend, .inr ?_⟩
      rcases hwm' with heq | hle'
      · rw [heq]
        show b'.watermark ≤ offset
        omega
      · exact hle'
    · by_cases hlt : b.watermark < offset
      · right
        cases he : b.eof with
        | true => rfl
        | false => exact absurd ⟨hlt, he⟩ hdone
      · exact .inl (Nat.le_of_not_lt hlt)

/-- Filling completes the bytes at the offset. -/
theorem spec_fill (h : Live policy source b s) (host : Host Ω) {offset want : ℕ} {turns : ℕ}
    {filled : List UInt8} (hfilled : filled = (source.drop offset).take filled.length)
    (hle : filled.length ≤ want) (hat : filled.length = want ∨ offset + filled.length = b.watermark)
    (hturns : want ≤ filled.length + turns) :
    Act.Spec (BufferedReadAt.fill host want turns filled)
      (fun bytes t => bytes = (source.drop offset).take want ∧ Live policy source t.1 t.2.1)
      (Failed policy source) (b, s, w) := by
  induction turns generalizing b s w filled with
  | zero =>
    refine ⟨?_, h⟩
    rwa [show filled.length = want by omega] at hfilled
  | succ turns ih =>
    simp only [BufferedReadAt.fill, Act.spec_ite, Act.spec_bind]
    refine ⟨fun hmore => ?_, fun hdone => ⟨?_, h⟩⟩
    · refine (spec_readMore h host _).mono (fun bytes t hf => ?_) (fun _ _ hf => hf)
      obtain ⟨b', s', w'⟩ := t
      have hwm : b'.watermark = b.watermark + bytes.length := hf.watermark_eq
      have hat' := hat.resolve_left (by omega)
      refine ⟨fun hempty => ?_, fun hne => ?_⟩
      · -- short, and the stream has ended: there is no more at the offset
        obtain rfl := List.isEmpty_iff.mp hempty
        refine ⟨?_, hf.live⟩
        have heof : b'.eof = true := by
          rcases hf.atEnd rfl with h0 | heof
          · omega
          · exact heof
        have hend : b'.watermark = source.length := hf.live.1.atEnd heof
        rw [List.length_nil] at hwm
        have hshort : (source.drop offset).length ≤ filled.length := by
          rw [List.length_drop]
          omega
        rw [hfilled, List.take_of_length_le hshort,
          List.take_of_length_le (Nat.le_trans hshort hle)]
      · have hpos : 0 < bytes.length := by
          refine Nat.pos_of_ne_zero fun h0 => hne ?_
          rw [List.length_eq_zero_iff.mp h0]
          rfl
        have hnext : bytes = (source.drop (offset + filled.length)).take bytes.length := by
          have := hf.next
          rw [List.take_add] at this
          rw [hat']
          exact (List.append_cancel_left this).symm
        have hlen : (filled ++ bytes).length = filled.length + bytes.length := List.length_append
        have hle' := hf.length_le
        refine (ih hf.live ?_ ?_ ?_ ?_).mono (fun _ _ ht => ht) (fun _ _ hf => hf)
        · rw [hlen, List.take_add, ← hfilled, List.drop_drop, ← hnext]
        · omega
        · right
          show offset + (filled ++ bytes).length = b'.watermark
          omega
        · omega
    · rwa [show filled.length = want by omega] at hfilled

/-! ### Reading at an offset -/

/-- The bytes retained from an offset on. -/
theorem Live.retained_at (h : Live policy source b s) {offset : ℕ} (hstart : b.bufStart ≤ offset)
    (want : ℕ) :
    (b.buf.drop (offset - b.bufStart)).take (min (b.watermark - offset) want) =
      (source.drop offset).take (min (b.watermark - offset) want) := by
  rw [h.buf_eq, List.drop_drop, Nat.add_sub_cancel' hstart, List.drop_take, List.take_take,
    Nat.min_eq_left (Nat.min_le_left _ _)]

/-- A failed read leaves the buffer in order; only one below the retained bytes is too old. -/
structure ReadFailed (policy : BufferPolicy) (source : List UInt8) (b : BufferedReadAt)
    (offset : ℕ) (e : Error) (t : BufferedReadAt × Stream × Ω) : Prop where
  holds : Holds policy source t.1 t.2.1
  old : ∀ o oldest, e = .beyondWindow o oldest → offset < b.bufStart
  limit : ∀ needed limit, e = .beyondLimit needed limit → t.1.exceeded = some (needed, limit)

theorem Failed.readFailed {e : Error} {t : BufferedReadAt × Stream × Ω}
    (h : Failed policy source e t) (b : BufferedReadAt) (offset : ℕ) :
    ReadFailed policy source b offset e t :=
  ⟨h.holds, fun o oldest he => absurd he (h.near o oldest), h.limit⟩

/-- `read_at` reads the stream. -/
theorem spec_readAt (h : Holds policy source b s) (host : Host Ω) (offset want : ℕ) :
    Act.Spec (BufferedReadAt.readAt host offset want)
      (fun bytes t => bytes = (source.drop offset).take want ∧ Holds policy source t.1 t.2.1)
      (ReadFailed policy source b offset) (b, s, w) := by
  simp only [BufferedReadAt.readAt, BufferedReadAt.advanceTo, Act.spec_ite, Act.spec_bind,
    Act.spec_get, Act.spec_require, Act.spec_pure]
  refine ⟨fun h0 => ⟨by rw [h0, List.take_zero], h⟩, fun hwant => ?_⟩
  refine (spec_checkLive h).mono (fun _ t ht => ?_) (fun e t ht => ht.2.readFailed b offset)
  obtain ⟨rfl, hlive⟩ := ht
  have hl : Live policy source b s := ⟨h, hlive⟩
  refine ⟨fun _ => ⟨fun hstart => ?_, fun hold => ⟨h, fun _ _ _ => ?_, (fun _ _ he => by cases he)⟩⟩,
    fun _ => ⟨h, (fun _ _ he => by cases he), (fun _ _ he => by cases he)⟩⟩
  · have hstart' : b.bufStart ≤ offset := of_decide_eq_true hstart
    have hturns : offset ≤ b.watermark + (offset - b.watermark) := by omega
    refine (spec_advance hl host offset (.inl hturns)).mono (fun _ t ht => ?_)
      (fun e t ht => ht.readFailed b offset)
    obtain ⟨b', s', w'⟩ := t
    have hl' : Live policy source b' s' := ht.1
    have hend : offset ≤ b'.watermark ∨ b'.eof = true := ht.2.1
    have hwm : b' = b ∨ b'.watermark ≤ offset := ht.2.2
    have hle := hl'.1.watermark_le
    have hsum := hl'.1.start_eq hl'.2
    refine ⟨fun hshort => ⟨?_, hl'.1⟩, fun hreach => ?_⟩
    · -- the stream ended before the offset
      have heof := hend.resolve_left (Nat.not_le_of_lt hshort)
      have hat : b'.watermark = source.length := hl'.1.atEnd heof
      have hpast : source.length ≤ offset := by
        have : b'.watermark < offset := hshort
        omega
      rw [List.drop_of_length_le hpast, List.take_nil]
    · have hreach' : offset ≤ b'.watermark := Nat.le_of_not_lt hreach
      have hb' : b'.bufStart ≤ offset := by
        rcases hwm with heq | hle'
        · rw [heq]
          exact hstart'
        · omega
      have hat := hl'.retained_at hb' want
      have hlen : ((b'.buf.drop (offset - b'.bufStart)).take
          (min (b'.watermark - offset) want)).length = min (b'.watermark - offset) want := by
        rw [hat, List.length_take, List.length_drop]
        omega
      show Act.Spec (BufferedReadAt.fill host want (want - min (b'.watermark - offset) want) _) _ _ _
      refine (spec_fill hl' host ?_ ?_ ?_ ?_).mono (fun _ t ht => ⟨ht.1, ht.2.1⟩)
        (fun e t ht => ht.readFailed b offset)
      · show _ = (source.drop offset).take ((b'.buf.drop (offset - b'.bufStart)).take
          (min (b'.watermark - offset) want)).length
        rw [hlen]
        exact hat
      · show ((b'.buf.drop (offset - b'.bufStart)).take _).length ≤ want
        rw [hlen]
        exact Nat.min_le_right _ _
      · show ((b'.buf.drop (offset - b'.bufStart)).take _).length = want ∨
          offset + ((b'.buf.drop (offset - b'.bufStart)).take _).length = b'.watermark
        rw [hlen]
        omega
      · show want ≤ ((b'.buf.drop (offset - b'.bufStart)).take _).length + _
        rw [hlen]
        omega
  · exact Nat.lt_of_not_le (of_decide_eq_false hold)

/-- A read below the retained bytes fails, and changes nothing. -/
theorem readAt_dropped (h : Holds policy source b s) (host : Host Ω) {offset want : ℕ}
    (hwant : want ≠ 0) (hold : offset < b.bufStart) :
    BufferedReadAt.readAt host offset want (b, s, w) =
      (.error (if offset + want ≤ u64Max then .beyondWindow offset b.bufStart
        else .unexpectedEof offset want b.lenHint), b, s, w) := by
  have hlive : b.exceeded = none := by
    cases hx : b.exceeded with
    | none => rfl
    | some p =>
      have := h.spool_start _ (h.terminal p hx).1
      omega
  have hspec : Act.Spec (BufferedReadAt.readAt host offset want)
      (fun _ _ => False) (fun e t => e = (if offset + want ≤ u64Max then
        .beyondWindow offset b.bufStart else .unexpectedEof offset want b.lenHint) ∧
        t = (b, s, w)) (b, s, w) := by
    simp only [BufferedReadAt.readAt, BufferedReadAt.checkLive, if_neg hwant, Act.spec_bind,
      Act.spec_get, hlive, Act.spec_pure, Act.spec_require, decide_eq_true_eq,
      decide_eq_false_iff_not]
    refine ⟨fun hfits => ⟨fun hnew => absurd hnew (Nat.not_le_of_lt hold), fun _ => ⟨?_, trivial⟩⟩,
      fun hover => ⟨?_, trivial⟩⟩
    · rw [if_pos hfits]
    · rw [if_neg hover]
  unfold Act.Spec at hspec
  generalize BufferedReadAt.readAt host offset want (b, s, w) = r at hspec
  obtain ⟨r, t⟩ := r
  cases r with
  | ok bytes => exact hspec.elim
  | error e =>
    obtain ⟨rfl, rfl⟩ := hspec
    rfl

/-- Beyond its cap a spool answers nothing any more. -/
theorem readAt_terminal (host : Host Ω) {p : ℕ × ℕ} (hx : b.exceeded = some p) {offset want : ℕ}
    (hwant : want ≠ 0) : BufferedReadAt.readAt host offset want (b, s, w) =
      (.error (.beyondLimit p.1 p.2), b, s, w) := by
  obtain ⟨policy, buf, bufStart, watermark, eof, exceeded⟩ := b
  obtain rfl : exceeded = some p := hx
  unfold BufferedReadAt.readAt
  rw [if_neg hwant]
  rfl

/-- `read_exact_at` hands back all the bytes it was asked for. -/
theorem spec_readExactAt (h : Holds policy source b s) (host : Host Ω) (offset want : ℕ) :
    Act.Spec (BufferedReadAt.readExactAt host offset want)
      (fun bytes t => bytes = (source.drop offset).take want ∧ bytes.length = want ∧
        Holds policy source t.1 t.2.1)
      (fun _ t => Holds policy source t.1 t.2.1) (b, s, w) := by
  have hread : Act.Spec
      (do
        let bytes ← BufferedReadAt.readAt host offset want
        let t ← Act.get
        Act.require (decide (bytes.length = want)) (.unexpectedEof offset want t.1.lenHint)
        pure bytes : Reading Ω (List UInt8))
      (fun bytes t => bytes = (source.drop offset).take want ∧ bytes.length = want ∧
        Holds policy source t.1 t.2.1)
      (fun _ t => Holds policy source t.1 t.2.1) (b, s, w) := by
    simp only [Act.spec_bind, Act.spec_get, Act.spec_require, Act.spec_pure]
    refine (spec_readAt h host offset want).mono (fun bytes t ht => ?_) (fun _ _ ht => ht.holds)
    exact ⟨fun hlen => ⟨ht.1, of_decide_eq_true hlen, ht.2⟩, fun _ => ht.2⟩
  have hpolicy := h.policy_eq
  simp only [BufferedReadAt.readExactAt, Act.spec_ite, Act.spec_bind]
  refine ⟨fun h0 => ⟨by rw [h0, List.take_zero], h0.symm, h⟩, fun _ => ?_⟩
  refine (spec_checkLive h).mono (fun _ t ht => ?_) (fun _ _ ht => ht.2.holds)
  obtain ⟨rfl, -⟩ := ht
  rw [Act.spec_require]
  refine ⟨fun _ => ?_, fun _ => h⟩
  simp only [Act.spec_get, hpolicy]
  cases policy with
  | window windowBytes => exact hread
  | spool maxBytes =>
    simp only [Act.spec_bind, Act.spec_require]
    simp only [Act.spec_bind, Act.spec_require] at hread
    exact ⟨fun _ => hread, fun _ => h⟩

/-- The loop of `len` runs to the end of the stream. -/
theorem spec_drain (h : Live policy source b s) (host : Host Ω) {turns : ℕ}
    (hturns : s.answers.length < turns) :
    Act.Spec (BufferedReadAt.drain host turns)
      (fun _ t => Holds policy source t.1 t.2.1 ∧ t.1.watermark = source.length)
      (fun _ t => Holds policy source t.1 t.2.1) (b, s, w) := by
  induction turns generalizing b s w with
  | zero => exact absurd hturns (Nat.not_lt_zero _)
  | succ turns ih =>
    simp only [BufferedReadAt.drain, Act.spec_bind, Act.spec_ite]
    refine (spec_readMore h host scratchLen).mono (fun bytes t hf => ?_) (fun _ _ hf => hf.holds)
    obtain ⟨b', s', w'⟩ := t
    refine ⟨fun hempty => ?_, fun hne => ?_⟩
    · have heof := (hf.atEnd (List.isEmpty_iff.mp hempty)).resolve_left (by decide)
      exact ⟨hf.live.1, hf.live.1.atEnd heof⟩
    · have hless := hf.answered fun hnil => hne (List.isEmpty_iff.mpr hnil)
      have hturns' : s'.answers.length < turns :=
        Nat.lt_of_lt_of_le hless (Nat.le_of_lt_succ hturns)
      exact ih hf.live hturns'

theorem spec_len (h : Holds policy source b s) (host : Host Ω) :
    Act.Spec (BufferedReadAt.len host)
      (fun n t => n = source.length ∧ Holds policy source t.1 t.2.1)
      (fun _ t => Holds policy source t.1 t.2.1) (b, s, w) := by
  simp only [BufferedReadAt.len, Act.spec_bind, Act.spec_get]
  refine (spec_checkLive h).mono (fun _ t ht => ?_) (fun _ _ ht => ht.2.holds)
  obtain ⟨rfl, hlive⟩ := ht
  exact (spec_drain ⟨h, hlive⟩ host (Nat.lt_succ_self _)).mono (fun _ t ht => ⟨ht.2, ht.1⟩)
    (fun _ _ ht => ht)

end Zencodec.Source
