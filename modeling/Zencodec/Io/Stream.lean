/-
Driving a stage over a sequential stream.

A `ReadCursor` owns one window over the stream. To serve a request it reads and discards what
comes before it, and then reads until it holds what was asked for, or until a read finds nothing
more, which is the end. What it holds cannot be read again, so the end of the window has to stay
where the reader is: `Aligned` says so, and that a length once known is that of the stream.

Every call keeps the two aligned but one that fails for want of room: where the allocator gave
more than the window may have, the window is given up and what was read is lost.
-/
import Zencodec.Io.Feed

namespace Zencodec.Io

open Incremental (ByteRange Input InputRequest u64Max saturatingAdd)

variable {Ω ρ ε SE : Type}

/-! ### The cursor -/

/-- A sequential reader. A read leaves as many bytes in its buffer as there were, and counts no
more of them. -/
structure Reader (ρ SE : Type) where
  read : List UInt8 → ρ → (Except SE ℕ × List UInt8) × ρ
  length_read : ∀ out r, (read out r).1.2.length = out.length
  le_of_read : ∀ out r n, (read out r).1.1 = .ok n → n ≤ out.length

/-- Failure of a drive over a sequential stream. -/
inductive PumpFailure (ε SE : Type) where
  | step (e : ε)
  | io (e : SE)
  | needsRandomAccess (request : InputRequest)
  | windowLimit (needed limit : ℕ)
  | protocol (v : ProtocolViolation)
  | input (e : InputError)
  deriving DecidableEq, Repr

structure ReadCursor where
  readSize : ℕ
  maxWindow : ℕ
  window : Window

/-- What a pump does on its cursor, the stream and the world. -/
abbrev Pump (Ω ρ ε SE : Type) := Act (ReadCursor × ρ × Ω) (Halt (PumpFailure ε SE))

namespace ReadCursor

def new (readSize maxWindow : ℕ) : ReadCursor := ⟨max readSize 512, maxWindow, Window.new⟩

def retainedInputCapacity (c : ReadCursor) : ℕ := c.window.capacity

/-- The whole window. -/
def offer (c : ReadCursor) : Input := c.window.input

def take (consumed : ℕ) (c : ReadCursor) : ReadCursor :=
  { c with window := c.window.consume consumed }

/-- A request that the stream can serve, at or ahead of the window, or the first. -/
def pick (base : ℕ) (requests : List InputRequest) : Option InputRequest :=
  (requests.find? fun r => r.offset.any fun offset => decide (base ≤ offset)).or requests.head?

variable (mem : Memory Ω) (reader : Reader ρ SE)

def update (f : Window → Window) : Pump Ω ρ ε SE Unit :=
  Act.modify fun t => ({ t.1 with window := f t.1.window }, t.2)

/-- Read up to `want` bytes behind the held ones. A read that finds none marks the end. -/
def readMore (want : ℕ) : Pump Ω ρ ε SE Unit := do
  let t ← Act.get
  let stop := t.1.window.endOffset
  Act.focus (fun t => (t.1.window, t.2.2)) (fun s t => ({ t.1 with window := s.1 }, t.2.1, s.2))
    (Act.mapError (fun e => .error (.input e)) (Window.trySpare mem want t.1.maxWindow))
  let n ← Act.foreign fun t =>
    let r := reader.read (t.1.window.spare want) t.2.1
    (r.1.1.mapError fun e => .error (.io e),
      ({ t.1 with window := t.1.window.fill r.1.2 }, r.2, t.2.2))
  update fun w => w.commit n
  if n = 0 then update fun w => { w with total := some stop } else pure ()

/-- Skip forward to `offset`, reading and discarding. -/
def skipLoop (offset : ℕ) : ℕ → Pump Ω ρ ε SE Unit
  | 0 => pure ()
  | fuel + 1 => do
    let t ← Act.get
    let stop := t.1.window.endOffset
    if stop < offset ∧ t.1.window.total.isNone then do
      update fun w => w.resetTo stop
      readMore mem reader (min (min (min (offset - stop) mem.usizeMax) t.1.readSize) t.1.maxWindow)
      skipLoop offset fuel
    else pure ()

/-- Read until `minLen` bytes are held, or the end. -/
def holdLoop (minLen target : ℕ) : ℕ → Pump Ω ρ ε SE Unit
  | 0 => pure ()
  | fuel + 1 => do
    let t ← Act.get
    if t.1.window.len < max minLen 1 ∧ t.1.window.total.isNone then do
      readMore mem reader (target - min t.1.window.len target)
      holdLoop minLen target fuel
    else pure ()

/-- Where the request starts, and how many bytes it needs. -/
def demand (maxWindow : ℕ) : InputRequest → Except (PumpFailure ε SE) (ℕ × ℕ)
  | .atLeast offset minLen => .ok (offset, minLen)
  | .range r =>
    if r.length ≤ mem.usizeMax then .ok (r.offset, r.length)
    else .error (.input (.limit r.length maxWindow))
  | .len => .error (.needsRandomAccess .len)

/-- Read until the first of `requests` that the stream can serve is met. -/
def serve (requests : List InputRequest) : Pump Ω ρ ε SE Unit := do
  let t ← Act.get
  let request ← Act.getOr (pick t.1.window.base requests) .panic
  let (offset, minLen) ← Act.lift ((demand mem t.1.maxWindow request).mapError .error)
  Act.require (t.1.window.base ≤ offset) (.error (.needsRandomAccess request))
  Act.require (max minLen 1 ≤ t.1.maxWindow) (.error (.windowLimit (max minLen 1) t.1.maxWindow))
  skipLoop mem reader offset (offset - t.1.window.endOffset + 1)
  Act.modify fun t => if offset ≤ t.1.window.endOffset
    then ({ t.1 with window := t.1.window.consume (offset - t.1.window.base) }, t.2) else t
  let target := min (min (readTarget mem.usizeMax minLen t.1.readSize) t.1.maxWindow)
    (min (u64Max - offset) mem.usizeMax)
  holdLoop mem reader minLen target (max minLen 1 + 1)

end ReadCursor

/-! ### Alignment -/

/-- A reader over `src`: what it reads comes next, a read that fails reads nothing, and one that
finds nothing for a buffer with room is at the end. -/
structure Reader.Over (reader : Reader ρ SE) (src : List UInt8) (pos : ρ → ℕ) : Prop where
  length_le : src.length ≤ u64Max
  read : ∀ out r n, (reader.read out r).1.1 = .ok n →
    pos (reader.read out r).2 = pos r + n ∧ Shows src (pos r) ((reader.read out r).1.2.take n)
  failed : ∀ out r e, (reader.read out r).1.1 = .error e → pos (reader.read out r).2 = pos r
  ended : ∀ out r, (reader.read out r).1.1 = .ok 0 → out = [] ∨ src.length ≤ pos r

/-- What a cursor made for `readSize` and `maxWindow` holds is in the stream, and within the
window. -/
structure Sound (src : List UInt8) (readSize maxWindow : ℕ) (c : ReadCursor) : Prop where
  window : c.window.Over src
  capacity : c.window.capacity ≤ maxWindow
  readSize_eq : c.readSize = readSize
  maxWindow_eq : c.maxWindow = maxWindow

/-- The window ends where the reader is. -/
structure Aligned (src : List UInt8) (pos : ρ → ℕ) (readSize maxWindow : ℕ)
    (t : ReadCursor × ρ × Ω) : Prop extends Sound src readSize maxWindow t.1 where
  pos_eq : pos t.2.1 = t.1.window.endOffset
  within : t.1.window.endOffset ≤ src.length
  total : ∀ n, t.1.window.total = some n → n = src.length ∧ t.1.window.endOffset = src.length

/-- How a call fails: with what is held in the stream, and aligned unless there was no room. -/
structure Left (src : List UInt8) (pos : ρ → ℕ) (readSize maxWindow : ℕ)
    (e : Halt (PumpFailure ε SE)) (t : ReadCursor × ρ × Ω) : Prop where
  sound : Sound src readSize maxWindow t.1
  aligned : (∀ i, e ≠ .error (.input i)) → Aligned src pos readSize maxWindow t

section Calls

variable {mem : Memory Ω} {reader : Reader ρ SE} {src : List UInt8} {pos : ρ → ℕ}
  {readSize maxWindow : ℕ} {t : ReadCursor × ρ × Ω}

theorem Aligned.left (h : Aligned src pos readSize maxWindow t) {e : PumpFailure ε SE} :
    Left src pos readSize maxWindow (.error e) t :=
  ⟨h.toSound, fun _ => h⟩

theorem Sound.with_window {c : ReadCursor} (h : Sound src readSize maxWindow c) {w : Window}
    (hw : w.Over src) (hcap : c.window.capacity ≤ maxWindow → w.capacity ≤ maxWindow) :
    Sound src readSize maxWindow { c with window := w } :=
  ⟨hw, hcap h.capacity, h.readSize_eq, h.maxWindow_eq⟩

theorem Aligned.consume (h : Aligned src pos readSize maxWindow t) (n : ℕ) :
    Aligned src pos readSize maxWindow
      ({ t.1 with window := t.1.window.consume n }, t.2) := by
  have hend := Window.endOffset_consume h.window.inBuf n
  refine ⟨h.with_window (h.window.consume n) fun hcap => ?_, ?_, ?_, fun m hm => ?_⟩
  · rw [Window.capacity, Window.buf_consume]
    exact hcap
  · exact h.pos_eq.trans hend.symm
  · exact hend.trans_le h.within
  · obtain ⟨hm, hlen⟩ := h.total m (Window.total_consume t.1.window n ▸ hm)
    exact ⟨hm, hend.trans hlen⟩

/-- A window that was read to its end starts again there. -/
theorem Aligned.reset (h : Aligned src pos readSize maxWindow t) :
    Aligned src pos readSize maxWindow
      ({ t.1 with window := t.1.window.resetTo t.1.window.endOffset }, t.2) :=
  ⟨h.with_window (Window.over_resetTo src _ _) id, h.pos_eq, h.within, h.total⟩

/-- More bytes behind the held ones, where the reader went on as far. -/
theorem Aligned.extend (h : Aligned src pos readSize maxWindow t) (hnone : t.1.window.total = none)
    {w : Window} {n : ℕ} (hext : Window.Extended src t.1.window n w)
    (hcap : w.capacity ≤ maxWindow) {r : ρ} (hpos : pos r = pos t.2.1 + n)
    (hwithin : t.1.window.endOffset + n ≤ src.length) (ω : Ω) :
    Aligned src pos readSize maxWindow ({ t.1 with window := w }, r, ω) := by
  have hend := hext.endOffset
  refine ⟨h.with_window hext.held fun _ => hcap, ?_, hend.trans_le hwithin, fun m hm => ?_⟩
  · rw [hpos, h.pos_eq]
    exact hend.symm
  · exact absurd ((hext.total.trans hnone).symm.trans hm) (by simp)

/-- The end that was found is that of the stream. -/
theorem Aligned.ended (h : Aligned src pos readSize maxWindow t)
    (hstop : t.1.window.endOffset = src.length) :
    Aligned src pos readSize maxWindow
      ({ t.1 with window := { t.1.window with total := some src.length } }, t.2) := by
  refine ⟨⟨h.window.with_total _, h.capacity, h.readSize_eq, h.maxWindow_eq⟩, h.pos_eq, h.within,
    fun m hm => ?_⟩
  obtain rfl := Option.some_inj.mp hm
  exact ⟨rfl, hstop⟩

/-- A read that finds nothing is at the end. -/
theorem Aligned.at_end (hr : reader.Over src pos) (h : Aligned src pos readSize maxWindow t)
    {out : List UInt8} (hout : 0 < out.length ∨ u64Max ≤ t.1.window.endOffset)
    (hread : (reader.read out t.2.1).1.1 = .ok 0) : t.1.window.endOffset = src.length := by
  refine le_antisymm h.within ?_
  rcases hr.ended _ _ hread with hnil | hle
  · rw [hnil] at hout
    rcases hout with hpos | hmax
    · exact absurd hpos (Nat.lt_irrefl 0)
    · exact hr.length_le.trans hmax
  · exact h.pos_eq ▸ hle

/-- A read that finds something stays within the stream. -/
theorem Aligned.read_within (hr : reader.Over src pos) (h : Aligned src pos readSize maxWindow t)
    {out : List UInt8} {n : ℕ} (hread : (reader.read out t.2.1).1.1 = .ok n) :
    t.1.window.endOffset + n ≤ src.length := by
  obtain ⟨-, hshows⟩ := hr.read _ _ n hread
  have hcount : ((reader.read out t.2.1).1.2.take n).length = n := by
    rw [List.length_take, reader.length_read]
    exact min_eq_left (reader.le_of_read _ _ n hread)
  rcases hshows.stop_le with hnil | hle
  · rw [hnil, List.length_nil] at hcount
    exact hcount ▸ h.within
  · rwa [hcount, h.pos_eq] at hle

/-- A read adds to the window, or finds the end. -/
theorem readMore_spec (hr : reader.Over src pos) (h : Aligned src pos readSize maxWindow t)
    (hnone : t.1.window.total = none) {want : ℕ}
    (hwant : 0 < want ∨ u64Max ≤ t.1.window.endOffset) :
    Act.Spec (ReadCursor.readMore mem reader want : Pump Ω ρ ε SE Unit)
      (fun _ t' => Aligned src pos readSize maxWindow t' ∧
        t'.1.window.base = t.1.window.base ∧
        (t.1.window.len < t'.1.window.len ∧ t'.1.window.total = none ∨
          t'.1.window.total.isSome))
      (Left src pos readSize maxWindow) t := by
  unfold ReadCursor.readMore ReadCursor.update
  simp only [Act.spec_bind, Act.spec_get, Act.spec_focus, Act.spec_mapError, Act.spec_modify,
    Act.spec_ite, Act.spec_pure]
  refine (Window.spec_trySpare h.window.inBuf).mono (fun _ s hs => ?_) fun e s hs => ?_
  · -- The room is there.
    have hlen : (s.1.spare want).length = want := Window.length_spare hs.room
    have hroom : s.1.stop + (reader.read (s.1.spare want) t.2.1).1.2.length ≤
        s.1.buf.data.length := by
      rw [reader.length_read, hlen]
      exact hs.room
    have hcap : (s.1.fill (reader.read (s.1.spare want) t.2.1).1.2).capacity ≤ maxWindow :=
      (Window.capacity_fill hroom).trans_le
        (h.maxWindow_eq ▸ hs.capacity (h.maxWindow_eq.symm ▸ h.capacity))
    refine spec_foreign (fun n hn => ?_) fun e he => ?_
    · have hok := mapError_eq_ok.mp hn
      obtain ⟨hpos, hshows⟩ := hr.read _ _ n hok
      have hext := h.window.extend hs.inBuf hs.same hroom (n := n)
        (by rw [reader.length_read]; exact reader.le_of_read _ _ n hok) (h.pos_eq ▸ hshows)
      have haligned := h.extend hnone hext hcap hpos (h.read_within hr hok) s.2
      refine ⟨fun hzero => ?_, fun hsome => ⟨haligned, hext.base, .inl ⟨?_, ?_⟩⟩⟩
      · subst hzero
        have hstop := h.at_end hr (by rw [hlen]; exact hwant) hok
        have hended := haligned.ended (hext.endOffset.trans hstop)
        rw [hstop]
        exact ⟨hended, hext.base, .inr rfl⟩
      · exact hext.len.symm ▸ Nat.lt_add_of_pos_right (Nat.pos_of_ne_zero hsome)
      · exact hext.total.trans hnone
    · obtain ⟨e, hfailed, rfl⟩ := mapError_eq_error.mp he
      have hext := h.window.unread hs.inBuf hs.same hroom
      exact (h.extend hnone hext hcap (hr.failed _ _ e hfailed) h.within s.2).left
  · refine ⟨h.with_window (h.window.cramped hs) fun hcap => ?_,
      fun hno => absurd rfl (hno e)⟩
    exact h.maxWindow_eq ▸ hs.capacity (h.maxWindow_eq.symm ▸ hcap)

/-- Reading and discarding ends where it was to, or at the end. -/
theorem skipLoop_spec (hr : reader.Over src pos) (hsize : 0 < readSize)
    (hmax : 0 < maxWindow ∧ maxWindow ≤ mem.usizeMax) (offset fuel : ℕ) :
    ∀ {t : ReadCursor × ρ × Ω}, Aligned src pos readSize maxWindow t →
    t.1.window.base ≤ offset →
    offset - t.1.window.endOffset < fuel ∨ t.1.window.total.isSome →
    Act.Spec (ReadCursor.skipLoop mem reader offset fuel : Pump Ω ρ ε SE Unit)
      (fun _ t' => Aligned src pos readSize maxWindow t' ∧ t'.1.window.base ≤ offset ∧
        (offset ≤ t'.1.window.endOffset ∨ t'.1.window.total.isSome))
      (Left src pos readSize maxWindow) t := by
  induction fuel with
  | zero => exact fun h hbase hfuel => ⟨h, hbase, .inr (hfuel.resolve_left (Nat.not_lt_zero _))⟩
  | succ fuel ih =>
    intro t h hbase hfuel
    unfold ReadCursor.skipLoop ReadCursor.update
    simp only [Act.spec_bind, Act.spec_get, Act.spec_ite, Act.spec_modify, Act.spec_pure]
    refine ⟨fun hmore => ?_, fun hdone => ⟨h, hbase, ?_⟩⟩
    · -- What is held ends before the offset, and is dropped before more is read.
      have hnone : t.1.window.total = none := Option.isNone_iff_eq_none.mp hmore.2
      have hwant : 0 < min (min (min (offset - t.1.window.endOffset) mem.usizeMax) t.1.readSize)
          t.1.maxWindow := by
        have hread := h.readSize_eq
        have hwindow := h.maxWindow_eq
        have := hmore.1
        omega
      refine (readMore_spec hr h.reset hnone (.inl hwant)).mono (fun _ u hu => ?_) fun _ _ hu => hu
      obtain ⟨hu, hubase, hprogress⟩ := hu
      have hstart : u.1.window.base = t.1.window.endOffset := hubase
      refine ih hu (hstart.trans_le hmore.1.le) ?_
      rcases hprogress with ⟨hlen, -⟩ | htotal
      · have hzero : (t.1.window.resetTo t.1.window.endOffset).len = 0 := rfl
        have hend : u.1.window.endOffset = u.1.window.base + u.1.window.len := rfl
        have hlen' : 0 < u.1.window.len := hzero ▸ hlen
        have := hmore.1
        rcases hfuel with hfuel | htotal
        · exact .inl (by omega)
        · rw [hnone] at htotal
          cases htotal
      · exact .inr htotal
    · rw [not_and_or, not_lt] at hdone
      exact hdone.imp_right fun hsome => Option.isSome_iff_ne_none.mpr
        fun hnone => hsome (Option.isNone_iff_eq_none.mpr hnone)

theorem max_le_readTarget {usizeMax minLen : ℕ} (readSize : ℕ) (h : max minLen 1 ≤ usizeMax) :
    max minLen 1 ≤ readTarget usizeMax minLen readSize := by
  have hunit : max (max minLen 1) 1 = max minLen 1 := max_eq_left (le_max_right _ _)
  have hle := le_readTarget readSize h
  unfold readTarget at hle ⊢
  rw [hunit] at hle
  exact hle

/-- Reading until enough is held ends with enough, or at the end. -/
theorem holdLoop_spec (hr : reader.Over src pos) {minLen target offset : ℕ}
    (htarget : max minLen 1 ≤ target ∨ target = u64Max - offset) (fuel : ℕ) :
    ∀ {t : ReadCursor × ρ × Ω}, Aligned src pos readSize maxWindow t →
    t.1.window.base = offset ∨ t.1.window.total.isSome →
    max minLen 1 - t.1.window.len < fuel ∨ t.1.window.total.isSome →
    Act.Spec (ReadCursor.holdLoop mem reader minLen target fuel : Pump Ω ρ ε SE Unit)
      (fun _ t' => Aligned src pos readSize maxWindow t' ∧
        t'.1.window.base = t.1.window.base ∧
        (max minLen 1 ≤ t'.1.window.len ∨ t'.1.window.total.isSome))
      (Left src pos readSize maxWindow) t := by
  induction fuel with
  | zero => exact fun h _ hfuel => ⟨h, rfl, .inr (hfuel.resolve_left (Nat.not_lt_zero _))⟩
  | succ fuel ih =>
    intro t h hbase hfuel
    unfold ReadCursor.holdLoop
    simp only [Act.spec_bind, Act.spec_get, Act.spec_ite, Act.spec_pure]
    refine ⟨fun hmore => ?_, fun hdone => ⟨h, trivial, ?_⟩⟩
    · have hnone : t.1.window.total = none := Option.isNone_iff_eq_none.mp hmore.2
      have hnot : ¬t.1.window.total.isSome := by
        rw [hnone]
        exact Bool.false_ne_true
      have hoffset := hbase.resolve_right hnot
      have hend : t.1.window.endOffset = t.1.window.base + t.1.window.len := rfl
      -- There is room for a byte, or no address for one.
      have hwant : 0 < target - min t.1.window.len target ∨ u64Max ≤ t.1.window.endOffset := by
        have := hmore.1
        omega
      refine (readMore_spec hr h hnone hwant).mono (fun _ u hu => ?_) fun _ _ hu => hu
      obtain ⟨hu, hubase, hprogress⟩ := hu
      refine (ih hu (.inl (hubase.trans hoffset)) ?_).mono (fun _ v hv => ?_) fun _ _ hv => hv
      · have hfuel' := hfuel.resolve_right hnot
        rcases hprogress with ⟨hlen, -⟩ | htotal
        · exact .inl (by omega)
        · exact .inr htotal
      · exact ⟨hv.1, hv.2.1.trans hubase, hv.2.2⟩
    · rw [not_and_or, not_lt] at hdone
      exact hdone.imp_right fun hsome => Option.isSome_iff_ne_none.mpr
        fun hnone => hsome (Option.isNone_iff_eq_none.mpr hnone)

/-- At the end nothing is read. -/
theorem holdLoop_of_total (h : t.1.window.total.isSome) (minLen target fuel : ℕ) :
    Act.Spec (ReadCursor.holdLoop mem reader minLen target fuel : Pump Ω ρ ε SE Unit)
      (fun _ t' => t' = t) (fun _ _ => False) t := by
  cases fuel with
  | zero => exact rfl
  | succ fuel =>
    unfold ReadCursor.holdLoop
    simp only [Act.spec_bind, Act.spec_get, Act.spec_ite, Act.spec_pure]
    refine ⟨fun hmore => ?_, fun _ => trivial⟩
    rw [Option.isNone_iff_eq_none.mp hmore.2] at h
    cases h

theorem pick_mem {base : ℕ} {requests : List InputRequest} {request : InputRequest}
    (h : ReadCursor.pick base requests = some request) : request ∈ requests := by
  unfold ReadCursor.pick at h
  cases hfind : requests.find? fun r => r.offset.any fun offset => decide (base ≤ offset) with
  | some r =>
    rw [hfind] at h
    exact Option.some_inj.mp h ▸ List.mem_of_find?_eq_some hfind
  | none =>
    rw [hfind] at h
    exact List.mem_of_head? h

theorem pick_ne_none {base : ℕ} {requests : List InputRequest} (h : requests ≠ []) :
    ReadCursor.pick base requests ≠ none := by
  unfold ReadCursor.pick
  cases requests with
  | nil => exact absurd rfl h
  | cons r rest => cases (r :: rest).find? _ <;> simp

theorem offset_of_demand {request : InputRequest} {maxWindow : ℕ} {p : ℕ × ℕ}
    (h : (ReadCursor.demand mem maxWindow request : Except (PumpFailure ε SE) (ℕ × ℕ)) = .ok p) :
    request.offset = some p.1 := by
  unfold ReadCursor.demand at h
  cases request with
  | atLeast offset minLen =>
    obtain rfl := Except.ok.inj h
    rfl
  | range r =>
    dsimp only at h
    split at h
    · obtain rfl := Except.ok.inj h
      rfl
    · cases h
  | len => cases h

/-- Where the request starts and what it needs decide whether it is satisfied. -/
theorem satisfied_of_demand {request : InputRequest} {maxWindow : ℕ} {p : ℕ × ℕ} {input : Input}
    (h : (ReadCursor.demand mem maxWindow request : Except (PumpFailure ε SE) (ℕ × ℕ)) = .ok p)
    (hoffset : input.offset = p.1)
    (hlen : p.2 ≤ input.bytes.length ∨ input.totalLen = some input.stop) :
    request.isSatisfiedBy input = true := by
  unfold ReadCursor.demand at h
  cases request with
  | atLeast offset minLen =>
    obtain rfl := Except.ok.inj h
    simp only [InputRequest.isSatisfiedBy, Bool.and_eq_true, Bool.or_eq_true, beq_iff_eq,
      decide_eq_true_eq]
    exact ⟨hoffset, hlen⟩
  | range r =>
    dsimp only at h
    split at h
    · obtain rfl := Except.ok.inj h
      simp only [InputRequest.isSatisfiedBy, Bool.and_eq_true, Bool.or_eq_true, beq_iff_eq,
        decide_eq_true_eq]
      exact ⟨hoffset, hlen⟩
    · cases h
  | len => cases h

/-- What is held is what was asked for, or goes on to the end of the stream. -/
theorem Aligned.met_of_held (h : Aligned src pos readSize maxWindow t) (hlen : src.length ≤ u64Max)
    {request : InputRequest} {limit : ℕ} {p : ℕ × ℕ}
    (hdemand : (ReadCursor.demand mem limit request : Except (PumpFailure ε SE) (ℕ × ℕ)) = .ok p)
    (hbase : t.1.window.base = p.1)
    (hheld : p.2 ≤ t.1.window.len ∨ t.1.window.total.isSome) :
    Met src request t.1.offer := by
  have hbytes := Window.length_bytes h.window.inBuf
  refine .inl (satisfied_of_demand hdemand hbase ?_)
  rcases hheld with henough | htotal
  · exact .inl (henough.trans hbytes.ge)
  · obtain ⟨n, hn⟩ := Option.isSome_iff_exists.mp htotal
    obtain ⟨rfl, hstop⟩ := h.total n hn
    refine .inr (hn.trans (congrArg some ?_))
    show src.length = saturatingAdd t.1.window.base t.1.window.bytes.length
    rw [saturatingAdd, hbytes, ← hstop]
    exact (min_eq_left (hstop.trans_le hlen)).symm

/-- The stream ended before what was asked for. -/
theorem Aligned.met_of_ended (h : Aligned src pos readSize maxWindow t)
    {request : InputRequest} {limit : ℕ} {p : ℕ × ℕ}
    (hdemand : (ReadCursor.demand mem limit request : Except (PumpFailure ε SE) (ℕ × ℕ)) = .ok p)
    (htotal : t.1.window.total.isSome) (hend : t.1.window.endOffset < p.1) :
    Met src request t.1.offer := by
  obtain ⟨n, hn⟩ := Option.isSome_iff_exists.mp htotal
  obtain ⟨rfl, hstop⟩ := h.total n hn
  refine .inr ⟨hn, fun offset hoffset => ?_⟩
  obtain rfl := Option.some_inj.mp ((offset_of_demand hdemand).symm.trans hoffset)
  exact hstop ▸ hend

theorem serve_spec (hr : reader.Over src pos) (hsize : 0 < readSize)
    (hmax : maxWindow ≤ mem.usizeMax) (h : Aligned src pos readSize maxWindow t)
    {requests : List InputRequest} (hrequests : requests ≠ []) :
    Act.Spec (ReadCursor.serve mem reader requests : Pump Ω ρ ε SE Unit)
      (fun _ t' => Aligned src pos readSize maxWindow t' ∧
        ∀ request, ReadCursor.pick t.1.window.base requests = some request →
          Met src request t'.1.offer)
      (Left src pos readSize maxWindow) t := by
  unfold ReadCursor.serve
  simp only [Act.spec_bind, Act.spec_get, Act.spec_getOr, Act.spec_lift, Act.spec_require,
    Act.spec_modify]
  -- A request that is refused changes nothing.
  refine ⟨fun request hpick => ⟨fun p hp => ⟨fun hbase => ⟨fun hwindow => ?_, fun _ => h.left⟩,
    fun _ => h.left⟩, fun e he => ?_⟩, fun hpick => ?_⟩
  · have hdemand := mapError_eq_ok.mp hp
    rw [decide_eq_true_eq, h.maxWindow_eq] at hwindow
    rw [decide_eq_true_eq] at hbase
    have hm : 0 < max p.2 1 := lt_of_lt_of_le Nat.one_pos (le_max_right _ _)
    have hread := max_le_readTarget t.1.readSize (hwindow.trans hmax)
    have htarget : max p.2 1 ≤ min (min (readTarget mem.usizeMax p.2 t.1.readSize) t.1.maxWindow)
        (min (u64Max - p.1) mem.usizeMax) ∨
        min (min (readTarget mem.usizeMax p.2 t.1.readSize) t.1.maxWindow)
          (min (u64Max - p.1) mem.usizeMax) = u64Max - p.1 := by
      rw [h.maxWindow_eq]
      omega
    refine (skipLoop_spec hr hsize ⟨hm.trans_le hwindow, hmax⟩ p.1 _ h hbase
      (.inl (Nat.lt_succ_self _))).mono (fun _ u hu => ?_) fun _ _ hu => hu
    obtain ⟨hu, hubase, hreached⟩ := hu
    by_cases hat : p.1 ≤ u.1.window.endOffset
    · -- The window reaches where the request starts.
      rw [if_pos hat]
      have hstart : (u.1.window.consume (p.1 - u.1.window.base)).base = p.1 := by
        have hend : u.1.window.endOffset = u.1.window.base + u.1.window.len := rfl
        rw [Window.base_consume]
        omega
      refine (holdLoop_spec hr htarget _ (hu.consume _) (.inl hstart)
        (.inl (by omega))).mono (fun _ v hv => ?_) fun _ _ hv => hv
      obtain ⟨hv, hvbase, hheld⟩ := hv
      refine ⟨hv, fun request' hpick' => ?_⟩
      obtain rfl := Option.some_inj.mp (hpick.symm.trans hpick')
      exact hv.met_of_held hr.length_le hdemand (hvbase.trans hstart)
        (hheld.imp_left (le_max_left _ _).trans)
    · -- The stream ended before.
      rw [if_neg hat]
      refine (holdLoop_of_total (hreached.resolve_left hat) _ _ _).mono (fun _ v hv => ?_)
        fun _ _ hv => hv.elim
      obtain rfl := hv
      refine ⟨hu, fun request' hpick' => ?_⟩
      obtain rfl := Option.some_inj.mp (hpick.symm.trans hpick')
      exact hu.met_of_ended hdemand (hreached.resolve_left hat) (not_le.mp hat)
  · obtain ⟨e, -, rfl⟩ := mapError_eq_error.mp he
    exact h.left
  · exact absurd hpick (pick_ne_none hrequests)

/-! ### Retaining -/

/-- The window is within its limit. -/
structure ReadCursor.Small (maxWindow : ℕ) (c : ReadCursor) : Prop where
  inBuf : c.window.InBuf
  capacity : c.window.capacity ≤ maxWindow
  maxWindow_eq : c.maxWindow = maxWindow

theorem keeps_windowUpdate {f : Window → Window} (hin : ∀ w : Window, w.InBuf → (f w).InBuf)
    (hcap : ∀ w : Window, (f w).capacity = w.capacity) :
    Act.Keeps (ReadCursor.update f : Pump Ω ρ ε SE Unit) (fun t => t.1.Small maxWindow) :=
  Act.keeps_modify fun _ h => ⟨hin _ h.inBuf, (hcap _).trans_le h.capacity, h.maxWindow_eq⟩

theorem keeps_readMore (want : ℕ) :
    Act.Keeps (ReadCursor.readMore mem reader want : Pump Ω ρ ε SE Unit)
      (fun t => t.1.Small maxWindow) := by
  intro t h
  unfold ReadCursor.readMore ReadCursor.update
  simp only [Act.spec_bind, Act.spec_get, Act.spec_focus, Act.spec_mapError, Act.spec_modify,
    Act.spec_ite, Act.spec_pure]
  have hbound : ∀ {w : Window}, (t.1.window.capacity ≤ t.1.maxWindow → w.capacity ≤ t.1.maxWindow) →
      w.capacity ≤ maxWindow := fun hw => h.maxWindow_eq ▸ hw (h.maxWindow_eq.symm ▸ h.capacity)
  refine (Window.spec_trySpare h.inBuf).mono (fun _ s hs => ?_) fun e s hs =>
    ⟨hs.inBuf, hbound hs.capacity, h.maxWindow_eq⟩
  have hlen : (s.1.spare want).length = want := Window.length_spare hs.room
  have hout : (reader.read (s.1.spare want) t.2.1).1.2.length = want :=
    (reader.length_read _ _).trans hlen
  have hroom : s.1.stop + (reader.read (s.1.spare want) t.2.1).1.2.length ≤
      s.1.buf.data.length := hout.symm ▸ hs.room
  have hin := hs.inBuf.fill hroom
  have hcap : (s.1.fill (reader.read (s.1.spare want) t.2.1).1.2).capacity ≤ maxWindow :=
    (Window.capacity_fill hroom).trans_le (hbound hs.capacity)
  refine spec_foreign (fun n hn => ?_) fun _ _ => ⟨hin, hcap, h.maxWindow_eq⟩
  have hle : n ≤ want := (reader.le_of_read _ _ n (mapError_eq_ok.mp hn)).trans hlen.le
  have hfill := Window.length_fill hroom
  have hcommit : ((s.1.fill (reader.read (s.1.spare want) t.2.1).1.2).commit n).InBuf := by
    refine ⟨hin.head_le.trans (Nat.le_add_right _ _), ?_⟩
    show s.1.stop + n ≤ (s.1.fill (reader.read (s.1.spare want) t.2.1).1.2).buf.data.length
    omega
  exact ⟨fun _ => ⟨⟨hcommit.head_le, hcommit.stop_le⟩, hcap, h.maxWindow_eq⟩,
    fun _ => ⟨hcommit, hcap, h.maxWindow_eq⟩⟩

theorem keeps_skipLoop (offset fuel : ℕ) :
    Act.Keeps (ReadCursor.skipLoop mem reader offset fuel : Pump Ω ρ ε SE Unit)
      (fun t => t.1.Small maxWindow) := by
  induction fuel with
  | zero => exact Act.keeps_pure ()
  | succ fuel ih =>
    unfold ReadCursor.skipLoop
    refine Act.keeps_get.bind fun t => Act.keeps_ite _ ?_ (Act.keeps_pure ())
    exact (keeps_windowUpdate (fun w _ => Window.inBuf_resetTo w _) fun _ => rfl).bind fun _ =>
      (keeps_readMore _).bind fun _ => ih

theorem keeps_holdLoop (minLen target fuel : ℕ) :
    Act.Keeps (ReadCursor.holdLoop mem reader minLen target fuel : Pump Ω ρ ε SE Unit)
      (fun t => t.1.Small maxWindow) := by
  induction fuel with
  | zero => exact Act.keeps_pure ()
  | succ fuel ih =>
    unfold ReadCursor.holdLoop
    exact Act.keeps_get.bind fun t => Act.keeps_ite _ ((keeps_readMore _).bind fun _ => ih)
      (Act.keeps_pure ())

theorem ReadCursor.Small.consume {c : ReadCursor} (h : c.Small maxWindow) (n : ℕ) :
    ReadCursor.Small maxWindow { c with window := c.window.consume n } := by
  refine ⟨h.inBuf.consume n, ?_, h.maxWindow_eq⟩
  rw [Window.capacity, Window.buf_consume]
  exact h.capacity

theorem keeps_serveStream (requests : List InputRequest) :
    Act.Keeps (ReadCursor.serve mem reader requests : Pump Ω ρ ε SE Unit)
      (fun t => t.1.Small maxWindow) := by
  unfold ReadCursor.serve
  refine Act.keeps_get.bind fun t => (Act.keeps_getOr _ _).bind fun request =>
    (Act.keeps_lift _).bind fun p => (Act.keeps_require _ _).bind fun _ =>
    (Act.keeps_require _ _).bind fun _ => (keeps_skipLoop _ _).bind fun _ => ?_
  refine Act.Keeps.bind (Act.keeps_modify fun t h => ?_) fun _ => keeps_holdLoop _ _ _
  split
  · exact h.consume _
  · exact h

end Calls

end Zencodec.Io
