/-
Driving a stage over an asynchronous source.

An `AsyncCursor` reads what has arrived, and steps as soon as a request is met. Its input comes
through the window only: a fetched buffer that is needed becomes the window. `fill` works on the
state that it shares with a `ReadAtCursor`, over the source as it is seen by one who waits for it
(`AsyncSource.waiting`).

Whether a future is polled at once or later does not show in what is held, and one that is dropped
while it waits leaves what the failure of the source leaves. How often a cursor yields is left out.
-/
import Zencodec.Io.Served

namespace Zencodec.Io

open Incremental (ByteRange Input InputRequest u64Max)

variable {Ω ε SE : Type}

/-! ### Sources -/

/-- An asynchronous source. A read may return fewer bytes than asked, and zero at the end;
`unexpectedEof offset len total` is the error where it ends too early. -/
structure AsyncSource (Ω SE : Type) where
  lenHint : Ω → Option ℕ
  len : Ω → Except SE ℕ × Ω
  readAt : ℕ → List UInt8 → Ω → (Except SE ℕ × List UInt8) × Ω
  readRanges : List (ℕ × List UInt8) → Ω → (Except SE Unit × List (List UInt8)) × Ω
  unexpectedEof : ℕ → ℕ → ℕ → SE
  length_readAt : ∀ offset out w, (readAt offset out w).1.2.length = out.length
  le_of_readAt : ∀ offset out w n, (readAt offset out w).1.1 = .ok n → n ≤ out.length
  length_readRanges : ∀ reqs w,
    (readRanges reqs w).1.2.map List.length = reqs.map fun r => r.2.length

namespace AsyncSource

variable (source : AsyncSource Ω SE)

/-- Fill `out` from `offset`, of which `filled` bytes are read already. -/
def readFull (offset : ℕ) : ℕ → ℕ → List UInt8 → Ω → (Except SE Unit × List UInt8) × Ω
  | 0, _, out, w => ((.ok (), out), w)
  | fuel + 1, filled, out, w =>
    if filled < out.length then
      let r := source.readAt (offset + filled) (out.drop filled) w
      let read := out.take filled ++ r.1.2
      match r.1.1 with
      | .error e => ((.error e, read), r.2)
      | .ok n =>
        if n = 0 then
          ((.error (source.unexpectedEof offset out.length (offset + filled)), read), r.2)
        else readFull offset fuel (filled + n) read r.2
    else ((.ok (), out), w)

theorem length_readFull (offset fuel filled : ℕ) (out : List UInt8) (w : Ω) :
    (source.readFull offset fuel filled out w).1.2.length = out.length := by
  induction fuel generalizing filled out w with
  | zero => rfl
  | succ fuel ih =>
    unfold readFull
    split
    · next hmore =>
      have hread : (out.take filled ++
          (source.readAt (offset + filled) (out.drop filled) w).1.2).length = out.length := by
        rw [List.length_append, source.length_readAt, List.length_take, List.length_drop]
        omega
      dsimp only
      split
      · exact hread
      · split
        · exact hread
        · exact (ih _ _ _).trans hread
    · rfl

/-- Fill each buffer from its offset, one after the other. -/
def readEach : List (ℕ × List UInt8) → Ω → (Except SE Unit × List (List UInt8)) × Ω
  | [], w => ((.ok (), []), w)
  | (offset, out) :: rest, w =>
    let r := source.readFull offset out.length 0 out w
    match r.1.1 with
    | .error e => ((.error e, r.1.2 :: rest.map Prod.snd), r.2)
    | .ok () =>
      let others := readEach rest r.2
      ((others.1.1, r.1.2 :: others.1.2), others.2)

theorem length_readEach (reqs : List (ℕ × List UInt8)) (w : Ω) :
    (source.readEach reqs w).1.2.map List.length = reqs.map fun r => r.2.length := by
  induction reqs generalizing w with
  | nil => rfl
  | cons r rest ih =>
    have hlen := source.length_readFull r.1 r.2.length 0 r.2 w
    unfold readEach
    dsimp only
    split
    · rw [List.map_cons, List.map_cons, hlen, List.map_map]
      rfl
    · rw [List.map_cons, List.map_cons, hlen, ih]

/-- A source that does not override `read_ranges`. -/
def sequential : AsyncSource Ω SE :=
  { source with readRanges := source.readEach, length_readRanges := source.length_readEach }

/-- The source as it is seen by one who waits for every read. -/
def waiting : ReadAt Ω SE where
  asSlice := fun _ => none
  lenHint := source.lenHint
  len := source.len
  readAt := source.readAt
  readExactAt := fun offset out w => source.readFull offset out.length 0 out w
  readManyAt := source.readRanges
  length_readAt := source.length_readAt
  le_of_readAt := source.le_of_readAt
  length_readExactAt := fun offset out w => source.length_readFull offset out.length 0 out w
  length_readManyAt := source.length_readRanges

/-- A source over `src`: what it reads is there, however little it is. -/
structure Over (source : AsyncSource Ω SE) (src : List UInt8) : Prop where
  length_le : src.length ≤ u64Max
  readAt : ∀ offset out w n, (source.readAt offset out w).1.1 = .ok n →
    Shows src offset ((source.readAt offset out w).1.2.take n)
  readRanges : ∀ reqs w, (source.readRanges reqs w).1.1 = .ok () →
    List.Forall₂ (fun (r : ℕ × List UInt8) out => Shows src r.1 out) reqs
      (source.readRanges reqs w).1.2

variable {source} {src : List UInt8}

/-- What was filled is there. -/
theorem shows_readFull (h : ∀ offset out w n, (source.readAt offset out w).1.1 = .ok n →
      Shows src offset ((source.readAt offset out w).1.2.take n))
    {offset fuel filled : ℕ} {out : List UInt8} {w : Ω}
    (hshows : Shows src offset (out.take filled)) (hfilled : filled ≤ out.length)
    (hfuel : out.length - filled ≤ fuel)
    (hok : (source.readFull offset fuel filled out w).1.1 = .ok ()) :
    Shows src offset (source.readFull offset fuel filled out w).1.2 := by
  -- By induction on the fuel: what is left to fill is never more.
  induction fuel generalizing filled out w with
  | zero =>
    rw [List.take_of_length_le (by omega)] at hshows
    exact hshows
  | succ fuel ih =>
    unfold AsyncSource.readFull at hok ⊢
    by_cases hmore : filled < out.length
    · rw [if_pos hmore] at hok ⊢
      dsimp only at hok ⊢
      cases hr : (source.readAt (offset + filled) (out.drop filled) w).1.1 with
      | error e =>
        rw [hr] at hok
        cases hok
      | ok n =>
        rw [hr] at hok
        dsimp only at hok ⊢
        by_cases hn : n = 0
        · rw [if_pos hn] at hok
          cases hok
        · -- The bytes that came are appended to the ones before.
          rw [if_neg hn] at hok ⊢
          have hlen := source.length_readAt (offset + filled) (out.drop filled) w
          have hle := source.le_of_readAt _ _ _ n hr
          have htake : (out.take filled).length = filled := by
            rw [List.length_take]
            exact min_eq_left hfilled
          rw [List.length_drop] at hlen hle
          have hread : (out.take filled ++
              (source.readAt (offset + filled) (out.drop filled) w).1.2).take (filled + n) =
              out.take filled ++
                (source.readAt (offset + filled) (out.drop filled) w).1.2.take n := by
            rw [List.take_append, htake, Nat.add_sub_cancel_left, List.take_take,
              min_eq_right (Nat.le_add_right _ _)]
          have hlength : (out.take filled ++
              (source.readAt (offset + filled) (out.drop filled) w).1.2).length = out.length := by
            rw [List.length_append, htake, hlen]
            omega
          refine ih ?_ (by omega) (by omega) hok
          rw [hread]
          refine hshows.append ?_
          rw [htake]
          exact h _ _ _ n hr
    · rw [if_neg hmore]
      rw [List.take_of_length_le (not_lt.mp hmore)] at hshows
      exact hshows

theorem shows_readFull_zero (h : ∀ offset out w n, (source.readAt offset out w).1.1 = .ok n →
      Shows src offset ((source.readAt offset out w).1.2.take n)) {offset : ℕ} {out : List UInt8}
    {w : Ω} (hok : (source.readFull offset out.length 0 out w).1.1 = .ok ()) :
    Shows src offset (source.readFull offset out.length 0 out w).1.2 := by
  refine shows_readFull h ?_ (Nat.zero_le _) (Nat.sub_le _ _) hok
  rw [List.take_zero]
  exact Shows.nil _ _

/-- Where `read_ranges` is not overridden, it reads what is there because `read_at` does. -/
theorem over_sequential (hlen : src.length ≤ u64Max)
    (h : ∀ offset out w n, (source.readAt offset out w).1.1 = .ok n →
      Shows src offset ((source.readAt offset out w).1.2.take n)) : source.sequential.Over src where
  length_le := hlen
  readAt := h
  readRanges := by
    intro reqs w hok
    unfold sequential at hok ⊢
    dsimp only at hok ⊢
    induction reqs generalizing w with
    | nil => exact .nil
    | cons r rest ih =>
      unfold readEach at hok ⊢
      dsimp only at hok ⊢
      cases hr : (source.readFull r.1 r.2.length 0 r.2 w).1.1 with
      | error e =>
        rw [hr] at hok
        cases hok
      | ok u =>
        rw [hr] at hok
        exact .cons (shows_readFull_zero h hr) (ih _ hok)

theorem Over.waiting (h : source.Over src) : source.waiting.Over src where
  length_le := h.length_le
  asSlice := .inl fun _ => rfl
  readAt := h.readAt
  readExactAt := fun _ _ _ hok => shows_readFull_zero h.readAt hok
  readManyAt := h.readRanges

/-- A source whose reads are ready at once. -/
def ready (source : ReadAt Ω SE) (unexpectedEof : ℕ → ℕ → ℕ → SE) : AsyncSource Ω SE where
  lenHint := source.lenHint
  len := source.len
  readAt := source.readAt
  readRanges := source.readManyAt
  unexpectedEof := unexpectedEof
  length_readAt := source.length_readAt
  le_of_readAt := source.le_of_readAt
  length_readRanges := source.length_readManyAt

end AsyncSource

theorem ReadAt.Over.ready {source : ReadAt Ω SE} {src : List UInt8} (h : source.Over src)
    {unexpectedEof : ℕ → ℕ → ℕ → SE} : (AsyncSource.ready source unexpectedEof).Over src :=
  ⟨h.length_le, h.readAt, h.readManyAt⟩

/-! ### The cursor -/

structure AsyncCursor where
  opts : DriveOptions
  window : Window
  fetched : List Fetched
  started : Bool

namespace AsyncCursor

def new (opts : DriveOptions) : AsyncCursor := ⟨opts, Window.new, [], false⟩

/-- Retained driver-owned payload capacity. -/
def retainedInputCapacity (usizeMax : ℕ) (c : AsyncCursor) : ℕ :=
  min (c.window.capacity + fetchedCapacity usizeMax c.fetched) usizeMax

/-- The state shared with a `ReadAtCursor`, of which the window is always in play. -/
def shared (c : AsyncCursor) : ReadAtCursor := ⟨c.opts, c.window, c.started, c.fetched, none, none⟩

section Filling

variable (mem : Memory Ω) (o : Overflow) (source : AsyncSource Ω SE)

/-- Read what arrives until `minLen` bytes are held, or the end. -/
def fillLoop (minLen target : ℕ) : ℕ → Drive Ω ε SE Unit
  | 0 => pure ()
  | fuel + 1 => do
    let t ← Act.get
    let held := t.1.window.len
    let stop := t.1.window.endOffset
    if held < max minLen 1 ∧ t.1.window.total ≠ some stop then do
      orInput t.1.opts.limits.reading
      let want := min (target - min held target) (min (u64Max - stop) mem.usizeMax)
      let limit ← ReadAtCursor.roomLeft mem o
      onWindow (Window.trySpare mem want limit)
      let n ← readInto (source.readAt stop) want
      update fun c => { c with window := c.window.commit n }
      if n = 0 then update fun c => { c with window := { c.window with total := some stop } }
      fillLoop minLen target fuel
    else pure ()

def fillAtLeast (offset minLen : ℕ) : Drive Ω ε SE Unit := do
  let _ ← ReadAtCursor.position offset
  let t ← Act.get
  let target := min (min (readTarget mem.usizeMax minLen t.1.opts.readSize)
    t.1.opts.limits.inputBytes) (min (u64Max - offset) mem.usizeMax)
  update fun c => { c with
    fetched := makeRoom mem.usizeMax c.window c.fetched target c.opts.limits }
  fillLoop mem o source minLen target (max minLen 1 + 1)

/-- The buffer at `i` becomes the window, from the start of the range on. -/
def adopt (first : ByteRange) (i : ℕ) : Drive Ω ε SE Unit := do
  let t ← Act.get
  let f ← Act.getOr t.1.fetched[i]? .panic
  update fun c => { c with
    window := (c.window.adopt f.1 f.2).consume (first.offset - f.1)
    fetched := swapRemove c.fetched i }

/-- Every range request, coalesced, batch by batch. -/
def fillRound (first : ByteRange) (requests : List InputRequest) : Drive Ω ε SE Unit := do
  let t ← Act.get
  let limits := t.1.opts.limits
  let coalesced ← onPlan (plan mem.toHost o first requests t.1.opts.maxGap limits)
  update fun c => { c with window := c.window.release, fetched := [] }
  let pending ← onMemory (allocateRanges mem coalesced limits t.1.fetched)
  onMemory (mem.reserve (.allocation (min (pending.length * mem.requestSize) mem.usizeMax)))
  let pending ← Act.focus Prod.snd (fun w t => (t.1, w))
    (Act.mapError (fun e => .error (.source e))
      (ReadAtCursor.readBatches source.waiting (ReadAtCursor.chunks limits.inFlight [] pending)))
  -- A future that is dropped before publishes nothing.
  update fun c => { c with fetched := pending }
  let found ← Act.getOr (findHolding o first pending) .panic
  let i ← Act.getOr found .panic
  adopt first i

def fillRange (first : ByteRange) (requests : List InputRequest) : Drive Ω ε SE Unit := do
  let t ← Act.get
  if t.1.window.base ≤ first.offset ∧ first.stop ≤ t.1.window.endOffset then
    update fun c => { c with window := c.window.consume (first.offset - c.window.base) }
  else do
    let found ← Act.getOr (findHolding o first t.1.fetched) .panic
    match found with
    | some i => adopt first i
    | none => do
      let retained ← ReadAtCursor.position first.offset
      if retained then ReadAtCursor.readTail mem o source.waiting first
      else fillRound mem o source first requests

/-- Satisfy `requests`: the bytes of the first become the window. -/
def fill (requests : List InputRequest) : Drive Ω ε SE Unit := do
  let t ← Act.get
  let request ← orInput (select requests t.1.opts.limits)
  match request with
  | .atLeast offset minLen => fillAtLeast mem o source offset minLen
  | .range first => fillRange mem o source first requests
  | .len => ReadAtCursor.serveLen source.waiting

/-- The first offer takes the hint of the length. -/
def start (t : AsyncCursor × Ω) : AsyncCursor :=
  if t.1.started then t.1
  else { t.1 with started := true, window := { t.1.window with total := source.lenHint t.2 } }

def driver : Driver (AsyncCursor × Ω) ε (Halt (DriveFailure ε SE)) where
  -- `next` starts before its loop; a cursor that is started stays as it is.
  offer := fun t => (.ok (start source t).window.input, (start source t, t.2))
  take := fun consumed t => ({ t.1 with window := t.1.window.consume consumed }, t.2)
  serve := fun requests => Act.focus (fun t => (t.1.shared, t.2))
    (fun s t => ({ t.1 with window := s.1.window, fetched := s.1.fetched }, s.2))
    (fill mem o source requests)
  takesFirst := false
  onStep := fun e => .error (.step e)
  onProtocol := fun v => .error (.protocol v)

end Filling

end AsyncCursor

section Filled

variable {mem : Memory Ω} {o : Overflow} {source : AsyncSource Ω SE} {src : List UInt8}
  {opts : DriveOptions} {on : Bool} {c : ReadAtCursor} {t : ReadAtCursor × Ω}

/-! ### Filling the window -/

/-- Waiting ends with as much as was asked for, or at the end. -/
theorem fillLoop_idle (hsrc : source.Over src) (minLen target fuel : ℕ) :
    ∀ {t : ReadAtCursor × Ω}, Idle source.waiting src opts on t.1 →
    Act.Spec (AsyncCursor.fillLoop mem o source minLen target fuel : Drive Ω ε SE Unit)
      (fun _ t' => Idle source.waiting src opts on t'.1 ∧ t'.1.window.base = t.1.window.base ∧
        (max minLen 1 - t.1.window.len < fuel ∨ t.1.window.total = some t.1.window.endOffset →
          max minLen 1 ≤ t'.1.window.len ∨ t'.1.window.total = some t'.1.window.endOffset))
      (fun _ t' => Idle source.waiting src opts on t'.1) t := by
  induction fuel with
  | zero => exact fun h => ⟨h, rfl, fun hfuel => hfuel.imp_left fun h => absurd h (by omega)⟩
  | succ fuel ih =>
    intro t h
    unfold AsyncCursor.fillLoop orInput
    simp only [Act.spec_bind, Act.spec_get, Act.spec_ite, Act.spec_pure, Act.spec_lift]
    refine ⟨fun hmore => ⟨fun _ _ => ?_, fun _ _ => h⟩, fun hdone => ⟨h, trivial, fun _ => ?_⟩⟩
    · refine roomLeft_spec.mono (fun room t' ht' => ?_) fun _ t' ht' => ht' ▸ h
      obtain rfl := ht'
      have hread : Act.Spec (readBehind mem _ room _ : Drive Ω ε SE ℕ) _ _ t' :=
        readAt_faithful hsrc.waiting (min (target - min t'.1.window.len target)
          (min (u64Max - t'.1.window.endOffset) mem.usizeMax)) room h
      unfold readBehind at hread
      rw [Act.spec_bind] at hread
      refine hread.mono (fun _ s hs => hs.mono (fun n u hu => ?_) fun _ _ hu => hu) fun _ _ hs => hs
      obtain ⟨-, hidle, hext⟩ := hu
      have hbase := hext.base
      have hend := hext.endOffset
      have hlen := hext.len
      unfold update
      simp only [Act.spec_modify]
      refine ⟨fun hzero => ?_, fun hsome => ?_⟩
      · -- Nothing more comes.
        subst hzero
        refine (ih (t := (_, u.2)) (hidle.with_total (some t'.1.window.endOffset))).mono
          (fun _ v hv => ?_) fun _ _ hv => hv
        obtain ⟨hv, hvbase, hvdone⟩ := hv
        exact ⟨hv, hvbase.trans hbase, fun _ => hvdone (.inr (congrArg some hend.symm))⟩
      · -- Something came, so that less is missing than there was fuel.
        refine (ih hidle).mono (fun _ v hv => ?_) fun _ _ hv => hv
        obtain ⟨hv, hvbase, hvdone⟩ := hv
        refine ⟨hv, hvbase.trans hbase, fun hfuel => hvdone (.inl ?_)⟩
        have hfuel' := hfuel.resolve_right hmore.2
        have := hmore.1
        show max minLen 1 - (u.1.window.commit n).len < fuel
        omega
    · by_contra hno
      rw [not_or, not_le] at hno
      exact hdone hno

theorem fillAtLeast_idle (hsrc : source.Over src) (h : Idle source.waiting src opts on t.1)
    (offset minLen : ℕ) :
    Act.Spec (AsyncCursor.fillAtLeast mem o source offset minLen : Drive Ω ε SE Unit)
      (fun _ t' => Idle source.waiting src opts on t'.1 ∧ (offset ≤ u64Max →
        (InputRequest.atLeast offset minLen).isSatisfiedBy t'.1.offered = true))
      (fun _ t' => Idle source.waiting src opts on t'.1) t := by
  simp only [AsyncCursor.fillAtLeast, Act.spec_bind]
  refine (position_faithful h offset).mono (fun _ t' ht' => ?_) fun _ _ h => h.elim
  obtain ⟨hidle, -, hbase, -⟩ := ht'
  simp only [Act.spec_get, update, Act.spec_modify]
  refine (fillLoop_idle hsrc minLen _ _ (hidle.makeRoom mem.usizeMax _ _)).mono
    (fun _ u hu => ?_) fun _ _ hu => hu
  obtain ⟨hu, hubase, hdone⟩ := hu
  refine ⟨hu, fun haddr => satisfies_atLeast hsrc.waiting hu (hubase.trans hbase) haddr ?_⟩
  exact (hdone (.inl (by omega))).imp_left (le_max_left _ _).trans

/-- A buffer that holds the range becomes the window, and satisfies it. -/
theorem adopt_idle (h : Idle source.waiting src opts on t.1) {first : ByteRange}
    (hfirst : first.IsU64) {i : ℕ} (hi : findHolding o first t.1.fetched = some (some i)) :
    Act.Spec (AsyncCursor.adopt first i : Drive Ω ε SE Unit)
      (fun _ t' => Idle source.waiting src opts on t'.1 ∧ (Addressable first →
        (InputRequest.range first).isSatisfiedBy t'.1.offered = true))
      (fun _ t' => Idle source.waiting src opts on t'.1) t := by
  unfold AsyncCursor.adopt update
  simp only [Act.spec_bind, Act.spec_get, Act.spec_getOr, Act.spec_modify]
  refine ⟨fun f hf => ?_, fun _ => h⟩
  obtain ⟨hstart, hstop⟩ := findHolding_some hi hf
  have hmem := List.mem_of_getElem? hf
  have hover := Window.over_adopt t.1.window (h.fetched f hmem).shows
  have hlen : (t.1.window.adopt f.1 f.2).len = f.2.data.length := Nat.sub_zero _
  have hidle : Idle source.waiting src opts on { t.1 with
      window := (t.1.window.adopt f.1 f.2).consume (first.offset - f.1)
      fetched := swapRemove t.1.fetched i } := by
    refine (h.with_window (hover.consume _)).with_fetched fun g hg => h.fetched g ?_
    exact (swapRemove_perm hf).mem_iff.mpr (List.mem_cons_of_mem _ hg)
  have hle := hfirst.offset_le_stop
  refine ⟨hidle, fun haddr => satisfies_range hidle ?_ ?_⟩
  · show ((t.1.window.adopt f.1 f.2).consume (first.offset - f.1)).base = first.offset
    rw [Window.base_consume, hlen]
    show f.1 + min (first.offset - f.1) f.2.data.length = first.offset
    omega
  · show first.length ≤ ((t.1.window.adopt f.1 f.2).consume (first.offset - f.1)).len
    rw [Window.len_consume hover.inBuf, hlen]
    have hend := haddr.stop_eq
    omega

theorem fillRound_idle (hsrc : source.Over src) (h : Idle source.waiting src opts on t.1)
    {first : ByteRange} (hfirst : first.IsU64) {requests : List InputRequest}
    (hrequests : ∀ r ∈ requests, IsU64 r) :
    Act.Spec (AsyncCursor.fillRound mem o source first requests : Drive Ω ε SE Unit)
      (fun _ t' => Idle source.waiting src opts on t'.1 ∧ (Addressable first →
        (InputRequest.range first).isSatisfiedBy t'.1.offered = true))
      (fun _ t' => Idle source.waiting src opts on t'.1) t := by
  unfold AsyncCursor.fillRound onPlan onMemory update
  simp only [Act.spec_bind, Act.spec_get, Act.spec_focus, Act.spec_mapError, Act.spec_modify]
  refine (spec_plan hfirst fun r hr => hrequests _ hr).mono (fun coalesced w hplan => ?_)
    fun _ _ _ => h
  obtain ⟨-, -, hplan⟩ := hplan
  -- From here on a failure leaves an empty window and no buffers.
  have hnone : Idle source.waiting src opts on
      { t.1 with window := t.1.window.release, fetched := [] } :=
    (h.with_window (Window.over_release src t.1.window)).with_fetched
      fun f hf => absurd hf List.not_mem_nil
  refine (spec_allocateRanges mem coalesced t.1.opts.limits t.1.fetched _).mono
    (fun pending w hpending => ?_) fun _ _ _ => hnone
  refine Host.spec_reserve ?_ hnone
  refine (readBatches_faithful hsrc.waiting _ _).mono (fun filled w' hfilled => ?_)
    fun _ _ _ => hnone
  rw [flatten_chunks, List.nil_append, hpending.1] at hfilled
  have hidle : Idle source.waiting src opts on
      { t.1 with window := t.1.window.release, fetched := filled } :=
    hnone.with_fetched (h.mode.opts_eq ▸ holds_of_plan hplan.bytes hfilled)
  simp only [Act.spec_getOr]
  refine ⟨fun found hfound => ⟨fun i hi => ?_, fun _ => hidle⟩, fun _ => hidle⟩
  subst hi
  exact adopt_idle (t := (_, w')) hidle hfirst hfound

theorem fillRange_idle (hsrc : source.Over src) (h : Idle source.waiting src opts on t.1)
    {first : ByteRange} (hfirst : first.IsU64) {requests : List InputRequest}
    (hrequests : ∀ r ∈ requests, IsU64 r) :
    Act.Spec (AsyncCursor.fillRange mem o source first requests : Drive Ω ε SE Unit)
      (fun _ t' => Idle source.waiting src opts on t'.1 ∧ (Addressable first →
        first.length ≤ mem.usizeMax →
        (InputRequest.range first).isSatisfiedBy t'.1.offered = true))
      (fun _ t' => Idle source.waiting src opts on t'.1) t := by
  unfold AsyncCursor.fillRange update
  simp only [Act.spec_bind, Act.spec_get, Act.spec_ite, Act.spec_getOr, Act.spec_modify]
  refine ⟨fun hheld => ?_, fun hnot => ⟨fun found hfound => ?_, fun _ => h⟩⟩
  · -- The window holds the range.
    have hidle : Idle source.waiting src opts on
        { t.1 with window := t.1.window.consume (first.offset - t.1.window.base) } :=
      h.with_window (h.window.consume _)
    exact ⟨hidle, fun haddr _ => satisfies_held h.window.inBuf hfirst haddr hheld hidle rfl⟩
  · cases found with
    | some i =>
      exact (adopt_idle h hfirst hfound).mono (fun _ u hu => ⟨hu.1, fun haddr _ => hu.2 haddr⟩)
        fun _ _ hu => hu
    | none =>
      simp only [Act.spec_bind]
      refine (position_faithful h first.offset).mono (fun retained t' ht' => ?_)
        fun _ _ h => h.elim
      obtain ⟨hidle, -, hbase, hretained⟩ := ht'
      rw [Act.spec_ite]
      refine ⟨fun hyes => ?_, fun _ => ?_⟩
      · -- Its start is in the window, which ends before the range does.
        have hbefore := before_of_retained hsrc.waiting h.toFaithful hfirst hnot hfound
          (hretained hyes)
        refine (readTail_faithful hsrc.waiting hidle first).mono (fun _ u hu => ?_)
          fun _ _ hu => hu
        obtain ⟨hu, hubase, hlen⟩ := hu
        refine ⟨hu, fun haddr husize => ?_⟩
        exact satisfies_range hu (hubase.trans hbase) (hlen haddr hbase hbefore husize).ge
      · exact (fillRound_idle hsrc hidle hfirst hrequests).mono
          (fun _ u hu => ⟨hu.1, fun haddr _ => hu.2 haddr⟩) fun _ _ hu => hu

/-- What was selected is satisfied when it was filled. -/
theorem fill_idle (hsrc : source.Over src) (h : Idle source.waiting src opts on t.1)
    {requests : List InputRequest} (hrequests : ∀ r ∈ requests, IsU64 r) :
    Act.Spec (AsyncCursor.fill mem o source requests : Drive Ω ε SE Unit)
      (fun _ t' => Idle source.waiting src opts on t'.1 ∧
        ∃ request, select requests opts.limits = .ok request ∧ (overflows request = false →
          opts.limits.inputBytes ≤ mem.usizeMax → request.isSatisfiedBy t'.1.offered = true))
      (fun _ t' => Idle source.waiting src opts on t'.1) t := by
  unfold AsyncCursor.fill orInput
  simp only [Act.spec_bind, Act.spec_get, Act.spec_lift]
  refine ⟨fun request hselect => ?_, fun _ _ => h⟩
  have hok : select requests opts.limits = .ok request :=
    h.mode.opts_eq ▸ mapError_eq_ok.mp hselect
  obtain ⟨hmem, hafford⟩ := select_ok hok
  cases request with
  | atLeast offset minLen =>
    refine (fillAtLeast_idle hsrc h offset minLen).mono
      (fun _ u hu => ⟨hu.1, _, hok, fun hover _ => hu.2 ?_⟩) fun _ _ hu => hu
    have haddr : ¬u64Max < offset + max minLen 1 := of_decide_eq_false hover
    omega
  | range first =>
    refine (fillRange_idle hsrc h (hrequests _ hmem) hrequests).mono
      (fun _ u hu => ⟨hu.1, _, hok, fun hover husize => ?_⟩) fun _ _ hu => hu
    have haddr : ¬u64Max < first.offset + first.length := of_decide_eq_false hover
    exact hu.2 (not_lt.mp haddr) ((span_le_of_affords hafford rfl).trans husize)
  | len =>
    exact (serveLen_faithful h.toFaithful).mono (fun _ u hu => ⟨hu.1, _, hok, fun _ _ => hu.2⟩)
      fun _ _ hu => hu

/-! ### Feeding -/

theorem input_start (t : AsyncCursor × Ω) (h : t.1.started = true) :
    (AsyncCursor.start source t).window.input = t.1.window.input := by
  rw [AsyncCursor.start, if_pos h]

theorem started_start (t : AsyncCursor × Ω) : (AsyncCursor.start source t).started = true := by
  unfold AsyncCursor.start
  split
  · next h => exact h
  · rfl

/-- Starting changes what is known of the length only. -/
theorem Idle.start {t : AsyncCursor × Ω} (h : Idle source.waiting src opts on t.1.shared) :
    Idle source.waiting src opts true (AsyncCursor.start source t).shared := by
  have hmode := h.mode
  refine ⟨⟨?_, ?_, fun _ _ hp => (by cases hp), ?_⟩, rfl⟩
  · unfold AsyncCursor.start
    split
    · exact h.window
    · exact h.window.with_total _
  · unfold AsyncCursor.start
    split <;> exact h.fetched
  · refine ⟨?_, started_start t, fun hs => (by cases hs), fun _ _ _ => rfl⟩
    unfold AsyncCursor.start
    split <;> exact hmode.opts_eq

/-- What was filled is stored. -/
theorem Idle.stored {cursor : AsyncCursor} (h : Idle source.waiting src opts on cursor.shared)
    (hc : Idle source.waiting src opts on c) :
    Idle source.waiting src opts on
      (AsyncCursor.shared { cursor with window := c.window, fetched := c.fetched }) :=
  ⟨⟨hc.window, hc.fetched, fun _ _ hp => (by cases hp), h.mode⟩, rfl⟩

/-- An asynchronous cursor feeds its stage. -/
theorem feeds_async (hsrc : source.Over src) (hlimit : opts.limits.inputBytes ≤ mem.usizeMax) :
    Feeds (AsyncCursor.driver mem o source :
        Driver (AsyncCursor × Ω) ε (Halt (DriveFailure ε SE)))
      src (fun t => ∃ on, Idle source.waiting src opts on t.1.shared)
      (fun t => Idle source.waiting src opts true t.1.shared)
      (fun t => (AsyncCursor.start source t).window.input) (fun _ => True) where
  before := fun _ h => ⟨true, h⟩
  shows := by
    rintro t ⟨on, h⟩
    exact h.start.window.shows
  offer := by
    rintro t ⟨on, h⟩
    exact ⟨rfl, h.start, input_start (_, t.2) (started_start t)⟩
  take := by
    intro t n h
    have hstarted : t.1.started = true := h.mode.started_eq
    refine ⟨⟨⟨h.window.consume n, h.fetched, h.inPlay, h.mode⟩, rfl⟩, ?_⟩
    rw [input_start t hstarted]
    exact (input_start ({ t.1 with window := t.1.window.consume n }, t.2) hstarted).trans
      (Window.input_consume h.window.inBuf n)
  serve := by
    intro t i consumed requests h hrequests _ hcheck
    have hstarted : t.1.started = true := h.mode.started_eq
    unfold AsyncCursor.driver
    dsimp only
    rw [Act.spec_focus]
    refine (fill_idle (t := (t.1.shared, t.2)) hsrc h hrequests).mono (fun _ s hs => ⟨?_, ?_⟩)
      fun _ s hs _ => ⟨true, h.stored hs⟩
    · exact h.stored hs.1
    · obtain ⟨hidle, request, hselect, hsat⟩ := hs
      have hmem := (select_ok hselect).1
      refine ⟨request, hmem, .inl ?_⟩
      rw [ReadAtCursor.offered_of_idle hidle.idle] at hsat
      have hinput := @input_start Ω SE source
        ({ t.1 with window := s.1.window, fetched := s.1.fetched }, s.2) hstarted
      exact hinput ▸ hsat (checkNeed_ok hcheck hmem).1 hlimit

/-! ### Retaining -/

variable {limits : IoLimits}

theorem keeps_waiting (minLen target fuel : ℕ) :
    Act.Keeps (AsyncCursor.fillLoop mem o source minLen target fuel : Drive Ω ε SE Unit)
      (Kept mem limits) := by
  induction fuel with
  | zero => exact Act.keeps_pure ()
  | succ fuel ih =>
    intro t h
    unfold AsyncCursor.fillLoop orInput
    simp only [Act.spec_bind, Act.spec_get, Act.spec_ite, Act.spec_pure, Act.spec_lift]
    refine ⟨fun _ => ⟨fun _ _ => ?_, fun _ _ => h⟩, fun _ => h⟩
    refine (spec_roomLeft h).mono (fun room t' hroom => ?_) fun _ t' ht' => ht' ▸ h
    obtain ⟨rfl, hroom⟩ := hroom
    have hread : Act.Spec (readBehind mem _ room _ : Drive Ω ε SE ℕ) _ _ t' :=
      spec_readBehind (min (target - min t'.1.window.len target)
        (min (u64Max - t'.1.window.endOffset) mem.usizeMax))
        (fun out w => source.length_readAt t'.1.window.endOffset out w) h hroom
    unfold readBehind at hread
    rw [Act.spec_bind] at hread
    refine hread.mono (fun _ s hs => hs.mono (fun n s hs => ?_) fun _ _ hs => hs) fun _ _ hs => hs
    obtain ⟨hkept, hstop, out, w, hout, hok⟩ := hs
    have hle := source.le_of_readAt _ out w n hok
    have hcommit := hkept.commit (n := n) (by omega)
    unfold update
    simp only [Act.spec_modify]
    exact ⟨fun _ => ih _ (hcommit.with_total _), fun _ => ih _ hcommit⟩

theorem keeps_fillAtLeast (offset minLen : ℕ) :
    Act.Keeps (AsyncCursor.fillAtLeast mem o source offset minLen : Drive Ω ε SE Unit)
      (Kept mem limits) :=
  (keeps_position offset).bind fun _ => Act.keeps_get.bind fun _ =>
    (keeps_update fun _ h => h.makeRoom _ _).bind fun _ => keeps_waiting _ _ _

theorem keeps_adopt (first : ByteRange) (i : ℕ) :
    Act.Keeps (AsyncCursor.adopt first i : Drive Ω ε SE Unit) (Kept mem limits) := by
  intro t h
  unfold AsyncCursor.adopt update
  simp only [Act.spec_bind, Act.spec_get, Act.spec_getOr, Act.spec_modify]
  exact ⟨fun _ hf => h.adopt hf _, fun _ => h⟩

theorem keeps_fillRound (first : ByteRange) (requests : List InputRequest) :
    Act.Keeps (AsyncCursor.fillRound mem o source first requests : Drive Ω ε SE Unit)
      (Kept mem limits) := by
  intro t h
  unfold AsyncCursor.fillRound onPlan onMemory update
  simp only [Act.spec_bind, Act.spec_get, Act.spec_focus, Act.spec_mapError, Act.spec_modify]
  refine Act.spec_of_run (fun coalesced _ => ?_) (fun _ _ => h)
  have hnone : Retains mem limits { t.1 with window := t.1.window.release, fetched := [] } :=
    h.refill fun _ => Nat.zero_le _
  refine (spec_allocateRanges mem coalesced t.1.opts.limits t.1.fetched _).mono
    (fun pending w hpending => ?_) (fun _ _ _ => hnone)
  refine Host.spec_reserve ?_ hnone
  refine (spec_readBatches source.waiting _ _).mono (fun filled w' hfilled => ?_)
    (fun _ _ _ => hnone)
  have hkept : Retains mem limits
      { t.1 with window := t.1.window.release, fetched := filled } := by
    refine h.refill fun hlt => ?_
    rw [flatten_chunks, List.nil_append] at hfilled
    rw [hfilled, ← h.limits_eq]
    exact hpending.2 (h.limits_eq.symm ▸ hlt)
  simp only [Act.spec_getOr]
  exact ⟨fun _ _ => ⟨fun i _ => keeps_adopt first i (_, w') hkept, fun _ => hkept⟩,
    fun _ => hkept⟩

theorem keeps_fillRange (first : ByteRange) (requests : List InputRequest) :
    Act.Keeps (AsyncCursor.fillRange mem o source first requests : Drive Ω ε SE Unit)
      (Kept mem limits) := by
  unfold AsyncCursor.fillRange
  refine Act.keeps_get.bind fun t => Act.keeps_ite _ (keeps_update fun c h => h.consume _)
    ((Act.keeps_getOr _ _).bind fun found => ?_)
  cases found with
  | some i => exact keeps_adopt first i
  | none =>
    exact (keeps_position _).bind fun _ => Act.keeps_ite _ (keeps_readTail o source.waiting first)
      (keeps_fillRound first requests)

theorem keeps_fill (requests : List InputRequest) :
    Act.Keeps (AsyncCursor.fill mem o source requests : Drive Ω ε SE Unit) (Kept mem limits) := by
  unfold AsyncCursor.fill
  refine Act.keeps_get.bind fun t => (keeps_orInput _).bind fun request => ?_
  cases request with
  | atLeast offset minLen => exact keeps_fillAtLeast offset minLen
  | range first => exact keeps_fillRange first requests
  | len => exact keeps_serveLen source.waiting

/-- `next` keeps what an asynchronous cursor retains within the limit. -/
theorem keeps_async {τ O : Type} (mem : Memory Ω) (o : Overflow) (source : AsyncSource Ω SE)
    (stage : ByteStepper τ ε O) (fuel : ℕ) :
    Act.Keeps ((AsyncCursor.driver mem o source :
        Driver (AsyncCursor × Ω) ε (Halt (DriveFailure ε SE))).next stage fuel)
      (fun t => Retains mem limits t.1.1.shared) := by
  refine keeps_next (AsyncCursor.driver mem o source) stage
    (fun t : AsyncCursor × Ω => Retains mem limits t.1.shared) (fun t h => ?_)
    (fun t n h => h.consume n) (fun requests t h => ?_) fuel
  · show Retains mem limits (AsyncCursor.start source t).shared
    unfold AsyncCursor.start
    split
    · exact h
    · exact ⟨h.limits_eq, ⟨h.inBuf.head_le, h.inBuf.stop_le⟩, h.capacity⟩
  · unfold AsyncCursor.driver
    dsimp only
    rw [Act.spec_focus]
    have hstored : ∀ s : ReadAtCursor × Ω, Kept mem limits s → Retains mem limits
        (AsyncCursor.shared { t.1 with window := s.1.window, fetched := s.1.fetched }) :=
      fun s hs => ⟨h.limits_eq, hs.inBuf, hs.capacity⟩
    exact (keeps_fill requests (t.1.shared, t.2) h).mono (fun _ s hs => hstored s hs)
      fun _ s hs => hstored s hs

end Filled

end Zencodec.Io
