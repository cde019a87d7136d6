/-
What a random-access driver retains.

The window and the fetched buffers share one limit: a read into the window gets what the buffers
leave of it, and a new round of buffers comes when the window is released. `Retains` says that
the two are within the limit, whatever capacity the allocator gave. Every call keeps it, also
one that fails (`keeps_call`), and so does every run (`retained_le_limit`).
-/
import Zencodec.Io.ReadAt
import Zencodec.Lib.Runs

namespace Zencodec.Io

open Incremental (ByteRange Input InputRequest u64Max)

variable {Ω ε SE : Type}

/-- The limit is as given, and all capacity is within it. A limit that no capacity can exceed is
none. -/
structure Retains (mem : Memory Ω) (limits : IoLimits) (c : ReadAtCursor) : Prop where
  limits_eq : c.opts.limits = limits
  inBuf : c.window.InBuf
  capacity : limits.inputBytes < mem.usizeMax →
    c.window.capacity + capacitySum c.fetched ≤ limits.inputBytes

namespace Retains

variable {mem : Memory Ω} {limits : IoLimits} {c : ReadAtCursor}

/-- Another window, which holds no more. -/
theorem with_window (h : Retains mem limits c) {w : Window} (hin : w.InBuf)
    (hcap : limits.inputBytes < mem.usizeMax →
      w.capacity + capacitySum c.fetched ≤ limits.inputBytes) :
    Retains mem limits { c with window := w } :=
  ⟨h.limits_eq, hin, hcap⟩

theorem consume (h : Retains mem limits c) (n : ℕ) :
    Retains mem limits { c with window := c.window.consume n } := by
  refine h.with_window (h.inBuf.consume n) ?_
  rw [Window.capacity, Window.buf_consume]
  exact h.capacity

theorem with_total (h : Retains mem limits c) (total : Option ℕ) :
    Retains mem limits { c with window := { c.window with total := total } } :=
  ⟨h.limits_eq, ⟨h.inBuf.head_le, h.inBuf.stop_le⟩, h.capacity⟩

theorem with_source (h : Retains mem limits c) (source : Option (ℕ × ℕ)) :
    Retains mem limits { c with fromFetched := source } :=
  ⟨h.limits_eq, h.inBuf, h.capacity⟩

theorem makeRoom (h : Retains mem limits c) (target : ℕ) (limits' : IoLimits) :
    Retains mem limits
      { c with fetched := makeRoom mem.usizeMax c.window c.fetched target limits' } := by
  refine ⟨h.limits_eq, h.inBuf, fun hlt => ?_⟩
  have hcap := h.capacity hlt
  unfold Io.makeRoom
  dsimp only
  split
  · exact (Nat.le_add_right _ _).trans hcap
  · exact hcap

/-- A buffer becomes the window, with its capacity. -/
theorem adopt (h : Retains mem limits c) {i : ℕ} {f : Fetched} (hget : c.fetched[i]? = some f)
    (offset : ℕ) : Retains mem limits { c with
      window := (c.window.adopt f.1 f.2).consume (offset - f.1)
      fetched := swapRemove c.fetched i } := by
  refine ⟨h.limits_eq, (Window.inBuf_adopt _ _ _).consume _, fun hlt => ?_⟩
  have hcap := h.capacity hlt
  have hsum : capacitySum c.fetched = f.2.capacity + capacitySum (swapRemove c.fetched i) := by
    rw [capacitySum, ((swapRemove_perm hget).map _).sum_eq, ← capacitySum, capacitySum_cons]
  have hwindow : ((c.window.adopt f.1 f.2).consume (offset - f.1)).capacity = f.2.capacity := by
    rw [Window.capacity, Window.buf_consume]
    rfl
  dsimp only
  omega

/-- The window is given up, and other buffers may have all of the room. -/
theorem refill (h : Retains mem limits c) {fetched : List Fetched}
    (hsum : limits.inputBytes < mem.usizeMax → capacitySum fetched ≤ limits.inputBytes) :
    Retains mem limits { c with window := c.window.release, fetched := fetched } :=
  ⟨h.limits_eq, ⟨le_rfl, le_rfl⟩, fun hlt => (Nat.zero_add _).trans_le (hsum hlt)⟩

/-- Where the window moves, no capacity comes to it but what the buffers had. -/
theorem position (h : Retains mem limits c) (offset : ℕ) :
    Retains mem limits { c with
      window := (c.window.position offset c.fetched).2.1
      fetched := (c.window.position offset c.fetched).2.2 } := by
  rcases c.window.position_cases offset c.fetched with
    ⟨f, i, hget, -, -, heq⟩ | ⟨-, -, heq⟩ | heq
  · rw [heq]
    exact h.adopt hget offset
  · rw [heq]
    exact h.consume _
  · rw [heq]
    exact ⟨h.limits_eq, Window.inBuf_resetTo _ _, h.capacity⟩

end Retains

section Keeps

variable {mem : Memory Ω} {limits : IoLimits}

/-- The invariant of a drive. -/
def Kept (mem : Memory Ω) (limits : IoLimits) (t : ReadAtCursor × Ω) : Prop :=
  Retains mem limits t.1

variable {α : Type}

theorem keeps_update {f : ReadAtCursor → ReadAtCursor}
    (hf : ∀ c, Retains mem limits c → Retains mem limits (f c)) :
    Act.Keeps (update f : Drive Ω ε SE Unit) (Kept mem limits) :=
  Act.keeps_modify fun t h => hf t.1 h

theorem keeps_orInput (r : Except InputError α) :
    Act.Keeps (orInput r : Drive Ω ε SE α) (Kept mem limits) :=
  Act.keeps_lift _

theorem keeps_position (offset : ℕ) :
    Act.Keeps (ReadAtCursor.position offset : Drive Ω ε SE Bool) (Kept mem limits) := by
  intro t h
  unfold ReadAtCursor.position update
  simp only [Act.spec_bind, Act.spec_get, Act.spec_modify, Act.spec_pure]
  exact h.position offset

/-- The buffers leave room for the window. -/
theorem spec_roomLeft {o : Overflow} {t : ReadAtCursor × Ω} (h : Kept mem limits t) :
    Act.Spec (ReadAtCursor.roomLeft mem o : Drive Ω ε SE ℕ)
      (fun room t' => t' = t ∧ (limits.inputBytes < mem.usizeMax →
        room = limits.inputBytes - capacitySum t.1.fetched))
      (fun _ t' => t' = t) t := by
  unfold ReadAtCursor.roomLeft
  simp only [Act.spec_bind, Act.spec_get, Act.spec_getOr]
  refine ⟨fun room hroom => ⟨trivial, fun hlt => ?_⟩, fun _ => trivial⟩
  have hcap := h.capacity hlt
  have hsum : fetchedCapacity mem.usizeMax t.1.fetched = capacitySum t.1.fetched := by
    rw [fetchedCapacity_eq]
    exact min_eq_left (by omega)
  rw [h.limits_eq, hsum, o.sub_of_le (by omega)] at hroom
  exact (Option.some_inj.mp hroom).symm

/-- Reading behind the held bytes. -/
def readBehind (mem : Memory Ω) (want limit : ℕ)
    (read : List UInt8 → Ω → (Except SE α × List UInt8) × Ω) : Drive Ω ε SE α := do
  onWindow (Window.trySpare mem want limit)
  readInto read want

theorem spec_readBehind (want : ℕ) {limit : ℕ}
    {read : List UInt8 → Ω → (Except SE α × List UInt8) × Ω}
    (hread : ∀ out w, (read out w).1.2.length = out.length) {t : ReadAtCursor × Ω}
    (h : Kept mem limits t) (hlimit : limits.inputBytes < mem.usizeMax →
      limit = limits.inputBytes - capacitySum t.1.fetched) :
    Act.Spec (readBehind mem want limit read : Drive Ω ε SE α)
      (fun a t' => Kept mem limits t' ∧
        t'.1.window.stop + want ≤ t'.1.window.buf.data.length ∧
        ∃ out w, out.length = want ∧ (read out w).1.1 = .ok a)
      (fun _ t' => Kept mem limits t') t := by
  unfold readBehind onWindow readInto
  simp only [Act.spec_bind, Act.spec_focus, Act.spec_mapError]
  -- The limit of the window is what the buffers leave of the whole limit.
  have hbound : ∀ {w : Window}, (t.1.window.capacity ≤ limit → w.capacity ≤ limit) →
      limits.inputBytes < mem.usizeMax →
        w.capacity + capacitySum t.1.fetched ≤ limits.inputBytes := by
    intro w hw hlt
    have hcap := h.capacity hlt
    have hle := hw (by rw [hlimit hlt]; omega)
    rw [hlimit hlt] at hle
    omega
  refine (Window.spec_trySpare h.inBuf).mono (fun _ s hs => ?_) (fun _ s hs =>
    h.with_window hs.inBuf (hbound hs.capacity))
  have hlen : (s.1.spare want).length = want := Window.length_spare hs.room
  have hout : (read (s.1.spare want) s.2).1.2.length = want := (hread _ _).trans hlen
  have hroom : s.1.stop + (read (s.1.spare want) s.2).1.2.length ≤ s.1.buf.data.length :=
    hout.symm ▸ hs.room
  have hkept : Kept mem limits ({ t.1 with
      window := s.1.fill (read (s.1.spare want) s.2).1.2 }, (read (s.1.spare want) s.2).2) := by
    refine h.with_window (hs.inBuf.fill hroom) fun hlt => ?_
    rw [Window.capacity, Window.capacity_fill hroom]
    exact hbound hs.capacity hlt
  refine Act.spec_of_run (fun a ha => ⟨hkept, ?_, s.1.spare want, s.2, hlen, ?_⟩)
    (fun _ _ => hkept)
  · exact (Window.length_fill hroom).symm ▸ hs.room
  · unfold Act.foreign at ha
    dsimp only at ha
    cases hr : (read (s.1.spare want) s.2).1.1 with
    | ok b =>
      rw [hr] at ha
      exact congrArg Except.ok (Except.ok.inj ha)
    | error e =>
      rw [hr] at ha
      cases ha

theorem Retains.commit {c : ReadAtCursor} (h : Retains mem limits c) {n : ℕ}
    (hn : c.window.stop + n ≤ c.window.buf.data.length) :
    Retains mem limits { c with window := c.window.commit n } :=
  h.with_window ⟨h.inBuf.head_le.trans (Nat.le_add_right _ _), hn⟩ h.capacity

theorem keeps_fillLoop (o : Overflow) (source : ReadAt Ω SE) (target fuel : ℕ) :
    Act.Keeps (ReadAtCursor.fillLoop mem o source target fuel : Drive Ω ε SE Unit)
      (Kept mem limits) := by
  induction fuel with
  | zero => exact Act.keeps_pure ()
  | succ fuel ih =>
    intro t h
    unfold ReadAtCursor.fillLoop
    simp only [Act.spec_bind, Act.spec_get, Act.spec_ite, Act.spec_pure]
    refine ⟨fun _ => ?_, fun _ => h⟩
    refine (spec_roomLeft h).mono (fun room t' hroom => ?_) (fun _ t' ht' => ht' ▸ h)
    obtain ⟨rfl, hroom⟩ := hroom
    -- The two steps of a read behind the held bytes.
    have hread : Act.Spec (readBehind mem _ room _ : Drive Ω ε SE ℕ) _ _ t' :=
      spec_readBehind (min (target - t'.1.window.len)
        (min (u64Max - t'.1.window.endOffset) mem.usizeMax))
        (fun out w => source.length_readAt t'.1.window.endOffset out w) h hroom
    unfold readBehind at hread
    rw [Act.spec_bind] at hread
    refine hread.mono (fun _ s hs => hs.mono (fun n s hs => ?_) (fun _ _ hs => hs))
      (fun _ _ hs => hs)
    obtain ⟨hkept, hstop, out, w, hout, hok⟩ := hs
    have hle := source.le_of_readAt _ out w n hok
    have hcommit := hkept.commit (n := n) (by omega)
    unfold update
    simp only [Act.spec_modify]
    exact ⟨fun _ => ih _ (hcommit.with_total _), fun _ => ih _ hcommit⟩

theorem keeps_serveAtLeast (o : Overflow) (source : ReadAt Ω SE) (offset minLen : ℕ) :
    Act.Keeps (ReadAtCursor.serveAtLeast mem o source offset minLen : Drive Ω ε SE Unit)
      (Kept mem limits) := by
  unfold ReadAtCursor.serveAtLeast
  refine (keeps_update fun c h => h.with_source none).bind fun _ =>
    (keeps_position offset).bind fun _ => Act.keeps_get.bind fun t => ?_
  refine Act.keeps_ite _ (Act.keeps_pure ()) ?_
  exact (keeps_orInput _).bind fun _ => (keeps_update fun c h => h.makeRoom _ _).bind fun _ =>
    keeps_fillLoop o source _ _

theorem keeps_readTail (o : Overflow) (source : ReadAt Ω SE) (first : ByteRange) :
    Act.Keeps (ReadAtCursor.readTail mem o source first : Drive Ω ε SE Unit)
      (Kept mem limits) := by
  unfold ReadAtCursor.readTail
  refine Act.keeps_get.bind fun t => (Act.keeps_getOr _ _).bind fun missing =>
    (keeps_orInput _).bind fun _ => (keeps_update fun c h => h.makeRoom _ _).bind fun _ => ?_
  intro t h
  rw [Act.spec_bind]
  refine (spec_roomLeft h).mono (fun room t' hroom => ?_) (fun _ t' ht' => ht' ▸ h)
  obtain ⟨rfl, hroom⟩ := hroom
  have hread : Act.Spec (readBehind mem _ room _ : Drive Ω ε SE Unit) _ _ t' :=
    spec_readBehind (missing % (mem.usizeMax + 1))
      (fun out w => source.length_readExactAt t.1.window.endOffset out w) h hroom
  unfold readBehind at hread
  rw [Act.spec_bind] at hread ⊢
  refine hread.mono (fun _ s hs => ?_) (fun _ _ hs => hs)
  rw [Act.spec_bind]
  exact hs.mono (fun _ s hs => hs.1.commit hs.2.1) (fun _ _ hs => hs)

theorem flatten_chunks {β : Type} (n : ℕ) (acc l : List β) :
    (ReadAtCursor.chunks n acc l).flatten = acc ++ l := by
  induction l generalizing acc with
  | nil =>
    unfold ReadAtCursor.chunks
    cases acc <;> simp
  | cons a l ih =>
    unfold ReadAtCursor.chunks
    split
    · rw [List.flatten_cons, ih]
      rfl
    · rw [ih, List.append_assoc]
      rfl

/-- A filled buffer keeps its capacity. -/
theorem capacitySum_filled {batch : List Fetched} {filled : List (List UInt8)}
    (h : filled.map List.length = batch.map fun f => f.2.data.length) :
    capacitySum ((batch.zip filled).map fun p => (p.1.1, p.1.2.replace p.2)) =
      capacitySum batch := by
  induction batch generalizing filled with
  | nil => rfl
  | cons f batch ih =>
    cases filled with
    | nil => cases h
    | cons data filled =>
      obtain ⟨hlen, htail⟩ := List.cons.inj h
      rw [List.zip_cons_cons, List.map_cons, capacitySum_cons, ih htail, capacitySum_cons,
        Buf.capacity_replace (hlen.trans_le f.2.fits)]

theorem spec_readBatches (source : ReadAt Ω SE) (batches : List (List Fetched)) (w : Ω) :
    Act.Spec (ReadAtCursor.readBatches source batches)
      (fun out _ => capacitySum out = capacitySum batches.flatten) (fun _ _ => True) w := by
  induction batches generalizing w with
  | nil => exact rfl
  | cons batch rest ih =>
    unfold ReadAtCursor.readBatches
    rw [Act.spec_bind]
    refine Act.spec_of_run (fun filled hfilled => ?_) (fun _ _ => trivial)
    have hsum : capacitySum filled = capacitySum batch := by
      unfold Act.foreign at hfilled
      dsimp only at hfilled
      have hlen := source.length_readManyAt (batch.map fun f => (f.1, f.2.data)) w
      rw [List.map_map] at hlen
      cases hr : (source.readManyAt (batch.map fun f => (f.1, f.2.data)) w).1.1 with
      | ok u =>
        rw [hr] at hfilled
        cases hfilled
        exact capacitySum_filled hlen
      | error e =>
        rw [hr] at hfilled
        cases hfilled
    rw [Act.spec_bind]
    refine (ih _).mono (fun others _ hothers => ?_) (fun _ _ _ => trivial)
    show capacitySum (filled ++ others) = _
    rw [capacitySum, List.map_append, List.sum_append, ← capacitySum, ← capacitySum, hsum,
      hothers, List.flatten_cons, capacitySum, capacitySum, capacitySum, List.map_append,
      List.sum_append]

theorem keeps_fetchRound (o : Overflow) (source : ReadAt Ω SE) (first : ByteRange)
    (requests : List InputRequest) :
    Act.Keeps (ReadAtCursor.fetchRound mem o source first requests : Drive Ω ε SE Unit)
      (Kept mem limits) := by
  intro t h
  unfold ReadAtCursor.fetchRound onPlan onMemory update
  simp only [Act.spec_bind, Act.spec_get, Act.spec_focus, Act.spec_mapError, Act.spec_modify]
  refine Act.spec_of_run (fun coalesced _ => ?_) (fun _ _ => h)
  -- The window and the buffers are given up: everything is room.
  have hnone : Retains mem limits { t.1 with window := t.1.window.release, fetched := [] } :=
    h.refill fun _ => Nat.zero_le _
  refine (spec_allocateRanges mem coalesced t.1.opts.limits t.1.fetched _).mono
    (fun pending w hpending => ?_) (fun _ _ _ => hnone)
  refine Host.spec_reserve ?_ hnone
  refine (spec_readBatches source _ _).mono (fun filled w' hfilled => ?_) (fun _ _ _ => hnone)
  have hkept : Retains mem limits
      { t.1 with window := t.1.window.release, fetched := filled } := by
    refine h.refill fun hlt => ?_
    rw [flatten_chunks, List.nil_append] at hfilled
    rw [hfilled, ← h.limits_eq]
    exact hpending.2 (h.limits_eq.symm ▸ hlt)
  simp only [Act.spec_getOr]
  exact ⟨fun _ _ => ⟨fun _ _ => ⟨fun _ _ => ⟨hkept.limits_eq, hkept.inBuf, hkept.capacity⟩,
    fun _ => hkept⟩, fun _ => hkept⟩, fun _ => hkept⟩

theorem keeps_serveRange (o : Overflow) (source : ReadAt Ω SE) (first : ByteRange)
    (requests : List InputRequest) :
    Act.Keeps (ReadAtCursor.serveRange mem o source first requests : Drive Ω ε SE Unit)
      (Kept mem limits) := by
  unfold ReadAtCursor.serveRange
  refine Act.keeps_get.bind fun t => ?_
  refine Act.keeps_ite _ (keeps_update fun c h => ?_) ((Act.keeps_getOr _ _).bind fun found => ?_)
  · exact (h.consume _).with_source none
  · cases found with
    | some i =>
      exact (Act.keeps_getOr _ _).bind fun f => keeps_update fun c h => h.with_source _
    | none =>
      refine (keeps_update fun c h => h.with_source none).bind fun _ =>
        (keeps_position _).bind fun retained => ?_
      exact Act.keeps_ite _ (keeps_readTail o source first)
        (keeps_fetchRound o source first requests)

theorem keeps_serveLen (source : ReadAt Ω SE) :
    Act.Keeps (ReadAtCursor.serveLen source : Drive Ω ε SE Unit) (Kept mem limits) := by
  unfold ReadAtCursor.serveLen
  refine (keeps_update fun c h => h.with_source none).bind fun _ =>
    Act.keeps_get.bind fun t => ?_
  refine Act.keeps_ite _ ((keeps_orInput _).bind fun _ => ?_) (Act.keeps_pure ())
  have hlen : Act.Keeps (Act.foreign fun t : ReadAtCursor × Ω =>
      ((source.len t.2).1.mapError fun e => Halt.error (DriveFailure.source (ε := ε) e),
        (t.1, (source.len t.2).2))) (Kept mem limits) :=
    fun t h => Act.spec_of_run (fun _ _ => h) (fun _ _ => h)
  exact hlen.bind fun total => keeps_update fun c h => h.with_total _

theorem keeps_serve (o : Overflow) (source : ReadAt Ω SE) (requests : List InputRequest) :
    Act.Keeps (ReadAtCursor.serve mem o source requests : Drive Ω ε SE Unit)
      (Kept mem limits) := by
  unfold ReadAtCursor.serve
  refine Act.keeps_get.bind fun t => (keeps_orInput _).bind fun request => ?_
  cases request with
  | atLeast offset minLen => exact keeps_serveAtLeast o source offset minLen
  | range first => exact keeps_serveRange o source first requests
  | len => exact keeps_serveLen source

theorem keeps_offer (source : ReadAt Ω SE) :
    Act.Keeps (ReadAtCursor.offer source : Drive Ω ε SE Input) (Kept mem limits) := by
  have hstart : Act.Keeps (ReadAtCursor.start source : Drive Ω ε SE Unit) (Kept mem limits) := by
    unfold ReadAtCursor.start
    refine Act.keeps_get.bind fun t => ?_
    refine Act.keeps_ite _ (Act.keeps_pure ()) (Act.keeps_ite _ ?_ ?_)
    · exact keeps_update fun c h => ⟨h.limits_eq, h.inBuf, h.capacity⟩
    · refine keeps_update fun c h => ?_
      exact ⟨h.limits_eq, ⟨h.inBuf.head_le, h.inBuf.stop_le⟩, h.capacity⟩
  unfold ReadAtCursor.offer
  refine hstart.bind fun _ => Act.keeps_get.bind fun t => ?_
  cases t.1.slice with
  | some cursor =>
    refine (Act.keeps_getOr _ _).bind fun bytes => (keeps_update fun c h => ?_).bind fun _ =>
      Act.keeps_pure _
    exact ⟨h.limits_eq, h.inBuf, h.capacity⟩
  | none =>
    cases t.1.fromFetched with
    | some p =>
      exact (Act.keeps_getOr _ _).bind fun f => (Act.keeps_require _ _).bind fun _ =>
        Act.keeps_pure _
    | none => exact Act.keeps_pure _

theorem retains_take {c : ReadAtCursor} (h : Retains mem limits c) (consumed : ℕ) :
    Retains mem limits (c.take mem consumed) := by
  unfold ReadAtCursor.take
  split
  · exact ⟨h.limits_eq, h.inBuf, h.capacity⟩
  · split
    · exact h.with_source _
    · exact h.consume consumed

/-- Every call keeps what is retained within the limit. -/
theorem keeps_call (o : Overflow) (source : ReadAt Ω SE) (call : ReadAtCursor.Call) :
    Act.Keeps (ReadAtCursor.call mem o source call : Drive Ω ε SE Unit) (Kept mem limits) := by
  cases call with
  | offer => exact (keeps_offer source).bind fun _ => Act.keeps_pure ()
  | take consumed => exact keeps_update fun c h => retains_take h consumed
  | serve requests => exact keeps_serve o source requests

end Keeps

/-! ### Runs -/

variable (ε) in
/-- One call, with its result. -/
def callStep (mem : Memory Ω) (o : Overflow) (source : ReadAt Ω SE) (t : ReadAtCursor × Ω)
    (call : ReadAtCursor.Call) :
    Except (Halt (DriveFailure ε SE)) Unit × (ReadAtCursor × Ω) :=
  ReadAtCursor.call mem o source call t

theorem retains_new (mem : Memory Ω) (opts : DriveOptions) :
    Retains mem opts.limits (ReadAtCursor.new opts) :=
  ⟨rfl, Window.inBuf_new, fun _ => Nat.zero_le _⟩

theorem retains_run (mem : Memory Ω) (o : Overflow) (source : ReadAt Ω SE) (opts : DriveOptions)
    (w : Ω) (calls : List ReadAtCursor.Call) :
    Retains mem opts.limits
      (Runs.final (callStep ε mem o source) (.new opts, w) calls).1 := by
  have hstep : Runs.Preserved (callStep ε mem o source) (fun _ => True)
      (Kept mem opts.limits) :=
    fun t call _ h => (keeps_call o source call t h).state
  exact Runs.final_of_preserved hstep (fun _ _ => trivial) (retains_new mem opts)

/-- What is counted as retained is within the limit, also where the limit is all there is. -/
theorem Retains.retained_le {mem : Memory Ω} {limits : IoLimits} {c : ReadAtCursor}
    (h : Retains mem limits c) (hlimit : limits.inputBytes ≤ mem.usizeMax) :
    c.retainedInputCapacity mem.usizeMax ≤ limits.inputBytes := by
  unfold ReadAtCursor.retainedInputCapacity
  rcases lt_or_eq_of_le hlimit with hlt | heq
  · have hcap := h.capacity hlt
    have hle : min (capacitySum c.fetched) mem.usizeMax ≤ capacitySum c.fetched := min_le_left _ _
    rw [fetchedCapacity_eq]
    omega
  · exact (min_le_right _ _).trans heq.ge

/-- **Retained input stays within the limit.** After any calls, whether they succeeded or
failed, whatever the source answered and whatever capacity the allocator gave. -/
theorem retained_le_limit (mem : Memory Ω) (o : Overflow) (source : ReadAt Ω SE)
    (opts : DriveOptions) (hlimit : opts.limits.inputBytes ≤ mem.usizeMax) (w : Ω)
    (calls : List ReadAtCursor.Call) :
    let c := (Runs.final (callStep ε mem o source) (.new opts, w) calls).1
    c.retainedInputCapacity mem.usizeMax ≤ opts.limits.inputBytes ∧
      (opts.limits.inputBytes < mem.usizeMax →
        c.window.capacity + capacitySum c.fetched ≤ opts.limits.inputBytes) := by
  have h := retains_run (ε := ε) mem o source opts w calls
  exact ⟨h.retained_le hlimit, h.capacity⟩

/-- Four bytes a read, and sixteen retained. -/
def smallOptions : DriveOptions := ⟨4, 4, ⟨16, 2, 1, by decide⟩⟩

/-- A sequential read of twelve bytes, and then two ranges of them that are close. -/
def smallRun : ReadAtCursor × Unit :=
  Runs.final (callStep Unit plainMemory .panics
      (streamSource [1, 2, 3, 4, 5, 6, 7, 8, 9, 10, 11, 12])) (.new smallOptions, ())
    [.offer, .serve [.atLeast 0 2], .take 2, .serve [.range ⟨6, 2⟩, .range ⟨9, 3⟩]]

theorem retained_le_limit_smallRun :
    smallRun.1.retainedInputCapacity u64Max ≤ 16 ∧
      smallRun.1.window.capacity + capacitySum smallRun.1.fetched ≤ 16 ∧
      smallRun.1.retainedInputCapacity u64Max = 6 := by
  have h := retained_le_limit (ε := Unit) plainMemory .panics
    (streamSource [1, 2, 3, 4, 5, 6, 7, 8, 9, 10, 11, 12]) smallOptions (by decide) ()
    [.offer, .serve [.atLeast 0 2], .take 2, .serve [.range ⟨6, 2⟩, .range ⟨9, 3⟩]]
  exact ⟨h.1, h.2 (by decide), by decide⟩

end Zencodec.Io
